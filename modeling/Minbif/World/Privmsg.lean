import Minbif.Irc.FileNames
import Minbif.Lib.Runs
import Minbif.World.Names
import Minbif.World.Sound
import Minbif.World.Texts

/-! What `IRC::m_privmsg` does with the text of a client. -/
namespace Minbif
open Function Tokens

/-- What a target of a message is found to be. -/
inductive Receiver
  | channel (c : ChanRef)
  | nick (n : NickRef)

/-- `Channel::isChanName`. -/
def isChanName (name : Str) : Bool :=
  !name.contains ' ' && (name.head? == some '&' || name.head? == some '#')

namespace World

def receiver (w : World) (target : Str) : Option Receiver :=
  if isChanName target then (w.chans.getChannel target).map .channel
  else (w.nicks.getNick target).map .nick

def receiverEntity (w : World) : Receiver → StoredEntity
  | .channel c => w.chans.chanEntity c
  | .nick n => w.nicks.entity n

/-- What `Buddy::process_dcc_get` returns: the text has been dealt with. -/
def processDccGet (enabled : Bool) (text : Str) : Bool := !enabled || (parseDCCSEND text).isSome

/-- The state of the loop, and the calls of `broadcast` and `send` so far. -/
structure Relay where
  w : World
  relayed : Message
  handed : List (Receiver × Message) := []

variable (P : Purple) (X : Texts) (enabled : Bool)

/-- `c->broadcast(relayed, user)` of a status channel, or `n->send(relayed)`; the queue of a chat is
no part of the world. -/
def hand (w : World) (dest : Receiver) (relayed : Message) : Option World :=
  let text := relayed.args.headD []
  match dest with
  | .channel c =>
    if (w.chans.conv c).isSome then some w
    else (w.chans.members c).foldlM (fun w n =>
      if n = userRef then some w
      else w.channelSend P n text (processDccGet enabled (stringtok text [' ']).2)) w
  | .nick n =>
    if w.nicks.kind n = .user then some (w.tellUser relayed)
    else w.nickSend P n text (processDccGet enabled text)

/-- A numeric reply, which may turn out not to be one. -/
def Relay.tell (r : Relay) (cmd : Str) (args : List Str) : Except Exn Unit × Relay :=
  match Message.addArgs (r.w.reply cmd []) args with
  | .error e => (.error e, r)
  | .ok m => (.ok (), { r with w := r.w.tellUser m })

/-- The `RPL_AWAY` that follows a message to a nick. -/
def Relay.tellAway (r : Relay) : Receiver → Except Exn Unit × Relay
  | .channel _ => (.ok (), r)
  | .nick n =>
    if r.w.isAway X n then r.tell (str "301") [r.w.nicks.nickname n, r.w.getAwayMessage X n]
    else (.ok (), r)

/-- The loop over the targets; `none` is an assertion of a conversation that fails. -/
def privmsgLoop (m : Message) : List Str → Relay → Option (Except Exn Unit × Relay)
  | [], r => some (.ok (), r)
  | target :: targets, r =>
    match m.getArg 1 >>= ({ r.relayed with sender := r.w.nicks.entity userRef }).addArg with
    | .error e => some (.error e, r)
    | .ok relayed =>
      match r.w.receiver target with
      | none =>
        let r := { r with relayed := relayed }
        some (if isChanName target then r.tell (str "403") [target, str "No suck channel"]
          else r.tell (str "401") [target, str "No suck nick"])
      | some dest =>
        let relayed := { relayed with receiver := r.w.receiverEntity dest }
        (r.w.hand P enabled dest relayed).bind fun w =>
          match Relay.tellAway X ⟨w, relayed, r.handed ++ [(dest, relayed)]⟩ dest with
          | (.error e, r) => some (.error e, r)
          | (.ok (), r) => privmsgLoop m targets r

def mPrivmsg (w : World) (m : Message) : Option (Except Exn Unit × Relay) :=
  match m.getArg 0 with
  | .error e => some (.error e, ⟨w, { cmd := m.cmd }, []⟩)
  | .ok targets =>
    privmsgLoop P X enabled m (stringtokLoop [','] (targets.length + 1) targets)
      ⟨w, { cmd := m.cmd }, []⟩

/-- Each target is handed the text once, in order, in a message of its own. -/
def HandsEach (w : World) (m : Message) (targets : List Str) (text : Str) : Prop :=
  ∃ r, w.mPrivmsg P X enabled m = some (.ok (), r) ∧
    List.Forall₂ (fun target h => w.receiver target = some h.1 ∧ h.2.cmd = m.cmd ∧
      h.2.receiver = w.receiverEntity h.1 ∧ h.2.args = [text]) targets r.handed

variable {P X enabled} {w w' : World} {n : NickRef} {c : ChanRef} {m : Message} {text t : Str}

section Total

theorem enqueueMessage_some (h : (w.convs.conversation n).isSome = true) (text : Str) :
    ∃ w', w.enqueueMessage n text = some w' := by
  unfold enqueueMessage
  split
  · obtain ⟨v, hv⟩ := Option.isSome_iff_exists.mp h
    exact ⟨_, by rw [hv, Option.map_some]⟩
  · exact ⟨_, rfl⟩

theorem checkConv_conversation (w : World) (n : NickRef) (a : AccountRef) (name : Str) :
    ((w.checkConv n a name).convs.conversation n).isSome = true := by
  unfold checkConv
  split
  · next h => exact h
  · dsimp only
    rw [pairUp_conversation]
    rfl

theorem buddySend_some (w : World) (n : NickRef) (text : Str) :
    ∃ w', w.buddySend P n text = some w' := enqueueMessage_some (checkConv_conversation ..) text

theorem nickSend_some (w : World) (n : NickRef) (text : Str) (dcc : Bool) :
    ∃ w', w.nickSend P n text dcc = some w' := by
  unfold nickSend
  cases w.nicks.kind n with
  | user | requestNick | buddyIcon => exact ⟨_, rfl⟩
  | buddy =>
    dsimp only
    split
    · exact ⟨_, rfl⟩
    · exact buddySend_some w n text
  | chatBuddy => exact enqueueMessage_some (checkConv_conversation ..) text
  | unknownBuddy =>
    dsimp only
    split
    · next h => exact enqueueMessage_some h text
    · exact ⟨_, rfl⟩

theorem channelSend_some (w : World) (n : NickRef) (text : Str) (dcc : Bool) :
    ∃ w', w.channelSend P n text dcc = some w' := by
  unfold channelSend
  split
  · exact buddySend_some w n _
  · exact ⟨_, rfl⟩

/-- No assertion fails, whoever the text is for. -/
theorem hand_some (w : World) (dest : Receiver) (relayed : Message) :
    ∃ w', w.hand P enabled dest relayed = some w' := by
  unfold hand
  cases dest with
  | channel c =>
    dsimp only
    split
    · exact ⟨w, rfl⟩
    · refine Runs.foldlM_some (fun w n => ?_) w _
      split
      · exact ⟨w, rfl⟩
      · exact channelSend_some w n _ _
  | nick n =>
    dsimp only
    split
    · exact ⟨_, rfl⟩
    · exact nickSend_some w n _ _

end Total

section Loop

variable {r r' : Relay} {targets : List Str} {names target : Str} {rest : List Str}
  {e : Except Exn Unit} {dest : Receiver}

theorem tell_kept (r : Relay) (cmd : Str) (args : List Str) :
    (r.tell cmd args).2.relayed = r.relayed ∧ (r.tell cmd args).2.handed = r.handed := by
  unfold Relay.tell
  split
  · exact ⟨rfl, rfl⟩
  · exact ⟨rfl, rfl⟩

theorem tellAway_kept (r : Relay) (dest : Receiver) :
    (r.tellAway X dest).2.relayed = r.relayed ∧ (r.tellAway X dest).2.handed = r.handed := by
  unfold Relay.tellAway
  split
  · exact ⟨rfl, rfl⟩
  · split
    · exact tell_kept r _ _
    · exact ⟨rfl, rfl⟩

/-- The message that went to one target is what the next one's text is added to. -/
theorem privmsgLoop_handed (h : privmsgLoop P X enabled m targets r = some (e, r'))
    (hne : r.relayed.args ≠ []) :
    ∃ l, r'.handed = r.handed ++ l ∧ ∀ x ∈ l, 2 ≤ x.2.args.length := by
  induction targets generalizing r with
  | nil =>
    obtain ⟨-, rfl⟩ := Prod.mk.inj (Option.some.inj h)
    exact ⟨[], by simp, by simp⟩
  | cons target targets ih =>
    rw [privmsgLoop] at h
    split at h
    · obtain ⟨-, rfl⟩ := Prod.mk.inj (Option.some.inj h)
      exact ⟨[], by simp, by simp⟩
    · next relayed hadd =>
      have hlen : 2 ≤ relayed.args.length := by
        cases hget : m.getArg 1 with
        | error e =>
          rw [hget] at hadd
          cases hadd
        | ok s =>
          rw [hget] at hadd
          have hadd : ({ r.relayed with sender := r.w.nicks.entity userRef }).addArg s =
            .ok relayed := hadd
          have hargs := Message.addArg_args hadd
          have := List.length_pos_iff.mpr hne
          rw [hargs]
          simp only [List.length_append, List.length_singleton]
          omega
      split at h
      · have hkept : ∀ o : Except Exn Unit × Relay, o.2.handed = r.handed → some o = some (e, r') →
            r'.handed = r.handed := by
          rintro o ho ⟨⟩
          exact ho
        refine ⟨[], ?_, by simp⟩
        rw [List.append_nil]
        refine hkept _ ?_ h
        split
        · exact (tell_kept _ _ _).2
        · exact (tell_kept _ _ _).2
      · next dest hdest =>
        obtain ⟨w', hhand, h⟩ := Option.bind_eq_some_iff.mp h
        have hkept := tellAway_kept (X := X) ⟨w', { relayed with receiver := r.w.receiverEntity dest },
          r.handed ++ [(dest, { relayed with receiver := r.w.receiverEntity dest })]⟩ dest
        split at h
        · next e' r₁ htell =>
          rw [htell] at hkept
          obtain ⟨-, rfl⟩ := Prod.mk.inj (Option.some.inj h)
          exact ⟨_, hkept.2, by simpa using hlen⟩
        · next r₁ htell =>
          rw [htell] at hkept
          have hsome : r₁.relayed.args ≠ [] := by
            rw [hkept.1]
            exact List.ne_nil_of_length_pos (Nat.lt_of_lt_of_le Nat.zero_lt_two hlen)
          obtain ⟨l, hl, hall⟩ := ih h hsome
          refine ⟨_ :: l, by rw [hl, hkept.2, List.append_assoc, List.singleton_append], ?_⟩
          exact List.forall_mem_cons.mpr ⟨hlen, hall⟩

/-- The message that goes to the first target. -/
def firstRelay (w : World) (m : Message) (dest : Receiver) (text : Str) : Message where
  cmd := m.cmd
  sender := w.nicks.entity userRef
  receiver := w.receiverEntity dest
  args := [text]

/-- The loop after its first round. -/
theorem mPrivmsg_cons (hargs : m.args = names :: text :: rest)
    (htargets : tokens [','].contains names = target :: targets)
    (hdest : w.receiver target = some dest)
    (hhand : w.hand P enabled dest (w.firstRelay m dest text) = some w') :
    w.mPrivmsg P X enabled m =
      match Relay.tellAway X ⟨w', w.firstRelay m dest text, [(dest, w.firstRelay m dest text)]⟩ dest with
      | (.error e, r) => some (.error e, r)
      | (.ok (), r) => privmsgLoop P X enabled m targets r := by
  have hnames : m.getArg 0 = .ok names := by rw [Message.getArg, hargs]; rfl
  have htext : m.getArg 1 = .ok text := by rw [Message.getArg, hargs]; rfl
  rw [mPrivmsg, hnames]
  dsimp only
  rw [stringtokLoop_eq (Nat.lt_succ_self _), htargets, privmsgLoop, htext]
  change (match w.receiver target with
    | none => _
    | some dest => _) = _
  rw [hdest]
  change (w.hand P enabled dest (w.firstRelay m dest text)).bind _ = _
  rw [hhand, Option.bind_some]
  rfl

theorem toLower_eq_space {c : Char} : c.toLower = ' ' ↔ c = ' ' := by
  refine ⟨fun h => ?_, ?_⟩
  · unfold Char.toLower at h
    split at h
    · next hupper =>
      have hval : c.val + ('a'.val - 'A'.val) = ' '.val := congrArg Char.val h
      have hn := congrArg UInt32.toNat hval
      have h1 : 'A'.val.toNat ≤ c.val.toNat := hupper.1
      have h2 : c.val.toNat ≤ 'Z'.val.toNat := hupper.2
      have hA : 'A'.val.toNat = 65 := rfl
      have hZ : 'Z'.val.toNat = 90 := rfl
      have hs : ' '.val.toNat = 32 := rfl
      have hd : ('a'.val - 'A'.val).toNat = 32 := rfl
      rw [UInt32.toNat_add, hd, hs] at hn
      omega
    · exact h
  · rintro rfl
    rfl

theorem strlower_space (s : Str) : ' ' ∈ strlower s ↔ ' ' ∈ s := by
  simp [strlower, toLower_eq_space]

end Loop

section Names

/-- The nicks that are there keep their names. -/
def SameNames (w w' : World) : Prop :=
  w'.nicks.nickname = w.nicks.nickname ∧ w'.nicks.kind = w.nicks.kind

theorem SameNames.trans {w'' : World} (h : SameNames w w') (h' : SameNames w' w'') :
    SameNames w w'' := ⟨h'.1.trans h.1, h'.2.trans h.2⟩

theorem removeNick_names (w : World) (k : Str) : SameNames w (w.removeNick k) := by
  unfold removeNick
  split <;> exact ⟨rfl, rfl⟩

theorem pairUp_names (w : World) (n : NickRef) (v : ConvRef) : SameNames w (w.pairUp n v) := by
  have hset : SameNames w (w.setNick v (some n)) := by
    unfold setNick
    dsimp only
    split
    · exact ⟨rfl, rfl⟩
    · split
      · exact ⟨rfl, rfl⟩
      · split
        · exact removeNick_names _ _
        · exact ⟨rfl, rfl⟩
  exact hset

theorem checkConv_names (w : World) (n : NickRef) (a : AccountRef) (name : Str) :
    SameNames w (w.checkConv n a name) := by
  unfold checkConv
  split
  · exact ⟨rfl, rfl⟩
  · exact pairUp_names _ _ _

theorem enqueueMessage_names (h : w.enqueueMessage n text = some w') : SameNames w w' := by
  unfold enqueueMessage at h
  split at h
  · obtain ⟨v, -, rfl⟩ := Option.map_eq_some_iff.mp h
    exact ⟨rfl, rfl⟩
  · obtain rfl := Option.some.inj h
    exact ⟨rfl, rfl⟩

theorem buddySend_names (h : w.buddySend P n text = some w') : SameNames w w' :=
  (checkConv_names w n _ _).trans (enqueueMessage_names h)

theorem tellUser_names (w : World) (m : Message) : SameNames w (w.tellUser m) := ⟨rfl, rfl⟩

theorem hand_names (h : w.hand P enabled (.nick n) m = some w') : SameNames w w' := by
  unfold hand nickSend at h
  dsimp only at h
  split at h
  · exact Option.some.inj h ▸ tellUser_names w m
  · split at h
    · exact Option.some.inj h ▸ tellUser_names w _
    · split at h
      · exact Option.some.inj h ▸ ⟨rfl, rfl⟩
      · exact buddySend_names h
    · exact (checkConv_names w n _ _).trans (enqueueMessage_names h)
    · split at h
      · exact enqueueMessage_names h
      · exact Option.some.inj h ▸ ⟨rfl, rfl⟩
    · exact Option.some.inj h ▸ ⟨rfl, rfl⟩
    · exact Option.some.inj h ▸ ⟨rfl, rfl⟩

end Names

section Targets

variable {dest : Receiver} {names target : Str} {rest : List Str} {r : Relay}

theorem tell_ok (r : Relay) (cmd : Str) {a b : Str} (ha : ' ' ∉ a) :
    ∃ reply, r.tell cmd [a, b] = (.ok (), { r with w := r.w.tellUser reply }) := by
  have hmiddle : Message.Middle ((r.w.reply cmd []).args ++ [a, b]) := by
    change Message.Middle [a, b]
    rw [Message.middle_cons_cons]
    exact ⟨by simpa [Message.hasSpace] using ha, Message.middle_singleton⟩
  refine ⟨r.w.reply cmd [a, b], ?_⟩
  rw [Relay.tell, Message.addArgs_eq Message.middle_nil, if_pos hmiddle]
  rfl

/-- The answer that the nick is away changes nothing but what the client has seen. -/
theorem tellAway_ok (r : Relay) (hname : ∀ n, dest = .nick n → ' ' ∉ r.w.nicks.nickname n) :
    ∃ replies : List Message, r.tellAway X dest = (.ok (), { r with w := replies.foldl tellUser r.w }) := by
  cases dest with
  | channel c => exact ⟨[], rfl⟩
  | nick n =>
    unfold Relay.tellAway
    dsimp only
    split
    · obtain ⟨reply, hreply⟩ := tell_ok r (str "301") (b := r.w.getAwayMessage X n) (hname n rfl)
      exact ⟨[reply], hreply⟩
    · exact ⟨[], rfl⟩

/-- A message for one target. -/
theorem mPrivmsg_one (hargs : m.args = names :: text :: rest)
    (htargets : tokens [','].contains names = [target]) (hdest : w.receiver target = some dest)
    (hhand : w.hand P enabled dest (w.firstRelay m dest text) = some w')
    (hname : ∀ n, dest = .nick n → ' ' ∉ w.nicks.nickname n) :
    ∃ replies : List Message, w.mPrivmsg P X enabled m = some (.ok (),
      ⟨replies.foldl tellUser w', w.firstRelay m dest text,
        [(dest, w.firstRelay m dest text)]⟩) := by
  have hname' : ∀ n, dest = .nick n → ' ' ∉ w'.nicks.nickname n := by
    rintro n rfl
    rw [(hand_names hhand).1]
    exact hname n rfl
  obtain ⟨replies, htell⟩ := tellAway_ok (X := X)
    ⟨w', w.firstRelay m dest text, [(dest, w.firstRelay m dest text)]⟩ hname'
  refine ⟨replies, ?_⟩
  rw [mPrivmsg_cons hargs htargets hdest hhand, htell]
  rfl

/-- A nick that was found has a space in its name only if the target has one. -/
theorem Ok.receiver_space (hw : w.Ok none) (hspace : ' ' ∉ target)
    (h : w.receiver target = some (.nick n)) : ' ' ∉ w.nicks.nickname n := by
  have hget : w.nicks.getNick target = some n := by
    unfold receiver at h
    split at h
    · obtain ⟨c, -, hc⟩ := Option.map_eq_some_iff.mp h
      cases hc
    · obtain ⟨m, hm, hmn⟩ := Option.map_eq_some_iff.mp h
      cases hmn
      exact hm
  obtain ⟨k, hmem, hk⟩ := Nicks.getNick_eq_some hget
  rw [hw.table.key k n hmem, ← strlower_space, hk, strlower_space]
  exact hspace

end Targets

/-- The text reaches each target as it should exactly if there is no second target. -/
theorem privmsg_hands_iff (P : Purple) (X : Texts) (enabled : Bool) (ops : List Op) (m : Message)
    (names text : Str) (rest : List Str) (hargs : m.args = names :: text :: rest)
    (hmiddle : Message.Middle m.args)
    (hexist : ∀ target ∈ tokens [','].contains names,
      ((initial.runAll P ops).receiver target).isSome = true) :
    HandsEach P X enabled (initial.runAll P ops) m (tokens [','].contains names) text ↔
      (tokens [','].contains names).length ≤ 1 := by
  have hw := runAll_ok P ops
  generalize initial.runAll P ops = w at *
  have hspace : ' ' ∉ names := by
    rw [hargs, Message.middle_cons_cons] at hmiddle
    simpa [Message.hasSpace] using hmiddle.1
  cases htargets : tokens [','].contains names with
  | nil =>
    refine iff_of_true ?_ (Nat.zero_le 1)
    have hnames : m.getArg 0 = .ok names := by rw [Message.getArg, hargs]; rfl
    refine ⟨⟨w, { cmd := m.cmd }, []⟩, ?_, .nil⟩
    rw [mPrivmsg, hnames]
    dsimp only
    rw [stringtokLoop_eq (Nat.lt_succ_self _), htargets, privmsgLoop]
  | cons target targets =>
    have htarget : ' ' ∉ target := fun hc =>
      hspace (tokens_chars (p := [','].contains) (by rw [htargets]; simp) ' ' hc).1
    obtain ⟨dest, hdest⟩ := Option.isSome_iff_exists.mp (hexist target (by rw [htargets]; simp))
    obtain ⟨w', hhand⟩ : ∃ w', w.hand P enabled dest (w.firstRelay m dest text) = some w' :=
      hand_some w dest (w.firstRelay m dest text)
    have hname : ∀ n, dest = .nick n → ' ' ∉ w.nicks.nickname n := by
      rintro n rfl
      exact hw.receiver_space htarget hdest
    cases targets with
    | nil =>
      refine iff_of_true ?_ (Nat.le_refl 1)
      obtain ⟨replies, hgo⟩ := mPrivmsg_one (X := X) hargs htargets hdest hhand hname
      exact ⟨_, hgo, .cons ⟨hdest, rfl, rfl, rfl⟩ .nil⟩
    | cons second targets =>
      refine iff_of_false ?_ (by simp)
      rintro ⟨r, hgo, hall⟩
      have hname' : ∀ n, dest = .nick n → ' ' ∉ w'.nicks.nickname n := by
        rintro n rfl
        rw [(hand_names hhand).1]
        exact hname n rfl
      obtain ⟨replies, htell⟩ := tellAway_ok (X := X)
        ⟨w', w.firstRelay m dest text, [(dest, w.firstRelay m dest text)]⟩ hname'
      rw [mPrivmsg_cons hargs htargets hdest hhand, htell] at hgo
      obtain ⟨l, hl, hlong⟩ := privmsgLoop_handed hgo (by simp [firstRelay])
      rw [hl] at hall
      -- the second target's message still holds the first one's text
      obtain _ | ⟨-, hall⟩ := hall
      obtain _ | ⟨⟨-, -, -, hone⟩, -⟩ := hall
      have htwo := hlong _ (List.mem_cons_self ..)
      rw [hone] at htwo
      simp at htwo

/-- A session with no account. -/
def aliceAlone : List Op := [.nick (str "alice"), .startUp [], .welcome]

def privmsgTo (names : Str) : Message := { cmd := str "PRIVMSG", args := [names, str "hello world"] }

theorem privmsg_hands_one : HandsEach noPurple {} true (initial.runAll noPurple aliceAlone)
    (privmsgTo (str "alice")) (tokens [','].contains (str "alice")) (str "hello world") :=
  (privmsg_hands_iff noPurple {} true aliceAlone (privmsgTo (str "alice")) (str "alice")
    (str "hello world") [] rfl (by decide) (by decide)).mpr (by decide)

/-- `PRIVMSG alice,request :hello world` is never answered. -/
theorem privmsg_two_targets : ¬ ∀ (P : Purple) (X : Texts) (enabled : Bool) (ops : List Op)
    (m : Message) (names text : Str) (rest : List Str), m.args = names :: text :: rest →
    Message.Middle m.args →
    (∀ target ∈ tokens [','].contains names,
      ((initial.runAll P ops).receiver target).isSome = true) →
    HandsEach P X enabled (initial.runAll P ops) m (tokens [','].contains names) text := by
  intro h
  obtain ⟨r, hr, -⟩ := h noPurple {} true aliceAlone (privmsgTo (str "alice,request"))
    (str "alice,request") (str "hello world") [] rfl (by decide) (by decide)
  have hthrown : ((initial.runAll noPurple aliceAlone).mPrivmsg noPurple {} true
      (privmsgTo (str "alice,request"))).map (fun o => o.1.isOk) = some false := by decide
  rw [hr] at hthrown
  cases hthrown

end World
end Minbif
