import Minbif.Irc.RoundTrip
import Minbif.World.Pictured
import Minbif.World.Privmsg

/-! Which texts of a client reach the conversation of a buddy. -/
namespace Minbif
open Function Tokens

namespace Convs

theorem link_queue (V : Convs) (kind : NickKind) (n : NickRef) (v : ConvRef) :
    (V.link kind n v).queue = V.queue := by
  unfold link release setConversation unpair
  repeat' split
  all_goals rfl

theorem unlink_queue (V : Convs) (v : ConvRef) : (V.unlink v).queue = V.queue := by
  unfold unlink release
  split <;> rfl

end Convs

namespace World

variable {P : Purple} {X : Texts} {enabled : Bool} {w w' : World} {n : NickRef} {v : ConvRef}
  {m : Message} {text : Str}

/-- `check_conv` and `enqueueMessage`, once, and what the client is told after it. -/
def Speaks (P : Purple) (w : World) (n : NickRef) (text : Str) (w' : World) : Prop :=
  ∃ w₁, w.buddySend P n text = some w₁ ∧ ∃ replies : List Message, w' = replies.foldl tellUser w₁

/-- What the client writes to the buddy is enqueued once, and for nobody else: by the name of the
buddy, and by that of a status channel it is on. -/
structure Unswallowed (P : Purple) (X : Texts) (enabled : Bool) (w : World) (n : NickRef) (text : Str) :
    Prop where
  direct : ∀ m names rest target, m.args = names :: text :: rest → ' ' ∉ names →
    tokens [','].contains names = [target] → w.receiver target = some (.nick n) →
    ∃ r, w.mPrivmsg P X enabled m = some (.ok (), r) ∧ w.Speaks P n text r.w
  channel : ∀ m names rest target c,
    m.args = names :: (w.nicks.nickname n ++ str ": " ++ text) :: rest →
    tokens [','].contains names = [target] → w.receiver target = some (.channel c) →
    w.chans.conv c = none → n ∈ w.chans.members c →
    ∃ r, w.mPrivmsg P X enabled m = some (.ok (), r) ∧ w.Speaks P n text r.w

section Once

/-- How much has been said by a nick that its conversation has, or will get. -/
def said (w : World) (n : NickRef) : Nat :=
  (w.convs.queue n).length + w.convs.replies.length

theorem dismiss_queue (hw : w.Ok none) (hk : w.nicks.kind n = .buddy) (v : ConvRef) :
    (w.dismiss v).convs.queue n = w.convs.queue n := by
  unfold dismiss
  cases hu : w.convs.uiNick v with
  | none => exact congrFun (Convs.unlink_queue _ _) n
  | some l =>
    dsimp only
    split
    · next hl =>
      obtain ⟨ha, hconv⟩ := hw.uiNick_ok hu
      have hne : n ≠ l := by
        rintro rfl
        rw [hk] at hl
        cases hl
      rw [removeNick_convs, hw.removeNick_found ha hconv]
      change update (w.convs.unlink v).queue l [] n = _
      rw [update_of_ne hne, Convs.unlink_queue]
    · exact congrFun (Convs.unlink_queue _ _) n

theorem pairUp_said (hw : w.Ok none) (hk : w.nicks.kind n = .buddy)
    (hne : w.convs.conversation n ≠ some v) : (w.pairUp n v).said n = w.said n := by
  have hqueue : ((w.dismiss v).convs.link ((w.dismiss v).nicks.kind n) n v).queue n =
      w.convs.queue n := by
    rw [Convs.link_queue, dismiss_queue hw hk]
  have hreplies : ((w.dismiss v).convs.link ((w.dismiss v).nicks.kind n) n v).replies =
      w.convs.replies := by
    rw [(Convs.sameIm_link _ _ _ _).logs.2, (dismissed hw v).sameIm.logs.2]
  rw [pairUp_eq hw hne]
  unfold said
  rw [hqueue, hreplies]

theorem checkConv_said (hw : w.Ok none) (hk : w.nicks.kind n = .buddy) (a : AccountRef) (name : Str) :
    (w.checkConv n a name).said n = w.said n := by
  unfold checkConv
  split
  · rfl
  · next hnone =>
    let T : Terms := ⟨False, False, False, fun _ => False, fun _ => False, False, False⟩
    obtain ⟨hstep, -, -, -, hc⟩ := imConversation_spec (P := noPurple) (T := T) w a name
    have hne : (w.convs.imConversation a name).2.conversation n ≠
        some (w.convs.imConversation a name).1 := by
      rw [hc]
      intro h
      rw [h] at hnone
      exact hnone rfl
    have hold : ({ w with convs := (w.convs.imConversation a name).2 } : World).said n = w.said n := by
      unfold said Convs.imConversation
      split <;> rfl
    exact (pairUp_said (hstep.ok hw) hk hne).trans hold

theorem enqueueMessage_said (h : w.enqueueMessage n text = some w') : w'.said n = w.said n + 1 := by
  unfold enqueueMessage at h
  split at h
  · obtain ⟨v, -, rfl⟩ := Option.map_eq_some_iff.mp h
    simp [said]
    omega
  · obtain rfl := Option.some.inj h
    simp [said]
    omega

theorem buddySend_said (hw : w.Ok none) (hk : w.nicks.kind n = .buddy)
    (h : w.buddySend P n text = some w') : w'.said n = w.said n + 1 := by
  rw [enqueueMessage_said h, checkConv_said hw hk]

theorem foldl_tellUser_said (l : List Message) (w : World) : (l.foldl tellUser w).said n = w.said n := by
  induction l generalizing w with
  | nil => rfl
  | cons m l ih => exact ih _

/-- A text that is swallowed leaves no trace. -/
theorem not_speaks (hw : w.Ok none) (hk : w.nicks.kind n = .buddy) (replies : List Message) :
    ¬ w.Speaks P n text (replies.foldl tellUser w) := by
  rintro ⟨w₁, hsend, replies', heq⟩
  have hsaid : World.said _ n = World.said _ n := congrArg (fun w => World.said w n) heq
  rw [foldl_tellUser_said, foldl_tellUser_said, buddySend_said hw hk hsend] at hsaid
  omega

end Once

section Names

theorem isChanName_nick {nick : Str} (h : ProperNick nick) : isChanName nick = false := by
  obtain ⟨c, s, rfl⟩ := List.exists_cons_of_ne_nil h.ne_nil
  have hc := h.chars c (by simp)
  have hand : c ≠ '&' := by rintro rfl; cases hc
  have hhash : c ≠ '#' := by rintro rfl; cases hc
  simp [isChanName, hand, hhash]

theorem receiver_nickname (hw : w.Ok none) (hnamed : w.nicks.Named) (hn : w.nicks.alive n = true)
    (hk : (w.nicks.kind n).isConvNick = true) :
    w.receiver (w.nicks.nickname n) = some (.nick n) := by
  rw [receiver, isChanName_nick (hnamed n hn hk)]
  simp [hw.table.getNick_nickname hn hk]

/-- A name before a colon and a space can be told from any other one. -/
theorem prefix_unique {a b r : Str} (ha : ' ' ∉ a) (hb : ' ' ∉ b)
    (h : (a ++ str ": ").isPrefixOf (b ++ str ": " ++ r) = true) : a = b := by
  obtain ⟨r', hr'⟩ := List.isPrefixOf_iff_prefix.mp h
  have hcut : ∀ x r : Str, ' ' ∉ x → (x ++ str ": " ++ r).takeWhile (· ≠ ' ') = x ++ [':'] := by
    intro x r hx
    have hchars : ∀ c ∈ x ++ [':'], decide (c ≠ ' ') = true := by
      intro c hc
      rw [decide_eq_true_eq]
      rintro rfl
      simp [hx] at hc
    have hsplit : x ++ str ": " ++ r = (x ++ [':']) ++ ' ' :: r := by simp [str]
    rw [hsplit, List.takeWhile_append_of_pos hchars, List.takeWhile_cons_of_neg (by simp),
      List.append_nil]
  have heq := congrArg (List.takeWhile (· ≠ ' ')) hr'
  rw [hcut a r' ha, hcut b r hb] at heq
  exact List.append_cancel_right heq

/-- What is left after the name that the text is written to. -/
theorem stringtok_named {nick : Str} (h : ProperNick nick) (text : Str) :
    (stringtok (nick ++ str ": " ++ text) [' ']).2 = text := by
  have hsplit : nick ++ str ": " ++ text = (nick ++ [':']) ++ ' ' :: text := by simp [str]
  have hword : ' ' ∉ nick ++ [':'] := by simp [h.not_mem (c := ' ') (by decide)]
  rw [hsplit, Message.stringtok_word (by simp) hword (by simp), List.tail_cons]

end Names

section Hand

variable {c : ChanRef}

theorem processDccGet_plain (h : parseDCCSEND text = none) : processDccGet enabled text = !enabled := by
  simp [processDccGet, h]

theorem hand_direct (hk : w.nicks.kind n = .buddy) (hparse : parseDCCSEND text = none) :
    w.hand P enabled (.nick n) (w.firstRelay m (.nick n) text) =
      if enabled then w.buddySend P n text else some w := by
  unfold hand nickSend
  simp only [firstRelay, List.headD_cons, hk, processDccGet_plain hparse]
  cases enabled <;> rfl

theorem members_nodup (hw : w.Ok none) (c : ChanRef) : (w.chans.members c).Nodup := by
  refine List.Nodup.map_on (fun cu hcu cu' hcu' he => ?_) (hw.member.nodupUsers c)
  obtain ⟨hc, hmem⟩ := hw.member.bwd c cu hcu
  obtain ⟨hc', hmem'⟩ := hw.member.bwd c cu' hcu'
  exact hw.member.one _ cu hmem cu' (he ▸ hmem') (hc.trans hc'.symm)

theorem members_present (hw : w.Ok none) (hn : n ∈ w.chans.members c) : w.nicks.Present n := by
  obtain ⟨cu, hcu, rfl⟩ := List.mem_map.mp hn
  exact hw.placed.ne_nil hw.member hcu

theorem hand_channel (hw : w.Ok none) (hnamed : w.nicks.Named) (hk : w.nicks.kind n = .buddy)
    (hparse : parseDCCSEND text = none) (hc : w.chans.conv c = none) (hn : n ∈ w.chans.members c) :
    w.hand P enabled (.channel c)
        (w.firstRelay m (.channel c) (w.nicks.nickname n ++ str ": " ++ text)) =
      if enabled then w.buddySend P n text else some w := by
  have hpres := members_present hw hn
  have hconv : (w.nicks.kind n).isConvNick = true := by rw [hk]; rfl
  have hproper := hnamed n hpres.1 hconv
  unfold hand
  simp only [firstRelay, List.headD_cons, hc, Option.isSome_none, Bool.false_eq_true, if_false,
    stringtok_named hproper, processDccGet_plain hparse]
  cases enabled with
  | false =>
    refine Runs.foldlM_idle (J := fun _ => True) (fun w' _ b _ => ?_) trivial
    split
    · rfl
    · exact if_neg fun h => h.2.2 rfl
  | true =>
    obtain ⟨w', hsend⟩ := buddySend_some (P := P) w n text
    rw [if_pos rfl, hsend]
    refine Runs.foldlM_only (J := SameNames w) (members_nodup hw c) hn ?_ ⟨rfl, rfl⟩ ?_
      (buddySend_names hsend)
    · intro w₁ hsame b hb hne
      split
      · rfl
      · refine if_neg fun h => hne ?_
        have hbp := members_present hw hb
        rw [hsame.1, hsame.2] at h
        have hbk : (w.nicks.kind b).isConvNick = true := by rw [h.1]; rfl
        have hb' := hnamed b hbp.1 hbk
        exact hw.table.nickname_inj hbp hpres
          (prefix_unique (hb'.not_mem (by decide)) (hproper.not_mem (by decide)) h.2.1)
    · rw [if_neg (Nicks.userRef_ne hw.table hconv), channelSend, if_pos, stringtok_named hproper, hsend]
      refine ⟨hk, ?_, by simp⟩
      exact List.isPrefixOf_iff_prefix.mpr ⟨text, by simp⟩

end Hand

/-- One target, and a nick or a status channel that enqueues the text unless transfers are
disabled. -/
theorem speaks_iff (hw : w.Ok none) (hk : w.nicks.kind n = .buddy) {names target said : Str}
    {rest : List Str} {dest : Receiver} (hargs : m.args = names :: said :: rest)
    (htargets : tokens [','].contains names = [target]) (hdest : w.receiver target = some dest)
    (hname : ∀ n, dest = .nick n → ' ' ∉ w.nicks.nickname n)
    (hhand : w.hand P enabled dest (w.firstRelay m dest said) =
      if enabled then w.buddySend P n text else some w) :
    (∃ r, w.mPrivmsg P X enabled m = some (.ok (), r) ∧ w.Speaks P n text r.w) ↔
      enabled = true := by
  cases enabled with
  | false =>
    obtain ⟨replies, hgo⟩ := mPrivmsg_one (X := X) hargs htargets hdest hhand hname
    refine iff_of_false ?_ nofun
    rintro ⟨r, hr, hspeaks⟩
    rw [hgo] at hr
    obtain ⟨-, rfl⟩ := Prod.mk.inj (Option.some.inj hr)
    exact not_speaks hw hk replies hspeaks
  | true =>
    obtain ⟨w₁, hsend⟩ := buddySend_some (P := P) w n text
    rw [if_pos rfl, hsend] at hhand
    obtain ⟨replies, hgo⟩ := mPrivmsg_one (X := X) hargs htargets hdest hhand hname
    exact iff_of_true ⟨_, hgo, w₁, hsend, replies, rfl⟩ rfl

/-- A text that is no DCC request reaches the conversation exactly if file transfers are
enabled. -/
theorem unswallowed_iff (P : Purple) (X : Texts) (enabled : Bool) (ops : List Op) (n : NickRef)
    (text : Str) (hn : (initial.runAll P ops).nicks.alive n = true)
    (hk : (initial.runAll P ops).nicks.kind n = .buddy) (hparse : parseDCCSEND text = none) :
    (initial.runAll P ops).Unswallowed P X enabled n text ↔ enabled = true := by
  have hw := runAll_ok P ops
  have hnamed := runAll_named P ops
  generalize initial.runAll P ops = w at *
  have hconv : (w.nicks.kind n).isConvNick = true := by rw [hk]; rfl
  have hproper := hnamed n hn hconv
  have hspace : ' ' ∉ w.nicks.nickname n := hproper.not_mem (by decide)
  have hself : ∀ n', Receiver.nick n = .nick n' → ' ' ∉ w.nicks.nickname n' := by
    rintro n' ⟨⟩
    exact hspace
  constructor
  · intro h
    have htargets : tokens [','].contains (w.nicks.nickname n) = [w.nicks.nickname n] := by
      refine tokens_run (fun c hc => ?_) hproper.ne_nil
      have hcomma : c ≠ ',' := by
        rintro rfl
        exact hproper.not_mem (by decide) hc
      simpa using hcomma
    have hdest := receiver_nickname hw hnamed hn hconv
    exact (speaks_iff hw hk rfl htargets hdest hself (hand_direct hk hparse)).mp
      (h.direct { cmd := str "PRIVMSG", args := [w.nicks.nickname n, text] } _ [] _ rfl hspace
        htargets hdest)
  · intro henabled
    refine ⟨?_, ?_⟩
    · intro m names rest target hargs hnames htargets hdest
      exact (speaks_iff hw hk hargs htargets hdest hself (hand_direct hk hparse)).mpr henabled
    · intro m names rest target c hargs htargets hdest hc hmem
      exact (speaks_iff hw hk hargs htargets hdest nofun
        (hand_channel hw hnamed hk hparse hc hmem)).mpr henabled

/-- Bob is on the status channel, as the fourth nick. -/
def bobOnStatus : List Op :=
  [.nick (str "alice"), .data bobData, .startUp [0], .welcome, .connected 0, .updateNode 0]

theorem unswallowed_bob :
    (initial.runAll bobPurple bobOnStatus).Unswallowed bobPurple {} true 3 (str "hi bob") :=
  (unswallowed_iff bobPurple {} true bobOnStatus 3 (str "hi bob") (by decide) (by decide)
    (by decide)).mpr rfl

/-- With file transfers disabled, `PRIVMSG bob :hi` goes nowhere. -/
theorem swallowed_bob : ¬ ∀ (P : Purple) (X : Texts) (enabled : Bool) (ops : List Op) (n : NickRef)
    (text : Str), (initial.runAll P ops).nicks.alive n = true →
    (initial.runAll P ops).nicks.kind n = .buddy → parseDCCSEND text = none →
    (initial.runAll P ops).Unswallowed P X enabled n text := by
  intro h
  obtain ⟨r, hr, w₁, hsend, replies, heq⟩ := (h bobPurple {} false bobOnStatus 3 (str "hi")
    (by decide) (by decide) (by decide)).direct
      { cmd := str "PRIVMSG", args := [str "bob", str "hi"] } (str "bob") [] (str "bob") rfl
      (by decide) (by decide) rfl
  have hnone : ((initial.runAll bobPurple bobOnStatus).mPrivmsg bobPurple {} false
      { cmd := str "PRIVMSG", args := [str "bob", str "hi"] }).map (fun o => o.2.w.said 3) =
        some 0 := by decide
  have hone : ((initial.runAll bobPurple bobOnStatus).buddySend bobPurple 3 (str "hi")).map
      (fun w => w.said 3) = some 1 := by decide
  rw [hr, Option.map_some, heq, foldl_tellUser_said] at hnone
  rw [hsend, Option.map_some, hnone] at hone
  cases hone

end World
end Minbif
