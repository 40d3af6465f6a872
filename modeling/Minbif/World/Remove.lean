import Mathlib.Data.List.Nodup
import Minbif.World.Preserve

/-! Departures, from one member of a channel to a whole server, as chains of changes. -/
namespace Minbif
open Function
namespace World

variable {P : Purple} {T : Terms} {w w' w'' : World} {d : Option ChanRef} {n : NickRef} {c : ChanRef}
  {v : ConvRef} {cu : ChanUserRef} {k : Str} {m : Message}

/-- From one event boundary to another. -/
def Goes (P : Purple) (T : Terms) (w w' : World) : Prop := Changes P T (w, none) (w', none)

theorem Goes.refl (w : World) : Goes P T w w := Relation.ReflTransGen.refl

theorem Goes.trans (h : Goes P T w w') (h' : Goes P T w' w'') : Goes P T w w'' :=
  Relation.ReflTransGen.trans h h'

theorem Goes.ok (h : Goes P T w w') (hw : w.Ok none) : w'.Ok none := Changes.ok h hw

theorem Change.goes (h : Change P T (w, none) (w', none)) : Goes P T w w' :=
  Relation.ReflTransGen.single h

/-- A loop each round of which is a chain of changes, and keeps what the rounds after it need. -/
theorem Goes.foldl {α : Type} {I : World → Prop} {f : World → α → World} {l : List α}
    (hf : ∀ w a, a ∈ l → w.Ok none → I w → Goes P T w (f w a) ∧ I (f w a))
    (hw : w.Ok none) (hI : I w) : Goes P T w (l.foldl f w) ∧ I (l.foldl f w) := by
  induction l generalizing w with
  | nil => exact ⟨.refl w, hI⟩
  | cons a l ih =>
    obtain ⟨hstep, hI'⟩ := hf w a List.mem_cons_self hw hI
    have hrest := ih (fun w b hb => hf w b (List.mem_cons_of_mem a hb)) (hstep.ok hw) hI'
    exact ⟨hstep.trans hrest.1, hrest.2⟩

section Nick

theorem removeNick_eq (h : w.nicks.users.find? k = some n) : w.removeNick k =
    { (w.purgeDccs n).deleteNick n with
      nicks := w.nicks.dropped k n (w.nicks.serverUsersWithout n) } := by
  unfold removeNick
  rw [h]
  rfl

/-- The loop over the transfers leaves none with the nick. -/
theorem mem_purgeDccs {x : Dcc} (hx : x ∈ (w.purgeDccs n).dccs) :
    x.peer ≠ some n ∧ ∀ m, x.peer = some m → ∃ y ∈ w.dccs, y.peer = some m := by
  obtain ⟨y, hy, rfl⟩ := List.mem_map.mp hx
  split
  · exact ⟨nofun, nofun⟩
  · next hne => exact ⟨hne, fun m hm => ⟨y, (List.mem_filter.mp hy).1, hm⟩⟩

theorem removeNick_changes (hmem : (k, n) ∈ w.nicks.users.entries)
    (hn : (w.nicks.kind n).isConvNick = true) : Changes P T (w, d) (w.removeNick k, d) := by
  rw [removeNick_eq (OrdMap.find?_eq_some.mpr hmem)]
  have hpurge : Change P T (w, d) (w.purgeDccs n, d) :=
    Change.dccs w d _ fun x hx m hm => .inl ((mem_purgeDccs hx).2 m hm)
  exact (Relation.ReflTransGen.single hpurge).tail
    (Change.drop (w.purgeDccs n) d k n _ hmem hn (.inl rfl) fun _ x hx => (mem_purgeDccs hx).1)

/-- `IRC::removeNick(n->getNickname())` of a nick that the table holds. -/
theorem Ok.removeNick (hw : w.Ok d) (ha : w.nicks.alive n = true)
    (hn : (w.nicks.kind n).isConvNick = true) :
    Changes P T (w, d) (w.removeNick (w.nicks.nickname n), d) :=
  removeNick_changes (hw.table.conv n ha hn) hn

/-- No nick of the server is left, and its table and the channels are as they were. -/
structure Deserted (w w' : World) (s : ServerRef) : Prop where
  none : ∀ n, w'.nicks.alive n = true → w'.nicks.server n ≠ s
  servers : w'.nicks.servers = w.nicks.servers
  chans : w'.chans.alive = w.chans.alive
  upserver : w'.chans.upserver = w.chans.upserver

/-- A nick of another server than the IRC one is in the table. -/
theorem Ok.mem_server {s : ServerRef} (hw : w.Ok d) (hs : s ≠ ircRef)
    (ha : w.nicks.alive n = true) (hn : w.nicks.server n = s) :
    (w.nicks.kind n).isConvNick = true ∧ (w.nicks.nickname n, n) ∈ w.nicks.users.entries := by
  have hk : (w.nicks.kind n).isConvNick = true := by
    by_contra hk
    rw [Bool.not_eq_true] at hk
    exact hs (hn.symm.trans (hw.table.home n ha hk))
  exact ⟨hk, hw.table.conv n ha hk⟩

theorem removeServerNicks_goes {s : ServerRef} (hs : s ≠ ircRef) (hgone : T.gone s) (fuel : Nat)
    (hfuel : w.nicks.users.entries.length ≤ fuel) (hw : w.Ok none)
    (hpeer : T.clean → ∀ x ∈ w.dccs, ∀ n, x.peer = some n → w.nicks.server n ≠ s) :
    Goes P T w (removeServerNicks s fuel w) ∧ Deserted w (removeServerNicks s fuel w) s := by
  have hdone : (w.nicks.users.entries.find? fun e => w.nicks.server e.2 = s) = none →
      Deserted w w s := by
    intro hnone
    refine ⟨fun n ha hn => ?_, rfl, rfl, rfl⟩
    have hmem := (hw.mem_server hs ha hn).2
    simpa [hn] using List.find?_eq_none.mp hnone _ hmem
  induction fuel generalizing w with
  | zero =>
    have hnil := List.length_eq_zero_iff.mp (Nat.le_zero.mp hfuel)
    exact ⟨.refl w, hdone (by rw [hnil]; rfl)⟩
  | succ fuel ih =>
    unfold removeServerNicks
    split
    · next hnone => exact ⟨.refl w, hdone hnone⟩
    · next e he =>
      have hmem := List.mem_of_find?_eq_some he
      have hserver : w.nicks.server e.2 = s := by simpa using List.find?_some he
      have hn := (hw.mem_server hs (hw.table.live _ _ hmem) hserver).1
      let w₁ : World := { w.deleteNick e.2 with
        nicks := w.nicks.dropped e.1 e.2 w.nicks.serverUsers }
      have hdrop : Goes P T w w₁ := by
        refine (Change.drop w none e.1 e.2 _ hmem hn (.inr ⟨rfl, hserver ▸ hgone⟩) ?_).goes
        intro hc x hx hxn
        exact hpeer hc x hx e.2 hxn hserver
      have hw₁ := hdrop.ok hw
      have hlt : w₁.nicks.users.entries.length < w.nicks.users.entries.length :=
        List.length_filter_lt_length_iff_exists.mpr ⟨e, hmem, by simp⟩
      have hlive : w₁.chans.alive = w.chans.alive :=
        Chans.quit_alive (N := w.nicks) hw.member e.2 _
      have hup : w₁.chans.upserver = w.chans.upserver :=
        (Chans.unlinked_quit (N := w.nicks) hw.member e.2 _).upserver
      have hrest := ih (by omega) hw₁ hpeer ?_
      · refine ⟨hdrop.trans hrest.1, hrest.2.none, hrest.2.servers, ?_, ?_⟩
        · exact hrest.2.chans.trans hlive
        · exact hrest.2.upserver.trans hup
      · intro hnone
        refine ⟨fun n ha hn => ?_, rfl, rfl, rfl⟩
        have hmem := (hw₁.mem_server hs ha hn).2
        simpa [hn] using List.find?_eq_none.mp hnone _ hmem

/-- No chat was made with the server, and no transfer is with one of its nicks. -/
def Unused (w : World) (s : ServerRef) : Prop :=
  (∀ c, w.chans.alive c = true → w.chans.upserver c ≠ some s) ∧
    ∀ x ∈ w.dccs, ∀ n, x.peer = some n → w.nicks.server n ≠ s

theorem removeServer_goes (hw : w.Ok none) (name : Str)
    (hT : ∀ s, w.nicks.servers.find? name = some s → T.gone s ∧ (T.clean → w.Unused s)) :
    Goes P T w (w.removeServer name) := by
  unfold removeServer
  split
  · exact .refl w
  · next s hs =>
    obtain ⟨hgone, hclean⟩ := hT s hs
    have hmem := OrdMap.find?_eq_some.mp hs
    obtain ⟨hgo, hd⟩ := removeServerNicks_goes (P := P) (hw.table.remote name s hmem) hgone _ le_rfl
      hw fun hc => (hclean hc).2
    refine hgo.trans (Change.dropServer _ name s (hd.servers ▸ hmem) hd.none ?_).goes
    intro hc c
    rw [hd.chans, hd.upserver]
    exact (hclean hc).1 c

end Nick

section Channel

/-- What stays of the channels while a chat lets its participants go. -/
structure Holds (w w' : World) : Prop where
  alive : w'.chans.alive = w.chans.alive
  name : w'.chans.name = w.chans.name
  conv : w'.chans.conv = w.chans.conv
  isChat : w'.convs.isChat = w.convs.isChat

theorem Holds.refl (w : World) : Holds w w := ⟨rfl, rfl, rfl, rfl⟩

theorem Holds.trans (h : Holds w w') (h' : Holds w' w'') : Holds w w'' :=
  ⟨h'.alive.trans h.alive, h'.name.trans h.name, h'.conv.trans h.conv, h'.isChat.trans h.isChat⟩

theorem Ok.holds_removeNick (hw : w.Ok d) (k : Str) : Holds w (w.removeNick k) := by
  cases h : w.nicks.users.find? k with
  | none =>
    have : w.removeNick k = w := by
      unfold World.removeNick
      rw [h]
    rw [this]
    exact .refl w
  | some n =>
    have hu := Chans.unlinked_quit (N := w.nicks) hw.member n (str "*.net *.split")
    have hf := Convs.sameIm_forget w.convs n
    rw [removeNick_eq h]
    refine ⟨Chans.quit_alive (N := w.nicks) hw.member n _, hu.name, hu.conv, ?_⟩
    change (w.convs.forget n).isChat = _
    rw [hf]

/-- A participant of the chat `c`, under the key it has there. -/
def Indexed (w : World) (c : ChanRef) (e : CBuddyRef × ChanUserRef) : Prop :=
  w.nicks.kind (w.chans.cuNick e.2) = .chatBuddy →
    e.2 ∈ w.chans.users c ∧ w.nicks.cbuddy (w.chans.cuNick e.2) = e.1

/-- The release of a participant takes its `ChanUser` and its nick, and no one else's. -/
structure Released (w w' : World) (c : ChanRef) (e : CBuddyRef × ChanUserRef) : Prop where
  cuNick : w'.chans.cuNick = w.chans.cuNick
  kind : w'.nicks.kind = w.nicks.kind
  cbuddy : w'.nicks.cbuddy = w.nicks.cbuddy
  users : ∀ cu ∈ w.chans.users c, w.chans.cuNick cu ≠ w.chans.cuNick e.2 → cu ∈ w'.chans.users c

theorem releaseCBuddy_spec (hw : w.Ok (some c)) {e : CBuddyRef × ChanUserRef}
    (he : w.Indexed c e) : Changes P T (w, some c) (releaseCBuddy c w e, some c) ∧
      Holds w (releaseCBuddy c w e) ∧ Released w (releaseCBuddy c w e) c e := by
  by_cases hk : w.nicks.kind (w.chans.cuNick e.2) = .chatBuddy
  · obtain ⟨hcu, hcb⟩ := he hk
    let n := w.chans.cuNick e.2
    let w₁ : World := { w with chans := w.chans.release c n e.2 }
    have hdef : releaseCBuddy c w e = w₁.removeNick (w₁.nicks.nickname n) := by
      unfold releaseCBuddy
      dsimp only
      rw [if_pos hk]
      rfl
    have hrel : Change P T (w, some c) (w₁, some c) := Change.release w c n e.2 hcu rfl hk
    have hw₁ : w₁.Ok (some c) := hrel.ok hw
    have hu := Chans.unlinked_release hw.member hcu rfl
    have hlive := (hw.placed.ne_nil hw.member hcu).1
    have hconv : (w₁.nicks.kind n).isConvNick = true := by
      change (w.nicks.kind n).isConvNick = true
      rw [show w.nicks.kind n = .chatBuddy from hk]
      rfl
    have hmem := hw₁.table.conv n hlive hconv
    have heq := removeNick_eq (OrdMap.find?_eq_some.mpr hmem)
    have hq := Chans.unlinked_quit (N := w₁.nicks) hw₁.member n (str "*.net *.split")
    have hhold : Holds w w₁ :=
      ⟨(Chans.release_rest w.chans c n e.2).1, hu.name, hu.conv, rfl⟩
    rw [hdef]
    refine ⟨Relation.ReflTransGen.head hrel (removeNick_changes hmem hconv),
      hhold.trans (hw₁.holds_removeNick _), ?_⟩
    rw [heq]
    refine ⟨hq.cuNick.trans hu.cuNick, rfl, rfl, fun cu hcu' hother => ?_⟩
    -- only the channels of this nick go
    have hcu₁ : cu ∈ w₁.chans.users c := by
      have hus : w₁.chans.users c = _ := hu.users c
      rw [hus, List.mem_filter]
      refine ⟨hcu', ?_⟩
      simp only [Bool.not_eq_true', beq_eq_false_iff_ne]
      rintro rfl
      exact hother rfl
    have husers : (w₁.chans.quit w₁.nicks n (str "*.net *.split")).users c =
        (w₁.chans.users c).filter fun cu => !(w₁.chans.channels n).contains cu := hq.users c
    change cu ∈ (w₁.chans.quit w₁.nicks n (str "*.net *.split")).users c
    rw [husers]
    refine List.mem_filter.mpr ⟨hcu₁, ?_⟩
    rw [Bool.not_eq_true', ← Bool.not_eq_true, List.contains_iff_mem]
    intro hin
    have := (hw₁.member.fwd n cu hin).1
    rw [show w₁.chans.cuNick = w.chans.cuNick from hu.cuNick] at this
    exact hother this
  · have hdef : releaseCBuddy c w e = w := by
      unfold releaseCBuddy
      dsimp only
      rw [if_neg hk]
    rw [hdef]
    exact ⟨.refl, .refl w, rfl, rfl, rfl, fun _ hcu _ => hcu⟩

theorem releaseCBuddy_changes (hw : w.Ok (some c)) {e : CBuddyRef × ChanUserRef}
    (he : w.Indexed c e) : Changes P T (w, some c) (releaseCBuddy c w e, some c) ∧
      Holds w (releaseCBuddy c w e) ∧
      ∀ e', e'.1 ≠ e.1 → w.Indexed c e' → (releaseCBuddy c w e).Indexed c e' := by
  obtain ⟨hch, hhold, hrel⟩ := releaseCBuddy_spec (P := P) (T := T) hw he
  refine ⟨hch, hhold, ?_⟩
  intro e' hne hidx hk'
  rw [hrel.cuNick, hrel.kind] at hk'
  rw [hrel.cuNick, hrel.cbuddy]
  obtain ⟨hcu', hcb'⟩ := hidx hk'
  refine ⟨hrel.users _ hcu' fun hn => hne ?_, hcb'⟩
  -- another key is another nick
  rw [hn] at hk' hcb'
  rw [← hcb', (he hk').2]

theorem releaseAll_changes {l : List (CBuddyRef × ChanUserRef)} (hw : w.Ok (some c))
    (hl : l.Pairwise fun a b => a.1 < b.1) (hidx : ∀ e ∈ l, w.Indexed c e) :
    Changes P T (w, some c) (l.foldl (releaseCBuddy c) w, some c) ∧
      Holds w (l.foldl (releaseCBuddy c) w) := by
  induction l generalizing w with
  | nil => exact ⟨.refl, .refl w⟩
  | cons e l ih =>
    obtain ⟨he, hl⟩ := List.pairwise_cons.mp hl
    obtain ⟨hch, hh, hkeep⟩ := releaseCBuddy_changes (P := P) (T := T) hw (hidx e (by simp))
    obtain ⟨hch', hh'⟩ := ih (hch.ok hw) hl fun e' he' =>
      hkeep e' (Nat.ne_of_gt (he e' he')) (hidx e' (by simp [he']))
    exact ⟨hch.trans hch', hh.trans hh'⟩

/-- The participants of a chat, when its channel is about to go. -/
theorem Ok.indexed (hw : w.Ok none) (hc : w.chans.alive c = true) :
    ∀ e ∈ (w.chans.cbuddies c).entries, w.Indexed c e := by
  intro e he hk
  have hidx := hw.placed.index c nofun hc e.1 e.2 he
  refine ⟨hidx.1, (hidx.2.resolve_left ?_).2⟩
  intro hu
  rw [hu, hw.table.userKind] at hk
  cases hk

/-- `~ConversationChannel` before `~Channel`. -/
def emptied (w : World) (c : ChanRef) : World :=
  if (w.chans.conv c).isSome then (w.chans.cbuddies c).entries.foldl (releaseCBuddy c) w else w

theorem emptied_changes (hw : w.Ok (some c))
    (hidx : ∀ e ∈ (w.chans.cbuddies c).entries, w.Indexed c e) :
    Changes P T (w, some c) (w.emptied c, some c) ∧ Holds w (w.emptied c) := by
  unfold emptied
  split
  · exact releaseAll_changes hw (w.chans.cbuddies c).sorted hidx
  · exact ⟨.refl, .refl w⟩

theorem removeChannel_eq (hw : w.Ok d) (hc : w.chans.alive c = true)
    (hh : Holds w (w.emptied c)) : w.removeChannel (w.chans.name c) = { w.emptied c with
      chans := (w.emptied c).chans.remove (w.emptied c).nicks c } := by
  have hget : w.chans.table.find? (w.chans.name c) = some c := hw.listed.getChannel.mpr ⟨hc, rfl⟩
  unfold removeChannel
  rw [hget]
  dsimp only
  unfold Chans.remove
  rw [hh.name]
  rfl

/-- `IRC::removeChannel` of a status channel. -/
theorem removeChannel_goes (hw : w.Ok none) (hc : w.chans.alive c = true)
    (hv : w.chans.conv c = none) : Goes P T w (w.removeChannel (w.chans.name c)) := by
  obtain ⟨hch, hh⟩ := emptied_changes (P := P) (T := T) (hw.opened c) (hw.indexed hc)
  rw [removeChannel_eq hw hc hh]
  refine Relation.ReflTransGen.head (Change.opened w c hc) (hch.tail (Change.closed _ c ?_ ?_))
  · rw [hh.alive, hc]
  · rw [hh.conv, hv]

/-- The end of a chat from the moment its channel is being destroyed. -/
theorem destroyChat_changes (hw : w.Ok (some c))
    (hidx : ∀ e ∈ (w.chans.cbuddies c).entries, w.Indexed c e) (hu : w.convs.uiChan v = some c) :
    Changes P T (w, some c) (w.destroyChat v, none) ∧
      (w.destroyChat v).convs.isChat = w.convs.isChat := by
  obtain ⟨hc, hconv, -⟩ := hw.chats.bwd v c hu
  obtain ⟨hch, hh⟩ := emptied_changes (P := P) (T := T) hw hidx
  unfold destroyChat
  rw [hu]
  dsimp only
  rw [removeChannel_eq hw hc hh]
  refine ⟨hch.tail (Change.closedChat _ c v ?_ ?_), hh.isChat⟩
  · rw [hh.alive, hc]
  · rw [hh.conv, hconv]

theorem destroyChat_goes (hw : w.Ok none) (hv : w.convs.isChat v = true) :
    Goes P T w (w.destroyChat v) ∧ (w.destroyChat v).convs.isChat = w.convs.isChat := by
  cases hu : w.convs.uiChan v with
  | none =>
    unfold destroyChat
    rw [hu]
    exact ⟨(Change.ended w v hu (hw.uiNick_chat hv)).goes, rfl⟩
  | some c =>
    have hc := (hw.chats.bwd v c hu).1
    obtain ⟨hch, hchat⟩ := destroyChat_changes (P := P) (T := T) (hw.opened c) (hw.indexed hc) hu
    exact ⟨Relation.ReflTransGen.head (Change.opened w c hc) hch, hchat⟩

theorem Ok.chanUser_alive (hw : w.Ok none) (hcu : cu ∈ w.chans.channels n)
    (hc : w.chans.cuChan cu = c) : w.chans.alive c = true :=
  hw.listed.full c (List.ne_nil_of_mem (hw.member.mem_users hcu hc))

/-- When the User leaves a chat, its participants are still on it. -/
theorem Ok.indexed_leave (hw : w.Ok none) (hcu : cu ∈ w.chans.channels userRef)
    (hc : w.chans.cuChan cu = c) (m : Message) :
    ∀ e ∈ ((w.chans.leave c userRef cu m).cbuddies c).entries,
      Indexed { w with chans := w.chans.leave c userRef cu m } c e := by
  have hu := Chans.unlinked_leave' hw.member hcu hc m
  intro e he hk
  rw [(Chans.leave_rest w.chans c userRef cu m).2] at he
  change w.nicks.kind ((w.chans.leave c userRef cu m).cuNick e.2) = .chatBuddy at hk
  change e.2 ∈ (w.chans.leave c userRef cu m).users c ∧
    w.nicks.cbuddy ((w.chans.leave c userRef cu m).cuNick e.2) = e.1
  rw [hu.cuNick] at hk ⊢
  obtain ⟨hmem, hcb⟩ := hw.indexed (hw.chanUser_alive hcu hc) e (Chans.cbuddiesWithout_sub he) hk
  rw [hu.users, List.mem_filter]
  refine ⟨⟨hmem, ?_⟩, hcb⟩
  rw [Bool.not_eq_true', beq_eq_false_iff_ne]
  intro he
  rw [he, (hw.member.fwd userRef cu hcu).1, hw.table.userKind] at hk
  cases hk

theorem delUser_leave (h : (w.chans.leave c n cu m).conv c = none) :
    delUser { w with chans := (w.chans.dropChanUser n cu).send n (.msg m) } c n m =
      { w with chans := w.chans.leave c n cu m } :=
  delUser_none h

theorem delUser_leaveChat {v : ConvRef} (h : (w.chans.leave c n cu m).conv c = some v) :
    delUser { w with chans := (w.chans.dropChanUser n cu).send n (.msg m) } c n m =
      if w.nicks.kind n = .chatBuddy then
        removeNick { w with chans := w.chans.leave c n cu m } (w.nicks.nickname n)
      else if n = userRef then destroyChat { w with chans := w.chans.leave c n cu m } v
      else { w with chans := w.chans.leave c n cu m } :=
  delUser_some h

/-- `delUser` of a nick whose own list does not have the `ChanUser` any more. -/
theorem leave_goes (hw : w.Ok none) (hcu : cu ∈ w.chans.channels n) (hc : w.chans.cuChan cu = c)
    (hm : w.Tells m n c) :
    Goes P T w (delUser { w with chans := (w.chans.dropChanUser n cu).send n (.msg m) } c n m) := by
  let w₁ : World := { w with chans := w.chans.leave c n cu m }
  have hconv : w₁.chans.conv = w.chans.conv := (Chans.unlinked_leave' hw.member hcu hc m).conv
  have hlive := hw.chanUser_alive hcu hc
  have hplaced := hw.placed.nick n (List.ne_nil_of_mem hcu)
  rcases eq_or_ne n userRef with rfl | hn
  · cases hv : w.chans.conv c with
    | none =>
      rw [delUser_leave ((congrFun hconv c).trans hv)]
      exact (Change.leave w userRef c cu m hcu hc hm (.inr hv)).goes
    | some v =>
      have hstep : Change P T (w, none) (w₁, some c) := Change.leaveChat w c cu m hcu hc hm
      have hkind : ¬ w.nicks.kind userRef = .chatBuddy := by
        rw [hw.table.userKind]
        exact NickKind.noConfusion
      rw [delUser_leaveChat ((congrFun hconv c).trans hv), if_neg hkind, if_pos rfl]
      exact Relation.ReflTransGen.head hstep (destroyChat_changes (hstep.ok hw)
        (hw.indexed_leave hcu hc m) (hw.chats.fwd c v hlive hv)).1
  · have hstep : Goes P T w w₁ := (Change.leave w n c cu m hcu hc hm (.inl hn)).goes
    cases hv : w.chans.conv c with
    | none =>
      rw [delUser_leave ((congrFun hconv c).trans hv)]
      exact hstep
    | some v =>
      rw [delUser_leaveChat ((congrFun hconv c).trans hv), if_neg hn]
      split
      · next hk =>
        refine hstep.trans ((hstep.ok hw).removeNick hplaced.1 ?_)
        rw [hk]
        rfl
      · exact hstep

theorem part_goes (hw : w.Ok none) (n : NickRef) (c : ChanRef) (message : Str) :
    Goes P T w (w.part n c message) := by
  unfold part
  split
  · exact .refl w
  · next cu hget =>
    obtain ⟨hcu, hc⟩ := Chans.getChanUser_some hget
    exact leave_goes hw hcu hc ⟨rfl, List.cons_ne_nil _ _, .inl ⟨rfl, rfl⟩⟩

/-- A nick has at most one `ChanUser` on a channel, so `Nick::kicked` meets at most one. -/
theorem Ok.chanUsers_eq (hw : w.Ok none) (n : NickRef) (c : ChanRef) :
    (w.chans.channels n).filter (fun cu => w.chans.cuChan cu = c) =
      (w.chans.getChanUser n c).toList := by
  cases hget : w.chans.getChanUser n c with
  | none =>
    rw [Option.toList_none, List.filter_eq_nil_iff]
    intro cu hcu
    simpa using Chans.getChanUser_none hget cu hcu
  | some cu =>
    obtain ⟨hcu, hc⟩ := Chans.getChanUser_some hget
    have hcongr : (w.chans.channels n).filter (fun cu' => w.chans.cuChan cu' = c) =
        (w.chans.channels n).filter (· = cu) := by
      apply List.filter_congr
      intro cu' hcu'
      have : w.chans.cuChan cu' = c ↔ cu' = cu :=
        ⟨fun he => hw.member.one n cu' hcu' cu hcu (he.trans hc.symm), fun he => he ▸ hc⟩
      simp [this]
    rw [hcongr, List.filter_eq, List.count_eq_one_of_mem (hw.member.nodupChannels n) hcu]
    rfl

theorem kicked_goes (hw : w.Ok none) (hn : n ≠ userRef) (c : ChanRef) (kicker : NickRef)
    (message : Str) : Goes P T w (w.kicked n c kicker message) := by
  unfold kicked
  rw [hw.chanUsers_eq]
  cases hget : w.chans.getChanUser n c with
  | none => exact .refl w
  | some cu =>
    obtain ⟨hcu, hc⟩ := Chans.getChanUser_some hget
    have hsend : ∀ s, (w.chans.dropChanUser n cu).send n s = w.chans.dropChanUser n cu := fun s =>
      if_neg hn
    have h := leave_goes (P := P) (T := T) hw hcu hc (m := ⟨str "KICK", w.nicks.entity kicker,
      w.chans.chanEntity c, [w.nicks.nickname n, message]⟩)
      ⟨rfl, by simp, .inr ⟨rfl, hn, rfl⟩⟩
    rw [hsend] at h
    exact h

theorem quit_goes (hn : n ≠ userRef) (text : Str) : Goes P T w (w.quit n text) :=
  (Change.quit w n text hn).goes

end Channel

end World
end Minbif
