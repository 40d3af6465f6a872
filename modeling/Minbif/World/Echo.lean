import Minbif.World.Away
import Minbif.World.Sound

/-! The topic of a status channel is the first line of what its accounts say when they are available. -/
namespace Minbif
open Function

namespace World

variable {w w' w'' : World}

/-- Only topics differ, and what the User was told. -/
def SameButTopics (w w' : World) : Prop :=
  w' = { w with chans := { w.chans with topic := w'.chans.topic, sent := w'.chans.sent } }

theorem SameButTopics.refl (w : World) : SameButTopics w w := rfl

theorem SameButTopics.trans (h : SameButTopics w w') (h' : SameButTopics w' w'') :
    SameButTopics w w'' := by
  unfold SameButTopics at *
  rw [h', h]

theorem SameButTopics.accounts (h : SameButTopics w w') : w'.chans.accounts = w.chans.accounts := by
  rw [h]

theorem SameButTopics.data (h : SameButTopics w w') : w'.data = w.data := by rw [h]

theorem SameButTopics.getStatusChannel (h : SameButTopics w w') (a : AccountRef) :
    w'.getStatusChannel a = w.getStatusChannel a := by
  rw [h]
  rfl

theorem SameButTopics.sited (h : SameButTopics w w') (hw : w.Sited)
    (hline : ∀ c, '\n' ∉ w'.chans.topic c) : w'.Sited := by
  refine ⟨fun k c hmem => ?_, fun c a ha => ?_, fun c => ?_, hline⟩
  · rw [h] at hmem ⊢
    exact hw.named k c hmem
  · rw [h.accounts] at ha
    rw [h.getStatusChannel]
    exact hw.own c a ha
  · rw [h.accounts]
    exact hw.once c

end World

namespace Statuses

variable {P : Purple} {K : Primitives} {s t u : Statuses} {a b : AccountRef} {c : ChanRef}
  {sender : StoredEntity} {text m id : Str} {prim : Option Str} {l : List AccountRef}

def firstLine (text : Str) : Str := text.takeWhile (· ≠ '\n')

theorem newline_not_mem_firstLine (text : Str) : '\n' ∉ firstLine text := by
  intro h
  simpa using List.mem_takeWhile_imp h

theorem firstLine_eq_self (h : '\n' ∉ text) : firstLine text = text := by
  refine List.takeWhile_eq_self_iff.mpr fun x hx => decide_eq_true ?_
  rintro rfl
  exact h hx

/-- What an account says is nothing, or begins with the topic of the channel. -/
def Echoes (s : Statuses) (c : ChanRef) (a : AccountRef) : Prop :=
  ∀ m ∈ s.message a available, m = [] ∨ s.world.chans.topic c = firstLine m

def Echoed (s : Statuses) (c : ChanRef) : Prop := ∀ a ∈ s.world.chans.accounts c, s.Echoes c a

/-- The accounts stay where they are, and no channel stops being echoed. -/
structure Follows (s t : Statuses) : Prop where
  same : s.world.SameButTopics t.world
  sited : t.world.Sited
  echoed : ∀ c, s.Echoed c → t.Echoed c

theorem Follows.refl (hw : s.world.Sited) : Follows s s := ⟨.refl _, hw, fun _ h => h⟩

theorem Follows.trans (h : Follows s t) (h' : Follows t u) : Follows s u :=
  ⟨h.same.trans h'.same, h'.sited, fun c hc => h'.echoed c (h.echoed c hc)⟩

section SetStatus

theorem message_purpleSetStatus_of_ne (h : id ≠ available) :
    (s.purpleSetStatus a id m).message b available = s.message b available := by
  unfold message purpleSetStatus
  rcases eq_or_ne b a with rfl | hb
  · dsimp only
    rw [update_self, update_of_ne h.symm]
  · dsimp only
    rw [update_of_ne hb]

theorem follows_other (hw : s.world.Sited) (h : id ≠ available) :
    Follows s (s.purpleSetStatus a id m) := by
  refine ⟨.refl _, hw, fun c hc b hb m' hm' => ?_⟩
  rw [message_purpleSetStatus_of_ne h] at hm'
  exact hc b hb m' hm'

theorem follows_give (hw : s.world.Sited) (h : ∀ c, a ∈ s.world.chans.accounts c → s.Echoes c a →
    m = [] ∨ s.world.chans.topic c = firstLine m) :
    Follows s (s.purpleSetStatus a available m) := by
  refine ⟨.refl _, hw, fun c hc b hb m' hm' => ?_⟩
  rw [message_purpleSetStatus] at hm'
  split at hm'
  · next hba =>
    subst hba
    obtain ⟨-, -, rfl⟩ := Option.map_eq_some_iff.mp hm'
    exact h c hb (hc b hb)
  · exact hc b hb m' hm'

/-- Its accounts get the text from the channel, and no others. -/
theorem follows_spread (hw : s.world.Sited) (c : ChanRef) (sender : StoredEntity) (text : Str) :
    Follows s (s.spread c sender text) ∧ (s.spread c sender text).Echoed c := by
  obtain ⟨sent, hset⟩ := setChannelTopic_frame s c sender text
  obtain ⟨hworld, hmessage⟩ :=
    foldl_give (s.setChannelTopic c sender text) (s.world.chans.accounts c) text
  have hspread : (s.spread c sender text).world = (s.setChannelTopic c sender text).world := hworld
  have htopic : (s.spread c sender text).world.chans.topic =
      update s.world.chans.topic c (firstLine text) := by
    rw [hspread, hset]
    rfl
  have hsame : s.world.SameButTopics (s.spread c sender text).world := by
    rw [World.SameButTopics, hspread, hset]
  have hecho : (s.spread c sender text).Echoed c := by
    intro a ha m hm
    have hagree := agree_spread s c sender text
    rw [hagree.message a ha m hm]
    exact .inr hagree.topic
  refine ⟨⟨hsame, hsame.sited hw fun c' => ?_, fun c' hc' => ?_⟩, hecho⟩
  · rw [htopic]
    rcases eq_or_ne c' c with rfl | hne
    · rw [update_self]
      exact newline_not_mem_firstLine text
    · rw [update_of_ne hne]
      exact hw.line c'
  · rcases eq_or_ne c' c with rfl | hne
    · exact hecho
    intro a ha m hm
    rw [hsame.accounts] at ha
    have hnot : a ∉ s.world.chans.accounts c := by
      intro hin
      exact hne (Option.some.inj ((hw.own c' a ha).symm.trans (hw.own c a hin)))
    have hold : (s.spread c sender text).message a available = s.message a available := by
      rw [spread, hmessage, if_neg hnot]
      rfl
    rw [hold] at hm
    rw [htopic, update_of_ne hne]
    exact hc' a ha m hm

/-- An account that was silent says its own message, which also becomes the topic. -/
theorem follows_own (hw : s.world.Sited) (hc : s.world.getStatusChannel a = some c) :
    Follows s ((s.spread c sender m).purpleSetStatus a available m) ∧
      ((s.spread c sender m).purpleSetStatus a available m).Echoed c := by
  obtain ⟨hspread, hecho⟩ := follows_spread hw c sender m
  have hgive : Follows (s.spread c sender m) ((s.spread c sender m).purpleSetStatus a available m) := by
    refine follows_give hspread.sited fun c' ha _ => .inr ?_
    have hown := hspread.sited.own c' a ha
    rw [hspread.same.getStatusChannel, hc] at hown
    obtain rfl := Option.some.inj hown
    exact (agree_spread s c sender m).topic
  exact ⟨hspread.trans hgive, hgive.echoed c hecho⟩

/-- The message is one of another status. -/
theorem setStatus_other {st : PurpleStatus} (hst : s.status a (prim.getD (s.active a)) = some st)
    (hid : prim.getD (s.active a) ≠ available) : ∃ m', ∀ fuel,
    setStatus (fuel + 1) s a prim m = some (s.purpleSetStatus a (prim.getD (s.active a)) m') := by
  by_cases hask : (if m.isEmpty then (s.world.getStatusChannel a).elim m s.world.chans.topic
      else m).isEmpty && prim.isSome
  · refine ⟨st.message.getD [], fun fuel => ?_⟩
    rw [setStatus]
    simp only [hst, hask, if_true]
    cases s.world.getStatusChannel a <;> simp [hid]
  · refine ⟨if m.isEmpty then (s.world.getStatusChannel a).elim m s.world.chans.topic else m,
      fun fuel => ?_⟩
    rw [setStatus]
    simp only [hst, hask]
    rfl

/-- No text is forced on those who are available: they keep to the topic, or it keeps to them. -/
theorem setStatus_follows (hw : s.world.Sited) (a : AccountRef)
    (h : m = [] ∨ ∃ id, prim = some id ∧ id ≠ available) :
    ∃ t, (∀ fuel, setStatus (fuel + 3) s a prim m = some t) ∧ Follows s t := by
  cases hst : s.status a (prim.getD (s.active a)) with
  | none => exact ⟨s, fun fuel => by simp [setStatus, hst], .refl hw⟩
  | some st =>
    by_cases hid : prim.getD (s.active a) = available
    swap
    · obtain ⟨m', hm'⟩ := setStatus_other (m := m) hst hid
      exact ⟨_, fun fuel => hm' (fuel + 2), follows_other hw hid⟩
    have hm : m = [] := by
      rcases h with hm | ⟨id, rfl, hne⟩
      · exact hm
      · exact absurd hid hne
    subst hm
    have hown : s.message a available = st.message := by
      rw [message, ← hid, hst]
      rfl
    cases hc : s.world.getStatusChannel a with
    | none =>
      refine ⟨s.purpleSetStatus a available (if prim.isSome then st.message.getD [] else []),
        fun fuel => ?_, follows_give hw fun c ha _ => ?_⟩
      · cases prim <;> simp_all [setStatus]
      · have := hw.own c a ha
        rw [hc] at this
        cases this
    | some c =>
      have hsole : ∀ c', a ∈ s.world.chans.accounts c' → c' = c := by
        intro c' ha
        exact Option.some.inj ((hw.own c' a ha).symm.trans hc)
      by_cases htopic : s.world.chans.topic c = []
      swap
      · refine ⟨s.purpleSetStatus a available (s.world.chans.topic c), fun fuel => ?_,
          follows_give hw fun c' ha _ => .inr ?_⟩
        · cases prim <;> simp_all [setStatus]
        · rw [hsole c' ha, firstLine_eq_self (hw.line c)]
      by_cases hsay : prim.isSome = true ∧ st.message.getD [] ≠ []
      · refine ⟨(s.spread c s.world.nicks.ircEntity (st.message.getD [])).purpleSetStatus a available
          (st.message.getD []), fun fuel => ?_, (follows_own hw hc).1⟩
        obtain ⟨p, rfl⟩ := Option.isSome_iff_exists.mp hsay.1
        obtain rfl : p = available := hid
        change s.status a available = some st at hst
        simp [setStatus, hst, hc, htopic, hsay.2, setTopic_give hsay.2]
      · refine ⟨s.purpleSetStatus a available [], fun fuel => ?_,
          follows_give hw fun _ _ _ => .inl rfl⟩
        cases prim with
        | none => simp_all [setStatus]
        | some p =>
          obtain rfl : p = available := hid
          have hnil : st.message.getD [] = [] := by simpa using hsay
          change s.status a available = some st at hst
          simp [setStatus, hst, hc, htopic, hnil]

/-- Once the topic is empty, an account with a message restores it, or there is no message. -/
theorem setStatus_settles (hw : s.world.Sited) (hc : s.world.getStatusChannel a = some c)
    (htopic : s.world.chans.topic c = [])
    (ht : ∀ fuel, setStatus (fuel + 3) s a (some available) [] = some t) :
    t.Echoed c ∨ t.world.chans.topic c = [] ∧ (∀ m ∈ t.message a available, m = []) ∧
      ∀ b, t.message b available = s.message b available := by
  cases hst : s.status a available with
  | none =>
    have hnone : s.message a available = none := by
      rw [message, hst]
      rfl
    have hts : t = s := Option.some.inj ((ht 0).symm.trans (by simp [setStatus, hst]))
    rw [hts]
    refine .inr ⟨htopic, fun m hm => ?_, fun _ => rfl⟩
    rw [hnone] at hm
    cases hm
  | some st =>
    have hown : s.message a available = st.message := by
      rw [message, hst]
      rfl
    by_cases hnil : st.message.getD [] = []
    · have hts : t = s.purpleSetStatus a available [] :=
        Option.some.inj ((ht 0).symm.trans (by simp [setStatus, hst, hc, htopic, hnil]))
      have hsame : ∀ b, t.message b available = s.message b available := by
        intro b
        rw [hts, message_purpleSetStatus]
        split
        · next hba =>
          rw [hba, hown]
          cases hmsg : st.message with
          | none => rfl
          | some m =>
            rw [hmsg] at hnil
            exact congrArg some hnil.symm
        · rfl
      refine .inr ⟨?_, fun m hm => ?_, hsame⟩
      · rw [hts]
        exact htopic
      · rw [hsame, hown] at hm
        rw [hm] at hnil
        exact hnil
    · have hts : t = (s.spread c s.world.nicks.ircEntity (st.message.getD [])).purpleSetStatus a
          available (st.message.getD []) :=
        Option.some.inj ((ht 0).symm.trans
          (by simp [setStatus, hst, hc, htopic, hnil, setTopic_give hnil]))
      rw [hts]
      exact .inl (follows_own hw hc).2

end SetStatus

section SetTopic

theorem foldlM_follows {f : Statuses → AccountRef → Option Statuses}
    (hf : ∀ s a, s.world.Sited → ∃ t, f s a = some t ∧ Follows s t) (l : List AccountRef)
    (hw : s.world.Sited) : ∃ t, l.foldlM f s = some t ∧ Follows s t := by
  induction l generalizing s with
  | nil => exact ⟨s, rfl, .refl hw⟩
  | cons a l ih =>
    obtain ⟨t, ht, hone⟩ := hf s a hw
    obtain ⟨u, hu, hrest⟩ := ih hone.sited
    exact ⟨u, by rw [List.foldlM_cons, ht]; exact hu, hone.trans hrest⟩

/-- The accounts are asked one after the other. Those before have no message, or the topic is back. -/
theorem foldlM_settles (hw : s.world.Sited) (hl : ∀ a ∈ l, s.world.getStatusChannel a = some c)
    (hs : s.Echoed c ∨ s.world.chans.topic c = [] ∧
      ∀ a ∈ s.world.chans.accounts c, a ∉ l → ∀ m ∈ s.message a available, m = []) :
    ∃ t, (∀ fuel, l.foldlM (fun s a => setStatus (fuel + 3) s a (some available) []) s = some t) ∧
      Follows s t ∧ t.Echoed c := by
  induction l generalizing s with
  | nil =>
    refine ⟨s, fun _ => rfl, .refl hw, ?_⟩
    rcases hs with hs | ⟨-, hs⟩
    · exact hs
    · exact fun a ha m hm => .inl (hs a ha List.not_mem_nil m hm)
  | cons a l ih =>
    obtain ⟨t, ht, hone⟩ : ∃ t, (∀ fuel, setStatus (fuel + 3) s a (some available) [] = some t) ∧
        Follows s t := setStatus_follows hw a (.inl rfl)
    have hnext : t.Echoed c ∨ t.world.chans.topic c = [] ∧
        ∀ b ∈ t.world.chans.accounts c, b ∉ l → ∀ m ∈ t.message b available, m = [] := by
      rcases hs with hs | ⟨htopic, hs⟩
      · exact .inl (hone.echoed c hs)
      refine (setStatus_settles hw (hl a List.mem_cons_self) htopic ht).imp_right ?_
      rintro ⟨htopic', hself, hsame⟩
      refine ⟨htopic', fun b hb hbl m hm => ?_⟩
      rcases eq_or_ne b a with rfl | hba
      · exact hself m hm
      · rw [hone.same.accounts] at hb
        rw [hsame] at hm
        exact hs b hb (List.not_mem_cons_of_ne_of_not_mem hba hbl) m hm
    obtain ⟨u, hu, hrest, hecho⟩ := ih hone.sited (fun b hb => by
      rw [hone.same.getStatusChannel]
      exact hl b (List.mem_cons_of_mem _ hb)) hnext
    refine ⟨u, fun fuel => ?_, hone.trans hrest, hecho⟩
    rw [List.foldlM_cons, ht]
    exact hu fuel

/-- A new topic, an empty one too, is echoed by all accounts of the channel. -/
theorem setTopic_follows (hw : s.world.Sited) (c : ChanRef) (sender : StoredEntity) (text : Str) :
    ∃ t, setTopic depth s c sender text = some t ∧ Follows s t := by
  by_cases htext : text = []
  swap
  · exact ⟨_, setTopic_give htext, (follows_spread hw c sender text).1⟩
  subst htext
  obtain ⟨sent, hset⟩ := setChannelTopic_frame s c sender []
  have hrun : setTopic depth s c sender [] = ((s.setChannelTopic c sender []).world.chans.accounts c).foldlM
      (fun s a => setStatus 3 s a (some available) []) (s.setChannelTopic c sender []) := by
    rw [depth, setTopic]
  rw [hrun]
  have hmessage : ∀ b, (s.setChannelTopic c sender []).message b available =
      s.message b available := fun _ => rfl
  generalize s.setChannelTopic c sender [] = t at hset hmessage
  have htopic : t.world.chans.topic = update s.world.chans.topic c [] := by rw [hset]; rfl
  have hsame : s.world.SameButTopics t.world := by rw [World.SameButTopics, hset]
  have hsited : t.world.Sited := by
    refine hsame.sited hw fun c' => ?_
    rw [htopic]
    rcases eq_or_ne c' c with rfl | hne
    · rw [update_self]
      exact List.not_mem_nil
    · rw [update_of_ne hne]
      exact hw.line c'
  obtain ⟨u, hu, hfollows, hecho⟩ := foldlM_settles hsited (hsited.own c)
    (.inr ⟨by rw [htopic, update_self], fun a ha hnot => absurd ha hnot⟩)
  refine ⟨u, hu 0, hsame.trans hfollows.same, hfollows.sited, fun c' hc' => ?_⟩
  rcases eq_or_ne c' c with rfl | hne
  · exact hecho
  · refine hfollows.echoed c' fun a ha m hm => ?_
    rw [hsame.accounts] at ha
    rw [hmessage] at hm
    rw [htopic, update_of_ne hne]
    exact hc' a ha m hm

end SetTopic

section Channels

/-- All that the topics and the messages depend on, when every status channel is echoed. -/
structure Settled (s : Statuses) : Prop where
  sited : s.world.Sited
  echoed : ∀ c, s.Echoed c

theorem Follows.settled (h : Follows s t) (hs : s.Settled) : t.Settled :=
  ⟨h.sited, fun c => h.echoed c (hs.echoed c)⟩

/-- The account is not yet on the channel whose topic it is going to echo. -/
theorem reconcile_follows (hw : s.world.Sited) (ha : ∀ c, a ∉ s.world.chans.accounts c) :
    ∃ t, s.reconcile a c = some t ∧ Follows s t ∧ t.Echoes c a := by
  unfold reconcile
  dsimp only
  by_cases htopic : s.world.chans.topic c = (s.message a available).getD []
  · rw [if_pos htopic]
    refine ⟨s, rfl, .refl hw, fun m hm => .inr ?_⟩
    rw [hm] at htopic
    change s.world.chans.topic c = m at htopic
    rw [← htopic, firstLine_eq_self (hw.line c)]
  rw [if_neg htopic]
  by_cases hsay : (s.message a available).getD [] = []
  · rw [hsay]
    have hsilent : ∀ m ∈ s.message a available, m = [] := by
      intro m hm
      rw [hm] at hsay
      exact hsay
    have hne : s.world.chans.topic c ≠ [] := fun h => htopic (h.trans hsay.symm)
    cases hst : s.status a (s.active a) with
    | none =>
      refine ⟨s, by simp [setStatus, depth, hst], .refl hw, fun m hm => .inl (hsilent m hm)⟩
    | some st =>
      have hrun : setStatus depth s a none (s.world.chans.topic c) =
          some (s.purpleSetStatus a (s.active a) (s.world.chans.topic c)) := by
        simp [setStatus, depth, hst, hne]
      refine ⟨_, hrun, ?_⟩
      by_cases hactive : s.active a = available
      · rw [hactive]
        refine ⟨follows_give hw fun c' hc' _ => absurd hc' (ha c'), fun m hm => .inr ?_⟩
        rw [message_purpleSetStatus, if_pos rfl] at hm
        obtain ⟨-, -, rfl⟩ := Option.map_eq_some_iff.mp hm
        exact (firstLine_eq_self (hw.line c)).symm
      · refine ⟨follows_other hw hactive, fun m hm => .inl ?_⟩
        rw [message_purpleSetStatus_of_ne hactive] at hm
        exact hsilent m hm
  · refine ⟨s.spread c s.world.nicks.ircEntity ((s.message a available).getD []), ?_,
      (follows_spread hw ..).1, fun m hm => .inr ?_⟩
    · rw [depth, setTopic_give hsay]
      simp [hsay]
    · obtain ⟨-, hmessage⟩ := foldl_give (s.setChannelTopic c s.world.nicks.ircEntity
        ((s.message a available).getD [])) (s.world.chans.accounts c)
        ((s.message a available).getD [])
      rw [spread, hmessage, if_neg (ha c)] at hm
      change s.message a available = some m at hm
      rw [(agree_spread s c _ _).topic, hm]
      rfl

/-- What is left to be said once a channel was opened for the account. -/
theorem Settled.opened {w : World} (h : s.Settled) (hopen : s.world.OpenedFor a w c) :
    Settled { s with world := w } := by
  refine ⟨hopen.sited, fun c' b hb m hm => ?_⟩
  change m = [] ∨ w.chans.topic c' = firstLine m
  rw [hopen.topic c' b hb]
  exact h.echoed c' b (hopen.accounts c' b hb) m hm

theorem Settled.enter (h : s.Settled) (ha : ∀ c, a ∉ s.world.chans.accounts c)
    (hc : s.world.getStatusChannel a = some c) (hecho : s.Echoes c a) : (s.enter P a c).Settled := by
  have hsigns := World.SameSigns.foldl (World.updated_signs P)
    ((s.world.setAccounts c (s.world.chans.accounts c ++ [a])).data.buddies a)
    (s.world.setAccounts c (s.world.chans.accounts c ++ [a]))
  refine ⟨hsigns.sited (h.sited.enter ha hc), fun c' b hb m hm => ?_⟩
  change b ∈ (List.foldl _ _ _ : World).chans.accounts c' at hb
  rw [hsigns.board.chans.accounts] at hb
  change b ∈ update s.world.chans.accounts c _ c' at hb
  change m = [] ∨ (List.foldl _ _ _ : World).chans.topic c' = firstLine m
  rw [hsigns.topic]
  rcases eq_or_ne c' c with rfl | hne
  · rw [update_self, List.mem_append, List.mem_singleton] at hb
    rcases hb with hb | rfl
    · exact h.echoed c' b hb m hm
    · exact hecho m hm
  · rw [update_of_ne hne] at hb
    exact h.echoed c' b hb m hm

theorem accounts_enter : (s.enter P a c).world.chans.accounts =
    update s.world.chans.accounts c (s.world.chans.accounts c ++ [a]) := by
  have hsigns := World.SameSigns.foldl (World.updated_signs P)
    ((s.world.setAccounts c (s.world.chans.accounts c ++ [a])).data.buddies a)
    (s.world.setAccounts c (s.world.chans.accounts c ++ [a]))
  exact hsigns.board.chans.accounts

theorem createStatusChannel_settled (h : s.Settled) (ha : ∀ c, a ∉ s.world.chans.accounts c) :
    ∃ t, s.createStatusChannel P a = some t ∧ t.Settled ∧
      ∀ c, ∀ b ∈ t.world.chans.accounts c, b = a ∨ b ∈ s.world.chans.accounts c := by
  unfold createStatusChannel
  by_cases hamp : (s.world.data.statusChannel a).head? = some '&'
  swap
  · rw [if_pos hamp]
    exact ⟨s, rfl, h, fun _ _ => .inr⟩
  rw [if_neg (not_not_intro hamp)]
  have hopen := World.openStatusChannel_openedFor h.sited hamp
  generalize s.world.openStatusChannel a = r at hopen
  obtain ⟨w, c⟩ := r
  dsimp only at hopen ⊢
  have hsettled := h.opened hopen
  have ha' : ∀ c, a ∉ w.chans.accounts c := fun c hin => ha c (hopen.accounts c a hin)
  obtain ⟨t, ht, hfollows, hecho⟩ :=
    reconcile_follows (s := { s with world := w }) (c := c) hopen.sited ha'
  have hin : ∀ c, a ∉ t.world.chans.accounts c := by
    rw [hfollows.same.accounts]
    exact ha'
  refine ⟨t.enter P a c, by rw [ht]; rfl, (hfollows.settled hsettled).enter hin ?_ hecho,
    fun c' b hb => ?_⟩
  · rw [hfollows.same.getStatusChannel]
    exact hopen.found
  · rw [accounts_enter, hfollows.same.accounts] at hb
    rcases eq_or_ne c' c with rfl | hne
    · rw [update_self, List.mem_append, List.mem_singleton] at hb
      exact hb.symm.imp_right (hopen.accounts c' b)
    · rw [update_of_ne hne] at hb
      exact .inr (hopen.accounts c' b hb)

theorem Settled.left {w : World} (h : s.Settled) (hleft : s.world.LeftBy a w) :
    Settled { s with world := w } := by
  refine ⟨hleft.sited, fun c b hb m hm => ?_⟩
  change m = [] ∨ w.chans.topic c = firstLine m
  rw [hleft.topic]
  exact h.echoed c b (hleft.accounts c b hb) m hm

theorem setStatusChannelName_settled (h : s.Settled) (a : AccountRef) (name : Str) :
    ∃ t, s.setStatusChannelName P a name = some t ∧ t.Settled := by
  have hleft := World.leaveStatusChannel_leftBy h.sited a
  have hsettled := h.left hleft
  have hnamed : Settled { s with world := { s.world.leaveStatusChannel a with
      data := { (s.world.leaveStatusChannel a).data with
        statusChannel := update (s.world.leaveStatusChannel a).data.statusChannel a name } } } :=
    ⟨hsettled.sited.renamed hleft.gone name, hsettled.echoed⟩
  obtain ⟨t, ht, hdone, -⟩ := createStatusChannel_settled (P := P) hnamed hleft.gone
  exact ⟨t, ht, hdone⟩

/-- Each account comes to its channel once. -/
theorem init_settled (h : s.Settled) (hl : l.Nodup) (ha : ∀ a ∈ l, ∀ c, a ∉ s.world.chans.accounts c) :
    ∃ t, s.init P l = some t ∧ t.Settled := by
  induction l generalizing s with
  | nil => exact ⟨s, rfl, h⟩
  | cons a l ih =>
    obtain ⟨hal, hl⟩ := List.nodup_cons.mp hl
    obtain ⟨hfirst, hrest⟩ := List.forall_mem_cons.mp ha
    obtain ⟨t, ht, hone, hmem⟩ := createStatusChannel_settled (P := P) h hfirst
    obtain ⟨u, hu, hdone⟩ := ih hone hl fun b hb c hin => by
      rcases hmem c b hin with rfl | hin
      · exact hal hb
      · exact hrest b hb c hin
    refine ⟨u, ?_, hdone⟩
    rw [init, List.foldlM_cons, ht]
    exact hu

end Channels

section Runs

/-- A text that is kept as a message is never one of the status AVAILABLE. -/
theorem asked_mild (away : Str) : (K.asked away).2 = [] ∨
    ∃ id, K.id (K.asked away).1 = some id ∧ id ≠ available := by
  unfold Primitives.asked
  split
  · exact .inl rfl
  split
  · exact .inl rfl
  · have hne : statusAway ≠ statusAvailable := by decide
    have hid : K.id statusAway = some (((K.table.map Prod.fst)[statusAway]?).getD []) :=
      if_neg (Nat.succ_ne_zero 4)
    exact .inr ⟨_, hid, Primitives.id_ne_available hne hid⟩

theorem setStatuses_follows (hw : s.world.Sited) (accounts : List AccountRef) (away : Str) :
    ∃ t, s.setStatuses K accounts away = some t ∧ Follows s t :=
  foldlM_follows (fun _ a hw => by
    obtain ⟨t, ht, hfollows⟩ := setStatus_follows hw a (asked_mild (K := K) away)
    exact ⟨t, ht 1, hfollows⟩) accounts hw

theorem follow_follows (hw : s.world.Sited) (prim : StatusPrimitive) (a : AccountRef) :
    ∃ t, s.follow K prim a = some t ∧ Follows s t := by
  unfold follow
  split
  · obtain ⟨t, ht, hfollows⟩ : ∃ t, (∀ fuel, setStatus (fuel + 3) s a (K.id prim) [] = some t) ∧
        Follows s t := setStatus_follows hw a (.inl rfl)
    exact ⟨t, ht 1, hfollows⟩
  · exact ⟨s, rfl, .refl hw⟩

/-- An event always ends, and every status channel is echoed after it. -/
theorem step_settled (h : s.Settled) (e : Event) : ∃ t, s.step P K e = some t ∧ t.Settled := by
  cases e with
  | statusChannel a name => exact setStatusChannelName_settled h a name
  | removed a => exact ⟨_, rfl, h.left (World.leaveStatusChannel_leftBy h.sited a)⟩
  | activated a id =>
    refine ⟨_, rfl, ?_⟩
    split
    · by_cases hid : id = available
      · rw [hid]
        exact (follows_give h.sited fun _ _ _ => .inl rfl).settled h
      · exact (follows_other h.sited hid).settled h
    · exact h
  | topic channame text =>
    rw [step, mTopic]
    split
    · exact ⟨s, rfl, h⟩
    · next c _ =>
      split
      · exact ⟨s, rfl, h⟩
      · obtain ⟨t, ht, hfollows⟩ := setTopic_follows h.sited c (s.world.nicks.entity userRef) text
        exact ⟨t, ht, hfollows.settled h⟩
  | away accounts message =>
    obtain ⟨t, ht, hfollows⟩ := setStatuses_follows (K := K) h.sited accounts message
    exact ⟨t, ht, hfollows.settled h⟩
  | welcome accounts =>
    obtain ⟨t, ht, hfollows⟩ := foldlM_follows
      (fun _ a hw => follow_follows (K := K) hw (s.awayPrimitive K accounts) a) accounts h.sited
    refine ⟨t, ?_, hfollows.settled h⟩
    rw [step, isAway, ht]
    rfl

theorem run_settled (h : s.Settled) (es : List Event) :
    ∃ t, Runs.run (step P K) s es = some t ∧ t.Settled := by
  induction es generalizing s with
  | nil => exact ⟨s, rfl, h⟩
  | cons e es ih =>
    obtain ⟨t, ht, hone⟩ := step_settled (P := P) (K := K) h e
    obtain ⟨u, hu, hrest⟩ := ih hone
    exact ⟨u, Runs.run_cons.mpr ⟨t, ht, hu⟩, hrest⟩

/-- A session before `Account::init`, whatever libpurple has stored. -/
def start (D : PurpleData) (active : AccountRef → Str)
    (status : AccountRef → Str → Option PurpleStatus) : Statuses where
  world := { World.initial with data := D }
  active := active
  status := status

theorem start_settled (D : PurpleData) (active : AccountRef → Str)
    (status : AccountRef → Str → Option PurpleStatus) : (start D active status).Settled :=
  ⟨⟨fun _ _ => nofun, fun _ _ => nofun, fun _ => List.nodup_nil, fun _ => List.not_mem_nil⟩,
    fun _ _ => nofun⟩

/-- The start-up and whatever comes after it end, and then what an account says is nothing or begins
with the topic of its channel. -/
theorem run_echoed (D : PurpleData) (active : AccountRef → Str)
    (status : AccountRef → Str → Option PurpleStatus) {accounts : List AccountRef}
    (hl : accounts.Nodup) (es : List Event) :
    ∃ t, (((start D active status).init P accounts).bind fun s => Runs.run (step P K) s es) = some t ∧
      ∀ c, t.Echoed c := by
  obtain ⟨s, hs, hsettled⟩ := init_settled (P := P) (start_settled D active status) hl
    fun _ _ _ => nofun
  obtain ⟨t, ht, hdone⟩ := run_settled (P := P) (K := K) hsettled es
  exact ⟨t, by rw [hs]; exact ht, hdone.echoed⟩

def purplePrimitives : Primitives where
  table := [(str "unset", str "Unset"), (str "offline", str "Offline"),
    (str "available", str "Available"), (str "unavailable", str "Do not disturb"),
    (str "invisible", str "Invisible"), (str "away", str "Away"),
    (str "extended_away", str "Extended away"), (str "mobile", str "Mobile"),
    (str "tune", str "Listening to music"), (str "mood", str "Feeling")]
  apart := by decide
  available := rfl

/-- Two accounts for one channel. The first one says hello, the other one is away. -/
def hellos (a : AccountRef) (id : Str) : Option PurpleStatus :=
  if id = available then some { message := some (if a = 0 then str "Hello" else []) }
  else if id = str "away" then some {} else none

def twoAccounts : Statuses :=
  start { statusChannel := fun _ => str "&minbif" }
    (fun a => if a = 0 then available else str "away") hellos

/-- The topic is cleared, which the message of the first account undoes. -/
theorem run_echoed_hellos : ∃ t,
    ((twoAccounts.init World.noPurple [0, 1]).bind fun s =>
      Runs.run (step World.noPurple purplePrimitives) s
        [.topic (str "&minbif") [], .away [0, 1] (str "lunch"), .welcome [0, 1],
          .statusChannel 1 (str "&work")]) = some t ∧ ∀ c, t.Echoed c :=
  run_echoed _ _ _ (by decide) _

end Runs

section Away

/-- The User types AWAY: the accounts that can are in the status that the text stands for, and say the
text where it is no name of a status. -/
theorem setStatuses_spec (hw : s.world.Sited) (l : List AccountRef) (away : Str) :
    ∃ t, s.setStatuses K l away = some t ∧ ∀ a ∈ l,
      t.active a = ((K.id (K.asked away).1).filter fun id => (s.status a id).isSome).getD (s.active a) ∧
      ((K.asked away).2 ≠ [] → ∀ id ∈ K.id (K.asked away).1, ∀ m ∈ t.message a id,
        m = (K.asked away).2) := by
  obtain ⟨t, ht, -⟩ := setStatuses_follows (K := K) hw l away
  exact ⟨t, ht, fun a ha => ⟨active_setStatuses ht ha,
    fun hsay id hid => message_setStatuses ht hsay ha hid⟩⟩

theorem setStatuses_spec_lunch : ∃ t,
    twoAccounts.setStatuses purplePrimitives [0, 1] (str "lunch") = some t ∧ ∀ a ∈ [0, 1],
      t.active a = ((purplePrimitives.id (purplePrimitives.asked (str "lunch")).1).filter fun id =>
        (twoAccounts.status a id).isSome).getD (twoAccounts.active a) ∧
      ((purplePrimitives.asked (str "lunch")).2 ≠ [] →
        ∀ id ∈ purplePrimitives.id (purplePrimitives.asked (str "lunch")).1, ∀ m ∈ t.message a id,
          m = (purplePrimitives.asked (str "lunch")).2) :=
  setStatuses_spec (start_settled _ _ _).sited [0, 1] (str "lunch")

/-- The User is told to be away if an account is, and then those that are awake go where the last
such account is. -/
theorem isAway_spec (hw : s.world.Sited) (l : List AccountRef) :
    ∃ t, s.isAway K l = some ((s.lastAway K l).isSome, t) ∧
      ∀ a₀ ∈ s.lastAway K l, ∀ a, t.active a =
        if a ∈ l ∧ s.awake K a ∧ (s.status a (s.active a₀)).isSome then s.active a₀ else s.active a := by
  obtain ⟨t, ht, -⟩ := foldlM_follows
    (fun _ a hw => follow_follows (K := K) hw (s.awayPrimitive K l) a) l hw
  have haway : ∀ a₀ ∈ s.lastAway K l, statusAvailable < s.getStatus K a₀ := by
    intro a₀ h
    simpa using (List.mem_filter.mp (List.mem_of_getLast? h)).2
  refine ⟨t, ?_, fun a₀ h₀ a => ?_⟩
  · rw [isAway, ht, Option.map_some, awayPrimitive_eq]
    cases h₀ : s.lastAway K l with
    | none => rfl
    | some a₀ => simp [(haway a₀ h₀).ne']
  · have hprim : s.awayPrimitive K l = s.getStatus K a₀ := by
      rw [awayPrimitive_eq, h₀]
      rfl
    have hlt := haway a₀ h₀
    have hid : K.id (s.getStatus K a₀) = some (s.active a₀) :=
      id_ofId (Nat.ne_of_gt (Nat.lt_of_le_of_lt (Nat.zero_le _) hlt))
    rw [hprim] at ht
    exact foldlM_follow hid (Primitives.id_ne_available hlt.ne' hid) ht a

theorem isAway_spec_two : ∃ t, twoAccounts.isAway purplePrimitives [0, 1] =
      some ((twoAccounts.lastAway purplePrimitives [0, 1]).isSome, t) ∧
    ∀ a₀ ∈ twoAccounts.lastAway purplePrimitives [0, 1], ∀ a, t.active a =
      if a ∈ [0, 1] ∧ twoAccounts.awake purplePrimitives a ∧
        (twoAccounts.status a (twoAccounts.active a₀)).isSome
      then twoAccounts.active a₀ else twoAccounts.active a :=
  isAway_spec (start_settled _ _ _).sited [0, 1]

end Away

end Statuses
end Minbif
