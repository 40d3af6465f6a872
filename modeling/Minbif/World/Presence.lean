import Minbif.Irc.Standing
import Minbif.World.Board
import Minbif.World.Nested
import Minbif.World.Sound

/-! What the status channels show of the buddies. -/
namespace Minbif
open Function

theorem or_voice (st : Status) : (st ||| statusVoice) &&& statusVoice ≠ 0 := by
  have h : (st ||| statusVoice) &&& statusVoice = statusVoice := by
    refine BitVec.eq_of_getLsbD_eq fun i _ => ?_
    rw [BitVec.getLsbD_and, BitVec.getLsbD_or]
    cases statusVoice.getLsbD i <;> simp
  rw [h]
  decide

theorem without_voice (st : Status) : (st &&& ~~~statusVoice) &&& statusVoice = 0 := by
  refine BitVec.eq_of_getLsbD_eq fun i hi => ?_
  rw [BitVec.getLsbD_and, BitVec.getLsbD_and, BitVec.getLsbD_not]
  cases statusVoice.getLsbD i <;> simp

namespace World

variable {P : Purple} {T : Terms} {w w' w'' : World} {b b' : BuddyRef} {n : NickRef} {c : ChanRef}
  {a : AccountRef}

/-- A session whose User is registered, where the buddies and their nicks point to each other. -/
structure Firm (w : World) : Prop where
  ok : w.Ok none
  owned : w.nicks.Owned
  registered : w.registered = true

theorem Firm.goes (h : w.Firm) (hgo : Goes P T w w') (hreg : w'.registered = true) : w'.Firm :=
  ⟨hgo.ok h.ok, Changes.owned hgo h.ok h.owned, hreg⟩

theorem Firm.nickOfBuddy (h : w.Firm) : w.nickOfBuddy b = w.nicks.buddyNick b := by
  unfold World.nickOfBuddy
  cases hb : w.nicks.buddyNick b with
  | some n => rfl
  | none =>
    rw [Option.none_or]
    refine List.find?_eq_none.mpr fun n hn => ?_
    obtain ⟨k, hk⟩ := OrdMap.mem_values.mp hn
    intro hcond
    rw [decide_eq_true_eq] at hcond
    have hnick : w.IsNickOf b n := ⟨⟨k, hk⟩, hcond⟩
    rw [isNickOf_iff h.ok h.owned, hb] at hnick
    cases hnick

/-- Two buddies have different nicks. -/
theorem Firm.nick_ne (h : w.Firm) {n' : NickRef} (hb : w.nicks.buddyNick b = some n)
    (hb' : w.nicks.buddyNick b' = some n') (hne : b' ≠ b) : n' ≠ n := by
  rintro rfl
  have hown := (h.ok.table.buddyNick b _ hb).2.2
  exact hne ((h.ok.table.buddyNick b' _ hb').2.2.symm.trans hown)

theorem SameBoard.getStatusChannel (h : SameBoard w w') (a : AccountRef) :
    w'.getStatusChannel a = w.getStatusChannel a := by
  unfold World.getStatusChannel Chans.getChannel
  rw [h.channel, h.chans.table, h.chans.conv]

/-- The buddy has the nick it had, on the same server and channels. -/
structure Stays (b : BuddyRef) (w w' : World) : Prop where
  nick : w'.nicks.buddyNick b = w.nicks.buddyNick b
  server : ∀ n, w.nicks.buddyNick b = some n → w'.nicks.server n = w.nicks.server n
  status : ∀ n, w.nicks.buddyNick b = some n → ∀ c, w'.chans.statusOn n c = w.chans.statusOn n c

theorem Stays.refl (b : BuddyRef) (w : World) : Stays b w w :=
  ⟨rfl, fun _ _ => rfl, fun _ _ _ => rfl⟩

theorem Stays.trans (h : Stays b w w') (h' : Stays b w' w'') : Stays b w w'' := by
  refine ⟨h'.nick.trans h.nick, fun n hn => ?_, fun n hn c => ?_⟩
  · exact (h'.server n (h.nick.trans hn)).trans (h.server n hn)
  · exact (h'.status n (h.nick.trans hn) c).trans (h.status n hn c)

/-- Only the channels differ, and not in what matters to the nick of the buddy. -/
theorem Stays.onChans {C : Chans}
    (h : ∀ n, w.nicks.buddyNick b = some n → ∀ c, C.statusOn n c = w.chans.statusOn n c) :
    Stays b w { w with chans := C } := ⟨rfl, fun _ _ => rfl, h⟩

/-- The same, unless the buddy has lost its nick. -/
def Wanes (b : BuddyRef) (w w' : World) : Prop := w'.nicks.buddyNick b = none ∨ Stays b w w'

theorem Wanes.trans (h : Wanes b w w') (h' : Wanes b w' w'') : Wanes b w w'' := by
  rcases h' with h' | h'
  · exact .inl h'
  · exact h.imp (fun hnone => h'.nick.trans hnone) fun hs => hs.trans h'

/-- What the channel shows of the buddy is what it is. -/
structure Shows (w : World) (b : BuddyRef) (n : NickRef) (c : ChanRef) : Prop where
  online : (w.chans.statusOn n c).isSome = w.data.online b
  voice : ∀ st, w.chans.statusOn n c = some st →
    (st &&& statusVoice ≠ 0 ↔ w.data.available b = true ∧ w.data.voicedBuddies = true)

theorem Stays.shows (h : Stays b w w') (hn : w.nicks.buddyNick b = some n)
    (hon : w'.data.online b = w.data.online b) (hav : w'.data.available b = w.data.available b)
    (hv : w'.data.voicedBuddies = w.data.voicedBuddies) (hs : w.Shows b n c) : w'.Shows b n c := by
  refine ⟨?_, fun st hst => ?_⟩
  · rw [h.status n hn, hon]
    exact hs.online
  · rw [h.status n hn] at hst
    rw [hav, hv]
    exact hs.voice st hst

/-- The nick of a buddy is on no other channel than the status channel of its account. -/
def Only (P : Purple) (w : World) : Prop := ∀ b n c, w.nicks.buddyNick b = some n →
  w.chans.statusOn n c ≠ none → w.getStatusChannel (P.buddyAccount b) = some c

section Updated

theorem quit_stays (h : w.Ok none) (hb : w.nicks.buddyNick b ≠ some n) (text : Str) :
    Stays b w (w.quit n text) := by
  refine Stays.onChans fun m hm c => ?_
  rw [Chans.quit_statusOn h.member, if_neg]
  rintro rfl
  exact hb hm

theorem updated_stays (h : w.Firm) (hne : b' ≠ b) : Stays b' w (w.updated P b) := by
  unfold updated
  rw [h.nickOfBuddy]
  split
  · next c n hc hn =>
    have hother : ∀ m c', w.nicks.buddyNick b' = some m → ¬ (m = n ∧ c' = c) :=
      fun m c' hm he => h.nick_ne hn hm hne he.1
    split
    · dsimp only
      split
      · next hget =>
        refine Stays.onChans fun m hm c' => ?_
        rw [Chans.join_statusOn h.ok.member hget, if_neg (hother m c' hm)]
      · next cu hget =>
        split
        · refine Stays.onChans fun m hm c' => ?_
          rw [Chans.setMode_statusOn h.ok.member hget, if_neg (hother m c' hm)]
        split
        · refine Stays.onChans fun m hm c' => ?_
          rw [Chans.delMode_statusOn h.ok.member hget, if_neg (hother m c' hm)]
        · exact .refl _ _
    split
    · exact quit_stays h.ok (fun hb => h.nick_ne hn hb hne rfl) _
    · exact .refl _ _
  · exact .refl _ _

theorem shows_on {C : Chans} {st : Status} (hst : C.statusOn n c = some st)
    (hon : w.data.online b = true) (hv : st &&& statusVoice ≠ 0 ↔
      (w.data.available b && w.data.voicedBuddies) = true) :
    Shows { w with chans := C } b n c := by
  refine ⟨?_, fun st' hst' => ?_⟩
  · change (C.statusOn n c).isSome = w.data.online b
    rw [hst, hon]
    rfl
  · obtain rfl := Option.some.inj (hst.symm.trans hst')
    rw [hv, Bool.and_eq_true]

theorem shows_off {C : Chans} (hst : C.statusOn n c = none) (hoff : w.data.online b = false) :
    Shows { w with chans := C } b n c := by
  refine ⟨?_, fun st' hst' => absurd (hst.symm.trans hst') nofun⟩
  change (C.statusOn n c).isSome = w.data.online b
  rw [hst, hoff]
  rfl

/-- After `updated` the channel shows the buddy. -/
theorem updated_shows (h : w.Firm) (hn : w.nicks.buddyNick b = some n)
    (hc : w.getStatusChannel (P.buddyAccount b) = some c) : (w.updated P b).Shows b n c := by
  unfold updated
  rw [h.nickOfBuddy, hn, hc]
  dsimp only
  split
  · next hon =>
    split
    · next hget =>
      refine shows_on ((Chans.join_statusOn h.ok.member hget _).trans (if_pos ⟨rfl, rfl⟩)) hon ?_
      split
      · next hv => exact iff_of_true (by decide) hv
      · next hv => exact iff_of_false (by decide) hv
    · next cu hget =>
      split
      · next hv =>
        rw [Bool.and_eq_true] at hv
        refine shows_on ((Chans.setMode_statusOn h.ok.member hget).trans (if_pos ⟨rfl, rfl⟩)) hon ?_
        exact iff_of_true (or_voice _) hv.1
      split
      · next hv =>
        rw [Bool.and_eq_true, Bool.not_eq_true'] at hv
        refine shows_on ((Chans.delMode_statusOn h.ok.member hget).trans (if_pos ⟨rfl, rfl⟩)) hon ?_
        rw [hv.1]
        exact iff_of_false (not_not_intro (without_voice _)) nofun
      · next hset hdel =>
        have hst : w.chans.statusOn n c = some (w.chans.cuStatus cu) := by
          rw [Chans.statusOn, hget]
          rfl
        refine shows_on hst hon ?_
        rw [Bool.and_eq_true, decide_eq_true_eq, not_and] at hset hdel
        rw [Bool.not_eq_true', not_not] at hdel
        cases hav : w.data.available b && w.data.voicedBuddies with
        | true => exact iff_of_true (hset hav) rfl
        | false => exact iff_of_false (not_not_intro (hdel hav)) nofun
  · next hoff =>
    rw [Bool.not_eq_true] at hoff
    split
    · exact shows_off ((Chans.quit_statusOn h.ok.member n _).trans (if_pos rfl)) hoff
    · next hget =>
      rw [← Chans.statusOn_isSome, Option.not_isSome_iff_eq_none] at hget
      exact shows_off hget hoff

/-- The nick of a buddy that is `updated` is on no channel that it was not on before, but its own. -/
theorem updated_only (h : w.Firm) (honly : Only P w) (b : BuddyRef) : Only P (w.updated P b) := by
  intro b' n c hn hst
  rw [(updated_board P w b).getStatusChannel]
  rw [(updated_nicks P w b).1] at hn
  by_cases hne : b' = b
  swap
  · rw [(updated_stays h hne).status n hn] at hst
    exact honly b' n c hn hst
  subst hne
  by_cases hc : w.getStatusChannel (P.buddyAccount b') = some c
  · exact hc
  refine honly b' n c hn fun hnone => hst ?_
  -- on a channel that is not its own nothing is done but to leave it
  unfold updated
  rw [h.nickOfBuddy, hn]
  split
  · next c' n' hc' hn' =>
    obtain rfl := Option.some.inj hn'
    have hcc : ¬ (n = n ∧ c = c') := fun he => hc (hc'.trans (congrArg some he.2.symm))
    split
    · dsimp only
      split
      · next hget => exact ((Chans.join_statusOn h.ok.member hget _).trans (if_neg hcc)).trans hnone
      · next cu hget =>
        split
        · exact ((Chans.setMode_statusOn h.ok.member hget).trans (if_neg hcc)).trans hnone
        split
        · exact ((Chans.delMode_statusOn h.ok.member hget).trans (if_neg hcc)).trans hnone
        · exact hnone
    split
    · exact (Chans.quit_statusOn h.ok.member n _).trans (if_pos rfl)
    · exact hnone
  · exact hnone

end Updated

/-- Nothing is promised. -/
def noTerms : Terms where
  fair := False
  apart := False
  still := False
  steady _ := False
  gone _ := True
  clean := False
  presents := True

theorem Firm.withData (h : w.Firm) (D : PurpleData) : Firm { w with data := D } := by
  have hgo : Goes noPurple noTerms w { w with data := D } := (Change.data w none D).goes
  exact h.goes hgo h.registered

theorem Firm.connected (h : w.Firm) (a : AccountRef) : (w.connected a).Firm := by
  have hgo : Goes noPurple noTerms w (w.connected a) := (Change.connected w a).goes
  exact h.goes hgo h.registered

section Node

/-- The nicks are the same, and on the channels that of one buddy at most does not stay. -/
structure Touches (P : Purple) (b : BuddyRef) (w w' : World) : Prop where
  firm : w'.Firm
  only : Only P w'
  board : SameBoard w w'
  nicks : w'.nicks = w.nicks
  data : ∃ aliases, w'.data = { w.data with buddyAlias := aliases }
  others : ∀ b', b' ≠ b → Stays b' w w'

theorem Touches.refl (h : w.Firm) (honly : Only P w) : Touches P b w w :=
  ⟨h, honly, .refl w, rfl, ⟨w.data.buddyAlias, rfl⟩, fun b' _ => .refl b' w⟩

theorem Touches.trans (h : Touches P b w w') (h' : Touches P b w' w'') : Touches P b w w'' := by
  obtain ⟨aliases, hdata⟩ := h.data
  obtain ⟨aliases', hdata'⟩ := h'.data
  refine ⟨h'.firm, h'.only, h.board.trans h'.board, h'.nicks.trans h.nicks, ⟨aliases', ?_⟩,
    fun b' hne => (h.others b' hne).trans (h'.others b' hne)⟩
  rw [hdata', hdata]

theorem updated_touches (h : w.Firm) (honly : Only P w) (b : BuddyRef) :
    Touches P b w (w.updated P b) := by
  obtain ⟨hnicks, hdata, hreg, -⟩ := updated_nicks P w b
  have hgo : Goes P noTerms w (w.updated P b) := updated_goes h.ok (h.ok.started h.registered) b
  refine ⟨h.goes hgo (hreg.trans h.registered), updated_only h honly b, updated_board P w b, hnicks,
    ⟨w.data.buddyAlias, ?_⟩, fun b' hne => updated_stays h hne⟩
  rw [hdata]

theorem storeAlias_touches (h : w.Firm) (honly : Only P w) (b : BuddyRef) (nickname : Str) :
    Touches P b w (w.storeAlias b nickname) := by
  have hgo : Goes P noTerms w (w.storeAlias b nickname) := (Change.data w none _).goes
  have hboard : SameBoard w (w.storeAlias b nickname) := ⟨.refl _, rfl, rfl⟩
  refine ⟨h.goes hgo h.registered, fun b n c hn hst => ?_, hboard, rfl, ⟨_, rfl⟩,
    fun b' _ => ⟨rfl, fun _ _ => rfl, fun _ _ _ => rfl⟩⟩
  rw [hboard.getStatusChannel]
  exact honly b n c hn hst

/-- A loop over buddies shows those it comes to, and no one else less than before. -/
theorem foldl_updated (h : w.Firm) (honly : Only P w) (l : List BuddyRef) :
    let w' := l.foldl (fun w b => w.updated P b) w
    w'.Firm ∧ Only P w' ∧ SameBoard w w' ∧ w'.nicks = w.nicks ∧ w'.data = w.data ∧
      ∀ b n c, w.nicks.buddyNick b = some n → w.getStatusChannel (P.buddyAccount b) = some c →
        (b ∈ l ∨ w.Shows b n c) → w'.Shows b n c := by
  induction l generalizing w with
  | nil => exact ⟨h, honly, .refl w, rfl, rfl, fun b n c _ _ hb => hb.resolve_left nofun⟩
  | cons x l ih =>
    have hone := updated_touches h honly x
    obtain ⟨hnicks, hdata, -⟩ := updated_nicks P w x
    obtain ⟨hfirm, honly', hboard, hnicks', hdata', hshows⟩ := ih hone.firm hone.only
    refine ⟨hfirm, honly', hone.board.trans hboard, hnicks'.trans hnicks, hdata'.trans hdata,
      fun b n c hn hc hb => ?_⟩
    refine hshows b n c (by rw [hnicks, hn]) (by rw [hone.board.getStatusChannel, hc]) ?_
    by_cases hbx : b = x
    · subst hbx
      exact .inr (updated_shows h hn hc)
    · refine hb.imp (fun hb => (List.mem_cons.mp hb).resolve_left hbx) fun hold => ?_
      exact (hone.others b hbx).shows hn (by rw [hdata]) (by rw [hdata]) (by rw [hdata]) hold

/-- A new nick is on no channel yet. -/
theorem newBuddy_spec (h : w.Firm) (honly : Only P w) {s : ServerRef} {name : Str}
    (hs : w.nicks.servers.find? name = some s) (hb : w.nicks.buddyNick b = none) :
    (w.newBuddy P b s).Firm ∧ Only P (w.newBuddy P b s) ∧
      (w.newBuddy P b s).nicks.server w.nicks.next = s ∧
      ∀ b', b' ≠ b → Stays b' w (w.newBuddy P b s) := by
  have hgo : Goes P noTerms w (w.newBuddy P b s) := newBuddy_goes h.registered hs hb
  have hnext : w.nicks.alive w.nicks.next = false := by
    by_contra ha
    rw [Bool.not_eq_false] at ha
    exact absurd (h.ok.table.bound _ ha) (Nat.lt_irrefl _)
  have hself : (w.newBuddy P b s).nicks.buddyNick b = some w.nicks.next := newBuddy_buddyNick w b s
  have hother : ∀ b', b' ≠ b → (w.newBuddy P b s).nicks.buddyNick b' = w.nicks.buddyNick b' := by
    intro b' hne
    simp [newBuddy, Nicks.addNick, Nicks.newNick, hne]
  have hserver : ∀ n, (w.newBuddy P b s).nicks.server n = update w.nicks.server w.nicks.next s n :=
    fun _ => rfl
  refine ⟨h.goes hgo h.registered, fun b' n c hn hst => ?_, ?_, fun b' hne => ?_⟩
  · by_cases hne : b' = b
    · subst hne
      rw [hself] at hn
      obtain rfl := Option.some.inj hn
      have hnone : w.chans.channels w.nicks.next = [] := by
        by_contra hne
        rw [(h.ok.placed.nick _ hne).1] at hnext
        cases hnext
      refine absurd (Chans.statusOn_eq_none.mpr fun cu hcu => ?_) hst
      change cu ∈ w.chans.channels w.nicks.next at hcu
      rw [hnone] at hcu
      cases hcu
    · rw [hother b' hne] at hn
      exact honly b' n c hn hst
  · rw [hserver, update_self]
  · refine ⟨hother b' hne, fun n hn => ?_, fun _ _ _ => rfl⟩
    have hlt := h.ok.table.bound n (h.ok.table.buddyNick b' n hn).1
    rw [hserver, update_of_ne (Nat.ne_of_lt hlt)]

/-- `update_node` shows its buddy, and leaves the others. -/
structure Updates (P : Purple) (b : BuddyRef) (w w' : World) : Prop where
  firm : w'.Firm
  only : Only P w'
  servers : w'.nicks.servers = w.nicks.servers
  data : ∃ aliases, w'.data = { w.data with buddyAlias := aliases }
  others : ∀ b', b' ≠ b → Stays b' w w'
  nick : ∀ n, w'.nicks.buddyNick b = some n →
    w.nicks.buddyNick b = some n ∧ w'.nicks.server n = w.nicks.server n ∨
      w.nicks.servers.find? (w.data.servername (P.buddyAccount b)) = some (w'.nicks.server n)
  shows : ∀ n c, w'.nicks.buddyNick b = some n →
    w'.getStatusChannel (P.buddyAccount b) = some c → w'.Shows b n c

theorem updateNode_updates (h : w.Firm) (honly : Only P w) (b : BuddyRef) :
    Updates P b w (w.updateNode P b) := by
  have hfinish : ∀ (w : World) (n : NickRef), w.Firm → Only P w → w.nicks.buddyNick b = some n →
      let w' := (if w.getAlias P b = w.nicks.nickname n then w
        else w.setAlias P b (w.nicks.nickname n)).updated P b
      Touches P b w w' ∧ ∀ c, w'.getStatusChannel (P.buddyAccount b) = some c → w'.Shows b n c := by
    intro w n h honly hn
    have hnamed : Touches P b w (if w.getAlias P b = w.nicks.nickname n then w
        else w.setAlias P b (w.nicks.nickname n)) := by
      split
      · exact .refl h honly
      · have hstore := storeAlias_touches (P := P) h honly b (w.nicks.nickname n)
        exact hstore.trans (updated_touches hstore.firm hstore.only b)
    generalize (if w.getAlias P b = w.nicks.nickname n then w
      else w.setAlias P b (w.nicks.nickname n)) = w₁ at hnamed
    refine ⟨hnamed.trans (updated_touches hnamed.firm hnamed.only b), fun c hc => ?_⟩
    rw [(updated_board P w₁ b).getStatusChannel] at hc
    exact updated_shows hnamed.firm (by rw [hnamed.nicks, hn]) hc
  unfold updateNode
  split
  · next n hn =>
    obtain ⟨ht, hshows⟩ := hfinish w n h honly hn
    refine ⟨ht.firm, ht.only, by rw [ht.nicks], ht.data, ht.others, fun m hm => ?_,
      fun m c hm hc => ?_⟩
    · rw [ht.nicks] at hm ⊢
      exact .inl ⟨hm, rfl⟩
    · rw [ht.nicks, hn] at hm
      obtain rfl := Option.some.inj hm
      exact hshows c hc
  · next hnone =>
    split
    · exact ⟨h, honly, rfl, ⟨w.data.buddyAlias, rfl⟩, fun b' _ => .refl b' w,
        fun n hn => absurd (hnone.symm.trans hn) nofun, fun n c hn => absurd (hnone.symm.trans hn) nofun⟩
    · next s hs =>
      obtain ⟨hfirm, honly', hserver, hothers⟩ := newBuddy_spec h honly hs hnone
      have hself := newBuddy_buddyNick (P := P) w b s
      obtain ⟨ht, hshows⟩ := hfinish (w.newBuddy P b s) w.nicks.next hfirm honly' hself
      refine ⟨ht.firm, ht.only, by rw [ht.nicks]; rfl, ht.data,
        fun b' hne => (hothers b' hne).trans (ht.others b' hne), fun m hm => ?_, fun m c hm hc => ?_⟩
      · rw [ht.nicks, hself] at hm
        obtain rfl := Option.some.inj hm
        rw [ht.nicks, hserver]
        exact .inr hs
      · rw [ht.nicks, hself] at hm
        obtain rfl := Option.some.inj hm
        exact hshows c hc

end Node

section Removal

theorem Only.wanes (h : Only P w) (hw : ∀ b, Wanes b w w') (hboard : SameBoard w w') :
    Only P w' := by
  intro b n c hn hst
  rw [hboard.getStatusChannel]
  rcases hw b with hnone | hs
  · rw [hnone] at hn
    cases hn
  · rw [hs.nick] at hn
    rw [hs.status n hn] at hst
    exact h b n c hn hst

/-- A nick that is deleted takes nothing from another buddy than its own. -/
theorem drop_wanes (h : w.Firm) (ha : w.nicks.alive n = true) (k : Str)
    (l : ServerRef → List NickRef) (b : BuddyRef) :
    Wanes b w { w.deleteNick n with nicks := w.nicks.dropped k n l } := by
  have hnick : ∀ b, (w.nicks.dropped k n l).buddyNick b =
      if w.nicks.kind n = .buddy ∧ b = w.nicks.buddy n then none else w.nicks.buddyNick b := by
    intro b
    simp only [Nicks.dropped, Nicks.freeNick]
    by_cases hk : w.nicks.kind n = .buddy
    · by_cases hb : b = w.nicks.buddy n
      · rw [if_pos hk, if_pos ⟨hk, hb⟩, hb, update_self]
      · rw [if_pos hk, if_neg fun hc => hb hc.2, update_of_ne hb]
    · rw [if_neg hk, if_neg fun hc => hk hc.1]
  by_cases hown : w.nicks.kind n = .buddy ∧ b = w.nicks.buddy n
  · exact .inl ((hnick b).trans (if_pos hown))
  · refine .inr ⟨(hnick b).trans (if_neg hown), fun _ _ => rfl, fun m hm c => ?_⟩
    have hne : m ≠ n := by
      rintro rfl
      obtain ⟨-, hk, hb⟩ := h.ok.table.buddyNick b m hm
      exact hown ⟨hk, hb.symm⟩
    exact (Chans.quit_statusOn h.ok.member n _).trans (if_neg hne)

/-- The nick of a buddy is removed. -/
theorem removedNode_wanes (h : w.Firm) (b : BuddyRef) :
    (w.removedNode b).Firm ∧ (w.removedNode b).nicks.buddyNick b = none ∧
      (w.removedNode b).nicks.servers = w.nicks.servers ∧ (w.removedNode b).data = w.data ∧
      ∀ b', Wanes b' w (w.removedNode b) := by
  have hgo : Goes noPurple noTerms w (w.removedNode b) := removedNode_goes h.ok b
  unfold removedNode at hgo ⊢
  rw [h.nickOfBuddy] at hgo ⊢
  cases hb : w.nicks.buddyNick b with
  | none => exact ⟨h, hb, rfl, rfl, fun b' => .inr (.refl b' w)⟩
  | some n =>
    rw [hb] at hgo
    dsimp only at hgo ⊢
    obtain ⟨ha, hk, hbuddy⟩ := h.ok.table.buddyNick b n hb
    have hquit : Goes noPurple noTerms w (w.quit n (str "Removed")) :=
      quit_goes (h.ok.ne_user hk) _
    have hfirm := h.goes hquit h.registered
    have hfind : (w.quit n (str "Removed")).nicks.users.find? (w.nicks.nickname n) = some n :=
      OrdMap.find?_eq_some.mpr (h.ok.table.conv n ha (by rw [hk]; rfl))
    have hname : (w.quit n (str "Removed")).nicks.nickname n = w.nicks.nickname n := rfl
    rw [hname, removeNick_eq hfind] at hgo ⊢
    have hnone : (w.nicks.dropped (w.nicks.nickname n) n
        (w.nicks.serverUsersWithout n)).buddyNick b = none := by
      simp only [Nicks.dropped, Nicks.freeNick]
      rw [if_pos hk, hbuddy, update_self]
    refine ⟨h.goes hgo h.registered, hnone, rfl, rfl, fun b' => ?_⟩
    by_cases hne : b' = b
    · subst hne
      exact .inl hnone
    · have hstays := quit_stays (b := b') h.ok (fun hb' => h.nick_ne hb hb' hne rfl) (str "Removed")
      have hstays : Stays b' w ((w.quit n (str "Removed")).purgeDccs n) :=
        ⟨hstays.nick, hstays.server, hstays.status⟩
      have hpurged : ((w.quit n (str "Removed")).purgeDccs n).Firm :=
        ⟨{ hfirm.ok with }, hfirm.owned, hfirm.registered⟩
      exact Wanes.trans (.inr hstays) (drop_wanes hpurged ha _ _ b')

/-- Who has lost the nick has none on the server, and no one else has either. -/
theorem removeServerNicks_wanes {s : ServerRef} (hs : s ≠ ircRef) (fuel : Nat) (h : w.Firm) :
    (removeServerNicks s fuel w).Firm ∧ (removeServerNicks s fuel w).data = w.data ∧
      ∀ b, Wanes b w (removeServerNicks s fuel w) := by
  induction fuel generalizing w with
  | zero => exact ⟨h, rfl, fun b => .inr (.refl b w)⟩
  | succ fuel ih =>
    unfold removeServerNicks
    split
    · exact ⟨h, rfl, fun b => .inr (.refl b w)⟩
    · next e he =>
      have hmem := List.mem_of_find?_eq_some he
      have hserver : w.nicks.server e.2 = s := by simpa using List.find?_some he
      have ha := h.ok.table.live _ _ hmem
      have hconv := (h.ok.mem_server hs ha hserver).1
      let w₁ : World := { w.deleteNick e.2 with
        nicks := w.nicks.dropped e.1 e.2 w.nicks.serverUsers }
      have hdrop : Goes noPurple noTerms w w₁ :=
        (Change.drop w none e.1 e.2 _ hmem hconv (.inr ⟨rfl, trivial⟩) False.elim).goes
      obtain ⟨hfirm, hdata, hwanes⟩ := ih (w := w₁) (h.goes hdrop h.registered)
      exact ⟨hfirm, hdata, fun b => (drop_wanes h ha e.1 _ b).trans (hwanes b)⟩

theorem removeServer_wanes (h : w.Firm) (name : Str) :
    (w.removeServer name).Firm ∧ (w.removeServer name).data = w.data ∧
      (∀ b, Wanes b w (w.removeServer name)) ∧
      (∀ k, k ≠ name → (w.removeServer name).nicks.servers.find? k = w.nicks.servers.find? k) ∧
      ∀ b n, (w.removeServer name).nicks.buddyNick b = some n →
        w.nicks.servers.find? name ≠ some (w.nicks.server n) := by
  have hgo : Goes noPurple noTerms w (w.removeServer name) :=
    removeServer_goes h.ok name fun s _ => ⟨trivial, False.elim⟩
  have hdata : (w.removeServer name).data = w.data ∧
      (w.removeServer name).registered = w.registered := by
    unfold removeServer
    split
    · exact ⟨rfl, rfl⟩
    · next s hs =>
      obtain ⟨hfirm, hdata, -⟩ := removeServerNicks_wanes
        (h.ok.table.remote name s (OrdMap.find?_eq_some.mp hs)) w.nicks.users.entries.length h
      exact ⟨hdata, hfirm.registered.trans h.registered.symm⟩
  refine ⟨h.goes hgo (hdata.2.trans h.registered), hdata.1, ?_⟩
  unfold removeServer
  split
  · next hnone => exact ⟨fun b => .inr (.refl b w), fun _ _ => rfl, fun b n _ => by rw [hnone]; nofun⟩
  · next s hs =>
    have hremote := h.ok.table.remote name s (OrdMap.find?_eq_some.mp hs)
    obtain ⟨hgo', hdeserted⟩ := removeServerNicks_goes (P := noPurple) (T := noTerms) hremote trivial
      w.nicks.users.entries.length le_rfl h.ok False.elim
    obtain ⟨hfirm, -, hwanes⟩ := removeServerNicks_wanes hremote w.nicks.users.entries.length h
    dsimp only
    generalize removeServerNicks s w.nicks.users.entries.length w = w₁ at *
    refine ⟨fun b => (hwanes b).imp id fun hst => ⟨hst.nick, hst.server, hst.status⟩,
      fun k hk => ?_, fun b n hn he => ?_⟩
    · change (w₁.nicks.servers.erase name).find? k = _
      rw [OrdMap.find?_erase_of_ne hk, hdeserted.servers]
    · change w₁.nicks.buddyNick b = some n at hn
      have ha := (hfirm.ok.table.buddyNick b n hn).1
      refine hdeserted.none n ha ?_
      rcases hwanes b with hnone | hst
      · rw [hnone] at hn
        cases hn
      · rw [hst.server n (hst.nick.symm.trans hn)]
        exact Option.some.inj (he.symm.trans hs)

end Removal

section StatusChannel

theorem part_eq (hw : w.Ok none) (hv : w.chans.conv c = none) (n : NickRef) (message : Str) :
    w.part n c message = match w.chans.getChanUser n c with
      | none => w
      | some cu => { w with chans := w.chans.leave c n cu (w.partMessage n c message) } := by
  unfold part
  cases hget : w.chans.getChanUser n c with
  | none => rfl
  | some cu =>
    obtain ⟨hcu, hc⟩ := Chans.getChanUser_some hget
    have hconv : (w.chans.leave c n cu (w.partMessage n c message)).conv c = none := by
      rw [(Chans.unlinked_leave' hw.member hcu hc _).conv, hv]
    exact delUser_leave hconv

/-- The nick of one buddy parts, and no other. -/
theorem partStatusChannel_status (hw : w.Ok none) (hv : w.chans.conv c = none) (x : BuddyRef) :
    (w.partStatusChannel c x).nicks = w.nicks ∧ (w.partStatusChannel c x).data = w.data ∧
      (w.partStatusChannel c x).registered = w.registered ∧
      ∀ n c', (w.partStatusChannel c x).chans.statusOn n c' =
        if c' = c ∧ w.nicks.buddyNick x = some n then none else w.chans.statusOn n c' := by
  unfold partStatusChannel
  cases hx : w.nicks.buddyNick x with
  | none => exact ⟨rfl, rfl, rfl, fun n c' => by rw [if_neg fun he => nomatch he.2]⟩
  | some m =>
    let text := str "Leaving status channel"
    dsimp only
    cases hget : w.chans.getChanUser m c with
    | none =>
      have hpart : w.part m c text = w := by rw [part_eq hw hv, hget]
      rw [hpart]
      refine ⟨rfl, rfl, rfl, fun n c' => ?_⟩
      split
      · next he =>
        obtain ⟨rfl, hmn⟩ := he
        obtain rfl := Option.some.inj hmn
        rw [Chans.statusOn, hget]
        rfl
      · rfl
    | some cu =>
      have hpart : w.part m c text =
          { w with chans := w.chans.leave c m cu (w.partMessage m c text) } := by
        rw [part_eq hw hv, hget]
      rw [hpart]
      refine ⟨rfl, rfl, rfl, fun n c' => ?_⟩
      refine (Chans.leave_statusOn hw.member hget _).trans ?_
      simp only [Option.some.injEq, and_comm, eq_comm]

/-- The buddies of a loop part, and no one else. -/
theorem foldl_part (h : w.Firm) (hv : w.chans.conv c = none) (l : List BuddyRef) :
    let w' := l.foldl (partStatusChannel c) w
    w'.Firm ∧ SameBoard w w' ∧ w'.nicks = w.nicks ∧ w'.data = w.data ∧
      ∀ n c', w'.chans.statusOn n c' =
        if c' = c ∧ ∃ b ∈ l, w.nicks.buddyNick b = some n then none else w.chans.statusOn n c' := by
  induction l generalizing w with
  | nil => exact ⟨h, .refl w, rfl, rfl, fun n c' => by rw [if_neg]; rfl; simp⟩
  | cons x l ih =>
    obtain ⟨hnicks, hdata, hreg, hstatus⟩ := partStatusChannel_status h.ok hv x
    have hboard : SameBoard w (w.partStatusChannel c x) := partStatusChannel_board hv [x]
    have hgo : Goes noPurple noTerms w (w.partStatusChannel c x) :=
      (partStatusChannel_goes h.ok hv x).1
    obtain ⟨hfirm, hboard', hnicks', hdata', hstatus'⟩ :=
      ih (h.goes hgo (hreg.trans h.registered)) (by rw [hboard.chans.conv, hv])
    refine ⟨hfirm, hboard.trans hboard', hnicks'.trans hnicks, hdata'.trans hdata, fun n c' => ?_⟩
    refine (hstatus' n c').trans ?_
    rw [hnicks, hstatus]
    by_cases hc : c' = c
    · by_cases hx : w.nicks.buddyNick x = some n
      · simp [hc, hx]
      · simp [hc, hx]
    · simp [hc]

theorem remove_statusOn {C : Chans} (hC : C.Member) (N : Nicks) (n : NickRef) (c c' : ChanRef) :
    (C.remove N c).statusOn n c' = if c' = c then none else C.statusOn n c' :=
  Chans.deleteChan_statusOn hC c

theorem getStatusChannel_iff : w.getStatusChannel a = some c ↔
    (w.data.statusChannel a).head? = some '&' ∧
      w.chans.getChannel (w.data.statusChannel a) = some c ∧ w.chans.conv c = none := by
  unfold World.getStatusChannel
  split
  · next hamp => simp [Option.filter_eq_some_iff, hamp]
  · next hamp => simp [hamp]

/-- A channel that is removed is no one's any more. -/
theorem removed_getStatusChannel (h : w.Ok none) {c' : ChanRef}
    (h' : ({ w with chans := w.chans.remove w.nicks c } : World).Ok none) :
    ({ w with chans := w.chans.remove w.nicks c } : World).getStatusChannel a = some c' ↔
      w.getStatusChannel a = some c' ∧ c' ≠ c := by
  have hu := Chans.unlinked_remove (N := w.nicks) h.member c
  have hname : (w.chans.remove w.nicks c).name = w.chans.name := hu.name
  have hconv : (w.chans.remove w.nicks c).conv = w.chans.conv := hu.conv
  have halive : (w.chans.remove w.nicks c).alive = update w.chans.alive c false :=
    Chans.remove_alive h.member c
  have hchan : ∀ k, (w.chans.remove w.nicks c).getChannel k = some c' ↔
      w.chans.getChannel k = some c' ∧ c' ≠ c := by
    intro k
    rw [h'.listed.getChannel, h.listed.getChannel]
    change (w.chans.remove w.nicks c).alive c' = true ∧ (w.chans.remove w.nicks c).name c' = k ↔ _
    rw [halive, hname]
    by_cases hc : c' = c
    · simp [hc]
    · simp [hc]
  rw [getStatusChannel_iff, getStatusChannel_iff]
  change _ ∧ (w.chans.remove w.nicks c).getChannel _ = _ ∧
    (w.chans.remove w.nicks c).conv c' = none ↔ _
  rw [hchan, hconv]
  tauto

/-- An account leaves its status channel: its buddies are on no channel, and the others are where
they were, unless the channel was theirs as well and is gone. -/
structure Leaves (P : Purple) (a : AccountRef) (w w' : World) : Prop where
  firm : w'.Firm
  only : Only P w'
  nicks : w'.nicks = w.nicks
  data : w'.data = w.data
  quiet : ∀ b n c, b ∈ w.data.buddies a → w.nicks.buddyNick b = some n → w'.chans.statusOn n c = none
  others : ∀ b n c, P.buddyAccount b ≠ a → w.nicks.buddyNick b = some n →
    w'.getStatusChannel (P.buddyAccount b) = some c →
      w.getStatusChannel (P.buddyAccount b) = some c ∧ w'.chans.statusOn n c = w.chans.statusOn n c
  table : ∀ k, k ≠ w.data.statusChannel a → w'.chans.getChannel k = w.chans.getChannel k
  convs : w'.convs.alive = w.convs.alive

theorem leaves_none (h : w.Firm) (honly : Only P w)
    (hown : ∀ b ∈ w.data.buddies a, P.buddyAccount b = a) (hc : w.getStatusChannel a = none) :
    Leaves P a w w := by
  refine ⟨h, honly, rfl, rfl, fun b n c hb hn => ?_, fun _ _ _ _ _ hc => ⟨hc, rfl⟩, fun _ _ => rfl, rfl⟩
  by_contra hst
  have := honly b n c hn hst
  rw [hown b hb, hc] at this
  cases this

/-- The buddies of the account have left its channel, which is there yet. -/
theorem parted_leaves (h : w.Firm) (honly : Only P w)
    (hown : ∀ b ∈ w.data.buddies a, P.buddyAccount b = a) (hc : w.getStatusChannel a = some c) :
    let w' := (w.data.buddies a).foldl (partStatusChannel c)
      (w.setAccounts c ((w.chans.accounts c).erase a))
    Leaves P a w w' ∧ w'.getStatusChannel a = some c := by
  obtain ⟨-, hv⟩ := h.ok.getStatusChannel hc
  have hset : Goes P noTerms w (w.setAccounts c ((w.chans.accounts c).erase a)) := setAccounts_goes ..
  obtain ⟨hfirm, hboard, hnicks, hdata, hstatus⟩ :=
    foldl_part (c := c) (h.goes hset h.registered) hv (w.data.buddies a)
  dsimp only
  generalize List.foldl (partStatusChannel c)
    (w.setAccounts c ((w.chans.accounts c).erase a)) (w.data.buddies a) = w' at *
  have hstatus : ∀ n c', w'.chans.statusOn n c' =
      if c' = c ∧ ∃ b ∈ w.data.buddies a, w.nicks.buddyNick b = some n then none
      else w.chans.statusOn n c' := hstatus
  have hget : ∀ a', w'.getStatusChannel a' = w.getStatusChannel a' := hboard.getStatusChannel
  refine ⟨⟨hfirm, fun b n c' hn hst => ?_, hnicks, hdata, fun b n c' hb hn => ?_,
    fun b n c' hne hn hc' => ⟨(hget _).symm.trans hc', ?_⟩,
    fun k _ => congrArg (OrdMap.find? · k) hboard.chans.table, hboard.convs⟩, (hget a).trans hc⟩
  · rw [hnicks] at hn
    rw [hget]
    refine honly b n c' hn fun hnone => hst ?_
    rw [hstatus]
    split
    · rfl
    · exact hnone
  · rw [hstatus]
    split
    · rfl
    · next hne =>
      by_contra hst
      have hcc := honly b n c' hn hst
      rw [hown b hb, hc] at hcc
      exact hne ⟨(Option.some.inj hcc).symm, b, hb, hn⟩
  · rw [hstatus, if_neg]
    rintro ⟨-, b', hb', hn'⟩
    refine h.nick_ne hn hn' ?_ rfl
    rintro rfl
    exact hne (hown _ hb')

/-- The channel that has no account any more is gone as well. -/
theorem Leaves.removed {w' : World} (h : Leaves P a w w') (hc : w'.getStatusChannel a = some c)
    (hfirm : World.Firm { w' with chans := w'.chans.remove w'.nicks c }) :
    Leaves P a w { w' with chans := w'.chans.remove w'.nicks c } := by
  have hstatus : ∀ n c', (w'.chans.remove w'.nicks c).statusOn n c' =
      if c' = c then none else w'.chans.statusOn n c' :=
    fun n c' => remove_statusOn h.firm.ok.member w'.nicks n c c'
  have hget : ∀ a' c',
      World.getStatusChannel { w' with chans := w'.chans.remove w'.nicks c } a' = some c' ↔
      w'.getStatusChannel a' = some c' ∧ c' ≠ c :=
    fun _ _ => removed_getStatusChannel h.firm.ok hfirm.ok
  obtain ⟨-, hchan, -⟩ := getStatusChannel_iff.mp hc
  obtain ⟨-, hname⟩ := h.firm.ok.listed.getChannel.mp hchan
  rw [h.data] at hname
  refine ⟨hfirm, fun b n c' hn hst => ?_, h.nicks, h.data, fun b n c' hb hn => ?_,
    fun b n c' hne hn hc' => ?_, fun k hk => ?_, h.convs⟩
  · rw [hstatus] at hst
    rw [hget]
    split at hst
    · exact absurd rfl hst
    · next hcc => exact ⟨h.only b n c' hn hst, hcc⟩
  · rw [hstatus]
    split
    · rfl
    · exact h.quiet b n c' hb hn
  · obtain ⟨hc', hcc⟩ := (hget _ _).mp hc'
    obtain ⟨hold, hst⟩ := h.others b n c' hne hn hc'
    refine ⟨hold, ?_⟩
    rw [hstatus, if_neg hcc]
    exact hst
  · change ((w'.chans.deleteChan w'.nicks c).table.erase (w'.chans.name c)).find? k = _
    rw [hname, OrdMap.find?_erase_of_ne hk,
      (Chans.unlinked_deleteChan (N := w'.nicks) h.firm.ok.member c).table]
    exact h.table k hk

theorem leaveStatusChannel_leaves (h : w.Firm) (honly : Only P w)
    (hown : ∀ b ∈ w.data.buddies a, P.buddyAccount b = a) :
    Leaves P a w (w.leaveStatusChannel a) := by
  have hgo : Goes P noTerms w (w.leaveStatusChannel a) := leaveStatusChannel_goes h.ok a
  unfold leaveStatusChannel at hgo ⊢
  cases hc : w.getStatusChannel a with
  | none => exact leaves_none h honly hown hc
  | some c =>
    obtain ⟨-, hv⟩ := h.ok.getStatusChannel hc
    obtain ⟨hleft, hc'⟩ := parted_leaves h honly hown hc
    rw [hc] at hgo
    dsimp only at hgo ⊢
    have hbuddies : (w.setAccounts c ((w.chans.accounts c).erase a)).data.buddies a =
        w.data.buddies a := rfl
    rw [hbuddies] at hgo ⊢
    generalize List.foldl (partStatusChannel c)
      (w.setAccounts c ((w.chans.accounts c).erase a)) (w.data.buddies a) = w' at *
    split at hgo
    · next hempty =>
      rw [if_pos hempty]
      obtain ⟨hlive, hv'⟩ := hleft.firm.ok.getStatusChannel hc'
      have hemptied : w'.emptied c = w' := by
        unfold emptied
        rw [hv']
        rfl
      have hremove := removeChannel_eq hleft.firm.ok hlive (by rw [hemptied]; exact .refl w')
      rw [hemptied] at hremove
      rw [hremove] at hgo ⊢
      exact hleft.removed hc' (h.goes hgo hleft.firm.registered)
    · next hfull =>
      rw [if_neg hfull]
      exact hleft

/-- A status channel that is opened has only the User on it. -/
theorem openStatusChannel_stays (h : w.Firm) (hamp : (w.data.statusChannel a).head? = some '&') :
    (w.openStatusChannel a).1.Firm ∧ (w.openStatusChannel a).1.nicks = w.nicks ∧
      (w.openStatusChannel a).1.data = w.data ∧
      (w.openStatusChannel a).1.convs.alive = w.convs.alive ∧
      (∀ b, Stays b w (w.openStatusChannel a).1) ∧
      (∀ a' c, w.getStatusChannel a' = some c →
        (w.openStatusChannel a).1.getStatusChannel a' = some c) ∧
      ∀ a' c, (w.openStatusChannel a).1.getStatusChannel a' = some c →
        w.getStatusChannel a' = some c ∨
          w.getStatusChannel a' = none ∧ w.getStatusChannel a = none ∧
            w.data.statusChannel a' = w.data.statusChannel a := by
  obtain ⟨hgo, hsame⟩ := openStatusChannel_goes (P := noPurple) (T := noTerms) h.ok
    (h.ok.started h.registered) hamp
  refine ⟨h.goes hgo (hsame.registered.trans h.registered), hsame.nicks, ?_⟩
  unfold openStatusChannel
  cases hc : w.getStatusChannel a with
  | some c => exact ⟨rfl, rfl, fun b => .refl b w, fun _ _ hc => hc, fun a' c hc => .inl hc⟩
  | none =>
    have hfree := h.ok.statusChannel_free hamp hc
    have hmember : (w.chans.opened (w.data.statusChannel a) none none).Member :=
      h.ok.member.opened h.ok.listed
    have hget : (w.chans.opened (w.data.statusChannel a) none none).getChanUser userRef
        w.chans.next = none := by
      refine List.find?_eq_none.mpr fun cu hcu => ?_
      intro hcc
      rw [decide_eq_true_eq] at hcc
      have hin := hmember.mem_users hcu hcc
      rw [h.ok.listed.opened_users, h.ok.listed.users_next] at hin
      cases hin
    have hboard := Chans.join_board w.nicks (w.chans.opened (w.data.statusChannel a) none none) userRef
      w.chans.next statusOp
    have htable : (w.chans.opened (w.data.statusChannel a) none none).table =
        w.chans.table.insert (w.data.statusChannel a) w.chans.next := by
      simp [Chans.opened, Chans.addChannel, Chans.newChan]
    have hjoined : ∀ a' c, World.getStatusChannel
          (join { w with chans := w.chans.opened (w.data.statusChannel a) none none } userRef
            w.chans.next statusOp) a' = some c ↔
        (w.data.statusChannel a').head? = some '&' ∧
          (w.chans.table.insert (w.data.statusChannel a) w.chans.next).find?
            (w.data.statusChannel a') = some c ∧
          (w.chans.opened (w.data.statusChannel a) none none).conv c = none := by
      intro a' c
      rw [getStatusChannel_iff, ← htable, ← hboard.table, ← hboard.conv]
      exact Iff.rfl
    refine ⟨rfl, rfl, fun b => Stays.onChans fun n hn c => ?_, fun a' c hc' => ?_,
      fun a' c hc' => ?_⟩
    · have hne : n ≠ userRef := h.ok.ne_user (h.ok.table.buddyNick b n hn).2.1
      refine (Chans.join_statusOn hmember hget _).trans ?_
      rw [if_neg fun he => hne he.1]
      rfl
    · obtain ⟨hamp', hchan, hconv⟩ := getStatusChannel_iff.mp hc'
      have hne := h.ok.listed.ne_next (h.ok.listed.getChannel.mp hchan).1
      refine (hjoined a' c).mpr ⟨hamp', ?_, (Chans.opened_other hne).1.trans hconv⟩
      rw [OrdMap.find?_insert_of_ne]
      · exact hchan
      · intro hname
        rw [hname, hfree] at hchan
        cases hchan
    · obtain ⟨hamp', hchan, hconv⟩ := (hjoined a' c).mp hc'
      rw [OrdMap.find?_insert] at hchan
      split at hchan
      · next hname =>
        refine .inr ⟨?_, rfl, hname⟩
        rw [← hc]
        unfold World.getStatusChannel
        rw [hname]
      · have hne := h.ok.listed.ne_next (h.ok.listed.getChannel.mp hchan).1
        rw [(Chans.opened_other hne).1] at hconv
        exact .inl (getStatusChannel_iff.mpr ⟨hamp', hchan, hconv⟩)

/-- An account enters its status channel, which shows its buddies then; and the others as before, or
those of whom there is nothing to show. -/
structure Enters (P : Purple) (a : AccountRef) (w w' : World) : Prop where
  firm : w'.Firm
  only : Only P w'
  nicks : w'.nicks = w.nicks
  data : w'.data = w.data
  shows : ∀ b n c, w.nicks.buddyNick b = some n → w'.getStatusChannel (P.buddyAccount b) = some c →
    (b ∈ w.data.buddies a ∨
      (w.getStatusChannel (P.buddyAccount b) = some c → w.Shows b n c) ∧
        (w.getStatusChannel (P.buddyAccount b) = none → w.getStatusChannel a = none →
          w.data.statusChannel (P.buddyAccount b) = w.data.statusChannel a →
            w.data.online b = false)) → w'.Shows b n c
  convs : w'.convs.alive = w.convs.alive

theorem createStatusChannel_enters (h : w.Firm) (honly : Only P w)
    (hown : ∀ b ∈ w.data.buddies a, P.buddyAccount b = a) :
    Enters P a w (w.createStatusChannel P a) := by
  unfold createStatusChannel
  by_cases hamp : (w.data.statusChannel a).head? = some '&'
  swap
  · rw [if_pos hamp]
    refine ⟨h, honly, rfl, rfl, fun b n c hn hc hb => ?_, rfl⟩
    rcases hb with hb | hb
    · rw [hown b hb] at hc
      exact absurd (getStatusChannel_iff.mp hc).1 hamp
    · exact hb.1 hc
  rw [if_neg (not_not_intro hamp)]
  obtain ⟨hfirm, hnicks, hdata, hconvs, hstays, hkept, hopened⟩ := openStatusChannel_stays h hamp
  generalize w.openStatusChannel a = r at *
  obtain ⟨w₁, c₀⟩ := r
  dsimp only at *
  generalize hw₂ : w₁.setAccounts c₀ (w₁.chans.accounts c₀ ++ [a]) = w₂
  have hset : Goes noPurple noTerms w₁ w₂ := hw₂ ▸ setAccounts_goes ..
  have hnicks₂ : w₂.nicks = w₁.nicks := by rw [← hw₂]; rfl
  have hdata₂ : w₂.data = w₁.data := by rw [← hw₂]; rfl
  have hconvs₂ : w₂.convs.alive = w₁.convs.alive := by rw [← hw₂]; rfl
  have hreg₂ : w₂.registered = w₁.registered := by rw [← hw₂]; rfl
  have hstatus₂ : ∀ n c, w₂.chans.statusOn n c = w₁.chans.statusOn n c := by
    rw [← hw₂]
    exact fun _ _ => rfl
  have hget₂ : ∀ a', w₂.getStatusChannel a' = w₁.getStatusChannel a' := by
    rw [← hw₂]
    exact fun _ => rfl
  have hfirm₂ := hfirm.goes hset (hreg₂.trans hfirm.registered)
  have hstatus : ∀ b n c, w.nicks.buddyNick b = some n →
      w₂.chans.statusOn n c = w.chans.statusOn n c :=
    fun b n c hn => (hstatus₂ n c).trans ((hstays b).status n hn c)
  have honly₂ : Only P w₂ := by
    intro b n c hn hst
    rw [hnicks₂, hnicks] at hn
    rw [hstatus b n c hn] at hst
    rw [hget₂]
    exact hkept _ c (honly b n c hn hst)
  obtain ⟨hfirm₃, honly₃, hboard, hnicks₃, hdata₃, hshows⟩ :=
    foldl_updated hfirm₂ honly₂ (w₂.data.buddies a)
  have hbuddies : w₂.data.buddies a = w.data.buddies a := by rw [hdata₂, hdata]
  refine ⟨hfirm₃, honly₃, hnicks₃.trans (hnicks₂.trans hnicks), hdata₃.trans (hdata₂.trans hdata),
    fun b n c hn hc hb => ?_, hboard.convs.trans (hconvs₂.trans hconvs)⟩
  rw [hboard.getStatusChannel] at hc
  refine hshows b n c (by rw [hnicks₂, hnicks, hn]) hc ?_
  rcases hb with hb | ⟨hold, hnew⟩
  · rw [hbuddies]
    exact .inl hb
  · right
    rw [hget₂] at hc
    rcases hopened _ c hc with hc' | ⟨hnone, hnone', hname⟩
    · have hstays₂ : Stays b w w₂ := (hstays b).trans
        ⟨by rw [hnicks₂], fun m _ => by rw [hnicks₂], fun m _ c => hstatus₂ m c⟩
      have hsame : w₂.data = w.data := hdata₂.trans hdata
      exact hstays₂.shows hn (by rw [hsame]) (by rw [hsame]) (by rw [hsame]) (hold hc')
    · have hst : w₂.chans.statusOn n c = none := by
        rw [hstatus b n c hn]
        by_contra hst
        exact absurd (hnone.symm.trans (honly b n c hn hst)) nofun
      refine ⟨?_, fun st hst' => absurd (hst.symm.trans hst') nofun⟩
      rw [hst, hdata₂, hdata, hnew hnone hnone' hname]
      rfl

end StatusChannel

end World
end Minbif
