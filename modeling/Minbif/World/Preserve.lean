import Minbif.World.Change

/-! Every elementary change keeps the invariant. -/
namespace Minbif
open Function

namespace Convs

variable {N N' : Nicks} {C C' : Chans} {V V' : Convs} {v : ConvRef} {c : ChanRef}

theorem Chats.congr (h : Chats C V) (ha : C'.alive = C.alive) (hc : C'.conv = C.conv) :
    Chats C' V := by
  refine ⟨?_, ?_⟩
  · rw [ha, hc]
    exact h.fwd
  · rw [ha, hc]
    exact h.bwd

theorem Chats.sameIm (h : Chats C V) (hs : SameIm V V') : Chats C V' := by
  rw [hs]
  exact ⟨h.fwd, h.bwd⟩

theorem Chats.uiChan_next (h : Chats C V) (hb : ∀ v, V.alive v = true → v < V.next) :
    V.uiChan V.next = none := by
  cases hu : V.uiChan V.next with
  | none => rfl
  | some c => exact absurd (hb _ (h.bwd _ c hu).2.2.1) (Nat.lt_irrefl _)

theorem Chats.newConv (h : Chats C V) (hb : ∀ v, V.alive v = true → v < V.next) (chat : Bool)
    (a : AccountRef) (name : Str) : Chats C (V.newConv chat a name) := by
  have hui : (V.newConv chat a name).uiChan = V.uiChan := by
    change update V.uiChan V.next none = V.uiChan
    rw [← h.uiChan_next hb, update_eq_self]
  refine ⟨?_, ?_⟩
  · rw [hui]
    exact h.fwd
  · intro v c hv
    rw [hui] at hv
    obtain ⟨ha, hc, hlive, hchat⟩ := h.bwd v c hv
    have hne := Nat.ne_of_lt (hb v hlive)
    simp only [Convs.newConv, update_of_ne hne]
    exact ⟨ha, hc, hlive, hchat⟩

theorem openChat_uiChan {a : AccountRef} {name : Str} :
    (V.openChat a name c).uiChan v = if v = V.next then some c else V.uiChan v := by
  rcases eq_or_ne v V.next with rfl | hne
  · simp [openChat]
  · simp [openChat, Convs.newConv, hne]

theorem Chats.openChat (h : Chats C V) (hL : C.Listed) (hb : ∀ v, V.alive v = true → v < V.next)
    {a : AccountRef} {name channame : Str} {up : Option ServerRef} :
    Chats (C.opened channame (some V.next) up) (V.openChat a name C.next) := by
  refine ⟨?_, ?_⟩
  · intro c v hc hv
    rw [openChat_uiChan]
    rcases Chans.opened_alive.mp hc with rfl | hc
    · rw [Chans.opened_self.1] at hv
      obtain rfl := Option.some.inj hv
      exact if_pos rfl
    · rw [(Chans.opened_other (hL.ne_next hc)).1] at hv
      have hui := h.fwd c v hc hv
      rw [if_neg (Nat.ne_of_lt (hb v (h.bwd v c hui).2.2.1))]
      exact hui
  · intro v c hv
    rw [openChat_uiChan] at hv
    split at hv
    · next he =>
      obtain rfl := Option.some.inj hv
      subst he
      refine ⟨Chans.opened_alive.mpr (.inl rfl), Chans.opened_self.1, ?_⟩
      simp [Convs.openChat, Convs.newConv]
    · next hne =>
      obtain ⟨ha, hc, hrest⟩ := h.bwd v c hv
      rw [(Chans.opened_other (hL.ne_next ha)).1]
      refine ⟨Chans.opened_alive.mpr (.inr ha), hc, ?_⟩
      simpa [Convs.openChat, Convs.newConv, hne] using hrest

/-- `delete chan` and the end of its conversation. -/
theorem Chats.ended (h : Chats C V) (hc : C.conv c = some v) (hlive : C.alive c = true)
    (ha : C'.alive = update C.alive c false) (hv : C'.conv = C.conv) :
    Chats C' { V with uiChan := update V.uiChan v none, alive := update V.alive v false } := by
  have hui := h.fwd c v hlive hc
  refine ⟨?_, ?_⟩
  · intro c' v' hc' hv'
    rw [ha] at hc'
    rw [hv] at hv'
    have hne : c' ≠ c := by
      rintro rfl
      simp at hc'
    rw [update_of_ne hne] at hc'
    have hui' := h.fwd c' v' hc' hv'
    have hvv : v' ≠ v := by
      rintro rfl
      rw [hui] at hui'
      exact hne (Option.some.inj hui').symm
    simpa [hvv] using hui'
  · intro v' c' hu
    have hvv : v' ≠ v := by
      rintro rfl
      simp at hu
    simp only [update_of_ne hvv] at hu ⊢
    obtain ⟨ha', hc', hrest⟩ := h.bwd v' c' hu
    have hne : c' ≠ c := by
      rintro rfl
      rw [hc] at hc'
      exact hvv (Option.some.inj hc').symm
    rw [ha, hv, update_of_ne hne]
    exact ⟨ha', hc', hrest⟩

/-- A conversation without a channel ends. -/
theorem Chats.endedIm (h : Chats C V) (hu : V.uiChan v = none) :
    Chats C { V with uiChan := update V.uiChan v none, alive := update V.alive v false } := by
  have hui : update V.uiChan v none = V.uiChan := by rw [← hu, update_eq_self]
  refine ⟨?_, ?_⟩
  · intro c' v' hc' hv'
    change update V.uiChan v none v' = some c'
    rw [hui]
    exact h.fwd c' v' hc' hv'
  · intro v' c' hv'
    change update V.uiChan v none v' = some c' at hv'
    rw [hui] at hv'
    have hvv : v' ≠ v := by
      rintro rfl
      rw [hu] at hv'
      cases hv'
    simp only [update_of_ne hvv]
    exact h.bwd v' c' hv'

theorem Talks.sub (h : Talks N V) (hs : SameIm V V')
    (hc : ∀ n v, V'.conversation n = some v →
      V.conversation n = some v ∨ N.alive n = true ∧ (N.kind n).isConvNick = true) :
    Talks N V' := by
  refine ⟨?_, ?_⟩
  · intro n v hv
    rcases hc n v hv with hold | hn
    · exact h.nick n v hold
    · exact hn
  · rw [hs]
    exact h.bound

theorem Talks.newConv (h : Talks N V) (chat : Bool) (a : AccountRef) (name : Str) :
    Talks N (V.newConv chat a name) := by
  refine ⟨h.nick, ?_⟩
  intro v hv
  change v < V.next + 1
  rcases eq_or_ne v V.next with rfl | hne
  · exact Nat.lt_succ_self _
  · simp only [Convs.newConv, update_of_ne hne] at hv
    exact Nat.lt_succ_of_lt (h.bound v hv)

theorem Talks.ended (h : Talks N V) {f : ConvRef → Option ChanRef} :
    Talks N { V with uiChan := f, alive := update V.alive v false } := by
  refine ⟨h.nick, ?_⟩
  intro v' hv'
  rcases eq_or_ne v' v with rfl | hne
  · simp at hv'
  · simp only [update_of_ne hne] at hv'
    exact h.bound v' hv'

end Convs

namespace World

variable {P : Purple} {T : Terms} {w : World} {d d' : Option ChanRef} {C' : Chans} {V' : Convs}
  {N' : Nicks} {n : NickRef} {c : ChanRef} {v : ConvRef} {cu : ChanUserRef}

theorem Ok.onChans (h : w.Ok d) (hm : C'.Member) (hl : C'.Listed)
    (hp : Chans.Placed w.nicks C' d) (ha : C'.alive = w.chans.alive)
    (hv : C'.conv = w.chans.conv) (he : w.started = false → C'.channels userRef = []) :
    ({ w with chans := C' }).Ok d :=
  { h with
    member := hm
    listed := hl
    placed := hp
    chats := h.chats.congr ha hv
    early := fun hs => ⟨(h.early hs).1, he hs⟩ }

theorem Ok.onStatus (h : w.Ok d) (hs : Chans.SameStatus w.chans C') :
    ({ w with chans := C' }).Ok d := by
  refine h.onChans (hs.member h.member) (h.listed.sameStatus hs) (h.placed.sameStatus hs) ?_ ?_ ?_
  · rw [hs]
  · rw [hs]
  · intro hst
    rw [hs]
    exact (h.early hst).2

theorem Ok.onConvs (h : w.Ok d) (hs : Convs.SameIm w.convs V') (hp : V'.Paired)
    (hc : ∀ n v, V'.conversation n = some v → w.convs.conversation n = some v ∨
      w.nicks.alive n = true ∧ (w.nicks.kind n).isConvNick = true) :
    ({ w with convs := V' }).Ok d :=
  { h with
    chats := h.chats.sameIm hs
    paired := hp
    talks := h.talks.sub hs hc }

theorem Ok.join (h : w.Ok none) (hstarted : w.started = true) (hc : w.chans.alive c = true)
    (hn : w.nicks.alive n = true) (hkind : n = userRef ∨ (w.nicks.kind n).isConvNick = true)
    (hone : w.nicks.kind n = .chatBuddy → w.chans.channels n = []) (status : Status) :
    (w.join n c status).Ok none := by
  obtain ⟨ha, hv⟩ := Chans.join_rest w.nicks w.chans n c status
  refine h.onChans (h.member.join n c status) (h.listed.join hc n status)
    (h.placed.join h.member hn hkind hone c status) ha hv ?_
  intro hs
  rw [hstarted] at hs
  cases hs

theorem channels_unlinked {C : Chans} {S : ChanUserRef → Bool} (hu : Chans.Unlinked C C' S)
    (hn : C.channels n = []) : C'.channels n = [] := by
  rw [hu.channels, hn]
  rfl

theorem Ok.leave (h : w.Ok d) (hcu : cu ∈ w.chans.channels n) (hc : w.chans.cuChan cu = c)
    (m : Message) (hn : n ≠ userRef ∨ w.chans.conv c = none ∨ d = some c) :
    ({ w with chans := w.chans.leave c n cu m }).Ok d := by
  have hu := Chans.unlinked_leave' h.member hcu hc m
  obtain ⟨ha, hb⟩ := Chans.leave_rest w.chans c n cu m
  refine h.onChans (hu.member h.member) ?_ (h.placed.leave h.member h.listed hcu hc m hn) ha
    hu.conv ?_
  · apply h.listed.unlinked hu ha
    intro c' e he
    rw [hb] at he
    exact Chans.cbuddiesWithout_sub he
  · intro hs
    exact channels_unlinked hu (h.early hs).2

theorem Ok.quit (h : w.Ok d) (hn : n ≠ userRef) (text : Str) : (w.quit n text).Ok d := by
  have hu := Chans.unlinked_quit (N := w.nicks) h.member n text
  have ha := Chans.quit_alive (N := w.nicks) h.member n text
  refine h.onChans (hu.member h.member) ?_ (h.placed.quit h.member h.listed hn text) ha hu.conv ?_
  · apply h.listed.unlinked hu ha
    intro c' e he
    exact Chans.quit_cbuddies_sub h.member he
  · intro hs
    exact channels_unlinked hu (h.early hs).2

theorem Ok.release (h : w.Ok (some c)) (hcu : cu ∈ w.chans.users c)
    (hn : w.chans.cuNick cu = n) : ({ w with chans := w.chans.release c n cu }).Ok (some c) := by
  have hu := Chans.unlinked_release h.member hcu hn
  obtain ⟨ha, hb⟩ := Chans.release_rest w.chans c n cu
  refine h.onChans (hu.member h.member) ?_ (h.placed.release h.member hcu hn) ha hu.conv ?_
  · apply h.listed.unlinked hu ha
    intro c' e he
    exact hb ▸ he
  · intro hs
    exact channels_unlinked hu (h.early hs).2

/-- After `quit` the nick is on no channel, and it can go. -/
theorem Ok.drop (h : w.Ok d) {k : Str} {l : ServerRef → List NickRef}
    (hmem : (k, n) ∈ w.nicks.users.entries) (hn : (w.nicks.kind n).isConvNick = true) :
    ({ w.deleteNick n with nicks := w.nicks.dropped k n l }).Ok d := by
  have hq := h.quit (Nicks.userRef_ne h.table hn) (str "*.net *.split")
  have hnone : (w.quit n (str "*.net *.split")).chans.channels n = [] := by
    obtain ⟨C, -, he⟩ := Chans.quitTo_quit (N := w.nicks) h.member n (str "*.net *.split")
    simp [World.quit, he]
  have hlive : ∀ m, m ≠ n → w.nicks.alive m = true →
      (w.nicks.dropped k n l).alive m = true := fun m hne hm =>
    Nicks.dropped_alive.mpr ⟨hne, hm⟩
  refine ⟨h.table.dropped hmem hn, hq.member, hq.listed, ?_, hq.chats.sameIm
    (Convs.sameIm_forget _ _), h.paired.forget n, ?_, ?_, hq.early⟩
  · refine ⟨?_, hq.placed.single, hq.placed.index⟩
    intro m hm
    obtain ⟨ha, hk⟩ := hq.placed.nick m hm
    refine ⟨hlive m ?_ ha, hk⟩
    rintro rfl
    exact hm hnone
  · refine ⟨?_, ?_⟩
    · intro m v hv
      change (w.convs.forget n).conversation m = some v at hv
      rw [Convs.forget_conversation] at hv
      split at hv
      · cases hv
      · next hne =>
        obtain ⟨ha, hk⟩ := h.talks.nick m v hv
        exact ⟨hlive m hne ha, hk⟩
    · change ∀ v, (w.convs.forget n).alive v = true → v < (w.convs.forget n).next
      rw [Convs.sameIm_forget]
      exact h.talks.bound
  · intro hr m hm
    exact h.quiet hr m (Nicks.dropped_alive.mp hm).2

theorem Ok.opened (h : w.Ok none) (c : ChanRef) : w.Ok (some c) :=
  { h with
    placed := ⟨h.placed.nick, h.placed.single, fun c' _ hc' => h.placed.index c' nofun hc'⟩ }

theorem Ok.remove (h : w.Ok (some c)) (hc : w.chans.alive c = true)
    (hchats : Convs.Chats (w.chans.remove w.nicks c) V') (hp : V'.Paired)
    (ht : Convs.Talks w.nicks V') :
    ({ w with chans := w.chans.remove w.nicks c, convs := V' }).Ok none := by
  have hu := Chans.unlinked_remove (N := w.nicks) h.member c
  have hearly : w.started = false → (w.chans.remove w.nicks c).channels userRef = [] := by
    intro hs
    have hnone := channels_unlinked hu (h.early hs).2
    exact hnone
  refine { h with
    member := h.member.remove c
    listed := h.listed.remove h.member hc
    placed := h.placed.remove h.member
    chats := hchats
    paired := hp
    talks := ht
    early := fun hs => ⟨(h.early hs).1, hearly hs⟩ }

theorem Ok.closed (h : w.Ok (some c)) (hc : w.chans.alive c = true)
    (hv : w.chans.conv c = none) : ({ w with chans := w.chans.remove w.nicks c }).Ok none := by
  have ha := Chans.remove_alive (N := w.nicks) h.member c
  have hconv : (w.chans.remove w.nicks c).conv = w.chans.conv :=
    (Chans.unlinked_remove (N := w.nicks) h.member c).conv
  refine h.remove hc ⟨?_, ?_⟩ h.paired h.talks
  · intro c' v hc' hv'
    rw [ha] at hc'
    rw [hconv] at hv'
    rcases eq_or_ne c' c with rfl | hne
    · simp at hc'
    · rw [update_of_ne hne] at hc'
      exact h.chats.fwd c' v hc' hv'
  · intro v c' hu
    obtain ⟨hlive, hc', hrest⟩ := h.chats.bwd v c' hu
    have hne : c' ≠ c := by
      rintro rfl
      rw [hv] at hc'
      cases hc'
    rw [ha, hconv, update_of_ne hne]
    exact ⟨hlive, hc', hrest⟩

/-- A chat has no nick, so its end concerns no pairing. -/
theorem Ok.uiNick_chat (h : w.Ok d) (hv : w.convs.isChat v = true) : w.convs.uiNick v = none := by
  cases hu : w.convs.uiNick v with
  | none => rfl
  | some n =>
    have him := (h.paired.im n v ((h.paired.pair v n).mp hu)).2
    rw [hv] at him
    cases him

theorem Ok.closedChat (h : w.Ok (some c)) (hc : w.chans.alive c = true)
    (hv : w.chans.conv c = some v) : ({ w with
      chans := w.chans.remove w.nicks c
      convs := { w.convs with
        uiChan := update w.convs.uiChan v none, alive := update w.convs.alive v false } }).Ok
      none := by
  have ha := Chans.remove_alive (N := w.nicks) h.member c
  have hconv : (w.chans.remove w.nicks c).conv = w.chans.conv :=
    (Chans.unlinked_remove (N := w.nicks) h.member c).conv
  have hchat := (h.chats.bwd v c (h.chats.fwd c v hc hv)).2.2.2
  have hp := h.paired.ended (h.uiNick_chat hchat)
  exact h.remove hc (h.chats.ended hv hc ha hconv) ⟨hp.pair, hp.im⟩ h.talks.ended

theorem Ok.ended (h : w.Ok none) (hc : w.convs.uiChan v = none) (hn : w.convs.uiNick v = none) :
    ({ w with convs := { w.convs with
      uiChan := update w.convs.uiChan v none, alive := update w.convs.alive v false } }).Ok none := by
  have hp := h.paired.ended hn
  exact { h with
    chats := h.chats.endedIm hc
    paired := ⟨hp.pair, hp.im⟩
    talks := h.talks.ended }

theorem Ok.link (h : w.Ok none) (hn : w.nicks.alive n = true)
    (hconv : (w.nicks.kind n).isConvNick = true) (hv : w.convs.isIm v)
    (hne : w.convs.conversation n ≠ some v)
    (hk : w.nicks.kind n = .buddy ∨ w.convs.conversation n = none) :
    ({ w with convs := w.convs.link (w.nicks.kind n) n v }).Ok none := by
  refine h.onConvs (Convs.sameIm_link _ _ _ _) (h.paired.link hv hne hk) ?_
  intro m u hu
  rw [Convs.link_conversation] at hu
  split at hu
  · next he => exact .inr (he ▸ ⟨hn, hconv⟩)
  · split at hu
    · cases hu
    · exact .inl hu

theorem Ok.unlink (h : w.Ok none) (v : ConvRef) :
    ({ w with convs := w.convs.unlink v }).Ok none := by
  refine h.onConvs (Convs.sameIm_unlink _ _) (h.paired.unlink v) ?_
  intro m u hu
  rw [Convs.unlink_conversation] at hu
  split at hu
  · cases hu
  · exact .inl hu

/-- A new object is on no channel and in no conversation yet. -/
theorem Ok.onAdded (h : w.Ok none) {kind : NickKind} {s : ServerRef} {nick ident host : Str}
    {b : BuddyRef} {cb : CBuddyRef} (ht : (w.nicks.added kind s nick ident host b cb).Table)
    (hquiet : w.registered = false → kind.isConvNick = false) :
    ({ w with nicks := w.nicks.added kind s nick ident host b cb }).Ok none := by
  have hother : ∀ m, m ≠ w.nicks.next →
      (w.nicks.added kind s nick ident host b cb).kind m = w.nicks.kind m ∧
        (w.nicks.added kind s nick ident host b cb).cbuddy m = w.nicks.cbuddy m := fun m hm =>
    ⟨(Nicks.added_other hm).1, (Nicks.added_other hm).2.2.2.1⟩
  have hnone : w.chans.channels w.nicks.next = [] := by
    by_contra hne
    exact h.table.ne_next (h.placed.nick _ hne).1 rfl
  refine { h with
    table := ht
    placed := ⟨?_, ?_, ?_⟩
    talks := ⟨?_, h.talks.bound⟩
    quiet := ?_ }
  · intro m hm
    obtain ⟨ha, hk⟩ := h.placed.nick m hm
    rw [(hother m (h.table.ne_next ha)).1]
    exact ⟨Nicks.added_alive.mpr (.inr ha), hk⟩
  · intro m hk
    rcases eq_or_ne m w.nicks.next with rfl | hne
    · rw [hnone]
      nofun
    · rw [(hother m hne).1] at hk
      exact h.placed.single m hk
  · intro c hd hc x cu hmem
    have hidx := h.placed.index c hd hc x cu hmem
    have hne := h.table.ne_next (h.placed.ne_nil h.member hidx.1).1
    rw [(hother _ hne).1, (hother _ hne).2]
    exact hidx
  · intro m v hv
    obtain ⟨ha, hk⟩ := h.talks.nick m v hv
    rw [(hother m (h.table.ne_next ha)).1]
    exact ⟨Nicks.added_alive.mpr (.inr ha), hk⟩
  · intro hr m hm
    rcases Nicks.added_alive.mp hm with rfl | hm
    · rw [Nicks.added_kind_self]
      exact hquiet hr
    · rw [(hother m (h.table.ne_next hm)).1]
      exact h.quiet hr m hm

theorem Ok.add (h : w.Ok none) {kind : NickKind} {s : ServerRef} {nick ident host : Str}
    {b : BuddyRef} {cb : CBuddyRef} (hreg : w.registered = true)
    (hkind : kind.isConvNick = true) (hfree : w.nicks.getNick nick = none) :
    ({ w with nicks := w.nicks.added kind s nick ident host b cb }).Ok none := by
  apply h.onAdded (h.table.added hkind hfree)
  intro hr
  rw [hreg] at hr
  cases hr

theorem Ok.addLocal (h : w.Ok none) {kind : NickKind} {name : Str} (hreg : w.registered = false)
    (hkind : kind.isConvNick = false) : (w.addLocal kind name).Ok none :=
  h.onAdded (h.table.added_local hkind (h.quiet hreg)) fun _ => hkind

/-- A new name leaves everything but the table as it is. -/
theorem Ok.onTable (h : w.Ok d) (ht : N'.Table) (ha : N'.alive = w.nicks.alive)
    (hk : N'.kind = w.nicks.kind)
    (hc : N'.cbuddy = w.nicks.cbuddy) : ({ w with nicks := N' }).Ok d := by
  refine { h with
    table := ht
    placed := h.placed.congr ha hk hc
    talks := ⟨?_, h.talks.bound⟩
    quiet := ?_ }
  · rw [ha, hk]
    exact h.talks.nick
  · rw [ha, hk]
    exact h.quiet

theorem Ok.say (h : w.Ok d) (l : List Sent) :
    ({ w with chans := { w.chans with sent := w.chans.sent ++ l } }).Ok d := h.onStatus rfl

theorem Ok.tellUser (h : w.Ok d) (m : Message) : (w.tellUser m).Ok d :=
  h.onStatus (Chans.sameBut_send _ _ _).sameStatus

theorem Ok.renamed (h : w.Ok none) {newnick : Str} (m : Message) (hn : w.nicks.alive n = true)
    (hconv : (w.nicks.kind n).isConvNick = true) (hfree : w.nicks.FreeFor n newnick) :
    ({ w.tellUser m with nicks := w.nicks.renameNick n newnick }).Ok none :=
  (h.tellUser m).onTable (h.table.renamed hn hconv hfree) rfl rfl rfl

theorem Ok.board (h : w.Ok d) (t : ChanRef → Str) (a : ChanRef → List AccountRef) :
    ({ w with chans := { w.chans with topic := t, accounts := a } }).Ok d := by
  refine h.onChans ?_ ?_ ⟨h.placed.nick, h.placed.single, h.placed.index⟩ rfl rfl
    fun hs => (h.early hs).2
  · exact ⟨h.member.fwd, h.member.bwd, h.member.one, h.member.nodupChannels, h.member.nodupUsers,
      h.member.live, h.member.bound⟩
  · exact ⟨h.listed.full, h.listed.bound, h.listed.table, h.listed.plain, h.listed.hash⟩

theorem Ok.newStatus (h : w.Ok none) {name : Str} (hfree : w.chans.getChannel name = none)
    (hhash : name.head? ≠ some '#') :
    ({ w with chans := w.chans.opened name none none }).Ok none := by
  refine { h with
    member := h.member.opened h.listed
    listed := h.listed.opened hfree ?_
    placed := h.placed.opened h.listed
    chats := ⟨?_, ?_⟩ }
  · simpa using hhash
  · intro c v hc hv
    rcases Chans.opened_alive.mp hc with rfl | hc
    · rw [Chans.opened_self.1] at hv
      cases hv
    · rw [(Chans.opened_other (h.listed.ne_next hc)).1] at hv
      exact h.chats.fwd c v hc hv
  · intro v c hv
    obtain ⟨ha, hc, hrest⟩ := h.chats.bwd v c hv
    rw [(Chans.opened_other (h.listed.ne_next ha)).1]
    exact ⟨Chans.opened_alive.mpr (.inr ha), hc, hrest⟩

theorem Ok.newChat (h : w.Ok none) {a : AccountRef} {name channame : Str}
    {up : Option ServerRef} (hfree : w.chans.getChannel channame = none)
    (hhash : channame.head? = some '#') : ({ w with
      convs := w.convs.openChat a name w.chans.next
      chans := w.chans.opened channame (some w.convs.next) up }).Ok none := by
  have hb := h.talks.bound
  have hp := h.paired.newConv hb true a name
  have ht := h.talks.newConv true a name
  refine { h with
    member := h.member.opened h.listed
    listed := h.listed.opened hfree ?_
    placed := h.placed.opened h.listed
    chats := h.chats.openChat h.listed hb
    paired := ⟨hp.pair, hp.im⟩
    talks := ⟨ht.nick, ht.bound⟩ }
  simpa using hhash

theorem Ok.setCBuddy (h : w.Ok none) {cb : CBuddyRef} (hv : (w.chans.conv c).isSome = true)
    (hcu : cu ∈ w.chans.users c)
    (hk : w.chans.cuNick cu = userRef ∨ w.nicks.kind (w.chans.cuNick cu) = .chatBuddy ∧
      w.nicks.cbuddy (w.chans.cuNick cu) = cb) :
    (w.setCBuddy c cb cu).Ok none := by
  refine h.onChans h.member.indexed (h.listed.indexed ?_) (h.placed.setCBuddy hcu hk) rfl rfl
    fun hs => (h.early hs).2
  intro c' hc'
  apply update_of_ne
  rintro rfl
  rw [hv] at hc'
  cases hc'

theorem Ok.rebind (h : w.Ok none) {cb : CBuddyRef} (hcu : cu ∈ w.chans.users c)
    (hn : w.chans.cuNick cu = n) (hv : (w.chans.conv c).isSome = true)
    (hk : w.nicks.kind n = .chatBuddy) : (w.rebind c n cu cb).Ok none := by
  have hne : n ≠ userRef := Nicks.userRef_ne h.table (by rw [hk]; rfl)
  refine { h with
    table := h.table.rebound
    member := h.member.indexed
    listed := h.listed.indexed ?_
    placed := h.placed.rebind h.member hcu hn hk hne rfl
    chats := h.chats.congr rfl rfl
    talks := ⟨h.talks.nick, h.talks.bound⟩ }
  intro c' hc'
  apply update_of_ne
  rintro rfl
  rw [hv] at hc'
  cases hc'

theorem Change.ok {s s' : Stage} (h : Change P T s s') (hok : s.1.Ok s.2) : s'.1.Ok s'.2 := by
  cases h with
  | data w d D => exact { hok with }
  | dccs w d l hpeer => exact { hok with }
  | started w => exact { hok with early := nofun }
  | registered w h =>
    exact { hok with
      quiet := nofun
      early := fun hs => by rw [h] at hs; cases hs }
  | say w d l h => exact hok.say l
  | board w d t a => exact hok.board t a
  | names w c hc => exact hok.onStatus (Chans.sameBut_sendNames _ _ _ _).sameStatus
  | setMode w c modes cu hcu => exact hok.onStatus (Chans.sameStatus_setMode _ _ _ _ _)
  | delMode w c modes cu hcu => exact hok.onStatus (Chans.sameStatus_delMode _ _ _ _ _)
  | join w n c status hstarted hc hn hkind hone => exact hok.join hstarted hc hn hkind hone status
  | leave w n c cu m hcu hc hm hchat => exact hok.leave hcu hc m (hchat.imp_right .inl)
  | leaveChat w c cu m hcu hc hm => exact (hok.opened c).leave hcu hc m (.inr (.inr rfl))
  | quit w n text hn => exact hok.quit hn text
  | drop w d k n l hmem hn hlist hpeer => exact hok.drop hmem hn
  | opened w c hc => exact hok.opened c
  | release w c n cu hcu hn hk => exact hok.release hcu hn
  | closed w c hc hv => exact hok.closed hc hv
  | closedChat w c v hc hv => exact hok.closedChat hc hv
  | ended w v hc hn => exact hok.ended hc hn
  | newIm w a name =>
    exact { hok with
      chats := hok.chats.newConv hok.talks.bound false a name
      paired := hok.paired.newConv hok.talks.bound false a name
      talks := hok.talks.newConv false a name }
  | link w n v hn hconv hv hne hk hfit => exact hok.link hn hconv hv hne hk
  | unlink w v => exact hok.unlink v
  | showed w n v h =>
    exact { hok with
      chats := ⟨hok.chats.fwd, hok.chats.bwd⟩
      paired := hok.paired.logged
      talks := ⟨hok.talks.nick, hok.talks.bound⟩ }
  | replied w n v h q =>
    exact { hok with
      chats := ⟨hok.chats.fwd, hok.chats.bwd⟩
      paired := hok.paired.logged
      talks := ⟨hok.talks.nick, hok.talks.bound⟩ }
  | queued w q =>
    exact { hok with
      chats := ⟨hok.chats.fwd, hok.chats.bwd⟩
      paired := hok.paired.logged
      talks := ⟨hok.talks.nick, hok.talks.bound⟩ }
  | add w kind s nick ident host b cb hreg hkind hfree hserver => exact hok.add hreg hkind hfree
  | addLocal w kind name hreg hkind hfree => exact hok.addLocal hreg hkind
  | renamed w n newnick hn hconv hfree hsteady => exact hok.renamed _ hn hconv hfree
  | nick w newnick hreg hfree hstill hsteady =>
    exact hok.onTable (hok.table.renamed_user (hok.quiet hreg)) rfl rfl rfl
  | connected w a => exact hok.onTable hok.table.addServer rfl rfl rfl
  | dropServer w name s hs hnone hup => exact hok.onTable hok.table.dropServer rfl rfl rfl
  | newStatus w name hfree hhash => exact hok.newStatus hfree hhash
  | newChat w a name channame up hfree hhash hup => exact hok.newChat hfree hhash
  | setCBuddy w c cb cu hv hcu hk => exact hok.setCBuddy hv hcu hk
  | rebound w c n cu cb hcu hn hv hk => exact hok.rebind hcu hn hv hk

theorem Changes.ok {s s' : Stage} (h : Changes P T s s') (hok : s.1.Ok s.2) : s'.1.Ok s'.2 := by
  induction h with
  | refl => exact hok
  | tail _ hstep ih => exact hstep.ok ih

end World
end Minbif
