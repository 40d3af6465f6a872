import Minbif.World.Events

/-! Whose conversation a buddy has. -/
namespace Minbif
open Function
namespace World

variable {P : Purple} {T : Terms} {w w' : World} {n : NickRef} {v : ConvRef}

/-- Every conversation of a `Buddy`, and every line shown or sent in one, is of that buddy. -/
structure RightBuddy (P : Purple) (w : World) : Prop where
  conv : ∀ n v, w.nicks.kind n = .buddy → w.convs.conversation n = some v →
    w.convs.isIm v ∧ w.convs.account v = P.buddyAccount (w.nicks.buddy n) ∧
      w.convs.name v = P.buddyName (w.nicks.buddy n)
  shown : ∀ e ∈ w.convs.shown, w.nicks.kind e.1 = .buddy →
    w.convs.account e.2 = P.buddyAccount (w.nicks.buddy e.1) ∧
      w.convs.name e.2 = P.buddyName (w.nicks.buddy e.1)
  replies : ∀ e ∈ w.convs.replies, w.nicks.kind e.1 = .buddy →
    w.convs.account e.2 = P.buddyAccount (w.nicks.buddy e.1) ∧
      w.convs.name e.2 = P.buddyName (w.nicks.buddy e.1)

/-- A nick and a conversation that were there, and that fit. -/
structure Fitting (P : Purple) (w : World) (n : NickRef) (v : ConvRef) : Prop where
  nick : n < w.nicks.next
  conv : v < w.convs.next
  fits : w.Fits P n v

/-- The objects that were there keep what `Fits` reads. -/
structure Lasting (w w' : World) : Prop where
  nextNick : w.nicks.next ≤ w'.nicks.next
  nextConv : w.convs.next ≤ w'.convs.next
  nick : ∀ n, n < w.nicks.next → w'.nicks.kind n = w.nicks.kind n ∧ w'.nicks.buddy n = w.nicks.buddy n
  conv : ∀ v, v < w.convs.next →
    w'.convs.account v = w.convs.account v ∧ w'.convs.name v = w.convs.name v

theorem Fitting.lasting (h : w.Fitting P n v) (hl : Lasting w w') : w'.Fitting P n v := by
  refine ⟨Nat.lt_of_lt_of_le h.nick hl.nextNick, Nat.lt_of_lt_of_le h.conv hl.nextConv, ?_⟩
  intro hk
  obtain ⟨hkind, hbuddy⟩ := hl.nick n h.nick
  obtain ⟨ha, hname⟩ := hl.conv v h.conv
  rw [ha, hname, hbuddy]
  exact h.fits (hkind ▸ hk)

theorem Lasting.of_eq (hn : w'.nicks.next = w.nicks.next) (hk : w'.nicks.kind = w.nicks.kind)
    (hb : w'.nicks.buddy = w.nicks.buddy) (hv : w'.convs.next = w.convs.next)
    (ha : w'.convs.account = w.convs.account) (hname : w'.convs.name = w.convs.name) :
    Lasting w w' :=
  ⟨Nat.le_of_eq hn.symm, Nat.le_of_eq hv.symm, fun _ _ => ⟨by rw [hk], by rw [hb]⟩,
    fun _ _ => ⟨by rw [ha], by rw [hname]⟩⟩

theorem Lasting.trans {w'' : World} (h : Lasting w w') (h' : Lasting w' w'') : Lasting w w'' := by
  refine ⟨Nat.le_trans h.nextNick h'.nextNick, Nat.le_trans h.nextConv h'.nextConv, ?_, ?_⟩
  · intro n hn
    have hn' := h'.nick n (Nat.lt_of_lt_of_le hn h.nextNick)
    exact ⟨hn'.1.trans (h.nick n hn).1, hn'.2.trans (h.nick n hn).2⟩
  · intro v hv
    have hv' := h'.conv v (Nat.lt_of_lt_of_le hv h.nextConv)
    exact ⟨hv'.1.trans (h.conv v hv).1, hv'.2.trans (h.conv v hv).2⟩

theorem Lasting.onConvs {V : Convs} (hs : Convs.SameIm w.convs V) :
    Lasting w { w with convs := V } := by
  refine ⟨Nat.le_refl _, ?_, fun _ _ => ⟨rfl, rfl⟩, ?_⟩
  · rw [hs]
  · rw [hs]
    exact fun _ _ => ⟨rfl, rfl⟩

theorem Lasting.newConv (chat : Bool) (a : AccountRef) (name : Str) :
    Lasting w { w with convs := w.convs.newConv chat a name } := by
  refine ⟨Nat.le_refl _, Nat.le_succ _, fun _ _ => ⟨rfl, rfl⟩, ?_⟩
  intro v hv
  have hne := Nat.ne_of_lt hv
  simp [Convs.newConv, hne]

theorem Lasting.added {kind : NickKind} {s : ServerRef} {nick ident host : Str} {b : BuddyRef}
    {cb : CBuddyRef} : Lasting w { w with nicks := w.nicks.added kind s nick ident host b cb } := by
  refine ⟨Nat.le_succ _, Nat.le_refl _, ?_, fun _ _ => ⟨rfl, rfl⟩⟩
  intro n hn
  have ho := @Nicks.added_other w.nicks n nick b s kind ident host cb (Nat.ne_of_lt hn)
  exact ⟨ho.1, ho.2.2.1⟩

theorem Change.lasting {s s' : Stage} (h : Change P T s s') : Lasting s.1 s'.1 := by
  cases h with
  | drop w d k n l hmem hn hlist hpeer =>
    exact (Lasting.onConvs (Convs.sameIm_forget w.convs n)).trans (.of_eq rfl rfl rfl rfl rfl rfl)
  | newIm w a name => exact .newConv false a name
  | link w n v => exact .onConvs (Convs.sameIm_link _ _ _ _)
  | unlink w v => exact .onConvs (Convs.sameIm_unlink _ _)
  | add | addLocal => exact .added
  | newChat w a name channame up => exact (Lasting.newConv true a name).trans (.of_eq rfl rfl rfl rfl rfl rfl)
  | _ => exact .of_eq rfl rfl rfl rfl rfl rfl

/-- What a nick has or was shown, before and after a change. -/
def Heard (w : World) (n : NickRef) (v : ConvRef) : Prop :=
  w.convs.conversation n = some v ∨ (n, v) ∈ w.convs.shown ∨ (n, v) ∈ w.convs.replies

/-- Only a link gives a nick a conversation it did not have. -/
theorem Change.heard {s s' : Stage} (h : Change P T s s') (n : NickRef) (v : ConvRef)
    (hh : s'.1.Heard n v) : s.1.Heard n v ∨ s'.1.convs.conversation n = some v ∧
      s.1.nicks.alive n = true ∧ s.1.convs.isIm v ∧ (T.fair → s.1.Fits P n v) := by
  cases h with
  | drop w d k m l hmem hm hlist hpeer =>
    rcases hh with hc | hs | hr
    · change (w.convs.forget m).conversation n = some v at hc
      rw [Convs.forget_conversation] at hc
      split at hc
      · cases hc
      · exact .inl (.inl hc)
    · exact .inl (.inr (.inl ((Convs.sameIm_forget w.convs m).logs.1 ▸ hs)))
    · exact .inl (.inr (.inr ((Convs.sameIm_forget w.convs m).logs.2 ▸ hr)))
  | link w m u hm hconv hu hne hk hfit =>
    rcases hh with hc | hs | hr
    · have hc' := hc
      change (w.convs.link _ m u).conversation n = some v at hc'
      rw [Convs.link_conversation] at hc'
      split at hc'
      · next he =>
        obtain rfl := Option.some.inj hc'
        subst he
        exact .inr ⟨hc, hm, hu, hfit⟩
      · split at hc'
        · cases hc'
        · exact .inl (.inl hc')
    · exact .inl (.inr (.inl ((Convs.sameIm_link w.convs _ m u).logs.1 ▸ hs)))
    · exact .inl (.inr (.inr ((Convs.sameIm_link w.convs _ m u).logs.2 ▸ hr)))
  | unlink w u =>
    rcases hh with hc | hs | hr
    · change (w.convs.unlink u).conversation n = some v at hc
      rw [Convs.unlink_conversation] at hc
      split at hc
      · cases hc
      · exact .inl (.inl hc)
    · exact .inl (.inr (.inl ((Convs.sameIm_unlink w.convs u).logs.1 ▸ hs)))
    · exact .inl (.inr (.inr ((Convs.sameIm_unlink w.convs u).logs.2 ▸ hr)))
  | showed w m u h =>
    rcases hh with hc | hs | hr
    · exact .inl (.inl hc)
    · rcases List.mem_append.mp hs with hs | hs
      · exact .inl (.inr (.inl hs))
      · obtain ⟨rfl, rfl⟩ := Prod.mk.inj (List.mem_singleton.mp hs)
        exact .inl (.inl h)
    · exact .inl (.inr (.inr hr))
  | replied w m u h q =>
    rcases hh with hc | hs | hr
    · exact .inl (.inl hc)
    · exact .inl (.inr (.inl hs))
    · rcases List.mem_append.mp hr with hr | hr
      · exact .inl (.inr (.inr hr))
      · obtain ⟨rfl, rfl⟩ := Prod.mk.inj (List.mem_singleton.mp hr)
        exact .inl (.inl h)
  | _ => exact .inl hh

/-- Everything a `Buddy` has or had shown is of that buddy. -/
def Attributed (P : Purple) (w : World) : Prop := ∀ n v, w.Heard n v → w.Fitting P n v

theorem Change.attributed {s s' : Stage} (h : Change P T s s') (hok : s.1.Ok s.2) (hT : T.fair)
    (ha : s.1.Attributed P) : s'.1.Attributed P := by
  intro n v hh
  rcases h.heard n v hh with hold | ⟨-, hn, hv, hfit⟩
  · exact (ha n v hold).lasting h.lasting
  · have : s.1.Fitting P n v := ⟨hok.table.bound n hn, hok.talks.bound v hv.1, hfit hT⟩
    exact this.lasting h.lasting

theorem Changes.attributed {s s' : Stage} (h : Changes P T s s') (hok : s.1.Ok s.2) (hT : T.fair)
    (ha : s.1.Attributed P) : s'.1.Attributed P := by
  induction h with
  | refl => exact ha
  | tail hrest hstep ih => exact hstep.attributed (Changes.ok hrest hok) hT ih

theorem Attributed.rightBuddy (ha : w.Attributed P) (hw : w.Ok none) : w.RightBuddy P where
  conv n v hk hc := ⟨hw.paired.im n v hc, (ha n v (.inl hc)).fits hk⟩
  shown e he hk := (ha e.1 e.2 (.inr (.inl he))).fits hk
  replies e he hk := (ha e.1 e.2 (.inr (.inr he))).fits hk

/-- As long as no line is taken for a buddy's by its displayed name alone. -/
theorem runAll_rightBuddy (P : Purple) (ops : List Op) (h : initial.Along P (Fair P) ops) :
    (initial.runAll P ops).RightBuddy P := by
  have hinit : initial.Attributed P := by
    rintro n v (hc | hs | hr)
    · cases hc
    · cases hs
    · cases hr
  have hattr := runAll_keeps (I := Attributed P)
    (fun _ _ _ hw hQ _ hI hgo => Changes.attributed hgo hw hQ hI) initial_ok hinit h
  exact hattr.rightBuddy (runAll_ok P ops)

section Runs

/-- Buddy 0 is `bob` of the account 0; the account 1 has a contact of the same name. -/
def twoBobs : Purple where
  buddyAccount _ := 0
  buddyName _ := str "bob"
  cbAccount _ := 0
  cbName _ := []
  cbRealName _ := []
  translit _ := none

def twoAccounts : PurpleData where
  accountId a := if a = 0 then str "jabber0" else str "icq1"
  username _ := str "alice"

/-- `bob` is on the buddy list, and a contact of the given account writes under this name. -/
def bobWrites (a : AccountRef) : List Op :=
  [.nick (str "alice"), .startUp [], .welcome, .data twoAccounts, .connected 0, .connected 1,
    .updateNode 0, .newConversation a (str "bob"), .recvMessage 0 (str "bob") (str "hi") false,
    .privmsg (str "bob") (str "hello") false]

theorem runAll_rightBuddy_bob : initial.Along twoBobs (Fair twoBobs) (bobWrites 0) ∧
    (initial.runAll twoBobs (bobWrites 0)).RightBuddy twoBobs := by
  have h : initial.Along twoBobs (Fair twoBobs) (bobWrites 0) := by decide
  exact ⟨h, runAll_rightBuddy twoBobs _ h⟩

/-- The contact of the other account gets the nick of the buddy. -/
theorem runAll_wrongBuddy : ¬ ∀ (P : Purple) (ops : List Op),
    (initial.runAll P ops).RightBuddy P := by
  intro h
  have hconv := ((h twoBobs (bobWrites 1)).conv 3 0 (by decide) (by decide)).2.1
  revert hconv
  decide

end Runs

end World
end Minbif
