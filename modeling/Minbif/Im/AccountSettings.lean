import Minbif.Im.AccountIds

/-! What the options of an account read from what libpurple keeps for it. -/
namespace Minbif
open Function

/-- A number of either sign that is written is read back. -/
theorem getValueInt_t2s (i : Int) (o : ProtocolOption) :
    ({ o with value := t2s i } : ProtocolOption).getValueInt = i := by
  cases i with
  | ofNat n =>
    have hdigits : (t2s (Int.ofNat n)).head? ≠ some '-' := by
      intro hhead
      have hmem := List.mem_of_mem_head? hhead
      rw [show t2s (Int.ofNat n) = Nat.toDigits 10 n from t2s_nat n] at hmem
      have := Nat.isDigit_of_mem_toDigits (by omega) (by omega) hmem
      revert this
      decide
    rw [ProtocolOption.getValueInt, if_neg hdigits]
    exact congrArg Int.ofNat (s2t_t2s n)
  | negSucc n =>
    have hminus : t2s (Int.negSucc n) = '-' :: t2s (n + 1 : Nat) := by
      rw [t2s_nat, t2s]
      change ("-" ++ (n + 1).repr).toList = _
      rw [String.toList_append, Nat.toList_repr]
      rfl
    rw [ProtocolOption.getValueInt, hminus]
    change -(s2t (t2s (n + 1 : Nat)) : Int) = _
    rw [s2t_t2s]
    rfl

/-- A value that an option of the type can have. -/
def ProtocolOption.Holds (o : ProtocolOption) (value : Str) : Prop :=
  (o.type = .int → ∃ i, value = t2s i) ∧ (o.type = .bool → value = str "true" ∨ value = str "false")

namespace Protocol

/-- The default of every option is a value that it can have. -/
theorem getOptions_holds (p : Protocol) {k : Str} {o : ProtocolOption}
    (ho : p.getOptions.find? k = some o) : o.Holds o.value := by
  have hins : ∀ (options : Options) (key : Str) (v : ProtocolOption), v.Holds v.value →
      (∀ k o, options.find? k = some o → o.Holds o.value) →
      ∀ k o, (options.insert key v).find? k = some o → o.Holds o.value := by
    intro options key v hv h k o ho
    rw [OrdMap.find?_insert] at ho
    split at ho
    · exact Option.some.inj ho ▸ hv
    · exact h k o ho
  have hplain : ∀ o : ProtocolOption, o.type ≠ .int → o.type ≠ .bool → o.Holds o.value :=
    fun o hi hb => ⟨fun h => absurd h hi, fun h => absurd h hb⟩
  have hone : ∀ (options : Options) (e : Str × Pref),
      (∀ k o, options.find? k = some o → o.Holds o.value) →
      ∀ k o, (addSetting options e).find? k = some o → o.Holds o.value := by
    rintro options ⟨key, pref⟩ h
    cases pref with
    | boolean value =>
      refine hins options key _ ⟨by simp, fun _ => ?_⟩ h
      cases value
      · exact .inr rfl
      · exact .inl rfl
    | string value => exact hins options key _ (hplain _ (by simp) (by simp)) h
    | stringList value choices => exact hins options key _ (hplain _ (by simp) (by simp)) h
    | int value => exact hins options key _ ⟨fun _ => ⟨value, rfl⟩, by simp⟩ h
    | other => exact h
  have hall : ∀ (l : List (Str × Pref)) (options : Options),
      (∀ k o, options.find? k = some o → o.Holds o.value) →
      ∀ k o, (l.foldl addSetting options).find? k = some o → o.Holds o.value := by
    intro l
    induction l with
    | nil => exact fun _ h => h
    | cons e l ih => exact fun options h => ih _ (hone options e h)
  have hempty : ∀ k o, (OrdMap.empty : Options).find? k = some o → o.Holds o.value :=
    fun _ _ h => absurd h (by simp [OrdMap.find?])
  unfold getOptions at ho
  dsimp only at ho
  refine hins _ _ { type := .serverAliases, value := str "true" } (hplain _ (by simp) (by simp)) ?_ k o ho
  refine hins _ _ _ (hplain _ ?_ ?_) (hins _ _ _ (hplain _ ?_ ?_) (hins _ _ _ (hplain _ ?_ ?_) ?_))
  iterate 6 simp
  exact hall p.settings .empty hempty

end Protocol

/-- The options of the protocol, with any values. -/
def Options.Of (options : Options) (p : Protocol) : Prop :=
  ∀ k, (options.find? k).map ProtocolOption.type = (p.getOptions.find? k).map ProtocolOption.type

namespace Options

variable {options : Options} {p : Protocol} {k : Str} {o : ProtocolOption}

theorem Of.setValue (h : Of options p) (ho : options.find? k = some o) (value : Str) :
    Of (OrdMap.insert options k { o with value := value }) p := by
  intro k'
  rw [OrdMap.find?_insert, ← h k']
  split
  · next hk =>
    rw [hk, ho]
    rfl
  · rfl

/-- The same for `options[key]`, where the protocol has the option. -/
theorem Of.put (h : Of options p) (hk : (p.getOptions.find? k).isSome = true) (value : Str) :
    Of (OrdMap.insert options k { (options.find? k).getD {} with value := value }) p := by
  have hsome : (options.find? k).isSome = true := by
    have hmap := congrArg Option.isSome (h k)
    rwa [Option.isSome_map, Option.isSome_map, hk] at hmap
  obtain ⟨o, ho⟩ := Option.isSome_iff_exists.mp hsome
  rw [ho]
  exact h.setValue ho value

theorem Of.type (h : Of options p) (ho : options.find? k = some o) :
    ∃ o', p.getOptions.find? k = some o' ∧ o'.type = o.type := by
  have hmap := h k
  rw [ho, Option.map_some, eq_comm, Option.map_eq_some_iff] at hmap
  exact hmap

end Options

namespace Accounts

variable {A B : Accounts} {a b : AccountRef} {p : Protocol} {k v : Str} {o : ProtocolOption}

/-- The value that `getOptions` reads for an option of the protocol. -/
def reading (A : Accounts) (a : AccountRef) (e : Str × ProtocolOption) : Str :=
  match e.2.type with
  | .str | .strList | .int | .bool => (A.settings.values a e.1).getD e.2.value
  | .accid => A.id a
  | .statusChannel => A.channel a
  | .password => A.settings.password a
  | .serverAliases => if A.settings.serverAliases a then str "true" else str "false"
  | .none => e.2.value

/-- Plugins have names of their own, and what is kept for an account fits the options of its
protocol. -/
structure Typed (A : Accounts) : Prop where
  plugins : ∀ p ∈ A.protocols, ∀ q ∈ A.protocols, p.purpleId = q.purpleId → p = q
  fresh : ∀ a k, A.next ≤ a → A.settings.values a k = none
  holds : ∀ a p k o v, A.protocol a = some p → p.getOptions.find? k = some o →
    A.settings.values a k = some v → o.Holds v

theorem getOptions_eq (hp : A.protocol a = some p) : A.getOptions a = p.getOptions.entries.foldl
    (fun m e => OrdMap.insert m e.1 { e.2 with value := A.reading a e }) .empty := by
  rw [getOptions, hp]
  rfl

theorem mem_getOptions (hp : A.protocol a = some p) : (k, o) ∈ (A.getOptions a).entries ↔
    ∃ o', p.getOptions.find? k = some o' ∧ o = { o' with value := A.reading a (k, o') } := by
  rw [← OrdMap.find?_eq_some, getOptions_eq hp, OrdMap.find?_foldl_insert, show
    (OrdMap.empty : Options).find? k = none from rfl, Option.or_none, Option.map_eq_some_iff]
  exact exists_congr fun o' => and_congr_right fun _ => eq_comm

/-- Options that read the same are the same. -/
theorem getOptions_congr (hp : B.protocol a = A.protocol a) (h : ∀ p, A.protocol a = some p →
    ∀ e ∈ p.getOptions.entries, B.reading a e = A.reading a e) : B.getOptions a = A.getOptions a := by
  cases hA : A.protocol a with
  | none =>
    rw [getOptions, getOptions, hp, hA]
    rfl
  | some p =>
    rw [getOptions_eq (hp.trans hA), getOptions_eq hA]
    refine List.foldl_ext _ _ _ fun m e he => ?_
    rw [h p hA e he]

theorem Typed.reading_holds (h : A.Typed) (hp : A.protocol a = some p)
    (ho : p.getOptions.find? k = some o) : o.Holds (A.reading a (k, o)) := by
  have hvalue : o.Holds ((A.settings.values a k).getD o.value) := by
    cases hv : A.settings.values a k with
    | none => exact p.getOptions_holds ho
    | some v => exact h.holds a p k o v hp ho hv
  constructor
  · intro ht
    have hread : A.reading a (k, o) = (A.settings.values a k).getD o.value := by simp [reading, ht]
    rw [hread]
    exact hvalue.1 ht
  · intro ht
    have hread : A.reading a (k, o) = (A.settings.values a k).getD o.value := by simp [reading, ht]
    rw [hread]
    exact hvalue.2 ht

/-- To keep what is read already changes nothing that is read. -/
theorem setSetting_reading (hp : A.protocol a = some p) (ho : p.getOptions.find? k = some o)
    (hv : (A.settings.values a k).getD o.value = v) :
    (A.setSetting a k v).getOptions b = A.getOptions b := by
  refine getOptions_congr rfl fun q hq e he => ?_
  have hvalue : ((A.setSetting a k v).settings.values b e.1).getD e.2.value =
      (A.settings.values b e.1).getD e.2.value := by
    change (update A.settings.values a (update (A.settings.values a) k (some v)) b e.1).getD _ = _
    rcases eq_or_ne b a with rfl | hba
    · rw [update_self]
      rcases eq_or_ne e.1 k with rfl | hk
      · rw [hq] at hp
        obtain rfl := Option.some.inj hp
        obtain rfl := OrdMap.mem_unique he (OrdMap.find?_eq_some.mp ho)
        rw [update_self]
        exact hv.symm
      · rw [update_of_ne hk]
    · rw [update_of_ne hba]
  unfold reading
  split <;> first | exact hvalue | rfl

/-- To set an option to the value it has is no change. -/
theorem Typed.setOther_same (h : A.Typed) (he : (k, o) ∈ (A.getOptions a).entries) :
    (A.setOther a k o).getOptions b = A.getOptions b := by
  cases hp : A.protocol a with
  | none =>
    rw [getOptions, hp] at he
    cases he
  | some p =>
    obtain ⟨o', ho', rfl⟩ := (mem_getOptions hp).mp he
    have hholds := h.reading_holds hp ho'
    unfold setOther
    dsimp only
    split
    · next ht => exact setSetting_reading hp ho' (by simp [reading, ht])
    · next ht => exact setSetting_reading hp ho' (by simp [reading, ht])
    · next ht =>
      obtain ⟨i, hi⟩ := hholds.1 ht
      rw [hi, getValueInt_t2s, ← hi]
      exact setSetting_reading hp ho' (by simp [reading, ht])
    · next ht =>
      have hread : (A.settings.values a k).getD o'.value = A.reading a (k, o') := by simp [reading, ht]
      refine setSetting_reading hp ho' (hread.trans ?_)
      rcases hholds.2 ht with hv | hv
      · simp [hv, ProtocolOption.getValueBool]
      · simp [hv, ProtocolOption.getValueBool, str]
    · next ht =>
      rw [if_pos (by simp [reading, ht])]
    · next ht =>
      have hflag : ({ o' with value := A.reading a (k, o') } : ProtocolOption).getValueBool =
          A.settings.serverAliases a := by
        cases hs : A.settings.serverAliases a <;>
          simp [reading, ht, hs, ProtocolOption.getValueBool, str]
      rw [hflag, update_eq_self]
    · rfl
    · rfl
    · rfl

/-- The options of an account are those of its protocol, with its own values. -/
theorem find?_getOptions (hp : A.protocol a = some p) (k : Str) : (A.getOptions a).find? k =
    (p.getOptions.find? k).map fun o => { o with value := A.reading a (k, o) } := by
  rw [getOptions_eq hp, OrdMap.find?_foldl_insert]
  exact Option.or_none

theorem getOptions_of (hp : A.protocol a = some p) : Options.Of (A.getOptions a) p := by
  intro k
  rw [find?_getOptions hp, Option.map_map]
  rfl

section Typed

theorem Typed.congr (h : A.Typed) (hprotocols : B.protocols = A.protocols)
    (hid : B.protocolId = A.protocolId) (hnext : B.next = A.next)
    (hvalues : B.settings.values = A.settings.values) : B.Typed where
  plugins := by
    rw [hprotocols]
    exact h.plugins
  fresh a k ha := by
    rw [hvalues]
    exact h.fresh a k (hnext ▸ ha)
  holds a p k o v hp ho hv := by
    rw [hvalues] at hv
    refine h.holds a p k o v ?_ ho hv
    rwa [protocol, getProtocolByPurpleID, hprotocols, hid] at hp

theorem Typed.setSetting (h : A.Typed) (ha : a < A.next) (hv : ∀ p o, A.protocol a = some p →
    p.getOptions.find? k = some o → o.Holds v) : (A.setSetting a k v).Typed where
  plugins := h.plugins
  fresh b k' hb := by
    have hne : b ≠ a := fun hba => absurd ha (Nat.not_lt.mpr (hba ▸ hb))
    change update A.settings.values a _ b k' = none
    rw [update_of_ne hne]
    exact h.fresh b k' hb
  holds b p k' o v' hp ho hv' := by
    change update A.settings.values a (update (A.settings.values a) k (some v)) b k' = some v' at hv'
    rcases eq_or_ne b a with rfl | hba
    · rw [update_self] at hv'
      rcases eq_or_ne k' k with rfl | hk
      · rw [update_self] at hv'
        exact Option.some.inj hv' ▸ hv p o hp ho
      · rw [update_of_ne hk] at hv'
        exact h.holds b p k' o v' hp ho hv'
    · rw [update_of_ne hba] at hv'
      exact h.holds b p k' o v' hp ho hv'

/-- A value that is set is one that its option can have. -/
theorem Typed.setOther (h : A.Typed) (ha : a < A.next) (ho : ∀ p, A.protocol a = some p →
    ∃ o', p.getOptions.find? k = some o' ∧ o'.type = o.type) : (A.setOther a k o).Typed := by
  have hset : ∀ v, (∀ o' : ProtocolOption, o'.type = o.type → o'.Holds v) →
      (A.setSetting a k v).Typed := by
    intro v hv
    refine h.setSetting ha fun p o' hp ho' => ?_
    obtain ⟨o'', ho'', ht⟩ := ho p hp
    rw [ho'] at ho''
    exact hv o' (Option.some.inj ho'' ▸ ht)
  unfold Accounts.setOther
  split
  · next ht => exact hset _ fun o' ho' => ⟨by rw [ho', ht]; nofun, by rw [ho', ht]; nofun⟩
  · next ht => exact hset _ fun o' ho' => ⟨by rw [ho', ht]; nofun, by rw [ho', ht]; nofun⟩
  · next ht => exact hset _ fun o' ho' => ⟨fun _ => ⟨_, rfl⟩, by rw [ho', ht]; nofun⟩
  · next ht =>
    refine hset _ fun o' ho' => ⟨by rw [ho', ht]; nofun, fun _ => ?_⟩
    split
    · exact .inl rfl
    · exact .inr rfl
  · split
    · exact h
    split
    · exact h.congr rfl rfl rfl rfl
    · exact h.congr rfl rfl rfl rfl
  · exact h.congr rfl rfl rfl rfl
  · exact h
  · exact h
  · exact h

/-- Nothing is kept yet for a new account. -/
theorem Typed.newAccount (h : A.Typed) (username protocolId : Str) :
    (A.newAccount username protocolId none).2.Typed where
  plugins := h.plugins
  fresh b k hb := h.fresh b k (Nat.le_of_succ_le hb)
  holds b p k o v hp ho hv := by
    rcases eq_or_ne b A.next with rfl | hne
    · exact absurd (hv.symm.trans (h.fresh A.next k (Nat.le_refl _))) nofun
    · refine h.holds b p k o v ?_ ho hv
      rw [← hp]
      exact congrArg A.getProtocolByPurpleID (update_of_ne hne ..).symm

end Typed

end Accounts

end Minbif
