import Minbif.Im.AccountSettings
import Minbif.World.Map

/-! What MAP reads as the options of an account, and what setting them does. -/
namespace Minbif
open Function

/-- No option that changes an ID or a status channel. -/
def ProtocolOption.Plain (o : ProtocolOption) : Prop := o.type ≠ .accid ∧ o.type ≠ .statusChannel

namespace Options

/-- The value that is asked for. -/
def wanted (options : Options) (key : String) : Str := ((options.find? (str key)).getD {}).value

/-- The ID and the status channel are options of their own names. -/
structure Proper (options : Options) : Prop where
  accid : (options.find? (str "accid")).isSome = true
  channel : (options.find? (str "status_channel")).isSome = true
  typed : ∀ k o, options.find? k = some o →
    (o.type = .accid ↔ k = str "accid") ∧ (o.type = .statusChannel ↔ k = str "status_channel")

variable {options : Options} {key k : Str} {o : ProtocolOption} {value : Str}

theorem Proper.insert (h : Proper options)
    (ho : (o.type = .accid ↔ key = str "accid") ∧ (o.type = .statusChannel ↔ key = str "status_channel")) :
    Proper (OrdMap.insert options key o) where
  accid := by
    rw [OrdMap.find?_insert]
    split
    · rfl
    · exact h.accid
  channel := by
    rw [OrdMap.find?_insert]
    split
    · rfl
    · exact h.channel
  typed k o' ho' := by
    rw [OrdMap.find?_insert] at ho'
    split at ho'
    · next hk =>
      obtain rfl := Option.some.inj ho'
      exact hk ▸ ho
    · exact h.typed k o' ho'

/-- To set the value of an option that is there. -/
theorem Proper.setValue (h : Proper options) (ho : options.find? key = some o) (value : Str) :
    Proper (OrdMap.insert options key { o with value := value }) :=
  h.insert (h.typed key o ho)

/-- The same for `options[key]`, which makes an option that is not there. -/
theorem Proper.put (h : Proper options) (key value : Str) :
    Proper (OrdMap.insert options key { (options.find? key).getD {} with value := value }) := by
  cases hf : options.find? key with
  | some o => exact h.setValue hf value
  | none =>
    refine h.insert ⟨iff_of_false nofun ?_, iff_of_false nofun ?_⟩
    · rintro rfl
      exact absurd h.accid (by rw [hf]; nofun)
    · rintro rfl
      exact absurd h.channel (by rw [hf]; nofun)

theorem wanted_insert {name : String} :
    wanted (OrdMap.insert options key o) name = if str name = key then o.value else wanted options name := by
  rw [wanted, OrdMap.find?_insert]
  split <;> rfl

/-- An ID is set before a status channel, and nothing else changes either. -/
theorem Proper.split (h : Proper options) : ∃ pre mid post oa oc,
    options.entries = pre ++ (str "accid", oa) :: (mid ++ (str "status_channel", oc) :: post) ∧
      (oa.type = .accid ∧ oa.value = wanted options "accid") ∧
      (oc.type = .statusChannel ∧ oc.value = wanted options "status_channel") ∧
      (∀ e ∈ pre, e.2.Plain) ∧ (∀ e ∈ mid, e.2.Plain) ∧ ∀ e ∈ post, e.2.Plain := by
  obtain ⟨oa, ha⟩ := Option.isSome_iff_exists.mp h.accid
  obtain ⟨oc, hc⟩ := Option.isSome_iff_exists.mp h.channel
  obtain ⟨pre, rest, hentries⟩ := List.append_of_mem (OrdMap.find?_eq_some.mp ha)
  have hsorted := options.sorted
  rw [hentries] at hsorted
  obtain ⟨-, hrest, hpre⟩ := List.pairwise_append.mp hsorted
  obtain ⟨hafter, hrest⟩ := List.pairwise_cons.mp hrest
  have hlt : str "accid" < str "status_channel" := by decide
  have hmem : (str "status_channel", oc) ∈ rest := by
    have hc' := OrdMap.find?_eq_some.mp hc
    rw [hentries] at hc'
    rcases List.mem_append.mp hc' with hc' | hc'
    · exact absurd (hpre _ hc' _ List.mem_cons_self) (lt_asymm hlt)
    · exact (List.mem_cons.mp hc').resolve_left (by simp [str])
  obtain ⟨mid, post, rfl⟩ := List.append_of_mem hmem
  obtain ⟨-, hpost, hmid⟩ := List.pairwise_append.mp hrest
  have hplain : ∀ e ∈ options.entries, e.1 ≠ str "accid" → e.1 ≠ str "status_channel" → e.2.Plain := by
    intro e he hacc hchan
    obtain ⟨hta, htc⟩ := h.typed e.1 e.2 (OrdMap.find?_eq_some.mpr he)
    exact ⟨fun ht => hacc (hta.mp ht), fun ht => hchan (htc.mp ht)⟩
  refine ⟨pre, mid, post, oa, oc, hentries, ⟨(h.typed _ _ ha).1.mpr rfl, by rw [wanted, ha]; rfl⟩,
    ⟨(h.typed _ _ hc).2.mpr rfl, by rw [wanted, hc]; rfl⟩, fun e he => ?_, fun e he => ?_, fun e he => ?_⟩
  · refine hplain e (by rw [hentries]; simp [he]) (fun hk => ?_) fun hk => ?_
    · exact absurd (hpre e he _ List.mem_cons_self) (by rw [hk]; exact lt_irrefl _)
    · exact absurd (hpre e he (str "status_channel", oc) (by simp)) (by rw [hk]; exact lt_irrefl _)
  · refine hplain e (by rw [hentries]; simp [he]) (fun hk => ?_) fun hk => ?_
    · exact absurd (hafter e (by simp [he])) (by rw [hk]; exact lt_irrefl _)
    · exact absurd (hmid e he _ List.mem_cons_self) (by rw [hk]; exact lt_irrefl _)
  · refine hplain e (by rw [hentries]; simp [he]) (fun hk => ?_) fun hk => ?_
    · exact absurd (hafter e (by simp [he])) (by rw [hk]; exact lt_irrefl _)
    · exact absurd ((List.pairwise_cons.mp hpost).1 e he) (by rw [hk]; exact lt_irrefl _)

end Options

namespace Protocol

open Options

variable {p : Protocol}

/-- An option of a plugin is a plain one. -/
theorem addSetting_plain {options : Options} (h : ∀ k o, options.find? k = some o → o.Plain)
    (e : Str × Pref) : ∀ k o, (addSetting options e).find? k = some o → o.Plain := by
  have hins : ∀ v : ProtocolOption, v.Plain →
      ∀ k o, (OrdMap.insert options e.1 v).find? k = some o → o.Plain := by
    intro v hv k o ho
    rw [OrdMap.find?_insert] at ho
    split at ho
    · exact Option.some.inj ho ▸ hv
    · exact h k o ho
  unfold addSetting
  split
  · exact hins _ ⟨nofun, nofun⟩
  · exact hins _ ⟨nofun, nofun⟩
  · exact hins _ ⟨nofun, nofun⟩
  · exact hins _ ⟨nofun, nofun⟩
  · exact h

theorem settings_plain (l : List (Str × Pref)) {options : Options}
    (h : ∀ k o, options.find? k = some o → o.Plain) :
    ∀ k o, (l.foldl addSetting options).find? k = some o → o.Plain := by
  induction l generalizing options with
  | nil => exact h
  | cons e l ih => exact ih (addSetting_plain h e)

theorem getOptions_proper (p : Protocol) : Proper p.getOptions := by
  have hempty : ∀ k o, (OrdMap.empty : Options).find? k = some o → o.Plain :=
    fun _ _ h => absurd h (by simp [OrdMap.find?])
  have hplain := settings_plain p.settings hempty
  have hne : str "accid" ≠ str "status_channel" := by decide
  have hbase : Proper (((p.settings.foldl addSetting .empty).insert (str "accid") { type := .accid }).insert
      (str "status_channel") { type := .statusChannel, value := str "&minbif" }) := by
    refine ⟨?_, ?_, fun k o ho => ?_⟩
    · rw [OrdMap.find?_insert_of_ne hne, OrdMap.find?_insert_self]
      rfl
    · rw [OrdMap.find?_insert_self]
      rfl
    · rw [OrdMap.find?_insert] at ho
      split at ho
      · next hk =>
        obtain rfl := Option.some.inj ho
        exact ⟨iff_of_false (by simp) fun h => hne (h.symm.trans hk), iff_of_true rfl hk⟩
      rw [OrdMap.find?_insert] at ho
      split at ho
      · next hk =>
        obtain rfl := Option.some.inj ho
        exact ⟨iff_of_true rfl hk, iff_of_false (by simp) fun h => hne (hk.symm.trans h)⟩
      · next hc ha =>
        obtain ⟨hta, htc⟩ := hplain k o ho
        exact ⟨iff_of_false hta ha, iff_of_false htc hc⟩
  have hother : ∀ (o : ProtocolOption) (key : Str) (options : Options), Proper options → o.Plain →
      key ≠ str "accid" → key ≠ str "status_channel" → Proper (OrdMap.insert options key o) :=
    fun o key options h ho ha hc => h.insert ⟨iff_of_false ho.1 ha, iff_of_false ho.2 hc⟩
  refine hother _ _ _ (hother _ _ _ hbase ?_ ?_ ?_) ?_ ?_ ?_
  · exact ⟨by simp, by simp⟩
  · decide
  · decide
  · exact ⟨by simp, by simp⟩
  · decide
  · decide

end Protocol

namespace Accounts

open Options

variable {A : Accounts} {a : AccountRef} {p : Protocol} {k : Str} {o : ProtocolOption}

theorem getOptions_proper (h : A.protocol a = some p) : Proper (A.getOptions a) ∧
    wanted (A.getOptions a) "accid" = A.id a ∧ wanted (A.getOptions a) "status_channel" = A.channel a := by
  have hfind := find?_getOptions h
  have hp := p.getOptions_proper
  refine ⟨⟨?_, ?_, fun k o ho => ?_⟩, ?_, ?_⟩
  · rw [hfind, Option.isSome_map]
    exact hp.accid
  · rw [hfind, Option.isSome_map]
    exact hp.channel
  · rw [hfind] at ho
    obtain ⟨o', ho', rfl⟩ := Option.map_eq_some_iff.mp ho
    exact hp.typed k o' ho'
  · obtain ⟨o, ho⟩ := Option.isSome_iff_exists.mp hp.accid
    have htype : o.type = .accid := (hp.typed _ _ ho).1.mpr rfl
    rw [wanted, hfind, ho, Option.map_some, Option.getD_some, reading, htype]
  · obtain ⟨o, ho⟩ := Option.isSome_iff_exists.mp hp.channel
    have htype : o.type = .statusChannel := (hp.typed _ _ ho).2.mpr rfl
    rw [wanted, hfind, ho, Option.map_some, Option.getD_some, reading, htype]

end Accounts

namespace IM

open Options

variable {P : Purple} {decode : Str → Str} {s : IM} {a : AccountRef} {args : List Str} {username key value : Str}
  {options options' : Options} {r : Str × Options} {p : Protocol} {l rest : List (Str × ProtocolOption)}

theorem readWords_proper (h : Proper options) (hr : readWords decode args username options = .ok r) :
    Proper r.2 := by
  fun_induction readWords decode args username options with
  | case1 username options =>
    cases hr
    exact h
  | case2 username options s args _ ih => exact ih h hr
  | case3 => cases hr
  | case4 _ _ _ _ _ _ _ _ o ho _ ih => exact ih (h.setValue ho _) hr
  | case5 => cases hr
  | case6 _ _ _ _ _ _ _ o ho _ _ _ ih => exact ih (h.setValue ho _) hr
  | case7 _ _ _ _ _ _ _ _ ih => exact ih (h.put _ _) hr
  | case8 _ _ _ _ _ _ _ _ _ ih => exact ih (h.put _ _) hr

theorem map_ok {ε α β : Type} {f : α → β} {x : Except ε α} {y : β} (h : x.map f = .ok y) :
    ∃ z, x = .ok z ∧ f z = y := by
  cases x with
  | error e => cases h
  | ok z => exact ⟨z, rfl, Except.ok.inj h⟩

/-- What MAP add is asked for is an account of a protocol that exists. -/
theorem readAdd_ok (h : s.readAdd decode args = .ok (p, username, options)) :
    p ∈ s.accounts.protocols ∧ Proper options := by
  have hlist : ∀ (l : List Protocol) (m : OrdMap Str Protocol) k q,
      (l.foldl (fun m p => m.insert p.getID p) m).find? k = some q → q ∈ l ∨ m.find? k = some q := by
    intro l
    induction l with
    | nil => exact fun m k q hq => .inr hq
    | cons p l ih =>
      intro m k q hq
      rcases ih _ k q hq with hq | hq
      · exact .inl (List.mem_cons_of_mem p hq)
      rw [OrdMap.find?_insert] at hq
      split at hq
      · exact .inl (List.mem_cons.mpr (.inl (Option.some.inj hq).symm))
      · exact .inr hq
  unfold readAdd at h
  split at h
  · cases h
  split at h
  · cases h
  · next proto hproto =>
    split at h
    · cases h
    · obtain ⟨r, hr, he⟩ := map_ok h
      cases he
      refine ⟨(hlist _ _ _ _ hproto).resolve_right (by simp [OrdMap.find?]), ?_⟩
      exact readWords_proper (Protocol.getOptions_proper _) hr

/-- MAP edit changes one option of those that the account has. -/
theorem readEdit_ok {A : Accounts} (hp : A.protocol a = some p) (h : readEdit A a key value = .ok options) :
    Proper options ∧
      wanted options "accid" = (if key = str "accid" then value else A.id a) ∧
      wanted options "status_channel" = if key = str "status_channel" then value else A.channel a := by
  obtain ⟨hproper, hid, hchan⟩ := A.getOptions_proper hp
  unfold readEdit at h
  dsimp only at h
  split at h
  · cases h
  · next o ho =>
    split at h
    · cases h
    · obtain rfl := Except.ok.inj h
      refine ⟨hproper.setValue ho value, ?_, ?_⟩
      · rw [wanted_insert, hid]
        simp only [eq_comm]
      · rw [wanted_insert, hchan]
        simp only [eq_comm]

/-- Only what no ID, channel or list depends on differs. -/
def withSettings (s : IM) (S : Settings) : IM := { s with accounts := { s.accounts with settings := S } }

theorem setOther_eq (A : Accounts) (a : AccountRef) (name : Str) (o : ProtocolOption) :
    ∃ S, A.setOther a name o = { A with settings := S } := by
  unfold Accounts.setOther Accounts.setSetting
  split
  · exact ⟨_, rfl⟩
  · exact ⟨_, rfl⟩
  · exact ⟨_, rfl⟩
  · exact ⟨_, rfl⟩
  · split
    · exact ⟨_, rfl⟩
    split
    · exact ⟨_, rfl⟩
    · exact ⟨_, rfl⟩
  · exact ⟨_, rfl⟩
  · exact ⟨_, rfl⟩
  · exact ⟨_, rfl⟩
  · exact ⟨_, rfl⟩

theorem setOption_plain {e : Str × ProtocolOption} (h : e.2.Plain) :
    ∃ S, s.setOption P a e = (none, s.withSettings S) := by
  obtain ⟨S, hS⟩ := setOther_eq s.accounts a e.1 e.2
  refine ⟨S, ?_⟩
  unfold setOption
  split
  · next ht => exact absurd ht h.1
  · next ht => exact absurd ht h.2
  · rw [hS]
    rfl

theorem setOptionsLoop_plain (h : ∀ e ∈ l, e.2.Plain) (s : IM) :
    ∃ S, setOptionsLoop P a (l ++ rest) s = setOptionsLoop P a rest (s.withSettings S) := by
  induction l generalizing s with
  | nil => exact ⟨s.accounts.settings, rfl⟩
  | cons e l ih =>
    rw [List.forall_mem_cons] at h
    obtain ⟨S, hS⟩ := setOption_plain (P := P) (s := s) (a := a) h.1
    obtain ⟨S', hS'⟩ := ih h.2 (s.withSettings S)
    refine ⟨S', ?_⟩
    rw [List.cons_append, setOptionsLoop, hS]
    exact hS'

/-- The status channel is refused. -/
def BadChannel (A : Accounts) (a : AccountRef) (name : Str) : Prop :=
  A.channel a ≠ name ∧ isStatusName name = false

instance (A : Accounts) (a : AccountRef) (name : Str) : Decidable (BadChannel A a name) :=
  inferInstanceAs (Decidable (_ ∧ _))

def setChannel (P : Purple) (s : IM) (a : AccountRef) (name : Str) : IM :=
  if s.accounts.channel a = name then s else s.setStatusChannelName P a name

theorem setOption_bad {e : Str × ProtocolOption} (ht : e.2.type = .statusChannel)
    (h : BadChannel s.accounts a e.2.value) : ∃ reason, s.setOption P a e = (some reason, s) := by
  refine ⟨str "'" ++ e.2.value ++ str "' is not a valid channel name", ?_⟩
  rw [setOption, ht]
  dsimp only
  rw [if_neg h.1, h.2]
  rfl

theorem setOption_channel {e : Str × ProtocolOption} (ht : e.2.type = .statusChannel)
    (h : ¬ BadChannel s.accounts a e.2.value) :
    s.setOption P a e = (none, s.setChannel P a e.2.value) := by
  rw [setOption, ht, setChannel]
  dsimp only
  split
  · rfl
  · next hne =>
    have hname : isStatusName e.2.value = true := by
      by_contra hname
      exact h ⟨hne, Bool.not_eq_true _ ▸ hname⟩
    rw [hname]
    rfl

/-- `setOptions` sets the ID, then the status channel, unless one is refused. -/
theorem setOptions_cases (h : Proper options) : ∃ S S' S'',
    (∃ reason, ((s.withSettings S).accounts.setAccid a (wanted options "accid")).1 = some reason ∧
      s.setOptions P a options = (some reason, (s.withSettings S).setAccounts P
        ((s.withSettings S).accounts.setAccid a (wanted options "accid")).2)) ∨
    ((s.withSettings S).accounts.setAccid a (wanted options "accid")).1 = none ∧
      ∃ t, t = ((s.withSettings S).setAccounts P
          ((s.withSettings S).accounts.setAccid a (wanted options "accid")).2).withSettings S' ∧
        ((∃ reason, BadChannel t.accounts a (wanted options "status_channel") ∧
            s.setOptions P a options = (some reason, t)) ∨
          ¬ BadChannel t.accounts a (wanted options "status_channel") ∧
            s.setOptions P a options =
              (none, (t.setChannel P a (wanted options "status_channel")).withSettings S'')) := by
  obtain ⟨pre, mid, post, oa, oc, hentries, ⟨hta, hva⟩, ⟨htc, hvc⟩, hpre, hmid, hpost⟩ := h.split
  obtain ⟨S, hS⟩ : ∃ S, setOptionsLoop P a
      (pre ++ (str "accid", oa) :: (mid ++ (str "status_channel", oc) :: post)) s =
        setOptionsLoop P a ((str "accid", oa) :: (mid ++ (str "status_channel", oc) :: post))
          (s.withSettings S) := setOptionsLoop_plain hpre s
  have haccid : ∀ s : IM, s.setOption P a (str "accid", oa) =
      ((s.accounts.setAccid a (wanted options "accid")).1,
        s.setAccounts P (s.accounts.setAccid a (wanted options "accid")).2) := by
    intro s
    rw [setOption, hta, ← hva]
  rw [← hentries, setOptionsLoop, haccid] at hS
  cases hr : ((s.withSettings S).accounts.setAccid a (wanted options "accid")).1 with
  | some reason =>
    rw [hr] at hS
    exact ⟨S, S, S, .inl ⟨reason, hr, hS⟩⟩
  | none =>
    rw [hr] at hS
    have hloop' : ∀ s, ∃ S', setOptionsLoop P a (mid ++ (str "status_channel", oc) :: post) s =
        setOptionsLoop P a ((str "status_channel", oc) :: post) (s.withSettings S') :=
      setOptionsLoop_plain hmid
    obtain ⟨S', hS'⟩ := hloop' ((s.withSettings S).setAccounts P
      ((s.withSettings S).accounts.setAccid a (wanted options "accid")).2)
    generalize ht : ((s.withSettings S).setAccounts P
      ((s.withSettings S).accounts.setAccid a (wanted options "accid")).2).withSettings S' = t at hS'
    have hloop := hS.trans hS'
    rw [setOptionsLoop] at hloop
    rw [← hvc]
    by_cases hbad : BadChannel t.accounts a oc.value
    · obtain ⟨reason, hreason⟩ := setOption_bad (P := P) (e := (str "status_channel", oc)) htc hbad
      rw [hreason] at hloop
      exact ⟨S, S', S', .inr ⟨hr, t, ht.symm, .inl ⟨reason, hbad, hloop⟩⟩⟩
    · rw [setOption_channel (e := (str "status_channel", oc)) htc hbad] at hloop
      obtain ⟨S'', hS''⟩ : ∃ S'', setOptionsLoop P a (post ++ []) (t.setChannel P a oc.value) =
          setOptionsLoop P a [] ((t.setChannel P a oc.value).withSettings S'') :=
        setOptionsLoop_plain hpost (t.setChannel P a oc.value)
      rw [List.append_nil] at hS''
      exact ⟨S, S', S'', .inr ⟨hr, t, ht.symm, .inr ⟨hbad, hloop.trans hS''⟩⟩⟩

/-- What `addAccount` does with the account that `purple_account_new` returned. -/
theorem addAccount_cases (s : IM) (p : Protocol) (username : Str) (options : Options)
    (found : Option AccountRef) :
    let r := s.accounts.newAccount username p.purpleId found
    let o := (s.setAccounts P r.2).setOptions P r.1 options
    (∃ reason, o.1 = some reason ∧ s.addAccount P p username options found =
        (o.2.setAccounts P (o.2.accounts.destroy r.1)).error reason) ∨
      (o.1 = none ∧ s.addAccount P p username options found = o.2.setAccounts P (o.2.accounts.add r.1)) := by
  unfold addAccount
  dsimp only
  split
  · next reason t ht =>
    rw [ht]
    exact .inl ⟨reason, rfl, rfl⟩
  · next t ht =>
    rw [ht]
    exact .inr ⟨rfl, rfl⟩

/-- MAP edit reaches `setOptions`, or else does no more than list the accounts. -/
theorem mapEdit_cases (s : IM) (account key : Str) (value : List Str) :
    let r := s.accounts.getAccount account
    let s₁ := s.setAccounts P r.2
    ∃ errors, (r.1 = none ∧ s.mapEdit P account key value = { s₁ with errors := errors }) ∨
      ∃ a, r.1 = some a ∧
        ((∃ reason, readEdit r.2 a key (joinWords value) = .error reason ∧
            s.mapEdit P account key value = { s₁ with errors := errors }) ∨
          ∃ options, readEdit r.2 a key (joinWords value) = .ok options ∧
            s.mapEdit P account key value = { (s₁.setOptions P a options).2 with errors := errors }) := by
  unfold mapEdit
  dsimp only
  split
  · next hnone => exact ⟨_, .inl ⟨hnone, rfl⟩⟩
  · next a hsome =>
    split
    · next reason hr => exact ⟨_, .inr ⟨a, hsome, .inl ⟨reason, hr, rfl⟩⟩⟩
    · next options hr =>
      split
      · next reason t ht => exact ⟨_, .inr ⟨a, hsome, .inr ⟨options, hr, by rw [ht]; rfl⟩⟩⟩
      · next t ht => exact ⟨_, .inr ⟨a, hsome, .inr ⟨options, hr, by rw [ht]⟩⟩⟩

/-- Every account has an ID to edit. -/
theorem readEdit_accid {A : Accounts} (hp : A.protocol a = some p) (value : Str) :
    ∃ options, readEdit A a (str "accid") value = .ok options := by
  have hproper := (A.getOptions_proper hp).1
  obtain ⟨o, ho⟩ := Option.isSome_iff_exists.mp hproper.accid
  have ht := (hproper.typed _ _ ho).1.mpr rfl
  refine ⟨OrdMap.insert (A.getOptions a) (str "accid") { o with value := value }, ?_⟩
  have hbool : ¬ (o.type = .bool ∧ value ≠ str "true" ∧ value ≠ str "false") := by
    rw [ht]
    exact fun hb => nomatch hb.1
  rw [readEdit, ho]
  exact if_neg hbool

end IM
end Minbif
