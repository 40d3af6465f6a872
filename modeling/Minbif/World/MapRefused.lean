import Minbif.Im.AccountSettings
import Minbif.World.MapChannels

/-! What is left of a MAP add or a MAP edit that is refused. -/
namespace Minbif
open Function

namespace IM

open Accounts Options

variable {P : Purple} {decode : Str → Str} {s t : IM} {a b : AccountRef} {p q : Protocol}
  {options : Options} {e : Event} {l rest : List (Str × ProtocolOption)} {args : List Str}
  {username key value : Str} {found : Option AccountRef}

/-- The reason of the `OptionError` that `Account::setOptions` throws. -/
def thrown (P : Purple) (decode : Str → Str) (s : IM) : Event → Option Str
  | .add args found =>
    match s.readAdd decode args with
    | .error _ => none
    | .ok (proto, username, options) =>
      let r := s.accounts.newAccount username proto.purpleId (s.existing proto found)
      ((s.setAccounts P r.2).setOptions P r.1 options).1
  | .edit account key value =>
    let r := s.accounts.getAccount account
    match r.1 with
    | none => none
    | some a =>
      match readEdit r.2 a key (joinWords value) with
      | .error _ => none
      | .ok options => ((s.setAccounts P r.2).setOptions P a options).1
  | _ => none

/-- The account list, the other accounts and the channels are as if the account had never been
asked for. -/
structure Unadded (s t : IM) (a : AccountRef) : Prop where
  all : t.accounts.all = s.accounts.all
  alive : ∀ b ∈ s.accounts.all, t.accounts.alive b = s.accounts.alive b
  id : ∀ b, b ≠ a → t.accounts.id b = s.accounts.id b
  channel : ∀ b, b ≠ a → t.accounts.channel b = s.accounts.channel b
  chans : t.world.chans = s.world.chans

/-- The event has left no trace. -/
def Untouched (decode : Str → Str) (s : IM) (e : Event) (t : IM) : Prop :=
  match e with
  | .add args found => ∀ proto username options,
      s.readAdd decode args = .ok (proto, username, options) →
        s.Unadded t (s.accounts.newAccount username proto.purpleId (s.existing proto found)).1
  | .edit _ _ _ => ∀ b, t.accounts.getOptions b = s.accounts.getOptions b
  | _ => True

/-- MAP add of an account that libpurple has already. -/
def Readds (decode : Str → Str) (s : IM) : Event → Prop
  | .add args found => ∃ proto username options,
      s.readAdd decode args = .ok (proto, username, options) ∧ (s.existing proto found).isSome = true
  | _ => False

section Typed

theorem setOptionsLoop_keeps {I : IM → Prop} (hstep : ∀ s, ∀ e ∈ l, I s → I (s.setOption P a e).2)
    (hs : I s) : I (setOptionsLoop P a l s).2 := by
  induction l generalizing s with
  | nil => exact hs
  | cons e l ih =>
    have hone := hstep s e List.mem_cons_self hs
    rw [setOptionsLoop]
    split
    · next heq =>
      rw [heq] at hone
      exact hone
    · next heq =>
      rw [heq] at hone
      exact ih (fun s e he => hstep s e (List.mem_cons_of_mem _ he)) hone

/-- Accounts whose options can be set. -/
structure Ready (s : IM) (a : AccountRef) (p : Protocol) : Prop where
  sound : s.accounts.Sound
  typed : s.accounts.Typed
  protocol : s.accounts.protocol a = some p
  bound : a < s.accounts.next

theorem Ready.setOption (h : s.Ready a p) {e : Str × ProtocolOption}
    (he : ∃ o, p.getOptions.find? e.1 = some o ∧ o.type = e.2.type) :
    (s.setOption P a e).2.Ready a p := by
  unfold IM.setOption
  split
  · obtain ⟨-, hset⟩ := h.sound.setAccid h.protocol e.2.value
    change Ready (s.setAccounts P _) a p
    rw [hset]
    exact ⟨h.sound.setID (h.sound.given_ne_nil h.protocol), h.typed.congr rfl rfl rfl rfl, h.protocol,
      h.bound⟩
  · split
    · exact h
    split
    · exact h
    · exact ⟨⟨h.sound.protocols, h.sound.known, h.sound.id, h.sound.bound⟩,
        h.typed.congr rfl rfl rfl rfl, h.protocol, h.bound⟩
  · obtain ⟨S, hS⟩ := setOther_eq s.accounts a e.1 e.2
    have htyped : (s.accounts.setOther a e.1 e.2).Typed := by
      refine h.typed.setOther h.bound fun p' hp' => ?_
      rw [h.protocol] at hp'
      obtain rfl := Option.some.inj hp'
      exact he
    refine ⟨?_, htyped, ?_, ?_⟩
    · change (s.accounts.setOther a e.1 e.2).Sound
      rw [hS]
      exact ⟨h.sound.protocols, h.sound.known, h.sound.id, h.sound.bound⟩
    · change (s.accounts.setOther a e.1 e.2).protocol a = some p
      rw [hS]
      exact h.protocol
    · change a < (s.accounts.setOther a e.1 e.2).next
      rw [hS]
      exact h.bound

theorem Ready.setOptions (h : s.Ready a p) (ho : Of options p) :
    (s.setOptions P a options).2.Ready a p :=
  setOptionsLoop_keeps (I := fun s => s.Ready a p)
    (fun _ _ he hs => hs.setOption (ho.type (OrdMap.find?_eq_some.mpr he))) h

theorem readWords_of (h : Of options q) {r : Str × Options}
    (hr : readWords decode args username options = .ok r) : Of r.2 q := by
  have hpass : (q.getOptions.find? (str "password")).isSome = true := by
    unfold Protocol.getOptions
    dsimp only
    rw [OrdMap.find?_insert_of_ne (by decide), OrdMap.find?_insert_self]
    rfl
  fun_induction readWords decode args username options with
  | case1 username options =>
    cases hr
    exact h
  | case2 username options s args _ ih => exact ih h hr
  | case3 => cases hr
  | case4 _ _ _ _ _ _ _ _ o ho _ ih => exact ih (h.setValue ho _) hr
  | case5 => cases hr
  | case6 _ _ _ _ _ _ _ o ho _ _ _ ih => exact ih (h.setValue ho _) hr
  | case7 _ _ _ _ _ _ _ _ ih => exact ih (h.put hpass _) hr
  | case8 _ _ _ _ _ _ _ _ _ ih => exact ih (h.put q.getOptions_proper.channel _) hr

theorem readAdd_of (h : s.readAdd decode args = .ok (q, username, options)) : Of options q := by
  unfold readAdd at h
  split at h
  · cases h
  split at h
  · cases h
  split at h
  · cases h
  obtain ⟨r, hr, he⟩ := map_ok h
  cases he
  exact readWords_of (fun _ => rfl) hr

theorem readEdit_of {A : Accounts} (hp : A.protocol a = some p)
    (h : readEdit A a key value = .ok options) :
    Of options p ∧ ∃ o, (A.getOptions a).find? key = some o ∧
      options = OrdMap.insert (A.getOptions a) key { o with value := value } := by
  unfold readEdit at h
  dsimp only at h
  split at h
  · cases h
  next o ho =>
  split at h
  · cases h
  obtain rfl := Except.ok.inj h
  exact ⟨(getOptions_of hp).setValue ho value, o, ho, rfl⟩

theorem addAccount_typed (h : s.accounts.Sound) (hT : s.accounts.Typed) (hq : q ∈ s.accounts.protocols)
    (ho : Of options q) (hfound : ∀ a, found = some a →
      a < s.accounts.next ∧ s.accounts.protocolId a = q.purpleId) :
    (s.addAccount P q username options found).accounts.Typed := by
  have hplug : s.accounts.getProtocolByPurpleID q.purpleId = some q := by
    obtain ⟨p, hp, hmem, hid⟩ := getProtocol_some hq
    rw [hp, hT.plugins p hmem q hq hid]
  have hready : (s.setAccounts P (s.accounts.newAccount username q.purpleId found).2).Ready
      (s.accounts.newAccount username q.purpleId found).1 q := by
    cases found with
    | none =>
      exact ⟨(h.newAccount username q.purpleId).2.1, hT.newAccount username q.purpleId,
        (newAccount_protocol ..).trans hplug, Nat.lt_succ_self _⟩
    | some a =>
      obtain ⟨ha, hid⟩ := hfound a rfl
      refine ⟨h, hT, ?_, ha⟩
      rw [← hplug, ← hid]
      rfl
  have hset := (hready.setOptions (P := P) ho).typed
  rcases addAccount_cases (P := P) s q username options found with ⟨reason, -, he⟩ | ⟨-, he⟩
  · rw [he]
    exact hset.congr rfl rfl rfl rfl
  · rw [he]
    change (Accounts.add _ _).Typed
    unfold Accounts.add
    split
    · exact hset
    · exact hset.congr rfl rfl rfl rfl

theorem mapAdd_typed (h : s.accounts.Sound) (hT : s.accounts.Typed) (args : List Str)
    (found : Option AccountRef) : (s.mapAdd P decode args found).accounts.Typed := by
  unfold mapAdd
  split
  · exact hT
  · next q username options hr =>
    refine addAccount_typed h hT (readAdd_ok hr).1 (readAdd_of hr) fun a ha => ?_
    obtain ⟨hmem, -, hid⟩ := existing_iff ha
    exact ⟨h.bound a hmem, hid⟩

theorem mapEdit_typed (h : s.accounts.Sound) (hT : s.accounts.Typed) (account key : Str)
    (value : List Str) : (s.mapEdit P account key value).accounts.Typed := by
  obtain ⟨errors, hcases⟩ := mapEdit_cases (P := P) s account key value
  rw [h.getAccount] at hcases
  rcases hcases with ⟨-, he⟩ | ⟨a, hsome, ⟨reason, -, he⟩ | ⟨options, hr, he⟩⟩
  · rw [he]
    exact hT
  · rw [he]
    exact hT
  · rw [he]
    have ha := h.getAccount_mem hsome
    obtain ⟨p, hp⟩ := Option.isSome_iff_exists.mp (h.known a ha)
    have hready : (s.setAccounts P s.accounts).Ready a p := ⟨h, hT, hp, h.bound a ha⟩
    exact (hready.setOptions (readEdit_of hp hr).1).typed

/-- What libpurple keeps for the accounts fits their options after any event. -/
theorem after_typed (h : s.accounts.Sound) (hT : s.accounts.Typed) (e : Event) :
    (s.after P decode e).accounts.Typed := by
  cases e with
  | add args found => exact mapAdd_typed h hT args found
  | edit account key value => exact mapEdit_typed h hT account key value
  | delete account left =>
    change (s.mapDelete P account left).accounts.Typed
    unfold mapDelete
    dsimp only
    rw [h.getAccount]
    split
    · exact hT
    · next a _ =>
      obtain ⟨c, hc⟩ := disconnect_accounts (P := P) (s.setAccounts P s.accounts) a left
      unfold deleteAccount
      dsimp only
      rw [removeBuddies_accounts]
      change (((s.setAccounts P s.accounts).disconnect P a left).accounts.remove a).destroy a |>.Typed
      rw [hc]
      exact hT.congr rfl rfl rfl rfl
  | connected a =>
    change (s.connect P a).accounts.Typed
    unfold connect
    split
    · exact hT
    · exact hT.congr rfl rfl rfl rfl
  | disconnected a left =>
    obtain ⟨c, hc⟩ := disconnect_accounts (P := P) s a left
    change (s.disconnect P a left).accounts.Typed
    rw [hc]
    exact hT.congr rfl rfl rfl rfl
  | presence b presence =>
    change (s.setPresence P b presence).accounts.Typed
    unfold setPresence
    split
    · exact hT
    · exact hT
  | buddyRemoved b =>
    change (if _ then s.removeBuddy P b else s).accounts.Typed
    split
    · exact hT
    · exact hT
  | voicedBuddies enabled =>
    change (s.setVoicedBuddies P enabled).accounts.Typed
    unfold setVoicedBuddies
    split
    · exact hT
    · dsimp only
      rw [h.listed]
      exact hT

end Typed

section Refused

/-- What is refused has given the account an ID at most. -/
theorem setOptions_refused (h : s.accounts.Sound) (hp : s.accounts.protocol a = some p)
    (ho : Proper options) (hr : (s.setOptions P a options).1 ≠ none) :
    ∃ S x, (s.setOptions P a options).2.accounts = { s.accounts.setID a x with settings := S } ∧
      (s.setOptions P a options).2.world.chans = s.world.chans := by
  obtain ⟨S, S', S'', hcases⟩ := setOptions_cases (P := P) (s := s) (a := a) ho
  obtain ⟨-, hset⟩ := Sound.setAccid (A := (s.withSettings S).accounts) (a := a) (p := p)
    ⟨h.protocols, h.known, h.id, h.bound⟩ hp (wanted options "accid")
  rw [hset] at hcases
  rcases hcases with ⟨reason, -, he⟩ | ⟨-, t, rfl, ⟨reason, -, he⟩ | ⟨-, he⟩⟩
  · rw [he]
    exact ⟨S, _, rfl, rfl⟩
  · rw [he]
    exact ⟨S', _, rfl, rfl⟩
  · rw [he] at hr
    exact (hr rfl).elim

theorem addAccount_unadded (h : s.accounts.Sound) (hq : q ∈ s.accounts.protocols) (ho : Proper options)
    (hr : ((s.setAccounts P (s.accounts.newAccount username q.purpleId none).2).setOptions P
      s.accounts.next options).1 ≠ none) :
    s.Unadded (s.addAccount P q username options none) s.accounts.next := by
  obtain ⟨p, hp, -⟩ := getProtocol_some hq
  obtain ⟨-, hsound, -⟩ := h.newAccount username q.purpleId
  have hproto : (s.accounts.newAccount username q.purpleId none).2.protocol s.accounts.next = some p :=
    (newAccount_protocol ..).trans hp
  obtain ⟨S, x, hacc, hchans⟩ := setOptions_refused (P := P)
    (s := s.setAccounts P (s.accounts.newAccount username q.purpleId none).2) hsound hproto ho hr
  have hne : ∀ b ∈ s.accounts.all, b ≠ s.accounts.next := fun b hb => Nat.ne_of_lt (h.bound b hb)
  have href : (s.accounts.newAccount username q.purpleId none).1 = s.accounts.next := rfl
  rcases addAccount_cases (P := P) s q username options none with ⟨reason, -, he⟩ | ⟨hnone, -⟩
  · rw [he, href]
    refine ⟨?_, fun b hb => ?_, fun b hb => ?_, fun b hb => ?_, hchans⟩
    · rw [hacc]
      rfl
    · change update (Accounts.alive _) s.accounts.next false b = _
      rw [update_of_ne (hne b hb), hacc]
      change update s.accounts.alive s.accounts.next true b = _
      rw [update_of_ne (hne b hb)]
    · rw [hacc]
      change update (update s.accounts.id s.accounts.next []) s.accounts.next x b = _
      rw [update_of_ne hb, update_of_ne hb]
    · rw [hacc]
      change update s.accounts.channel s.accounts.next [] b = _
      rw [update_of_ne hb]
  · exact (hr hnone).elim

/-- An account of the list that is refused is destroyed. -/
theorem addAccount_destroyed (h : s.existing q found = some a)
    (hr : ((s.setAccounts P s.accounts).setOptions P a options).1 ≠ none) :
    ¬ s.Unadded (s.addAccount P q username options (some a)) a := by
  obtain ⟨ha, halive, -⟩ := existing_iff h
  intro hun
  have hgone := hun.alive a ha
  rw [halive] at hgone
  rcases addAccount_cases (P := P) s q username options (some a) with ⟨reason, -, he⟩ | ⟨hnone, -⟩
  · rw [he] at hgone
    change update (Accounts.alive _) a false a = true at hgone
    rw [update_self] at hgone
    cases hgone
  · exact hr hnone

/-- Options that the account has already, set again. -/
theorem setOptionsLoop_same (hl : ∀ e ∈ l, e ∈ (s.accounts.getOptions a).entries ∧ e.2.Plain)
    (h : s.Ready a p) : ∃ S,
      setOptionsLoop P a (l ++ rest) s = setOptionsLoop P a rest (s.withSettings S) ∧
      (∀ b, (s.withSettings S).accounts.getOptions b = s.accounts.getOptions b) ∧
      (s.withSettings S).Ready a p := by
  induction l generalizing s with
  | nil => exact ⟨s.accounts.settings, rfl, fun _ => rfl, h⟩
  | cons e l ih =>
    rw [List.forall_mem_cons] at hl
    obtain ⟨⟨hmem, hplain⟩, hl⟩ := hl
    obtain ⟨S, hS⟩ := setOther_eq s.accounts a e.1 e.2
    have hone : s.setOption P a e = (none, s.withSettings S) := by
      unfold IM.setOption
      split
      · next ht => exact absurd ht hplain.1
      · next ht => exact absurd ht hplain.2
      · rw [hS]
        rfl
    have hsame : ∀ b, (s.withSettings S).accounts.getOptions b = s.accounts.getOptions b := fun b => by
      change ({ s.accounts with settings := S } : Accounts).getOptions b = _
      rw [← hS]
      exact h.typed.setOther_same hmem
    have hready : (s.withSettings S).Ready a p := by
      have hstep := h.setOption (P := P)
        ((getOptions_of h.protocol).type (OrdMap.find?_eq_some.mpr hmem))
      rwa [hone] at hstep
    obtain ⟨S', hloop, hsame', hready'⟩ := ih (s := s.withSettings S)
      (fun e he => by rw [hsame]; exact hl e he) hready
    refine ⟨S', ?_, fun b => (hsame' b).trans (hsame b), hready'⟩
    rw [List.cons_append, setOptionsLoop, hone]
    exact hloop

/-- The ID the account has, or one that is refused, changes nothing. -/
theorem setAccid_same (h : s.accounts.Sound) (hp : s.accounts.protocol a = some p)
    (ha : s.accounts.id a ≠ []) {x : Str} (hx : s.accounts.id a = x ∨ s.accounts.BadAccid p a x) :
    (s.accounts.setAccid a x).2 = s.accounts := by
  have hcur : s.accounts.current p a = s.accounts.id a := if_neg ha
  rw [(h.setAccid hp x).2, given, if_pos (hcur ▸ hx), hcur, setID_self]

/-- Options that are refused, where the plain ones are as they were and the ID is kept. -/
theorem setOptions_kept (h : s.Ready a p) (ha : s.accounts.id a ≠ []) (ho : Proper options)
    (hold : ∀ e ∈ options.entries, e.2.Plain → e ∈ (s.accounts.getOptions a).entries)
    (hid : s.accounts.id a = wanted options "accid" ∨ s.accounts.BadAccid p a (wanted options "accid"))
    (hbad : (s.setOptions P a options).1 ≠ none) (b : AccountRef) :
    (s.setOptions P a options).2.accounts.getOptions b = s.accounts.getOptions b := by
  obtain ⟨-, hok⟩ := setOptions_ids (P := P) h.sound h.protocol ho
  obtain ⟨pre, mid, post, oa, oc, hentries, ⟨hta, hva⟩, ⟨htc, hvc⟩, hpre, hmid, -⟩ := ho.split
  rw [hentries] at hold
  obtain ⟨S, hloop, hkept, hready⟩ : ∃ S, setOptionsLoop P a
      (pre ++ (str "accid", oa) :: (mid ++ (str "status_channel", oc) :: post)) s =
        setOptionsLoop P a ((str "accid", oa) :: (mid ++ (str "status_channel", oc) :: post))
          (s.withSettings S) ∧ _ ∧ _ :=
    setOptionsLoop_same (fun e he => ⟨hold e (by simp [he]) (hpre e he), hpre e he⟩) h
  obtain ⟨hrefused, -⟩ := hready.sound.setAccid hready.protocol (wanted options "accid")
  have hset : ((s.withSettings S).accounts.setAccid a (wanted options "accid")).2 =
      (s.withSettings S).accounts :=
    setAccid_same hready.sound hready.protocol ha (hid.imp_right badAccid_settings.mpr)
  have haccid : (s.withSettings S).setOption P a (str "accid", oa) =
      (((s.withSettings S).accounts.setAccid a (wanted options "accid")).1,
        (s.withSettings S).setAccounts P (s.withSettings S).accounts) := by
    rw [IM.setOption, hta]
    dsimp only
    rw [hva, hset]
  rw [← hentries, setOptionsLoop, haccid] at hloop
  cases hr : ((s.withSettings S).accounts.setAccid a (wanted options "accid")).1 with
  | some reason =>
    rw [hr] at hloop
    change (setOptionsLoop P a options.entries s).2.accounts.getOptions b = _
    rw [hloop]
    exact hkept b
  | none =>
    rw [hr] at hloop hrefused
    -- the ID is the one it has, so it is the channel that is refused
    have hchannel : BadChannel s.accounts a oc.value := by
      rw [hvc]
      by_contra hgood
      exact hbad (hok.mpr ⟨fun hb => absurd (hrefused.mpr (badAccid_settings.mpr hb)) Bool.false_ne_true, hgood⟩)
    have hreadyt : ((s.withSettings S).setAccounts P (s.withSettings S).accounts).Ready a p :=
      ⟨hready.sound, hready.typed, hready.protocol, hready.bound⟩
    generalize ht : (s.withSettings S).setAccounts P (s.withSettings S).accounts = t at *
    have hsame : ∀ b, t.accounts.getOptions b = s.accounts.getOptions b := by
      rw [← ht]
      exact hkept
    obtain ⟨S', hloop', hkept', -⟩ : ∃ S', setOptionsLoop P a
        (mid ++ (str "status_channel", oc) :: post) t =
          setOptionsLoop P a ((str "status_channel", oc) :: post) (t.withSettings S') ∧ _ ∧ _ :=
      setOptionsLoop_same
        (fun e he => ⟨(hsame a).symm ▸ hold e (by simp [he]) (hmid e he), hmid e he⟩) hreadyt
    obtain ⟨reason, hreason⟩ : ∃ reason, (t.withSettings S').setOption P a (str "status_channel", oc) =
        (some reason, t.withSettings S') :=
      setOption_bad htc (ht ▸ hchannel)
    rw [setOptionsLoop, hreason] at hloop'
    change (setOptionsLoop P a options.entries s).2.accounts.getOptions b = _
    rw [hloop.trans hloop']
    exact (hkept' b).trans (hsame b)

/-- MAP edit that is refused sets the other options to what they are. -/
theorem setOptions_same (h : s.Ready a p) (ha : s.accounts.id a ≠ [])
    (hr : readEdit s.accounts a key value = .ok options) (hbad : (s.setOptions P a options).1 ≠ none)
    (b : AccountRef) : (s.setOptions P a options).2.accounts.getOptions b = s.accounts.getOptions b := by
  obtain ⟨hproper, hid, hchan⟩ := readEdit_ok h.protocol hr
  obtain ⟨-, o, -, heq⟩ := readEdit_of h.protocol hr
  obtain ⟨-, hok⟩ := setOptions_ids (P := P) h.sound h.protocol hproper
  have hcur : s.accounts.current p a = s.accounts.id a := if_neg ha
  -- the value that is refused is the one that was given
  have haccid : s.accounts.BadAccid p a (wanted options "accid") → key = str "accid" := by
    rintro ⟨hne, -⟩
    by_contra hkey
    rw [hid, if_neg hkey, hcur] at hne
    exact hne rfl
  have hchannel : BadChannel s.accounts a (wanted options "status_channel") →
      key = str "status_channel" := by
    rintro ⟨hne, -⟩
    by_contra hkey
    rw [hchan, if_neg hkey] at hne
    exact hne rfl
  have hkey : key = str "accid" ∨ key = str "status_channel" := by
    by_contra hkey
    rw [not_or] at hkey
    exact hbad (hok.mpr ⟨fun hb => hkey.1 (haccid hb), fun hb => hkey.2 (hchannel hb)⟩)
  refine setOptions_kept h ha hproper (fun e he hplain => ?_) ?_ hbad b
  · obtain ⟨hta, htc⟩ := hproper.typed e.1 e.2 (OrdMap.find?_eq_some.mpr he)
    rw [heq] at he
    rcases OrdMap.mem_insert.mp he with ⟨hk, -⟩ | ⟨-, he⟩
    · rcases hkey with rfl | rfl
      · exact absurd (hta.mpr hk) hplain.1
      · exact absurd (htc.mpr hk) hplain.2
    · exact he
  · by_cases hk : key = str "accid"
    · refine .inr (by_contra fun hgood => hbad (hok.mpr ⟨hgood, fun hb => ?_⟩))
      exact absurd (hk.symm.trans (hchannel hb)) (by decide)
    · refine .inl ?_
      rw [hid, if_neg hk]

theorem mapEdit_same (h : s.accounts.Sound) (hT : s.accounts.Typed) {account : Str} {words : List Str}
    (ht : (s.thrown P decode (.edit account key words)).isSome = true) (b : AccountRef) :
    (s.mapEdit P account key words).accounts.getOptions b = s.accounts.getOptions b := by
  obtain ⟨errors, hcases⟩ := mapEdit_cases (P := P) s account key words
  unfold thrown at ht
  dsimp only at ht
  rw [h.getAccount] at hcases ht
  rcases hcases with ⟨hnone, -⟩ | ⟨a, hsome, ⟨reason, hr, -⟩ | ⟨options, hr, he⟩⟩
  · rw [hnone] at ht
    cases ht
  · rw [hsome] at ht
    dsimp only at ht
    rw [hr] at ht
    cases ht
  · rw [hsome] at ht
    dsimp only at ht
    rw [hr] at ht
    have ha := h.getAccount_mem hsome
    obtain ⟨p, hp⟩ := Option.isSome_iff_exists.mp (h.known a ha)
    have hready : (s.setAccounts P s.accounts).Ready a p := ⟨h, hT, hp, h.bound a ha⟩
    rw [he]
    exact setOptions_same hready (h.id a ha) hr (Option.isSome_iff_ne_none.mp ht) b

theorem after_untouched (h : s.accounts.Sound) (hT : s.accounts.Typed)
    (ht : (s.thrown P decode e).isSome = true) :
    Untouched decode s e (s.after P decode e) ↔ ¬ s.Readds decode e := by
  cases e with
  | add args found =>
    unfold thrown at ht
    dsimp only at ht
    split at ht
    · cases ht
    next q username options hr =>
    obtain ⟨hq, ho⟩ := readAdd_ok hr
    have hadd : s.after P decode (.add args found) =
        s.addAccount P q username options (s.existing q found) := by
      change s.mapAdd P decode args found = _
      rw [mapAdd, hr]
    have htouch : Untouched decode s (.add args found) (s.after P decode (.add args found)) ↔
        s.Unadded (s.addAccount P q username options (s.existing q found))
          (s.accounts.newAccount username q.purpleId (s.existing q found)).1 := by
      rw [hadd]
      constructor
      · exact fun hall => hall q username options hr
      · intro hun q' username' options' hr'
        obtain ⟨rfl, rfl, -⟩ := readAdd_unique hr hr'
        exact hun
    have hagain : s.Readds decode (.add args found) ↔ (s.existing q found).isSome = true := by
      constructor
      · rintro ⟨q', username', options', hr', hex⟩
        obtain ⟨rfl, -, -⟩ := readAdd_unique hr hr'
        exact hex
      · exact fun hex => ⟨q, username, options, hr, hex⟩
    rw [htouch, hagain]
    have hbad := Option.isSome_iff_ne_none.mp ht
    cases hex : s.existing q found with
    | none =>
      rw [hex] at hbad
      exact iff_of_true (addAccount_unadded h hq ho hbad) nofun
    | some a =>
      rw [hex] at hbad
      exact iff_of_false (addAccount_destroyed hex hbad) (not_not_intro rfl)
  | edit account key words => exact iff_of_true (mapEdit_same h hT ht) id
  | _ => cases ht

end Refused

end IM

open IM Accounts Runs in
/-- A MAP add or edit that throws leaves no trace exactly if it does not add an account that exists:
that one is destroyed, and still listed. -/
theorem refused_leaves_iff {P : Purple} {decode : Str → Str} {A : Accounts} {D : PurpleData}
    {es : List IM.Event} {s t : IM} {e : IM.Event} (hA : A.Stored) (hT : A.Typed)
    (hrun : run (IM.step P decode) (start P A D) es = some s) (ht : s.step P decode e = some t)
    (hthrown : (s.thrown P decode e).isSome = true) :
    Untouched decode s e t ↔ ¬ s.Readds decode e := by
  have hstart : A.getAccountsList.2.Typed := by
    rw [hA.listing.rest]
    exact hT.congr rfl rfl rfl rfl
  obtain ⟨hsound, htyped⟩ : s.accounts.Sound ∧ s.accounts.Typed := by
    refine run_invariant (I := fun _ s => s.accounts.Sound ∧ s.accounts.Typed)
      (fun _ s e t hI ht => ?_) ⟨hA.sound, hstart⟩ hrun
    obtain ⟨-, rfl⟩ := step_some ht
    exact ⟨(after_keeps hI.1 e).1, after_typed hI.1 hI.2 e⟩
  obtain ⟨-, rfl⟩ := step_some ht
  exact after_untouched hsound htyped hthrown

section TwoProtocols

open IM Accounts Runs

def addBob : List IM.Event := [.add [str "jabber", str "bob"] none]

/-- MAP edit of the one account, to a channel that is refused. -/
theorem refused_leaves_edit : ∃ s t, run (IM.step World.noPurple id) twoProtocols addBob = some s ∧
    s.step World.noPurple id (.edit (str "jabber") (str "status_channel") [str "friends"]) = some t ∧
    Untouched id s (.edit (str "jabber") (str "status_channel") [str "friends"]) t := by
  obtain ⟨s, hs⟩ := Option.isSome_iff_exists.mp
    (by decide +kernel : (run (IM.step World.noPurple id) twoProtocols addBob).isSome = true)
  have heval : (run (IM.step World.noPurple id) twoProtocols addBob).map (fun s =>
      (s.intact, (s.thrown World.noPurple id
        (.edit (str "jabber") (str "status_channel") [str "friends"])).isSome)) =
          some (true, true) := by decide +kernel
  rw [hs] at heval
  obtain ⟨hint, hthrown⟩ : s.intact = true ∧ (s.thrown World.noPurple id
      (.edit (str "jabber") (str "status_channel") [str "friends"])).isSome = true := by
    simpa using heval
  have ht : s.step World.noPurple id (.edit (str "jabber") (str "status_channel") [str "friends"]) =
      some (s.after World.noPurple id (.edit (str "jabber") (str "status_channel") [str "friends"])) :=
    if_pos hint
  let A : Accounts :=
    { protocols := [{ purpleId := str "prpl-jabber" }, { purpleId := str "prpl-msn" }] }
  have hA : A.Stored := ⟨by decide, nofun, nofun, nofun, List.nodup_nil⟩
  have hT : A.Typed := by
    refine ⟨fun p hp q hq hid => ?_, fun _ _ _ => rfl, nofun⟩
    rcases List.mem_pair.mp hp with rfl | rfl <;> rcases List.mem_pair.mp hq with rfl | rfl
    · rfl
    · exact absurd hid (by decide)
    · exact absurd hid (by decide)
    · rfl
  exact ⟨s, _, hs, ht, (refused_leaves_iff hA hT hs ht hthrown).mpr id⟩

/-- MAP add of an account that exists, with a channel that is refused, destroys it. -/
theorem readd_destroys : ∃ s t, run (IM.step World.noPurple id) twoProtocols addBob = some s ∧
    s.step World.noPurple id
      (.add [str "jabber", str "bob", str "-status_channel", str "friends"] (some 0)) = some t ∧
    s.accounts.alive 0 = true ∧ t.accounts.all = [0] ∧ t.accounts.alive 0 = false ∧
    ¬ Untouched id s
      (.add [str "jabber", str "bob", str "-status_channel", str "friends"] (some 0)) t := by
  obtain ⟨s, hs⟩ := Option.isSome_iff_exists.mp
    (by decide +kernel : (run (IM.step World.noPurple id) twoProtocols addBob).isSome = true)
  have heval : (run (IM.step World.noPurple id) twoProtocols addBob).map (fun s =>
      (s.intact, s.accounts.alive 0, s.accounts.all)) = some (true, true, [0]) := by decide +kernel
  have heval' : (run (IM.step World.noPurple id) twoProtocols addBob).map (fun s =>
      let e := .add [str "jabber", str "bob", str "-status_channel", str "friends"] (some 0)
      ((s.thrown World.noPurple id e).isSome, (s.after World.noPurple id e).accounts.all,
        (s.after World.noPurple id e).accounts.alive 0)) = some (true, [0], false) := by decide +kernel
  rw [hs] at heval heval'
  obtain ⟨hint, halive, hall⟩ : s.intact = true ∧ s.accounts.alive 0 = true ∧ s.accounts.all = [0] := by
    simpa using heval
  simp only [Option.map_some, Option.some.injEq, Prod.mk.injEq] at heval'
  obtain ⟨hthrown, hall', hgone⟩ := heval'
  refine ⟨s, _, hs, if_pos hint, halive, hall', hgone, fun hun => ?_⟩
  cases hr : s.readAdd id [str "jabber", str "bob", str "-status_channel", str "friends"] with
  | error reason =>
    rw [thrown, hr] at hthrown
    cases hthrown
  | ok r =>
    have hsame := (hun r.1 r.2.1 r.2.2 hr).alive 0 (by simp [hall])
    rw [hgone, halive] at hsame
    cases hsame

end TwoProtocols

end Minbif
