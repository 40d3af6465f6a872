import Minbif.Core.Log
import Minbif.Irc.DccOffer
import Minbif.Irc.RoundTrip

/-! ADMIN: the settings of a user, and what is shown of them. -/
namespace Minbif

/-- An `int`. -/
structure CInt where
  val : Int
  fits : -2 ^ 31 ≤ val ∧ val < 2 ^ 31
deriving DecidableEq

theorem s2tSigned_fits (s : Str) : -2 ^ 31 ≤ s2tSigned 32 s ∧ s2tSigned 32 s < 2 ^ 31 := by
  simp only [s2tSigned]
  split <;> omega

/-- `s2t<int>` -/
def CInt.s2t (s : Str) : CInt := ⟨s2tSigned 32 s, s2tSigned_fits s⟩

/-- `PurpleProxyInfo` -/
structure ProxyInfo where
  host : Str := []
  port : CInt := ⟨0, by decide⟩
  username : Str := []
  password : Str := []
deriving DecidableEq

/-- The class of `getIMAuth()`. -/
inductive AuthKind
  | authLocal
  | authConnection
  | authPAM
deriving DecidableEq, Repr

/-- The passwords that `AuthLocal::setPassword` takes. -/
def LegalPassword (password : Str) : Prop := ¬ (password.contains ' ' ∨ password.length < 8)

instance (password : Str) : Decidable (LegalPassword password) := inferInstanceAs (Decidable (¬ _))

/-- The values of `SettingProxy`. -/
def proxyTypes : List Str := [str "none", str "sock4", str "sock5", str "http", str "envvar"]

def isProxyType (s : Str) : Bool := proxyTypes.any fun l => decide (s = l)

/-- What the settings are kept in. -/
structure UserSettings where
  auth : AuthKind
  password : Str := []
  /-- The preference is empty until a password is set. -/
  legal : password = [] ∨ LegalPassword password := by exact .inl rfl
  typingNotice : Bool := false
  acceptNoBuddiesMessages : Bool := true
  sendDelay : CInt := ⟨300, by decide⟩
  voicedBuddies : Bool := true
  serverAliases : Bool := true
  awayIdle : Bool := false
  loggedFlags : BitVec 32 := 0
  proxyType : Str := str "none"
  listed : isProxyType proxyType = true := by decide
  /-- `purple_global_proxy_get_info()` -/
  proxy : Option ProxyInfo := some {}
deriving DecidableEq

/-- The subclasses of `SettingBase`. -/
inductive Setting
  | password
  | typingNotice
  | acceptNoBuddiesMessages
  | sendDelay
  | voicedBuddies
  | serverAliases
  | awayIdle
  | logLevel
  | proxy
  | proxyHost
  | proxyPort
  | proxyUsername
  | proxyPassword
  | minbif
deriving DecidableEq, Repr

/-- A reply to ADMIN. -/
inductive AdminReply
  | adminMe (text : Str)
  | notice (text : Str)
deriving DecidableEq, Repr

namespace UserSettings

def boolText (b : Bool) : Str := if b then str "true" else str "false"

def getValue (s : UserSettings) : Setting → Str
  | .password => if s.auth = .authLocal then s.password else []
  | .typingNotice => boolText s.typingNotice
  | .acceptNoBuddiesMessages => boolText s.acceptNoBuddiesMessages
  | .sendDelay => t2s s.sendDelay.val
  | .voicedBuddies => boolText s.voicedBuddies
  | .serverAliases => boolText s.serverAliases
  | .awayIdle => boolText s.awayIdle
  | .logLevel => Log.formatLoggedFlags s.loggedFlags
  | .proxy => s.proxyType
  | .proxyHost => s.proxy.elim [] ProxyInfo.host
  | .proxyPort => s.proxy.elim [] fun p => t2s p.port.val
  | .proxyUsername => s.proxy.elim [] ProxyInfo.username
  | .proxyPassword => s.proxy.elim [] ProxyInfo.password
  | .minbif => str "Minbif Is Not Bitlbee Fool"

/-- The `setValue` of the six settings that are true or false. -/
def setBool (s : UserSettings) (v : Str) (set : Bool → UserSettings) : UserSettings × Option Str :=
  if v = str "1" ∨ v = str "true" then (set true, none)
  else if v = str "0" ∨ v = str "false" then (set false, none)
  else (s, some (str "Value must be 'true' or 'false'"))

/-- `AuthLocal::setPassword`; that of the other mechanisms changes nothing here. -/
def setPassword (s : UserSettings) (password : Str) : UserSettings × Option Str :=
  match s.auth with
  | .authLocal =>
    if h : password.contains ' ' ∨ password.length < 8 then
      (s, some (str "Password must be at least 8 characters, and cannot contain whitespaces."))
    else ({ s with password := password, legal := .inr h }, none)
  | .authConnection | .authPAM => (s, none)

def setProxy (s : UserSettings) (set : ProxyInfo → ProxyInfo) : UserSettings × Option Str :=
  ({ s with proxy := s.proxy.map set }, none)

def setValue (s : UserSettings) (v : Str) : Setting → UserSettings × Option Str
  | .password => s.setPassword v
  | .typingNotice => s.setBool v fun b => { s with typingNotice := b }
  | .acceptNoBuddiesMessages => s.setBool v fun b => { s with acceptNoBuddiesMessages := b }
  | .sendDelay => ({ s with sendDelay := CInt.s2t v }, none)
  | .voicedBuddies => s.setBool v fun b => { s with voicedBuddies := b }
  | .serverAliases => s.setBool v fun b => { s with serverAliases := b }
  | .awayIdle => s.setBool v fun b => { s with awayIdle := b }
  | .logLevel => ({ s with loggedFlags := Log.setLoggedFlags v }, none)
  | .proxy =>
    if h : isProxyType v = true then ({ s with proxyType := v, listed := h }, none)
    else (s, some (str "Available values are: none, sock4, sock5, http, envvar"))
  | .proxyHost => s.setProxy fun p => { p with host := v }
  | .proxyPort => s.setProxy fun p => { p with port := CInt.s2t v }
  | .proxyUsername => s.setProxy fun p => { p with username := v }
  | .proxyPassword => s.setProxy fun p => { p with password := v }
  | .minbif => (s, some (str "Wilmer, I see you!"))

/-- The table of `m_admin`: the keys, and whether they are displayed. -/
def table : List (Str × Bool × Setting) :=
  [(str "password", true, .password), (str "typing_notice", true, .typingNotice),
    (str "accept_nobuddies_messages", true, .acceptNoBuddiesMessages),
    (str "send_delay", true, .sendDelay), (str "voiced_buddies", true, .voicedBuddies),
    (str "server_aliases", true, .serverAliases), (str "away_idle", true, .awayIdle),
    (str "log_level", true, .logLevel), (str "proxy", true, .proxy),
    (str "proxy_host", true, .proxyHost), (str "proxy_port", true, .proxyPort),
    (str "proxy_user", true, .proxyUsername), (str "proxy_pass", true, .proxyPassword),
    (str "minbif", false, .minbif)]

def adminMe (s : UserSettings) (key : Str) (k : Setting) : AdminReply :=
  .adminMe (str "- " ++ key ++ str " = " ++ s.getValue k)

/-- The arguments after the key, with a space before each one but the first. -/
def joinValue (args : List Str) : Str :=
  args.foldl (fun value a => (if value.isEmpty then [] else value ++ [' ']) ++ a) []

/-- `IRC::m_admin` -/
def admin (s : UserSettings) : List Str → UserSettings × List AdminReply
  | [] => (s, (table.filter (·.2.1)).map fun e => s.adminMe e.1 e.2.2)
  | key :: args =>
    match table.find? (·.1 = key) with
    | none => (s, [.notice (str "Key " ++ key ++ str " does not exist.")])
    | some e =>
      if args.isEmpty then (s, [s.adminMe e.1 e.2.2])
      else
        let r := s.setValue (joinValue args) e.2.2
        (r.1, r.2.toList.map .notice ++ [r.1.adminMe e.1 e.2.2])

/-- A line of the client. -/
def line (s : UserSettings) (text : Str) : UserSettings :=
  match Message.parse text with
  | .ok m => if m.cmd = str "ADMIN" then (s.admin m.args).1 else s
  | .error _ => s

/-- The displayed keys with their values. -/
def listing (s : UserSettings) : List (Str × Str) :=
  (table.filter (·.2.1)).map fun e => (e.1, s.getValue e.2.2)

/-- Every value of a listing is set again, as the last argument of a line. -/
def restore (l : List (Str × Str)) (s : UserSettings) : UserSettings :=
  l.foldl (fun s e => s.line (str "ADMIN " ++ e.1 ++ str " :" ++ e.2)) s

/-- The key is one word. -/
def IsWord (key : Str) : Prop := key ≠ [] ∧ ' ' ∉ key ∧ key.head? ≠ some ':'

instance (key : Str) : Decidable (IsWord key) := inferInstanceAs (Decidable (_ ∧ _ ∧ _))

/-- What is shown after a value was given to a setting that showed `old`. -/
def taken (auth : AuthKind) (hasProxy : Bool) (old v : Str) : Setting → Str
  | .password => if auth = .authLocal ∧ LegalPassword v then v else old
  | .typingNotice | .acceptNoBuddiesMessages | .voicedBuddies | .serverAliases | .awayIdle =>
    if v = str "1" ∨ v = str "true" then str "true"
    else if v = str "0" ∨ v = str "false" then str "false"
    else old
  | .sendDelay => t2s (CInt.s2t v).val
  | .logLevel => Log.formatLoggedFlags (Log.setLoggedFlags v)
  | .proxy => if isProxyType v then v else old
  | .proxyHost | .proxyUsername | .proxyPassword => if hasProxy then v else old
  | .proxyPort => if hasProxy then t2s (CInt.s2t v).val else old
  | .minbif => old

variable {s t : UserSettings} {v : Str} {k j : Setting}

theorem setBool_keeps {P : UserSettings → Prop} {set : Bool → UserSettings} (hset : ∀ b, P (set b)) (hs : P s) :
    P (s.setBool v set).1 := by
  unfold setBool
  split
  · exact hset true
  · split
    · exact hset false
    · exact hs

theorem setBool_getValue {set : Bool → UserSettings} (hset : ∀ b, (set b).getValue k = boolText b) :
    (s.setBool v set).1.getValue k =
      if v = str "1" ∨ v = str "true" then str "true"
      else if v = str "0" ∨ v = str "false" then str "false"
      else s.getValue k := by
  unfold setBool
  split
  · exact hset true
  · split
    · exact hset false
    · rfl

theorem setPassword_fst (s : UserSettings) (v : Str) : (s.setPassword v).1 =
    if h : s.auth = .authLocal ∧ LegalPassword v then { s with password := v, legal := .inr h.2 } else s := by
  have hother : s.auth ≠ .authLocal → ¬ (s.auth = .authLocal ∧ LegalPassword v) := fun hne h => hne h.1
  unfold setPassword
  split
  · next hauth =>
    by_cases h : v.contains ' ' ∨ v.length < 8
    · rw [dif_pos h, dif_neg fun hno => hno.2 h]
    · rw [dif_neg h, dif_pos ⟨hauth, h⟩]
  · next hauth => rw [dif_neg (hother (by rw [hauth]; decide))]
  · next hauth => rw [dif_neg (hother (by rw [hauth]; decide))]

/-- Neither the mechanism nor whether there is a proxy to set ever changes. -/
theorem setValue_fixed (s : UserSettings) (v : Str) (k : Setting) :
    (s.setValue v k).1.auth = s.auth ∧ (s.setValue v k).1.proxy.isSome = s.proxy.isSome := by
  cases k with
  | password =>
    rw [setValue, setPassword_fst]
    split <;> exact ⟨rfl, rfl⟩
  | typingNotice | acceptNoBuddiesMessages | voicedBuddies | serverAliases | awayIdle =>
    exact setBool_keeps (P := fun t => t.auth = s.auth ∧ t.proxy.isSome = s.proxy.isSome)
      (fun _ => ⟨rfl, rfl⟩) ⟨rfl, rfl⟩
  | proxy =>
    rw [setValue]
    split <;> exact ⟨rfl, rfl⟩
  | proxyHost | proxyPort | proxyUsername | proxyPassword => exact ⟨rfl, Option.isSome_map⟩
  | sendDelay | logLevel | minbif => exact ⟨rfl, rfl⟩

/-- No other setting shows anything new. -/
theorem setValue_ne (h : j ≠ k) : (s.setValue v k).1.getValue j = s.getValue j := by
  cases k with
  | password =>
    rw [setValue, setPassword_fst]
    split
    · cases j <;> first | exact absurd rfl h | rfl
    · rfl
  | typingNotice | acceptNoBuddiesMessages | voicedBuddies | serverAliases | awayIdle =>
    refine setBool_keeps (P := fun t => t.getValue j = s.getValue j) (fun b => ?_) rfl
    cases j <;> first | exact absurd rfl h | rfl
  | proxy =>
    rw [setValue]
    split
    · cases j <;> first | exact absurd rfl h | rfl
    · rfl
  | proxyHost | proxyPort | proxyUsername | proxyPassword =>
    cases hp : s.proxy <;> cases j <;> first | exact absurd rfl h | simp [setValue, setProxy, getValue, hp]
  | sendDelay | logLevel | minbif => cases j <;> first | exact absurd rfl h | rfl

theorem setValue_self (s : UserSettings) (v : Str) (k : Setting) : (s.setValue v k).1.getValue k =
    taken s.auth s.proxy.isSome (s.getValue k) v k := by
  cases k with
  | password =>
    rw [setValue, setPassword_fst, taken]
    split
    · next h => rw [getValue, if_pos h.1]
    · rfl
  | typingNotice | acceptNoBuddiesMessages | voicedBuddies | serverAliases | awayIdle =>
    exact setBool_getValue fun _ => rfl
  | proxy =>
    rw [setValue, taken]
    split <;> rfl
  | proxyHost | proxyPort | proxyUsername | proxyPassword =>
    cases hp : s.proxy <;> simp [setValue, setProxy, getValue, taken, hp]
  | sendDelay | logLevel | minbif => rfl

section Run

/-- The value that a message gives a setting, if any. -/
def sets (k : Setting) : List Str → Option Str
  | key :: a :: args =>
    match table.find? (·.1 = key) with
    | some e => if e.2.2 = k then some (joinValue (a :: args)) else none
    | none => none
  | _ => none

theorem admin_getValue (s : UserSettings) (args : List Str) (k : Setting) : (s.admin args).1.getValue k =
    match sets k args with
    | some v => taken s.auth s.proxy.isSome (s.getValue k) v k
    | none => s.getValue k := by
  unfold admin sets
  split
  · rfl
  · next key args =>
    cases args with
    | nil => split <;> rfl
    | cons a args =>
      dsimp only
      cases hfind : table.find? (·.1 = key) with
      | none => rfl
      | some e =>
        by_cases hk : e.2.2 = k
        · subst hk
          simpa using setValue_self s (joinValue (a :: args)) e.2.2
        · simpa [hk] using setValue_ne (s := s) (v := joinValue (a :: args)) (Ne.symm hk)

theorem admin_fixed (s : UserSettings) (args : List Str) :
    (s.admin args).1.auth = s.auth ∧ (s.admin args).1.proxy.isSome = s.proxy.isSome := by
  unfold admin
  split
  · exact ⟨rfl, rfl⟩
  · split
    · exact ⟨rfl, rfl⟩
    · split
      · exact ⟨rfl, rfl⟩
      · exact setValue_fixed _ _ _

/-- Whatever messages come, a setting shows what those that name it have made of its value, one after
the other. -/
theorem run_getValue (s : UserSettings) (ms : List (List Str)) (k : Setting) :
    (ms.foldl (fun s args => (s.admin args).1) s).getValue k =
      (ms.filterMap (sets k)).foldl (fun old v => taken s.auth s.proxy.isSome old v k) (s.getValue k) := by
  induction ms generalizing s with
  | nil => rfl
  | cons args ms ih =>
    obtain ⟨hauth, hproxy⟩ := admin_fixed s args
    rw [List.foldl_cons, ih, hauth, hproxy, admin_getValue, List.filterMap_cons]
    cases sets k args <;> rfl

end Run

section Restore

variable {key : Str} {l : List (Str × Bool × Setting)}

/-- The line that sets a key is read as its key and its value. -/
theorem parse_setting (hkey : IsWord key) (v : Str) :
    Message.parse (str "ADMIN " ++ key ++ str " :" ++ v) =
      .ok { cmd := str "ADMIN", args := [key, Message.lastBack v] } := by
  obtain ⟨hne, hsp, hcol⟩ := hkey
  obtain ⟨w, r, rfl, hw, hr⟩ := Message.word_rest v
  have hline : str "ADMIN " ++ key ++ str " :" ++ (w ++ r) =
      str "ADMIN" ++ ' ' :: (key ++ ' ' :: ':' :: (w ++ r)) := by
    simp [str]
  obtain ⟨fuel, hfuel⟩ : ∃ fuel, (str "ADMIN" ++ ' ' :: (key ++ ' ' :: ':' :: (w ++ r))).length =
      fuel + 2 := ⟨(key ++ ' ' :: ':' :: (w ++ r)).length + 4, by simp [str]⟩
  have htok : stringtok (str "ADMIN" ++ ' ' :: (key ++ ' ' :: ':' :: (w ++ r))) [' '] =
      (str "ADMIN", key ++ ' ' :: ':' :: (w ++ r)) :=
    Message.stringtok_word (by decide) (by decide) (by simp)
  have hup : strupper (str "ADMIN") = str "ADMIN" := by decide
  have hkey := @Message.parseLoop_word { cmd := str "ADMIN" } key (' ' :: ':' :: (w ++ r)) (fuel + 1)
    (by decide) hne hsp hcol (by simp)
  have hvalue := @Message.parseLoop_colon { cmd := str "ADMIN", args := [key] } w r fuel
    (show str "ADMIN" ≠ [] by decide) hw hr
  rw [hline, Message.parse, hfuel, Message.parseLoop, htok]
  dsimp only
  rw [hup, if_neg (by decide), List.isEmpty_nil, if_pos rfl, hkey, Message.addArg_ok (by simp)]
  refine hvalue.trans ?_
  rw [Message.addArg_ok (by simpa [Message.hasSpace] using hsp)]
  cases r with
  | nil => simp [Message.lastBack_word hw]
  | cons x r =>
    obtain rfl : x = ' ' := hr x rfl
    cases r with
    | nil => simp [Message.lastBack_space hw]
    | cons y r => simp [Message.lastBack_spaced]

theorem line_setting {e : Str × Bool × Setting} (he : e ∈ table) (s : UserSettings) (v : Str) :
    s.line (str "ADMIN " ++ e.1 ++ str " :" ++ v) = (s.setValue (Message.lastBack v) e.2.2).1 := by
  have htable : ∀ e ∈ table, IsWord e.1 ∧ table.find? (·.1 = e.1) = some e := by decide +kernel
  obtain ⟨hkey, hfind⟩ := htable e he
  rw [line, parse_setting hkey]
  simp [admin, hfind, joinValue]

/-- By induction on the entries: each of them is set once, and to what its own setting makes of the
value. -/
theorem restore_getValue (hl : ∀ e ∈ l, e ∈ table) (hnodup : (l.map (·.2.2)).Nodup)
    (value : Setting → Str) (t : UserSettings) (k : Setting) :
    (restore (l.map fun e => (e.1, value e.2.2)) t).getValue k =
      if k ∈ l.map (·.2.2) then
        taken t.auth t.proxy.isSome (t.getValue k) (Message.lastBack (value k)) k
      else t.getValue k := by
  induction l generalizing t with
  | nil => rfl
  | cons e l ih =>
    rw [List.map_cons, List.nodup_cons] at hnodup
    have hstep : restore ((e :: l).map fun e => (e.1, value e.2.2)) t =
        restore (l.map fun e => (e.1, value e.2.2))
          (t.setValue (Message.lastBack (value e.2.2)) e.2.2).1 := by
      rw [List.map_cons, restore, List.foldl_cons, line_setting (hl e List.mem_cons_self)]
      rfl
    obtain ⟨hauth, hproxy⟩ := setValue_fixed t (Message.lastBack (value e.2.2)) e.2.2
    rw [hstep, ih (fun e he => hl e (List.mem_cons_of_mem _ he)) hnodup.2, hauth, hproxy]
    by_cases hk : k = e.2.2
    · subst hk
      rw [if_neg hnodup.1, if_pos (by simp), setValue_self]
    · rw [setValue_ne hk]
      exact if_congr (List.mem_cons.trans (or_iff_right hk)).symm rfl rfl

/-- Restoring a listing gives the displayed values back, each as its setting takes it. -/
theorem listing_restore (s t : UserSettings) : (restore s.listing t).listing = s.listing ↔
    ∀ e ∈ table, e.2.1 = true → taken t.auth t.proxy.isSome (t.getValue e.2.2)
      (Message.lastBack (s.getValue e.2.2)) e.2.2 = s.getValue e.2.2 := by
  have hvalue := fun k => restore_getValue (l := table.filter (·.2.1))
    (fun e he => (List.mem_filter.mp he).1) (by decide +kernel) s.getValue t k
  constructor
  · intro h e he hshown
    have hmem : e ∈ table.filter (·.2.1) := List.mem_filter.mpr ⟨he, hshown⟩
    have heq := List.map_inj_left.mp h e hmem
    have hshow := (Prod.mk.inj heq).2
    rwa [listing, hvalue, if_pos (List.mem_map.mpr ⟨e, hmem, rfl⟩)] at hshow
  · intro h
    refine List.map_inj_left.mpr fun e he => ?_
    obtain ⟨hmem, hshown⟩ := List.mem_filter.mp he
    rw [listing, hvalue, if_pos (List.mem_map.mpr ⟨e, he, rfl⟩), h e hmem hshown]

/-- Not one word and a space behind it, which is lost with the line. -/
def Kept (v : Str) : Prop := ¬ ∃ w, ' ' ∉ w ∧ v = w ++ [' ']

/-- What of a listing can be set again in `t`: a password where one can be set, the fields of a proxy
where there is one, and a level that `W_SNO` is no part of. -/
structure Restorable (s t : UserSettings) : Prop where
  password : t.getValue .password = s.getValue .password ∨
    t.auth = .authLocal ∧ s.getValue .password ≠ []
  proxy : t.proxy.isSome = s.proxy.isSome
  words : ∀ p ∈ s.proxy, Kept p.host ∧ Kept p.username ∧ Kept p.password
  level : s.loggedFlags.getLsbD 7 = false ∨ s.loggedFlags &&& Log.namedMask = 0

theorem legal_kept {p : Str} (h : LegalPassword p) : Message.lastBack p = p := by
  refine Message.lastBack_word fun hsp => h (.inl ?_)
  simpa using hsp

theorem password_iff (s t : UserSettings) : taken t.auth t.proxy.isSome (t.getValue .password)
      (Message.lastBack (s.getValue .password)) .password = s.getValue .password ↔
    t.getValue .password = s.getValue .password ∨ t.auth = .authLocal ∧ s.getValue .password ≠ [] := by
  rcases (show s.getValue .password = [] ∨ LegalPassword (s.getValue .password) by
    rw [getValue]
    split
    · exact s.legal
    · exact .inl rfl) with hp | hp
  · have hno : ¬ LegalPassword (Message.lastBack []) := by decide
    rw [hp, taken, if_neg fun h => hno h.2]
    simp
  · have hne : s.getValue .password ≠ [] := by
      intro hnil
      rw [hnil] at hp
      exact hp (.inr (by decide))
    rw [legal_kept hp, taken]
    by_cases hauth : t.auth = .authLocal
    · simp [hauth, hp, hne]
    · simp [hauth]

theorem read_written (n : CInt) : CInt.s2t (t2s n.val) = n := by
  obtain ⟨n, hlow, hhigh⟩ := n
  have hval : s2tSigned 32 (t2s n) = n := by
    cases n with
    | ofNat n => exact s2tSigned_t2s (by simp at hhigh; omega)
    | negSucc n =>
      have ht : t2s (Int.negSucc n) = '-' :: t2s (n + 1 : Nat) := by
        simp [t2s, toString, Int.repr]
      have hread : signedDigits ('-' :: t2s (n + 1 : Nat)) = (true, n + 1) := by
        rw [signedDigits, List.dropWhile_cons_of_neg (by decide)]
        exact congrArg (Prod.mk true) (s2t_t2s (n + 1))
      simp only [s2tSigned, ht, hread, if_true]
      omega
  simp [CInt.s2t, hval]

theorem taken_bool (b : Bool) (old : Str) : (if Message.lastBack (boolText b) = str "1" ∨
    Message.lastBack (boolText b) = str "true" then str "true"
    else if Message.lastBack (boolText b) = str "0" ∨ Message.lastBack (boolText b) = str "false" then
      str "false"
    else old) = boolText b := by
  cases b
  · rw [if_neg (by decide), if_pos (by decide)]
    rfl
  · rw [if_pos (by decide)]
    rfl

theorem taken_int (n : CInt) : t2s (CInt.s2t (Message.lastBack (t2s n.val))).val = t2s n.val := by
  have hsp : ' ' ∉ t2s n.val := by
    obtain ⟨n, -⟩ := n
    cases n with
    | ofNat n => exact t2s_no_space n
    | negSucc n =>
      have ht : t2s (Int.negSucc n) = '-' :: t2s (n + 1 : Nat) := by
        simp [t2s, toString, Int.repr]
      rw [ht, List.mem_cons, not_or]
      exact ⟨by decide, t2s_no_space _⟩
  rw [Message.lastBack_word hsp, read_written]

theorem taken_level (flags : BitVec 32) :
    Log.formatLoggedFlags (Log.setLoggedFlags (Message.lastBack (Log.formatLoggedFlags flags))) =
      Log.formatLoggedFlags (flags &&& Log.namedMask) := by
  have hback : ∀ v, Log.setLoggedFlags (Message.lastBack v) = Log.setLoggedFlags v := by
    intro v
    by_cases h : Kept v
    · rw [Message.lastBack_eq_iff.mpr h]
    · obtain ⟨w, hw, rfl⟩ := not_not.mp h
      rw [Message.lastBack_space hw, Log.setLoggedFlags_space]
  rw [hback, Log.setLoggedFlags_format]

/-- The values of ADMIN come back from their listing exactly when they are restorable. -/
theorem listing_restore_iff (s t : UserSettings) :
    (restore s.listing t).listing = s.listing ↔ Restorable s t := by
  rw [listing_restore]
  have hlisted : Message.lastBack s.proxyType = s.proxyType := by
    have hall : ∀ v ∈ proxyTypes, Message.lastBack v = v := by decide +kernel
    obtain ⟨v, hv, heq⟩ := List.any_eq_true.mp s.listed
    exact of_decide_eq_true heq ▸ hall v hv
  have hzero : t2s (CInt.s2t []).val ≠ [] := by decide
  have hport : ∀ n : CInt, t2s n.val ≠ [] := by
    rintro ⟨n, -⟩
    cases n with
    | ofNat n => exact t2s_ne_nil n
    | negSucc n => simp [t2s, toString, Int.repr]
  constructor
  · intro h
    have hproxy : t.proxy.isSome = s.proxy.isSome := by
      have hp := h (str "proxy_port", true, .proxyPort) (by decide) rfl
      cases ht : t.proxy with
      | none =>
        cases hs : s.proxy with
        | none => rfl
        | some p =>
          simp [taken, getValue, ht, hs] at hp
          exact (hport _ hp).elim
      | some q =>
        cases hs : s.proxy with
        | none =>
          simp [taken, getValue, ht, hs, Message.lastBack] at hp
          exact (hzero hp).elim
        | some p => rfl
    refine ⟨(password_iff s t).mp (h (str "password", true, .password) (by decide) rfl), hproxy,
      fun p hp => ?_, ?_⟩
    · have ht : t.proxy.isSome = true := by rw [hproxy, hp]; rfl
      have hhost := h (str "proxy_host", true, .proxyHost) (by decide) rfl
      have huser := h (str "proxy_user", true, .proxyUsername) (by decide) rfl
      have hpass := h (str "proxy_pass", true, .proxyPassword) (by decide) rfl
      simp only [taken, getValue, ht, if_true, Option.mem_def.mp hp, Option.elim_some] at hhost huser hpass
      exact ⟨Message.lastBack_eq_iff.mp hhost, Message.lastBack_eq_iff.mp huser,
        Message.lastBack_eq_iff.mp hpass⟩
    · have hlevel := h (str "log_level", true, .logLevel) (by decide) rfl
      exact (Log.format_mask_iff _).mp ((taken_level s.loggedFlags).symm.trans hlevel)
  · intro h e he hshown
    obtain ⟨key, shown, k⟩ := e
    dsimp only at hshown ⊢
    subst hshown
    cases k with
    | password => exact (password_iff s t).mpr h.password
    | typingNotice | acceptNoBuddiesMessages | voicedBuddies | serverAliases | awayIdle =>
      exact taken_bool _ _
    | sendDelay => exact taken_int _
    | logLevel => exact (taken_level _).trans ((Log.format_mask_iff _).mpr h.level)
    | proxy => rw [taken, getValue, hlisted, if_pos s.listed]
    | proxyHost | proxyPort | proxyUsername | proxyPassword =>
      cases hs : s.proxy with
      | none =>
        have ht : t.proxy = none := by simpa [hs] using h.proxy
        simp [taken, getValue, hs, ht]
      | some p =>
        have ht : t.proxy.isSome = true := by rw [h.proxy, hs]; rfl
        obtain ⟨hhost, huser, hpass⟩ := h.words p hs
        simp [taken, getValue, hs, ht, Message.lastBack_eq_iff.mpr hhost,
          Message.lastBack_eq_iff.mpr huser, Message.lastBack_eq_iff.mpr hpass, taken_int]
    | minbif =>
      have hno : ∀ e ∈ table, e.2.1 = true → e.2.2 ≠ .minbif := by decide +kernel
      exact (hno _ he rfl rfl).elim

end Restore

end UserSettings
end Minbif
