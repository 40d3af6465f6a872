import Minbif.World.MapChannels
import Minbif.World.Presence

/-! The status channels show the presence of the buddies along a session. -/
namespace Minbif
open Function

namespace IM

open Accounts Options World

variable {P : Purple} {decode : Str → Str} {s t : IM} {a : AccountRef} {b : BuddyRef} {e : Event}

/-- A presence, `voiced_buddies`, the status channel of an account, a connection, or a buddy that is
removed. -/
def Event.OfPresence : Event → Prop
  | .edit _ key _ => key = str "status_channel"
  | .add _ _ | .delete _ _ => False
  | _ => True

/-- Every buddy of a connected account that has a nick is on the status channel of the account, and
no other, exactly if it is online; and has VOICE there if it is available, and buddies are voiced. -/
def Mirrors (s : IM) : Prop :=
  ∀ a c, s.accounts.connected a = true → s.world.getStatusChannel a = some c →
    ∀ b ∈ s.world.data.buddies a, ∀ n, s.world.nicks.buddyNick b = some n →
      ((s.world.chans.getChanUser n c).isSome = true ↔ s.presence b ≠ .offline) ∧
      (∀ c', c' ≠ c → s.world.chans.conv c' = none → s.world.chans.getChanUser n c' = none) ∧
      ((∃ cu, s.world.chans.getChanUser n c = some cu ∧
          s.world.chans.cuStatus cu &&& statusVoice ≠ 0) ↔
        s.presence b = .available ∧ s.world.data.voicedBuddies = true)

/-- A buddy of a connected account, with a nick. -/
def Followed (s : IM) (a : AccountRef) (b : BuddyRef) : Prop :=
  s.accounts.connected a = true ∧ b ∈ s.world.data.buddies a ∧
    (s.world.nicks.buddyNick b).isSome = true

/-- The event changes what a channel has to show of a buddy that nothing updates: its account is
hidden by a later one of its ID, or comes to a channel that another one opens, or had a nick on the
server of another account. -/
def Blind (s : IM) : Event → Prop
  | .voicedBuddies enabled => s.world.data.voicedBuddies ≠ enabled ∧ ∃ a b, s.Followed a b ∧
      ¬ Shown s.accounts.id s.accounts.all a ∧ (s.world.getStatusChannel a).isSome = true ∧
      s.presence b = .available
  | .edit account _ value => s.world.chans.getChannel (joinWords value) = none ∧
      isStatusName (joinWords value) = true ∧
      ∃ a, (s.accounts.getAccount account).1 = some a ∧ s.accounts.channel a ≠ joinWords value ∧
      ∃ a' b, a' ≠ a ∧ s.Followed a' b ∧ s.accounts.channel a' = joinWords value ∧
        s.presence b ≠ .offline
  | .connected a => s.accounts.connected a = false ∧ (s.world.getStatusChannel a).isSome = true ∧
      ∃ b ∈ s.world.data.buddies a, (s.world.nicks.buddyNick b).isSome = true ∧
        s.presence b ≠ .offline
  | _ => False

/-- What a session without a conversation keeps, where only the accounts it started with are. -/
structure Tuned (P : Purple) (s : IM) : Prop where
  stored : s.accounts.Stored
  sound : s.accounts.Sound
  told : sync P s = s
  convs : ∀ v, s.world.convs.alive v = false
  firm : s.world.Firm
  only : Only P s.world
  own : ∀ a, ∀ b ∈ s.world.data.buddies a, P.buddyAccount b = a
  listed : ∀ b n, s.world.nicks.buddyNick b = some n → b ∈ s.world.data.buddies (P.buddyAccount b)

/-- The channel of a connected account shows each of its buddies; that of another account shows at
least that a buddy is offline. -/
def UpToDate (P : Purple) (s : IM) : Prop :=
  ∀ b n c, s.accounts.connected (P.buddyAccount b) = true ∨ s.presence b = .offline →
    s.world.nicks.buddyNick b = some n → s.world.getStatusChannel (P.buddyAccount b) = some c →
      s.world.Shows b n c

/-- Of what libpurple said before, only what no account and no presence decides is left. -/
theorem sync_data {w : World} (h : w.data = s.world.data) :
    (sync P { s with world := w }).world.data = (sync P s).world.data := by
  obtain ⟨_, _, _, _, D⟩ := w
  obtain rfl : D = s.world.data := h
  rfl

theorem told_of_data (h : (sync P t).world.data = t.world.data) : sync P t = t := by
  change { t with world := { t.world with data := (sync P t).world.data } } = t
  rw [h]

namespace Tuned

theorem online (h : s.Tuned P) (b : BuddyRef) : s.world.data.online b =
    (s.accounts.connected (P.buddyAccount b) && decide (s.presence b ≠ .offline)) :=
  (congrArg (fun s => s.world.data.online b) h.told).symm

theorem available (h : s.Tuned P) (b : BuddyRef) :
    s.world.data.available b = decide (s.presence b = .available) :=
  (congrArg (fun s => s.world.data.available b) h.told).symm

theorem channel (h : s.Tuned P) : s.world.data.statusChannel = s.accounts.channel :=
  (congrArg (fun s => s.world.data.statusChannel) h.told).symm

theorem mirrors (h : s.Tuned P) (hup : s.UpToDate P) : s.Mirrors := by
  intro a c hconn hc b hb n hn
  obtain rfl := h.own a b hb
  have hshows := hup b n c (.inl hconn) hn hc
  refine ⟨?_, fun c' hne _ => ?_, ?_⟩
  · rw [← Chans.statusOn_isSome, hshows.online, h.online, hconn]
    simp
  · by_contra hget
    have hst : s.world.chans.statusOn n c' ≠ none := by
      rw [← Option.isSome_iff_ne_none, Chans.statusOn_isSome]
      exact Option.isSome_iff_ne_none.mpr hget
    have hcc := h.only b n c' hn hst
    rw [hc] at hcc
    exact hne (Option.some.inj hcc).symm
  · cases hget : s.world.chans.getChanUser n c with
    | none =>
      -- who is not on the channel is not online
      have hoff : s.world.data.online b = false := by
        rw [← hshows.online, Chans.statusOn, hget]
        rfl
      rw [h.online, hconn, Bool.true_and, decide_eq_false_iff_not, not_not] at hoff
      refine iff_of_false (by simp) ?_
      rw [hoff]
      rintro ⟨hav, -⟩
      cases hav
    | some cu =>
      have hst : s.world.chans.statusOn n c = some (s.world.chans.cuStatus cu) := by
        rw [Chans.statusOn, hget]
        rfl
      have hvoice := hshows.voice _ hst
      rw [h.available, decide_eq_true_eq] at hvoice
      rw [← hvoice]
      constructor
      · rintro ⟨cu', hcu', hv⟩
        exact Option.some.inj hcu' ▸ hv
      · exact fun hv => ⟨cu, rfl, hv⟩

/-- The world differs in what its nicks and channels show. -/
theorem withWorld (h : s.Tuned P) {w : World} {D : PurpleData} (hfirm : w.Firm) (honly : Only P w)
    (hconvs : w.convs.alive = s.world.convs.alive) (hdata : w.data = D)
    (htold : (sync P { s with world := { s.world with data := D } }).world.data = D)
    (hown : ∀ a, ∀ b ∈ D.buddies a, P.buddyAccount b = a)
    (hlisted : ∀ b n, w.nicks.buddyNick b = some n → b ∈ D.buddies (P.buddyAccount b)) :
    Tuned P { s with world := w } := by
  subst hdata
  exact ⟨h.stored, h.sound, told_of_data htold, fun v => (congrFun hconvs v).trans (h.convs v),
    hfirm, honly, hown, hlisted⟩

/-- What stays of a buddy whose presence and account are the same is shown as before. -/
theorem shows (hs : s.Tuned P) (ht : t.Tuned P) {n : NickRef} {c : ChanRef}
    (hstays : Stays b s.world t.world) (hn : s.world.nicks.buddyNick b = some n)
    (hconn : t.accounts.connected (P.buddyAccount b) = s.accounts.connected (P.buddyAccount b) ∨
      s.presence b = .offline)
    (hpresence : t.presence b = s.presence b)
    (hvoiced : t.world.data.voicedBuddies = s.world.data.voicedBuddies)
    (h : s.world.Shows b n c) : t.world.Shows b n c := by
  refine hstays.shows hn ?_ ?_ hvoiced h
  · rw [ht.online, hs.online, hpresence]
    rcases hconn with hconn | hoff
    · rw [hconn]
    · simp [hoff]
  · rw [ht.available, hs.available, hpresence]

theorem withErrors (h : s.Tuned P) (errors : List Str) : Tuned P { s with errors := errors } :=
  ⟨h.stored, h.sound, congrArg (fun s : IM => { s with errors := errors }) h.told, h.convs, h.firm,
    h.only, h.own, h.listed⟩

theorem withSettings (h : s.Tuned P) (S : Settings) : (s.withSettings S).Tuned P :=
  ⟨⟨h.stored.protocols, h.stored.known, h.stored.alive, h.stored.bound, h.stored.nodup⟩,
    ⟨h.sound.protocols, h.sound.known, h.sound.id, h.sound.bound⟩,
    congrArg (fun s : IM => s.withSettings S) h.told, h.convs, h.firm, h.only, h.own, h.listed⟩

/-- Other accounts are connected. -/
theorem setConnected (h : s.Tuned P) (l : AccountRef → Bool) :
    (s.setAccounts P { s.accounts with connected := l }).Tuned P ∧
      World.SameBoard s.world (s.setAccounts P { s.accounts with connected := l }).world := by
  have hboard : World.SameBoard s.world (s.setAccounts P { s.accounts with connected := l }).world :=
    ⟨.refl _, rfl, h.channel.symm⟩
  have hstays : ∀ b, Stays b s.world (s.setAccounts P { s.accounts with connected := l }).world :=
    fun b => ⟨rfl, fun _ _ => rfl, fun _ _ _ => rfl⟩
  refine ⟨⟨?_, ?_, rfl, h.convs, h.firm.withData _,
    h.only.wanes (fun b => .inr (hstays b)) hboard, h.own, h.listed⟩, hboard⟩
  · exact ⟨h.stored.protocols, h.stored.known, h.stored.alive, h.stored.bound, h.stored.nodup⟩
  · exact ⟨h.sound.protocols, h.sound.known, h.sound.id, h.sound.bound⟩

end Tuned

section Events

theorem connect_tuned (h : s.Tuned P) (hup : s.UpToDate P) (hno : ¬ s.Blind (.connected a)) :
    (s.connect P a).Tuned P ∧ (s.connect P a).UpToDate P := by
  unfold connect
  split
  · exact ⟨h, hup⟩
  next hcond =>
  have hconn : s.accounts.connected a = false := by
    rw [Bool.or_eq_true, not_or, Bool.not_eq_true] at hcond
    exact Bool.eq_false_iff.mpr hcond.2
  obtain ⟨ht₀, hboard⟩ := h.setConnected (update s.accounts.connected a true)
  dsimp only
  generalize hs₀ : s.setAccounts P
    { s.accounts with connected := update s.accounts.connected a true } = s₀ at *
  have hlink : s₀.accounts.connected = update s.accounts.connected a true := by rw [← hs₀]; rfl
  have hrest : s₀.presence = s.presence ∧ s₀.world.data.voicedBuddies = s.world.data.voicedBuddies ∧
      ∀ b, Stays b s.world (s₀.world.connected a) := by
    rw [← hs₀]
    exact ⟨rfl, rfl, fun b => ⟨rfl, fun _ _ => rfl, fun _ _ _ => rfl⟩⟩
  obtain ⟨hpresence, hvoiced, hstays⟩ := hrest
  have ht : Tuned P { s₀ with world := s₀.world.connected a } :=
    ht₀.withWorld (ht₀.firm.connected a) ht₀.only rfl rfl
      (congrArg (fun s => s.world.data) ht₀.told) ht₀.own ht₀.listed
  refine ⟨ht, fun b n c hcond hn hc => ?_⟩
  change s₀.accounts.connected _ = true ∨ s₀.presence b = _ at hcond
  rw [hlink, hpresence] at hcond
  rw [(hstays b).nick] at hn
  change s₀.world.getStatusChannel _ = some c at hc
  rw [hboard.getStatusChannel] at hc
  have hpres : s₀.presence b = s.presence b := congrFun hpresence b
  by_cases hba : P.buddyAccount b = a
  · -- the account that is connected has no one to show yet
    have hoff : s.presence b = .offline := by
      by_contra hon
      refine hno ⟨hconn, by rw [← hba, hc]; rfl, b, ?_, by rw [hn]; rfl, hon⟩
      rw [← hba]
      exact h.listed b n hn
    exact h.shows ht (hstays b) hn (.inr hoff) hpres hvoiced (hup b n c (.inr hoff) hn hc)
  · rw [update_of_ne hba] at hcond
    refine h.shows ht (hstays b) hn (.inl ?_) hpres hvoiced (hup b n c hcond hn hc)
    change s₀.accounts.connected _ = _
    rw [hlink, update_of_ne hba]

theorem disconnect_tuned (h : s.Tuned P) (hup : s.UpToDate P) (a : AccountRef)
    (left : List ConvRef) : (s.disconnect P a left).Tuned P ∧ (s.disconnect P a left).UpToDate P := by
  unfold disconnect
  split
  · exact ⟨h, hup⟩
  obtain ⟨ht₀, hboard⟩ := h.setConnected (update s.accounts.connected a false)
  dsimp only
  generalize hs₀ : s.setAccounts P
    { s.accounts with connected := update s.accounts.connected a false } = s₀ at *
  have hlink : s₀.accounts.connected = update s.accounts.connected a false := by rw [← hs₀]; rfl
  have hrest : s₀.presence = s.presence ∧ s₀.world.data.voicedBuddies = s.world.data.voicedBuddies ∧
      ∀ b, Stays b s.world s₀.world := by
    rw [← hs₀]
    exact ⟨rfl, rfl, fun b => ⟨rfl, fun _ _ => rfl, fun _ _ _ => rfl⟩⟩
  obtain ⟨hpresence, hvoiced, hstays⟩ := hrest
  rw [leaveChats_idle ht₀.convs]
  obtain ⟨hfirm, hdata, hwanes, -⟩ := removeServer_wanes ht₀.firm (s₀.world.data.servername a)
  have hboard' := removeServer_board s₀.world (s₀.world.data.servername a)
  generalize s₀.world.removeServer _ = w at *
  have hlisted : ∀ b n, w.nicks.buddyNick b = some n →
      b ∈ s₀.world.data.buddies (P.buddyAccount b) := by
    intro b n hn
    rcases hwanes b with hnone | hst
    · rw [hnone] at hn
      cases hn
    · rw [hst.nick] at hn
      exact ht₀.listed b n hn
  have ht : Tuned P { s₀ with world := w } :=
    ht₀.withWorld hfirm (ht₀.only.wanes hwanes hboard') hboard'.convs hdata
      (congrArg (fun s => s.world.data) ht₀.told) ht₀.own hlisted
  refine ⟨ht, fun b n c hcond hn hc => ?_⟩
  change s₀.accounts.connected _ = true ∨ s₀.presence b = _ at hcond
  change w.nicks.buddyNick b = some n at hn
  change w.getStatusChannel _ = some c at hc
  rw [hlink, hpresence] at hcond
  rw [hboard'.getStatusChannel, hboard.getStatusChannel] at hc
  have hpres : s₀.presence b = s.presence b := congrFun hpresence b
  have hvoice : w.data.voicedBuddies = s.world.data.voicedBuddies := by rw [hdata, hvoiced]
  rcases hwanes b with hnone | hst
  · rw [hnone] at hn
    cases hn
  have hstays' := (hstays b).trans hst
  rw [hstays'.nick] at hn
  by_cases hba : P.buddyAccount b = a
  · rw [hba, update_self] at hcond
    have hoff := hcond.resolve_left nofun
    exact h.shows ht hstays' hn (.inr hoff) hpres hvoice (hup b n c (.inr hoff) hn hc)
  · rw [update_of_ne hba] at hcond
    refine h.shows ht hstays' hn (.inl ?_) hpres hvoice (hup b n c hcond hn hc)
    change s₀.accounts.connected _ = _
    rw [hlink, update_of_ne hba]

theorem setPresence_tuned (h : s.Tuned P) (hup : s.UpToDate P) (b : BuddyRef) (p : Presence) :
    (s.setPresence P b p).Tuned P ∧ (s.setPresence P b p).UpToDate P := by
  unfold setPresence
  split
  · exact ⟨h, hup⟩
  next hmem =>
  have hmem : b ∈ s.world.data.buddies (P.buddyAccount b) := by simpa using hmem
  dsimp only
  generalize hs₀ : sync P { s with presence := update s.presence b p } = s₀
  have hrest : s₀.accounts = s.accounts ∧ s₀.presence = update s.presence b p ∧
      s₀.world.data.voicedBuddies = s.world.data.voicedBuddies ∧
      s₀.world.data.buddies = s.world.data.buddies ∧ World.SameBoard s.world s₀.world ∧
      ∀ b, Stays b s.world s₀.world := by
    rw [← hs₀]
    exact ⟨rfl, rfl, rfl, rfl, ⟨.refl _, rfl, h.channel.symm⟩,
      fun b => ⟨rfl, fun _ _ => rfl, fun _ _ _ => rfl⟩⟩
  obtain ⟨haccounts, hpresence, hvoiced, hbuddies, hboard, hstays⟩ := hrest
  have ht₀ : s₀.Tuned P := by
    refine ⟨haccounts ▸ h.stored, haccounts ▸ h.sound, ?_, ?_, ?_,
      h.only.wanes (fun b => .inr (hstays b)) hboard, hbuddies ▸ h.own, fun b n hn => ?_⟩
    · rw [← hs₀]
      rfl
    · rw [← hs₀]
      exact h.convs
    · rw [← hs₀]
      exact h.firm.withData _
    · rw [(hstays b).nick] at hn
      rw [hbuddies]
      exact h.listed b n hn
  have hu := updateNode_updates ht₀.firm ht₀.only b
  have hboard' := updateNode_board P s₀.world b
  generalize s₀.world.updateNode P b = w at *
  obtain ⟨aliases, hdata⟩ := hu.data
  have ht : Tuned P { s₀ with world := w } := by
    refine ht₀.withWorld hu.firm hu.only hboard'.convs hdata
      (congrArg (fun s : IM => { s.world.data with buddyAlias := aliases }) ht₀.told) ht₀.own
      fun b' n hn => ?_
    change b' ∈ s₀.world.data.buddies _
    by_cases hne : b' = b
    · rw [hne, hbuddies]
      exact hmem
    · rw [(hu.others b' hne).nick] at hn
      exact ht₀.listed b' n hn
  refine ⟨ht, fun b' n c hcond hn hc => ?_⟩
  change s₀.accounts.connected _ = true ∨ s₀.presence b' = _ at hcond
  change w.nicks.buddyNick b' = some n at hn
  change w.getStatusChannel _ = some c at hc
  by_cases hne : b' = b
  · subst hne
    exact hu.shows n c hn hc
  have hstays' := (hstays b').trans (hu.others b' hne)
  have hpres : s₀.presence b' = s.presence b' := by rw [hpresence, update_of_ne hne]
  rw [hstays'.nick] at hn
  rw [hboard'.getStatusChannel, hboard.getStatusChannel] at hc
  rw [haccounts, hpres] at hcond
  refine h.shows ht hstays' hn (.inl ?_) hpres ?_ (hup b' n c hcond hn hc)
  · change s₀.accounts.connected _ = _
    rw [haccounts]
  · change w.data.voicedBuddies = _
    rw [hdata, ← hvoiced]

theorem removeBuddy_tuned (h : s.Tuned P) (hup : s.UpToDate P) (b : BuddyRef) :
    (s.removeBuddy P b).Tuned P ∧ (s.removeBuddy P b).UpToDate P := by
  have hboard : World.SameBoard s.world (s.removeBuddy P b).world := removeBuddy_board s b
  unfold removeBuddy at hboard ⊢
  dsimp only at hboard ⊢
  generalize hl : update s.world.data.buddies (P.buddyAccount b)
    ((s.world.data.buddies (P.buddyAccount b)).erase b) = l at *
  let w₀ : World := { s.world with data := { s.world.data with buddies := l } }
  have hw₀ : w₀.Firm := h.firm.withData _
  obtain ⟨hfirm, hnone, -, hdata, hwanes⟩ := removedNode_wanes hw₀ b
  have hstart : ∀ b', Wanes b' s.world (w₀.removedNode b) := by
    intro b'
    have hfirst : Stays b' s.world w₀ := ⟨rfl, fun _ _ => rfl, fun _ _ _ => rfl⟩
    exact Wanes.trans (.inr hfirst) (hwanes b')
  have hsub : ∀ a, ∀ b' ∈ l a, b' ∈ s.world.data.buddies a := by
    intro a b' hb'
    rw [← hl] at hb'
    by_cases hab : a = P.buddyAccount b
    · rw [hab, update_self] at hb'
      exact hab ▸ List.mem_of_mem_erase hb'
    · rwa [update_of_ne hab] at hb'
  change World.SameBoard s.world (w₀.removedNode b) at hboard
  change Tuned P { s with world := w₀.removedNode b } ∧ UpToDate P { s with world := w₀.removedNode b }
  generalize w₀.removedNode b = w at *
  have ht : Tuned P { s with world := w } := by
    refine h.withWorld hfirm (h.only.wanes hstart hboard) hboard.convs hdata
      (congrArg (fun s : IM => { s.world.data with buddies := l }) h.told)
      (fun a b' hb' => h.own a b' (hsub a b' hb')) fun b' n hn => ?_
    have hne : b' ≠ b := by
      rintro rfl
      rw [hnone] at hn
      cases hn
    have hmem : b' ∈ s.world.data.buddies (P.buddyAccount b') := by
      rcases hstart b' with hgone | hst
      · rw [hgone] at hn
        cases hn
      · rw [hst.nick] at hn
        exact h.listed b' n hn
    change b' ∈ l (P.buddyAccount b')
    rw [← hl]
    by_cases hab : P.buddyAccount b' = P.buddyAccount b
    · rw [hab, update_self]
      rw [hab] at hmem
      exact (List.mem_erase_of_ne hne).mpr hmem
    · rwa [update_of_ne hab]
  refine ⟨ht, fun b' n c hcond hn hc => ?_⟩
  change w.nicks.buddyNick b' = some n at hn
  change w.getStatusChannel _ = some c at hc
  rcases hstart b' with hgone | hst
  · rw [hgone] at hn
    cases hn
  rw [hst.nick] at hn
  rw [hboard.getStatusChannel] at hc
  refine h.shows ht hst hn (.inl rfl) rfl ?_ (hup b' n c hcond hn hc)
  change w.data.voicedBuddies = _
  rw [hdata]

/-- The loop over the accounts shows the buddies of each. -/
theorem foldl_updatedAll {w : World} (h : w.Firm) (honly : Only P w) (l : List AccountRef) :
    let w' := l.foldl (updatedAllBuddies P) w
    w'.Firm ∧ Only P w' ∧ World.SameBoard w w' ∧ w'.nicks = w.nicks ∧ w'.data = w.data ∧
      ∀ b n c, w.nicks.buddyNick b = some n → w.getStatusChannel (P.buddyAccount b) = some c →
        ((∃ a ∈ l, b ∈ w.data.buddies a) ∨ w.Shows b n c) → w'.Shows b n c := by
  induction l generalizing w with
  | nil =>
    refine ⟨h, honly, .refl w, rfl, rfl, fun b n c _ _ hb => hb.resolve_left ?_⟩
    rintro ⟨a, ha, -⟩
    cases ha
  | cons x l ih =>
    obtain ⟨hfirm, honly', hboard, hnicks, hdata, hshows⟩ := foldl_updated h honly (w.data.buddies x)
    obtain ⟨hfirm', honly'', hboard', hnicks', hdata', hshows'⟩ := ih hfirm honly'
    refine ⟨hfirm', honly'', hboard.trans hboard', hnicks'.trans hnicks, hdata'.trans hdata,
      fun b n c hn hc hb => ?_⟩
    refine hshows' b n c (by rw [hnicks, hn]) (by rw [hboard.getStatusChannel, hc]) ?_
    rcases hb with ⟨a, ha, hb⟩ | hold
    · rcases List.mem_cons.mp ha with rfl | ha
      · exact .inr (hshows b n c hn hc (.inl hb))
      · exact .inl ⟨a, ha, by rw [hdata]; exact hb⟩
    · exact .inr (hshows b n c hn hc (.inr hold))

theorem setVoicedBuddies_tuned (h : s.Tuned P) (hup : s.UpToDate P) {enabled : Bool}
    (hno : ¬ s.Blind (.voicedBuddies enabled)) :
    (s.setVoicedBuddies P enabled).Tuned P ∧ (s.setVoicedBuddies P enabled).UpToDate P := by
  unfold setVoicedBuddies
  split
  · exact ⟨h, hup⟩
  next hchange =>
  have hsame : s.setAccounts P s.accounts = s := h.told
  dsimp only
  rw [h.sound.listed, hsame]
  have hvalues : ∀ a, a ∈ s.accounts.getAccountsList.1.values ↔ Shown s.accounts.id s.accounts.all a := by
    intro a
    rw [h.stored.mem_values, h.sound.listed]
  let w₀ : World := { s.world with data := { s.world.data with voicedBuddies := enabled } }
  have hw₀ : w₀.Firm := h.firm.withData _
  obtain ⟨hfirm, honly, hboard, hnicks, hdata, hshows⟩ :=
    foldl_updatedAll hw₀ h.only s.accounts.getAccountsList.1.values
  change Tuned P { s with world := List.foldl (updatedAllBuddies P) w₀ _ } ∧
    UpToDate P { s with world := List.foldl (updatedAllBuddies P) w₀ _ }
  generalize List.foldl (updatedAllBuddies P) w₀ s.accounts.getAccountsList.1.values = w at *
  have ht : Tuned P { s with world := w } := by
    refine h.withWorld hfirm honly hboard.convs hdata
      (congrArg (fun s : IM => { s.world.data with voicedBuddies := enabled }) h.told) h.own
      fun b n hn => ?_
    rw [hnicks] at hn
    exact h.listed b n hn
  refine ⟨ht, fun b n c hcond hn hc => ?_⟩
  change s.accounts.connected _ = true ∨ s.presence b = _ at hcond
  change w.nicks.buddyNick b = some n at hn
  change w.getStatusChannel _ = some c at hc
  rw [hnicks] at hn
  rw [hboard.getStatusChannel] at hc
  change s.world.getStatusChannel _ = some c at hc
  have hmem := h.listed b n hn
  refine hshows b n c hn hc ?_
  by_cases hlisted : Shown s.accounts.id s.accounts.all (P.buddyAccount b)
  · exact .inl ⟨_, (hvalues _).mpr hlisted, hmem⟩
  -- the account is hidden, but the VOICE of its buddy is the same
  have hold := hup b n c hcond hn hc
  refine .inr ⟨hold.online, fun st hst => ?_⟩
  have hav : s.world.data.available b = false := by
    rw [h.available, decide_eq_false_iff_not]
    intro hav
    refine hno ⟨hchange, P.buddyAccount b, b, ⟨?_, hmem, by rw [hn]; rfl⟩, hlisted, by rw [hc]; rfl, hav⟩
    refine hcond.resolve_right ?_
    rw [hav]
    nofun
  rw [hold.voice st hst]
  change _ ↔ s.world.data.available b = true ∧ _
  simp [hav]

/-- An account has left its channel, and has the name of another. -/
structure Moved (P : Purple) (a : AccountRef) (name : Str) (s t : IM) : Prop where
  accounts : t.accounts = { s.accounts with channel := update s.accounts.channel a name }
  presence : t.presence = s.presence
  data : t.world.data = { s.world.data with statusChannel := t.accounts.channel }
  firm : t.world.Firm
  only : Only P t.world
  nicks : t.world.nicks = s.world.nicks
  convs : t.world.convs.alive = s.world.convs.alive
  others : ∀ b n c, P.buddyAccount b ≠ a → s.world.nicks.buddyNick b = some n →
    t.world.getStatusChannel (P.buddyAccount b) = some c →
      s.world.getStatusChannel (P.buddyAccount b) = some c ∧
        t.world.chans.statusOn n c = s.world.chans.statusOn n c
  table : ∀ k, k ≠ s.accounts.channel a → t.world.chans.getChannel k = s.world.chans.getChannel k

theorem leave_moved (h : s.Tuned P) (a : AccountRef) (name : Str) :
    Moved P a name s (({ s with world := s.world.leaveStatusChannel a } : IM).setAccounts P
      { s.accounts with channel := update s.accounts.channel a name }) := by
  have hleave := leaveStatusChannel_leaves h.firm h.only (h.own a)
  generalize s.world.leaveStatusChannel a = w at *
  generalize ht : ({ s with world := w } : IM).setAccounts P
    { s.accounts with channel := update s.accounts.channel a name } = t
  have haccounts : t.accounts = { s.accounts with channel := update s.accounts.channel a name } := by
    rw [← ht]
    rfl
  have hchans : t.world.chans = w.chans := by
    rw [← ht]
    rfl
  have hnicks : t.world.nicks = w.nicks := by
    rw [← ht]
    rfl
  have hdata : t.world.data = { s.world.data with statusChannel := t.accounts.channel } := by
    have hsync : (sync P { s with world := w }).world.data = s.world.data := by
      rw [sync_data hleave.data, h.told]
    rw [← ht]
    exact congrArg (fun D : PurpleData =>
      { D with statusChannel := update s.accounts.channel a name }) hsync
  have hget : ∀ a', a' ≠ a → t.world.getStatusChannel a' = w.getStatusChannel a' := by
    intro a' ha'
    have hname : t.world.data.statusChannel a' = w.data.statusChannel a' := by
      rw [hdata, haccounts, hleave.data, h.channel]
      exact update_of_ne ha' ..
    unfold World.getStatusChannel
    rw [hname, hchans]
  refine ⟨haccounts, by rw [← ht]; rfl, hdata, by rw [← ht]; exact hleave.firm.withData _,
    fun b n c hn hst => ?_, hnicks.trans hleave.nicks, by rw [← ht]; exact hleave.convs,
    fun b n c hba hn hc => ?_, fun k hk => ?_⟩
  · rw [hnicks] at hn
    rw [hchans] at hst
    by_cases hba : P.buddyAccount b = a
    · rw [hleave.nicks] at hn
      refine absurd (hleave.quiet b n c ?_ hn) hst
      rw [← hba]
      exact h.listed b n hn
    · rw [hget _ hba]
      exact hleave.only b n c hn hst
  · rw [hget _ hba] at hc
    rw [hchans]
    exact hleave.others b n c hba hn hc
  · rw [hchans]
    refine hleave.table k ?_
    rw [h.channel]
    exact hk

section Moved

variable {name : Str} {w : World}

theorem Moved.tuned (hm : Moved P a name s t) (h : s.Tuned P) (henter : Enters P a t.world w) :
    Tuned P { t with world := w } := by
  have hdata : w.data = { s.world.data with statusChannel := t.accounts.channel } :=
    henter.data.trans hm.data
  refine ⟨?_, ?_, ?_, fun v => ?_, henter.firm, henter.only, fun a' b hb => ?_, fun b n hn => ?_⟩
  · change t.accounts.Stored
    rw [hm.accounts]
    exact ⟨h.stored.protocols, h.stored.known, h.stored.alive, h.stored.bound, h.stored.nodup⟩
  · change t.accounts.Sound
    rw [hm.accounts]
    exact ⟨h.sound.protocols, h.sound.known, h.sound.id, h.sound.bound⟩
  · refine told_of_data ?_
    -- libpurple said the rest before
    have htold : (sync P s).world.data = s.world.data := by rw [h.told]
    change { w.data with
      accountId := t.accounts.id
      username := t.accounts.username
      statusChannel := t.accounts.channel
      online := fun b => t.accounts.connected (P.buddyAccount b) && t.presence b ≠ .offline
      available := fun b => t.presence b = .available } = w.data
    rw [hdata, hm.presence, hm.accounts]
    exact congrArg (fun D : PurpleData =>
      { D with statusChannel := update s.accounts.channel a name }) htold
  · change w.convs.alive v = false
    rw [henter.convs, hm.convs]
    exact h.convs v
  · change b ∈ w.data.buddies a' at hb
    rw [hdata] at hb
    exact h.own a' b hb
  · change w.nicks.buddyNick b = some n at hn
    rw [henter.nicks, hm.nicks] at hn
    change b ∈ w.data.buddies _
    rw [hdata]
    exact h.listed b n hn

theorem Moved.upToDate (hm : Moved P a name s t) (h : s.Tuned P) (hup : s.UpToDate P)
    (hne : s.accounts.channel a ≠ name) (henter : Enters P a t.world w)
    (hseen : s.world.chans.getChannel name = none →
      ∀ a' b, a' ≠ a → s.Followed a' b → s.accounts.channel a' = name → s.presence b = .offline) :
    UpToDate P { t with world := w } := by
  intro b n c hcond hn hc
  change t.accounts.connected _ = true ∨ t.presence b = _ at hcond
  rw [hm.accounts, hm.presence] at hcond
  change w.nicks.buddyNick b = some n at hn
  change w.getStatusChannel _ = some c at hc
  rw [henter.nicks, hm.nicks] at hn
  have hmem := h.listed b n hn
  refine henter.shows b n c (by rw [hm.nicks, hn]) hc ?_
  by_cases hba : P.buddyAccount b = a
  · left
    rw [hm.data, ← hba]
    exact hmem
  refine .inr ⟨fun hc₂ => ?_, fun hnone hnone' hname => ?_⟩
  · -- the other account was on the channel before
    obtain ⟨hc₀, hst⟩ := hm.others b n c hba hn hc₂
    have hold := hup b n c hcond hn hc₀
    refine ⟨?_, fun st hst' => ?_⟩
    · rw [hst, hm.data]
      exact hold.online
    · rw [hst] at hst'
      rw [hm.data]
      exact hold.voice st hst'
  · -- the other account has the name of a channel that was not there
    have hself : t.world.data.statusChannel a = name := by
      rw [hm.data, hm.accounts]
      exact update_self ..
    have hamp : (t.world.data.statusChannel a).head? = some '&' := by
      rw [← hname, ← henter.data]
      exact (getStatusChannel_iff.mp hc).1
    have hfree := hm.firm.ok.statusChannel_free hamp hnone'
    rw [hself, hm.table name (Ne.symm hne)] at hfree
    have hother : s.accounts.channel (P.buddyAccount b) = name := by
      rw [← hself, ← hname, hm.data, hm.accounts]
      exact (update_of_ne hba ..).symm
    have hon : t.world.data.online b = s.world.data.online b := by rw [hm.data]
    rw [hon, h.online]
    cases hconn : s.accounts.connected (P.buddyAccount b) with
    | false => rfl
    | true =>
      have hoff := hseen hfree _ b hba ⟨hconn, hmem, by rw [hn]; rfl⟩ hother
      rw [hoff]
      rfl

end Moved

/-- An account comes to another channel, where no other is followed that nothing shows there. -/
theorem setChannel_tuned (h : s.Tuned P) (hup : s.UpToDate P) {name : Str}
    (hseen : s.accounts.channel a ≠ name → s.world.chans.getChannel name = none →
      ∀ a' b, a' ≠ a → s.Followed a' b → s.accounts.channel a' = name → s.presence b = .offline) :
    (s.setChannel P a name).Tuned P ∧ (s.setChannel P a name).UpToDate P := by
  unfold setChannel
  split
  · exact ⟨h, hup⟩
  · next hne =>
    have hm := leave_moved h a name
    unfold setStatusChannelName
    dsimp only
    generalize ({ s with world := s.world.leaveStatusChannel a } : IM).setAccounts P
      { s.accounts with channel := update s.accounts.channel a name } = t at *
    have hown : ∀ b ∈ t.world.data.buddies a, P.buddyAccount b = a := by
      rw [hm.data]
      exact h.own a
    have henter := createStatusChannel_enters (P := P) hm.firm hm.only hown
    exact ⟨hm.tuned h henter, hm.upToDate h hup hne henter (hseen hne)⟩

theorem mapEdit_tuned (h : s.Tuned P) (hup : s.UpToDate P) {account : Str} {value : List Str}
    (hno : ¬ s.Blind (.edit account (str "status_channel") value)) :
    (s.mapEdit P account (str "status_channel") value).Tuned P ∧
      (s.mapEdit P account (str "status_channel") value).UpToDate P := by
  have hsame : s.setAccounts P s.accounts = s := h.told
  obtain ⟨errors, hcases⟩ := mapEdit_cases (P := P) s account (str "status_channel") value
  rw [h.sound.getAccount, hsame] at hcases
  rcases hcases with ⟨-, he⟩ | ⟨a, hsome, ⟨reason, -, he⟩ | ⟨options, hr, he⟩⟩
  · rw [he]
    exact ⟨h.withErrors errors, hup⟩
  · rw [he]
    exact ⟨h.withErrors errors, hup⟩
  rw [he]
  have ha := h.sound.getAccount_mem hsome
  obtain ⟨p, hproto⟩ := Option.isSome_iff_exists.mp (h.sound.known a ha)
  obtain ⟨hproper, haccid, hchannel⟩ := readEdit_ok hproto hr
  rw [if_neg (by decide)] at haccid
  rw [if_pos rfl] at hchannel
  suffices hset : (s.setOptions P a options).2.Tuned P ∧ (s.setOptions P a options).2.UpToDate P from
    ⟨hset.1.withErrors errors, hset.2⟩
  obtain ⟨S₁, S₂, S₃, hoptions⟩ := setOptions_cases (P := P) (s := s) (a := a) hproper
  have ht := h.withSettings S₁
  obtain ⟨hbad, hset⟩ := ht.sound.setAccid (a := a) (p := p) hproto (wanted options "accid")
  -- the ID that is asked for is the one that the account has
  have hcur : (s.withSettings S₁).accounts.current p a = wanted options "accid" := by
    rw [haccid, current, if_neg]
    · rfl
    · exact h.sound.id a ha
  have hgiven : (s.withSettings S₁).accounts.given p a (wanted options "accid") =
      (s.withSettings S₁).accounts.id a := by
    rw [given, if_pos (.inl hcur), hcur, haccid]
    rfl
  rw [hgiven, setID_self] at hset
  have hsame' : (s.withSettings S₁).setAccounts P (s.withSettings S₁).accounts = s.withSettings S₁ :=
    ht.told
  rw [hset, hsame', hchannel] at hoptions
  rcases hoptions with ⟨reason, hr, -⟩ | ⟨-, t, rfl, ⟨reason, -, he⟩ | ⟨hfits, he⟩⟩
  · exact absurd hcur (hbad.mp (by rw [hr]; rfl)).1
  · rw [he]
    exact ⟨ht.withSettings S₂, hup⟩
  rw [he]
  have hseen : s.accounts.channel a ≠ joinWords value →
      s.world.chans.getChannel (joinWords value) = none → ∀ a' b, a' ≠ a → s.Followed a' b →
        s.accounts.channel a' = joinWords value → s.presence b = .offline := by
    intro hne hfree a' b ha' hfollow hchan
    by_contra hon
    refine hno ⟨hfree, ?_, a, hsome, hne, a', b, ha', hfollow, hchan, hon⟩
    by_contra hname
    exact hfits ⟨hne, Bool.not_eq_true _ ▸ hname⟩
  obtain ⟨ht', hup'⟩ := setChannel_tuned (ht.withSettings S₂) hup hseen
  exact ⟨ht'.withSettings S₃, hup'⟩

/-- What one event leaves to show. -/
theorem after_tuned (h : s.Tuned P) (hup : s.UpToDate P) (he : e.OfPresence) (hno : ¬ s.Blind e) :
    (s.after P decode e).Tuned P ∧ (s.after P decode e).UpToDate P := by
  cases e with
  | add args found => cases he
  | edit account key value =>
    obtain rfl : key = str "status_channel" := he
    exact mapEdit_tuned h hup hno
  | delete account left => cases he
  | connected a => exact connect_tuned h hup hno
  | disconnected a left => exact disconnect_tuned h hup a left
  | presence b p => exact setPresence_tuned h hup b p
  | buddyRemoved b =>
    change (if _ then s.removeBuddy P b else s).Tuned P ∧ (if _ then s.removeBuddy P b else s).UpToDate P
    split
    · exact removeBuddy_tuned h hup b
    · exact ⟨h, hup⟩
  | voicedBuddies enabled => exact setVoicedBuddies_tuned h hup hno

end Events

section Start

theorem createStatusChannel_data (w : World) (a : AccountRef) :
    (w.createStatusChannel P a).data = w.data := by
  have hfold : ∀ (l : List BuddyRef) (w : World),
      (l.foldl (fun w b => w.updated P b) w).data = w.data := by
    intro l
    induction l with
    | nil => exact fun _ => rfl
    | cons b l ih => exact fun w => (ih _).trans (updated_nicks P w b).2.1
  have hopen : (w.openStatusChannel a).1.data = w.data := by
    unfold openStatusChannel
    split
    · rfl
    · rfl
  unfold createStatusChannel
  split
  · rfl
  · exact (hfold _ _).trans hopen

/-- No buddy has a nick when the User registers. -/
theorem startUp_buddies {w : World} (hw : w.Ok none) (l : List AccountRef) :
    (w.startUp P l).nicks.buddyNick = w.nicks.buddyNick ∧ (w.startUp P l).data = w.data := by
  have hstarted : World.Ok { w with started := true } none :=
    (Change.started (P := noPurple) (T := noTerms) w).ok hw
  obtain ⟨-, hsame⟩ := foldl_create_goes (P := P) (T := noTerms) (l := l) hstarted rfl
  have hdata : ∀ (l : List AccountRef) (w : World),
      (l.foldl (fun w a => w.createStatusChannel P a) w).data = w.data := by
    intro l
    induction l with
    | nil => exact fun _ => rfl
    | cons a l ih => exact fun w => (ih _).trans (createStatusChannel_data w a)
  have hnicks : (l.foldl (fun w a => World.createStatusChannel P w a)
      { w with started := true }).nicks.buddyNick = w.nicks.buddyNick :=
    congrArg Nicks.buddyNick hsame.nicks
  exact ⟨hnicks, hdata l _⟩

theorem start_tuned {A : Accounts} {D : PurpleData} (hA : A.Stored)
    (hD : ∀ a, ∀ b ∈ D.buddies a, P.buddyAccount b = a) :
    (start P A D).Tuned P ∧ ∀ b, (start P A D).world.nicks.buddyNick b = none := by
  obtain ⟨hsteady, -⟩ := start_steady (P := P) (D := D) hA
  let w : World := (sync P { accounts := A.getAccountsList.2, world := { World.initial with data := D } }).world
  have hw : w.Ok none := (Change.data (P := noPurple) (T := noTerms) World.initial none w.data).ok initial_ok
  have howned : w.nicks.Owned := fun _ _ => nofun
  have hgo : Goes P noTerms w (w.startUp P A.getAccountsList.1.values) :=
    startUp_goes hw rfl _ False.elim
  have hstarted := startUp_started (P := P) hw A.getAccountsList.1.values
  obtain ⟨hnicks, hdata⟩ := startUp_buddies (P := P) hw A.getAccountsList.1.values
  have hgo' : Goes P noTerms w { w.startUp P A.getAccountsList.1.values with registered := true } :=
    hgo.trans (Change.registered _ hstarted).goes
  have hnone : ∀ b, (start P A D).world.nicks.buddyNick b = none := fun b => congrFun hnicks b
  have hstored : A.getAccountsList.2.Stored := by
    rw [hA.listing.rest]
    exact ⟨hA.protocols, hA.known, hA.alive, hA.bound, hA.nodup⟩
  refine ⟨⟨hstored, hsteady.sound, told_of_data ?_, hsteady.moored.convs,
    ⟨hgo'.ok hw, Changes.owned hgo' hw howned, rfl⟩, fun b n c hn => ?_, fun a b hb => ?_,
    fun b n hn => ?_⟩, hnone⟩
  · exact (sync_data (s := { accounts := A.getAccountsList.2, world := w })
      (w := (start P A D).world) hdata).trans hdata.symm
  · rw [hnone] at hn
    cases hn
  · have hbuddies : (w.startUp P A.getAccountsList.1.values).data.buddies = D.buddies := by
      rw [hdata]
      rfl
    change b ∈ (w.startUp P A.getAccountsList.1.values).data.buddies a at hb
    rw [hbuddies] at hb
    exact hD a b hb
  · rw [hnone] at hn
    cases hn

end Start

end IM

open IM Accounts Runs in
/-- The status channels mirror the presences along a session without an event that leaves one of them
blind. -/
theorem mirrors_of_along {P : Purple} {decode : Str → Str} {A : Accounts} {D : PurpleData}
    {es : List IM.Event} (hA : A.Stored) (hD : ∀ a, ∀ b ∈ D.buddies a, P.buddyAccount b = a)
    (hes : ∀ e ∈ es, e.OfPresence)
    (hsees : Along (IM.step P decode) (fun s e => ¬ s.Blind e) (IM.start P A D) es) :
    Throughout (IM.step P decode) IM.Mirrors (IM.start P A D) es := by
  obtain ⟨htuned, hnone⟩ := start_tuned (P := P) hA hD
  refine throughout_of_along (I := fun s => s.Tuned P ∧ s.UpToDate P)
    (fun s hs => hs.1.mirrors hs.2) (fun s e he t hs hno ht => ?_) ⟨htuned, ?_⟩ hsees
  · obtain ⟨-, rfl⟩ := step_some ht
    exact after_tuned hs.1 hs.2 (hes e he) hno
  · intro b n c _ hn
    rw [hnone] at hn
    cases hn

section OneBuddy

open IM Accounts Runs

/-- One buddy, of the first account. -/
def carol : PurpleData where
  buddies a := if a = 0 then [0] else []

def carolPurple : Purple := { World.noPurple with buddyName := fun _ => str "carol" }

theorem mirrors_one : Throughout (IM.step carolPurple id) IM.Mirrors
    (IM.start carolPurple twoAccounts carol)
    [.connected 0, .presence 0 .available, .disconnected 0 [], .buddyRemoved 0] := by
  have hstored : twoAccounts.Stored := ⟨by decide, by decide, by decide, by decide, by decide⟩
  have hcarol : ∀ a, ∀ b ∈ carol.buddies a, carolPurple.buddyAccount b = a := by
    intro a b hb
    change b ∈ (if a = 0 then [0] else []) at hb
    split at hb
    · next ha => exact ha.symm
    · cases hb
  refine mirrors_of_along hstored hcarol (fun e he => ?_)
    ⟨?_, fun _ _ => ⟨id, fun _ _ => ⟨id, fun _ _ => ⟨id, fun _ _ => trivial⟩⟩⟩⟩
  · simp only [List.mem_cons, List.not_mem_nil, or_false] at he
    rcases he with rfl | rfl | rfl | rfl <;> trivial
  · rintro ⟨-, -, b, -, hnick, -⟩
    rw [(start_tuned hstored hcarol).2 b] at hnick
    cases hnick

/-- Two accounts of different protocols that have the same ID. -/
def sameIds : Accounts where
  protocols := [{ purpleId := str "prpl-jabber" }, { purpleId := str "prpl-msn" }]
  all := [0, 1]
  next := 2
  alive := fun _ => true
  protocolId := fun a => if a = 0 then str "prpl-msn" else str "prpl-jabber"
  id := fun _ => str "jabber"
  channel := fun _ => str "&minbif"

/-- A buddy of the account that the other one hides keeps its VOICE. -/
theorem hidden_buddy_voiced : ¬ Throughout (IM.step carolPurple id) IM.Mirrors
    (IM.start carolPurple sameIds carol)
    [.connected 0, .presence 0 .available, .voicedBuddies false] := by
  intro h
  let es : List IM.Event := [.connected 0, .presence 0 .available, .voicedBuddies false]
  obtain ⟨t, ht⟩ := Option.isSome_iff_exists.mp (by decide +kernel :
    (run (IM.step carolPurple id) (IM.start carolPurple sameIds carol) es).isSome = true)
  have hdata : (run (IM.step carolPurple id) (IM.start carolPurple sameIds carol) es).map (fun t =>
      (t.accounts.connected 0, t.world.data.buddies 0, t.world.data.voicedBuddies)) =
        some (true, [0], false) := by decide +kernel
  have hnick : (run (IM.step carolPurple id) (IM.start carolPurple sameIds carol) es).map (fun t =>
      (t.world.getStatusChannel 0, t.world.nicks.buddyNick 0)) = some (some 0, some 3) := by
    decide +kernel
  have hvoice : (run (IM.step carolPurple id) (IM.start carolPurple sameIds carol) es).map (fun t =>
      (t.world.chans.getChanUser 3 0).map t.world.chans.cuStatus) = some (some statusVoice) := by
    decide +kernel
  rw [ht] at hdata hnick hvoice
  obtain ⟨hconn, hbuddies, hoff⟩ : t.accounts.connected 0 = true ∧ t.world.data.buddies 0 = [0] ∧
      t.world.data.voicedBuddies = false := by simpa using hdata
  obtain ⟨hchan, hnick⟩ : t.world.getStatusChannel 0 = some 0 ∧ t.world.nicks.buddyNick 0 = some 3 := by
    simpa using hnick
  obtain ⟨cu, hcu, hst⟩ := Option.map_eq_some_iff.mp (Option.some.inj hvoice)
  have hmem : 0 ∈ t.world.data.buddies 0 := by
    rw [hbuddies]
    exact List.mem_singleton.mpr rfl
  have hiff := (h.last ht 0 0 hconn hchan 0 hmem 3 hnick).2.2
  have hvoiced := (hiff.mp ⟨cu, hcu, by rw [hst]; decide⟩).2
  rw [hoff] at hvoiced
  cases hvoiced

end OneBuddy

end Minbif
