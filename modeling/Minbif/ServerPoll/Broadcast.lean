import Minbif.ServerPoll.Carried

/-! Operator commands in daemon-fork mode: which of them reach every instance. -/
namespace Minbif
open Function Runs Message

namespace DaemonFork

/-- The messages of WALLOPS and DIE go to all children, the sender included. -/
def toAll (f : IpcCmd) : Bool := f == .wallops || f == .die

/-- Every command of an operator reaches every instance. -/
structure Reaches (d : DaemonFork) : Prop where
  /-- What an operator asked for was written to the master once, and a child writes nothing else. -/
  issued : ∀ c, (d.child c).issued = d.written c
  /-- The master reads a message once. -/
  distinct : (d.processed.map fun r => (r.src, r.no)).Nodup
  /-- It calls the handler of the command, with the sender among its children. -/
  handled : ∀ r ∈ d.processed, r.present r.src = true ∧
    ∃ f m, r.raw.cmd = f.name ∧ r.handled = some (f, m)
  /-- Each child attached then gets a WALLOPS or DIE once: it has handled it, or will read it. -/
  once : ∀ r ∈ d.processed, ∀ f m, r.handled = some (f, m) → toAll f = true → ∀ i,
    (d.child i).read.countP (·.1.origin == .relay r.src r.no) +
      (d.child i).down.countP (·.origin == .relay r.src r.no) = if r.present i then 1 else 0
  /-- What a child does with it is what its handler says. -/
  acts : ∀ r ∈ d.processed, ∀ f m, r.handled = some (f, m) → toAll f = true → ∀ i,
    ∀ x ∈ (d.child i).read, x.1.origin = .relay r.src r.no → x.2 = ipcHandle none true m f
  /-- The master relays only what it has read, and nothing twice to one child. -/
  relayed : ∀ i c k, (d.sentTo i).countP (·.origin == .relay c k) ≤
    d.processed.countP fun r => r.src == c && r.no == k
  /-- The master shuts down too. -/
  master : ∀ r ∈ d.processed, ∀ m, r.handled = some (.die, m) → d.quitting = true
  /-- No socket is blocked by a message too long for a peek. -/
  flows : ∀ i, (∀ m ∈ (d.child i).up, m.format.length ≤ IpcSocket.peekMax) ∧
    ∀ mail ∈ (d.child i).down, mail.msg.format.length ≤ IpcSocket.peekMax

/-- A command that the IPC channel carries: not REHASH, and its text is not lost on the way. -/
def Proper (d : DaemonFork) : Event → Prop
  | .command c cmd =>
    match cmd with
    | .rehash => False
    | .wallops text | .die text => text ≠ [] ∧ text ≠ [' '] ∧
      (cmd.message (d.child c).nickname).format.length ≤ IpcSocket.peekMax
  | _ => True

instance (d : DaemonFork) : DecidablePred d.Proper := fun e => by
  cases e with
  | command c cmd => cases cmd <;> dsimp only [Proper] <;> infer_instance
  | _ => dsimp only [Proper]; infer_instance

/-- What holds along the runs of proper commands. -/
structure Carrying (d : DaemonFork) : Prop where
  issued : ∀ c, (d.child c).issued = d.written c
  written : ∀ c, ∀ m ∈ d.written c, ∃ f, f ≠ .rehash ∧ Carried f m
  sent : ∀ i, ∀ mail ∈ d.sentTo i, ∃ f, Carried f mail.msg
  master : ∀ r ∈ d.processed, ∀ m, r.handled = some (.die, m) → d.quitting = true

variable {d d' : DaemonFork} {e : Event} {es : List Event} {c i k : Nat} {m : Message} {mail : Mail}
  {r : Request} {rest : List Message}

theorem initial_carrying : Carrying {} where
  issued := fun _ => rfl
  written := nofun
  sent := nofun
  master := nofun

/-- Of what a list of keyed things yields, the part of one key. -/
theorem filter_flatMap_key {α β κ : Type} {key : α → κ} {f : α → List β} {p : β → Bool}
    {l : List α} {a : α} (hl : (l.map key).Nodup) (ha : a ∈ l)
    (hothers : ∀ b, key b ≠ key a → (f b).filter p = []) :
    (l.flatMap f).filter p = (f a).filter p := by
  induction l with
  | nil => cases ha
  | cons b l ih =>
    obtain ⟨hb, hl⟩ := List.nodup_cons.mp hl
    rw [List.flatMap_cons, List.filter_append]
    rcases List.mem_cons.mp ha with rfl | ha
    · have hnone : (l.flatMap f).filter p = [] := by
        rw [List.filter_flatMap, List.flatMap_eq_nil_iff]
        intro c hc
        exact hothers c fun heq => hb (List.mem_map.mpr ⟨c, hc, heq⟩)
      rw [hnone, List.append_nil]
    · have hne : key b ≠ key a := fun heq => hb (List.mem_map.mpr ⟨a, ha, heq.symm⟩)
      rw [hothers b hne, List.nil_append]
      exact ih hl ha

theorem filter_relay (l : List Mail) (c k : Nat) :
    (l.filter (·.origin != .sighup)).filter (·.origin == .relay c k) =
      l.filter (·.origin == .relay c k) := by
  rw [List.filter_filter]
  apply List.filter_congr
  intro x _
  cases x.origin <;> simp

theorem mails_filter_other {a : Nat} (h : (r.src, r.no) ≠ (a, k)) (i : Nat) :
    (r.mails i).filter (·.origin == .relay a k) = [] := by
  rw [List.filter_eq_nil_iff]
  intro x hx
  rcases mails_origin hx with ho | ho
  · simpa [ho] using fun h1 h2 => h (by rw [h1, h2])
  · simp [ho]

/-- The mail of one message, among all that the master wrote. -/
theorem History.sent_filter (h : History d) (hr : r ∈ d.processed) (i : Nat) :
    (d.sentTo i).filter (·.origin == .relay r.src r.no) =
      (r.mails i).filter (·.origin == .relay r.src r.no) := by
  rw [← filter_relay, h.sent i]
  exact filter_flatMap_key h.distinct hr fun q hq => mails_filter_other hq i

theorem sent_countP (d : DaemonFork) (i : Nat) (o : Origin) :
    (d.child i).read.countP (·.1.origin == o) + (d.child i).down.countP (·.origin == o) =
      (d.sentTo i).countP (·.origin == o) := by
  rw [sentTo, List.countP_append, List.countP_map]
  rfl

theorem mails_length (r : Request) (i : Nat) : (r.mails i).length ≤ 1 := by
  unfold Request.mails
  split
  · exact Nat.zero_le 1
  all_goals split <;> simp

/-- A WALLOPS or DIE goes to all those attached. -/
theorem mails_toAll {f : IpcCmd} (h : r.handled = some (f, m)) (hf : toAll f = true) (i : Nat) :
    r.mails i = if r.present i then [⟨.relay r.src r.no, m⟩] else [] := by
  unfold Request.mails
  rw [h]
  cases f <;> first | rfl | cases hf

theorem History.relayed (h : History d) (i c k : Nat) :
    (d.sentTo i).countP (·.origin == .relay c k) ≤
      d.processed.countP fun r => r.src == c && r.no == k := by
  rw [List.countP_eq_length_filter, ← filter_relay, h.sent i]
  by_cases hex : ∃ r ∈ d.processed, r.src = c ∧ r.no = k
  · obtain ⟨r, hr, rfl, rfl⟩ := hex
    have hone := filter_flatMap_key h.distinct hr fun q hq => mails_filter_other hq i
    have hpos : 0 < d.processed.countP fun q => q.src == r.src && q.no == r.no :=
      List.countP_pos_iff.mpr ⟨r, hr, by simp⟩
    have hle := List.length_filter_le (fun x : Mail => x.origin == .relay r.src r.no) (r.mails i)
    have hlen := mails_length r i
    rw [hone]
    omega
  · have hnone : (d.processed.flatMap (·.mails i)).filter (·.origin == .relay c k) = [] := by
      rw [List.filter_flatMap, List.flatMap_eq_nil_iff]
      intro q hq
      exact mails_filter_other (fun heq => hex ⟨q, hq, Prod.mk.inj heq⟩) i
    rw [hnone]
    exact Nat.zero_le _

theorem handled_carried {f : IpcCmd} (hraw : Carried f r.raw)
    (hr : r.received = ipcDispatch (IpcSocket.line r.raw)) : r.handled = some (f, back r.raw) := by
  rw [hraw.dispatch.1] at hr
  simp [Request.handled, hr]

theorem mem_mails (h : mail ∈ r.mails i) : (∃ f, r.handled = some (f, mail.msg)) ∨
    mail.msg = { cmd := IpcCmd.rehash.name } ∨
    ∃ u, r.announces = some u ∧ mail.msg = dieMessage u := by
  unfold Request.mails at h
  unfold Request.announces
  split at h
  · cases h
  · next m hh =>
    split at h
    · obtain rfl := List.mem_singleton.mp h
      exact .inl ⟨_, hh⟩
    · cases h
  · next m hh =>
    split at h
    · obtain rfl := List.mem_singleton.mp h
      exact .inl ⟨_, hh⟩
    · cases h
  · split at h
    · obtain rfl := List.mem_singleton.mp h
      exact .inr (.inl rfl)
    · cases h
  · next m hh =>
    split at h
    · obtain rfl := List.mem_singleton.mp h
      exact .inl ⟨_, hh⟩
    · cases h
  · next m hh =>
    split at h
    · obtain rfl := List.mem_singleton.mp h
      rw [hh]
      exact .inr (.inr ⟨_, rfl, rfl⟩)
    · cases h

/-- A child writes what its user asked for. -/
theorem Carrying.write {x : Child} (h : Carrying d) (hup : x.up = (d.child c).up ++ [m])
    (hissued : x.issued = (d.child c).issued ++ [m]) (hread : x.read = (d.child c).read)
    (hdown : x.down = (d.child c).down) (hm : ∃ f, f ≠ .rehash ∧ Carried f m) :
    Carrying (d.setChild c x) := by
  have hx : (d.setChild c x).child c = x := by simp [setChild]
  have hother : ∀ i, i ≠ c → (d.setChild c x).child i = d.child i := by
    intro i hi
    simp [setChild, hi]
  have hwritten : (d.setChild c x).written c = d.written c ++ [m] := by
    simp [DaemonFork.written, hup, setChild]
  refine ⟨fun i => ?_, fun i => ?_, fun i => ?_, h.master⟩
  · by_cases hi : i = c
    · subst hi
      rw [hwritten, hx, hissued, h.issued]
    · rw [DaemonFork.written, hother i hi]
      exact h.issued i
  · by_cases hi : i = c
    · subst hi
      intro q hq
      rw [hwritten] at hq
      rcases List.mem_append.mp hq with hq | hq
      · exact h.written i q hq
      · exact List.mem_singleton.mp hq ▸ hm
    · rw [DaemonFork.written, hother i hi]
      exact h.written i
  · have hsent : (d.setChild c x).sentTo i = d.sentTo i := by
      by_cases hi : i = c
      · subst hi
        simp [sentTo, hx, hread, hdown]
      · simp [sentTo, hother i hi]
    rw [hsent]
    exact h.sent i

theorem Carrying.reads (h : Carrying d) (hs : Sessions d) (hr : Reads d d' c rest r)
    (hsrc : r.src = c) (hup : (d.child c).up = r.raw :: rest)
    (hreceived : r.received = ipcDispatch (IpcSocket.line r.raw)) : Carrying d' := by
  have hmem : r.raw ∈ d.written c := by simp [DaemonFork.written, hup]
  obtain ⟨f, -, hcarried⟩ := h.written c r.raw hmem
  have hhandled := handled_carried hcarried hreceived
  refine ⟨fun i => ?_, fun i => ?_, fun i mail hmail => ?_, fun q hq m hm => ?_⟩
  · have hsame : (d'.child i).issued = (d.child i).issued := by
      rw [hr.child i]
      by_cases hi : i = c
      · subst hi
        simp
      · simp [hi]
    rw [hsame, reads_written hr hsrc hup]
    exact h.issued i
  · rw [reads_written hr hsrc hup]
    exact h.written i
  · rw [reads_sentTo hr] at hmail
    rcases List.mem_append.mp hmail with hmail | hmail
    · exact h.sent i mail hmail
    · rcases mem_mails hmail with ⟨g, hg⟩ | hrehash | ⟨u, hu, hdie⟩
      · have hmsg := Option.some.inj (hg.symm.trans hhandled)
        rw [(Prod.mk.inj hmsg).2]
        exact ⟨f, hcarried.dispatch.2.1⟩
      · exact ⟨.rehash, hrehash ▸ .rehash⟩
      · rcases fromChild_announces ((hs.client c).written _ hmem) hreceived with
          ⟨-, hnone⟩ | ⟨v, -, hvalid, hv⟩
        · rw [hnone] at hu
          cases hu
        · obtain rfl : v = u := Option.some.inj (hv.symm.trans hu)
          exact ⟨.die, hdie ▸ carried_dieMessage hvalid⟩
  · rw [hr.quitting]
    rw [hr.processed] at hq
    rcases List.mem_append.mp hq with hq | hq
    · simp [h.master q hq m hm]
    · obtain rfl := List.mem_singleton.mp hq
      simp [hm]

theorem Carrying.readDown {rest : List Mail} (h : Carrying d)
    (hdown : (d.child c).down = mail :: rest) : Carrying (d.readDown c mail rest) := by
  have hsame : ∀ i, ((d.readDown c mail rest).child i).issued = (d.child i).issued ∧
      ((d.readDown c mail rest).child i).up = (d.child i).up := by
    intro i
    by_cases hi : i = c
    · subst hi
      simp [DaemonFork.readDown, setChild]
    · simp [DaemonFork.readDown, setChild, hi]
  have hwritten : ∀ i, (d.readDown c mail rest).written i = d.written i := by
    intro i
    rw [DaemonFork.written, (hsame i).2]
    rfl
  refine ⟨fun i => ?_, fun i => ?_, fun i => ?_, h.master⟩
  · rw [(hsame i).1, hwritten]
    exact h.issued i
  · rw [hwritten]
    exact h.written i
  · rw [readDown_sentTo hdown]
    exact h.sent i

theorem Carrying.sighup {mails : Nat → List Mail} (h : Carrying d) (hs : Sends d d' mails)
    (hmails : ∀ i, ∀ x ∈ mails i, x.msg = { cmd := IpcCmd.rehash.name }) : Carrying d' := by
  have hwritten : ∀ i, d'.written i = d.written i := by
    intro i
    rw [DaemonFork.written, hs.processed, hs.child i]
    rfl
  refine ⟨fun i => ?_, fun i => ?_, fun i mail hmail => ?_, ?_⟩
  · rw [hwritten, hs.child i]
    exact h.issued i
  · rw [hwritten]
    exact h.written i
  · rw [sends_sentTo hs] at hmail
    rcases List.mem_append.mp hmail with hmail | hmail
    · exact h.sent i mail hmail
    · exact ⟨.rehash, hmails i mail hmail ▸ .rehash⟩
  · rw [hs.processed, hs.quitting]
    exact h.master

/-- The text of a proper command is not lost on the way. -/
theorem lastBack_full {text : Str} (h : text ≠ []) (hs : text ≠ [' ']) : lastBack text ≠ [] := by
  intro hnil
  by_cases heq : lastBack text = text
  · exact h (heq.symm.trans hnil)
  · have hspace : ∃ w, ' ' ∉ w ∧ text = w ++ [' '] := by
      by_contra hno
      exact heq (lastBack_eq_iff.mpr hno)
    obtain ⟨w, hw, rfl⟩ := hspace
    rw [lastBack_space hw] at hnil
    exact hs (by rw [hnil]; rfl)

theorem proper_carried {cmd : OperCmd} (hp : d.Proper (.command c cmd))
    (hnick : isValidNickname (d.child c).nickname = true) :
    ∃ f, f ≠ .rehash ∧ Carried f (cmd.message (d.child c).nickname) := by
  have hword := (valid_word hnick).1
  cases cmd with
  | wallops text =>
    exact ⟨.wallops, nofun, .pair rfl hword (lastBack_full hp.1 hp.2.1) hp.2.2⟩
  | die text => exact ⟨.die, nofun, .pair rfl hword (lastBack_full hp.1 hp.2.1) hp.2.2⟩
  | rehash => exact hp.elim

theorem carrying_moves (h : Carrying d) (hs : Sessions d) (hp : d.Proper e) (hm : Moves d e d') :
    Carrying d' := by
  cases hm with
  | fork => exact ⟨h.issued, h.written, h.sent, h.master⟩
  | leave hc => exact ⟨h.issued, h.written, h.sent, h.master⟩
  | @register c nick hc hreg hnick =>
    rw [setChild_childSend]
    exact h.write (m := { cmd := IpcCmd.user.name, args := [nick] }) rfl rfl rfl rfl
      ⟨.user, nofun, carried_word rfl hnick⟩
  | @oper c hc hreg =>
    rw [setChild_childSend]
    exact h.write (m := { cmd := IpcCmd.oper.name, args := [(d.child c).nickname] }) rfl rfl rfl rfl
      ⟨.oper, nofun, carried_word rfl ((hs.client c).nick hreg)⟩
  | @command c cmd hc hoper hcmd =>
    have hnick := (hs.client c).nick ((hs.client c).oper hoper)
    exact h.write rfl rfl rfl rfl (proper_carried hp hnick)
  | rehash hc hoper => exact hp.elim
  | toMaster hc hup hr => exact h.reads hs hr rfl hup rfl
  | toChild hc hdown => exact h.readDown hdown
  | blocked => exact h
  | sighup hsend hmails =>
    exact h.sighup hsend fun i x hx => by rw [(hmails i x hx).1]; rfl

theorem Carrying.raw (h : Carrying d) (hh : History d) (hr : r ∈ d.processed) :
    ∃ f, Carried f r.raw ∧ r.handled = some (f, back r.raw) := by
  have hmem : r.raw ∈ d.written r.src :=
    List.mem_append_left _ (List.mem_map_of_mem (List.mem_filter.mpr ⟨hr, by simp⟩))
  obtain ⟨f, -, hf⟩ := h.written r.src r.raw hmem
  exact ⟨f, hf, handled_carried hf (hh.received r hr)⟩

/-- A child that has read a relayed message has done what its handler says. -/
theorem Carrying.acts {f : IpcCmd} {x : Mail × List IpcAct} (h : Carrying d) (hh : History d)
    (hr : r ∈ d.processed) (hm : r.handled = some (f, m)) (hf : toAll f = true)
    (hx : x ∈ (d.child i).read) (ho : x.1.origin = .relay r.src r.no) :
    x.2 = ipcHandle none true m f := by
  have hsent : x.1 ∈ (d.sentTo i).filter (·.origin == .relay r.src r.no) :=
    List.mem_filter.mpr ⟨List.mem_append_left _ (List.mem_map_of_mem hx), by simp [ho]⟩
  rw [hh.sent_filter hr, mails_toAll hm hf] at hsent
  have hmail : x.1 = ⟨.relay r.src r.no, m⟩ := by
    have hin := (List.mem_filter.mp hsent).1
    split at hin
    · exact List.mem_singleton.mp hin
    · cases hin
  obtain ⟨g, hg, hhandled⟩ := h.raw hh hr
  have heq := Prod.mk.inj (Option.some.inj (hm.symm.trans hhandled))
  have hagain := hg.dispatch.2.1.dispatch.1
  rw [hg.dispatch.2.2] at hagain
  rw [hh.acts i x hx, hmail, heq.1, heq.2, childActs, hagain]

theorem carrying_reaches (h : Carrying d) (hh : History d) : Reaches d where
  issued := h.issued
  distinct := hh.distinct
  handled := fun r hr => by
    obtain ⟨f, hf, hhandled⟩ := h.raw hh hr
    refine ⟨hh.src r hr, f, back r.raw, ?_, hhandled⟩
    generalize r.raw = m at hf
    cases hf <;> rfl
  once := fun r hr f m hm hf i => by
    rw [sent_countP, List.countP_eq_length_filter, hh.sent_filter hr, mails_toAll hm hf]
    split <;> simp
  acts := fun r hr f m hm hf i x hx ho => h.acts hh hr hm hf hx ho
  relayed := fun i c k => hh.relayed i c k
  master := h.master
  flows := fun i => by
    refine ⟨fun m hm => ?_, fun mail hmail => ?_⟩
    · obtain ⟨f, -, hf⟩ := h.written i m (List.mem_append_right _ hm)
      exact hf.short
    · obtain ⟨f, hf⟩ := h.sent i mail (List.mem_append_right _ hmail)
      exact hf.short

/-- Along the runs in which no child is asked to rehash, and the text of each WALLOPS and DIE fits
in a peek and is not empty, every command reaches every instance. -/
theorem run_reaches (hp : Along step Proper {} es) (hr : run step {} es = some d) : Reaches d := by
  have h := run_keeps (I := fun _ d => History d ∧ Sessions d ∧ Carrying d)
    (fun _ _ _ _ h hp hs =>
      have hm := step_moves h.1 hs
      ⟨history_moves h.1 hm, sessions_moves h.2.1 h.1 hm, carrying_moves h.2.2 h.2.1 hp hm⟩)
    ⟨initial_history, initial_sessions, initial_carrying⟩ hp hr
  exact carrying_reaches h.2.2 h.1

theorem run_reaches_wallops : ∃ d, run step {} [.fork, .fork, .register 1 ['b'], .oper 1,
    .command 1 (.wallops ['h', 'i']), .toMaster 1, .toMaster 1, .toMaster 1, .toChild 0] = some d ∧
      Reaches d :=
  ⟨_, rfl, @run_reaches _ [.fork, .fork, .register 1 ['b'], .oper 1,
    .command 1 (.wallops ['h', 'i']), .toMaster 1, .toMaster 1, .toMaster 1, .toChild 0]
    (by decide) rfl⟩

/-- REHASH stays in the child that is asked for it. -/
theorem run_rehash_stays : ¬ ∀ es d, run step {} es = some d → Reaches d := by
  intro h
  have hreach := h [.fork, .fork, .register 1 ['b'], .toMaster 1, .oper 1, .toMaster 1,
    .command 1 .rehash] _ rfl
  exact absurd (hreach.issued 1) (by decide)

end DaemonFork
end Minbif
