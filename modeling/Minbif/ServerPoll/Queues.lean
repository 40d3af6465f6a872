import Minbif.Lib.Runs
import Minbif.ServerPoll.DaemonFork
import Minbif.ServerPoll.Messages

/-! What the master wrote to each child, over whole runs. -/
namespace Minbif
open Function Runs

namespace DaemonFork

/-- All that the master wrote to child `i`, in order. -/
def sentTo (d : DaemonFork) (i : Nat) : List Mail :=
  (d.child i).read.map Prod.fst ++ (d.child i).down

/-- All that child `c` wrote to the master, in order. -/
def written (d : DaemonFork) (c : Nat) : List Message :=
  (d.processed.filter (·.src == c)).map Request.raw ++ (d.child c).up

/-- Every message was read once, and answered by what its handler sends to those attached then. -/
structure History (d : DaemonFork) : Prop where
  nodup : (d.childs.map ChildT.id).Nodup
  bound : ∀ t ∈ d.childs, t.id < d.forked
  fresh : ∀ i, d.forked ≤ i → d.child i = {}
  src : ∀ r ∈ d.processed, r.present r.src = true
  seen : ∀ r ∈ d.processed, ∀ i, r.present i = true → i < d.forked
  no : ∀ r ∈ d.processed, r.no < d.taken r.src
  distinct : (d.processed.map fun r => (r.src, r.no)).Nodup
  received : ∀ r ∈ d.processed, r.received = ipcDispatch (IpcSocket.line r.raw)
  sent : ∀ i, (d.sentTo i).filter (·.origin != .sighup) = d.processed.flatMap (·.mails i)
  acts : ∀ i, ∀ x ∈ (d.child i).read, x.2 = childActs x.1.msg

/-- What one event does. -/
inductive Moves (d : DaemonFork) : Event → DaemonFork → Prop
  | fork : Moves d .fork { d with forked := d.forked + 1, childs := d.childs ++ [⟨d.forked, []⟩] }
  | leave {c} (hc : d.attached c = true) :
    Moves d (.leave c) { d with childs := d.childs.filter (·.id != c) }
  | register {c nick} (hc : d.attached c = true) (hreg : (d.child c).registered = false)
    (hnick : isValidNickname nick = true) :
    Moves d (.register c nick) ((d.setChild c
      { d.child c with nickname := nick, registered := true }).childSend c
        { cmd := str "USER", args := [nick] })
  | oper {c} (hc : d.attached c = true) (hreg : (d.child c).registered = true) :
    Moves d (.oper c) ((d.setChild c { d.child c with oper := true }).childSend c
      { cmd := str "OPER", args := [(d.child c).nickname] })
  | command {c cmd} (hc : d.attached c = true) (hoper : (d.child c).oper = true)
    (hcmd : cmd ≠ .rehash) :
    Moves d (.command c cmd) (d.childSend c (cmd.message (d.child c).nickname))
  | rehash {c} (hc : d.attached c = true) (hoper : (d.child c).oper = true) :
    Moves d (.command c .rehash) (d.setChild c { d.child c with
      issued := (d.child c).issued ++ [OperCmd.rehash.message (d.child c).nickname] })
  | toMaster {c m rest d'} (hc : d.attached c = true) (hup : (d.child c).up = m :: rest)
    (hr : Reads d d' c rest ⟨c, d.taken c, m, ipcDispatch (IpcSocket.line m), d.childs⟩) :
    Moves d (.toMaster c) d'
  | toChild {c mail rest} (hc : d.attached c = true) (hdown : (d.child c).down = mail :: rest) :
    Moves d (.toChild c) (d.readDown c mail rest)
  /-- The first message is too long for a peek. -/
  | blocked {e} : Moves d e d
  | sighup {d' mails} (hs : Sends d d' mails) (hmails : ∀ i, ∀ x ∈ mails i,
      x = ⟨.sighup, { cmd := str "REHASH" }⟩ ∧ i < d.forked) : Moves d .sighup d'

variable {d d' : DaemonFork} {e : Event} {es : List Event} {c i : Nat} {m : Message} {mail : Mail}
  {rest : List Message} {r : Request} {x : Child} {mails : Nat → List Mail} {rest' : List Mail}

theorem attached_iff : d.attached c = true ↔ ∃ t ∈ d.childs, t.id = c := by
  simp [attached]

theorem mails_origin (h : mail ∈ r.mails i) :
    mail.origin = .relay r.src r.no ∨ mail.origin = .location r.src r.no := by
  unfold Request.mails at h
  split at h
  · cases h
  all_goals
    split at h
    · obtain rfl := List.mem_singleton.mp h
      simp
    · cases h

theorem mails_present (h : r.present i = false) : r.mails i = [] := by
  unfold Request.mails
  split
  · rfl
  · rw [h]; rfl
  · rw [h]; rfl
  · rw [h]; rfl
  · rw [h]; rfl
  · next m _ =>
    have hno : (r.childs.any fun t =>
        t.id == i && (t.id != r.src && sameName t.username (arg m 0))) = false := by
      rw [List.any_eq_false]
      intro t ht hboth
      simp only [Request.present, List.any_eq_false] at h
      simp only [Bool.and_eq_true] at hboth
      exact h t ht hboth.1
    rw [hno]
    rfl

/-- The handler that a well-formed message reaches. -/
theorem handled_line {f : IpcCmd} {l : List Str} (hraw : r.raw = { cmd := f.name, args := l })
    (hl : Message.Middle l) (hr : r.received = ipcDispatch (IpcSocket.line r.raw)) :
    r.handled = if (Message.readBack l).length < f.minArgs then none
      else some (f, { cmd := f.name, args := Message.readBack l }) := by
  rw [hraw, ipcDispatch_line f hl] at hr
  unfold Request.handled
  rw [hr]
  by_cases hlt : (Message.readBack l).length < f.minArgs
  · rw [if_pos hlt, if_pos hlt]
  · rw [if_neg hlt, if_neg hlt]

theorem initial_history : History {} where
  nodup := .nil
  bound := fun _ h => absurd h List.not_mem_nil
  fresh := fun _ _ => rfl
  src := fun _ h => absurd h List.not_mem_nil
  seen := fun _ h => absurd h List.not_mem_nil
  no := fun _ h => absurd h List.not_mem_nil
  distinct := .nil
  received := fun _ h => absurd h List.not_mem_nil
  sent := fun _ => rfl
  acts := fun _ _ h => absurd h List.not_mem_nil

/-- A change of one child that leaves its mail alone. -/
theorem History.setChild (h : History d) (hc : c < d.forked) (hread : x.read = (d.child c).read)
    (hdown : x.down = (d.child c).down) : History (d.setChild c x) := by
  have hchild : ∀ i, ((d.setChild c x).child i).read = (d.child i).read ∧
      ((d.setChild c x).child i).down = (d.child i).down := by
    intro i
    by_cases hi : i = c
    · subst hi
      simp [DaemonFork.setChild, hread, hdown]
    · simp [DaemonFork.setChild, hi]
  exact {
    nodup := h.nodup
    bound := h.bound
    fresh := fun i hi => by
      have hne : i ≠ c := fun heq => absurd hc (Nat.not_lt.mpr (heq ▸ hi))
      exact (update_of_ne hne x d.child).trans (h.fresh i hi)
    src := h.src
    seen := h.seen
    no := h.no
    distinct := h.distinct
    received := h.received
    sent := fun i => by
      have heq : (d.setChild c x).sentTo i = d.sentTo i := by
        unfold sentTo
        rw [(hchild i).1, (hchild i).2]
      rw [heq]
      exact h.sent i
    acts := fun i => (hchild i).1 ▸ h.acts i }

theorem History.childSend (h : History d) (hc : c < d.forked) (m : Message) :
    History (d.childSend c m) :=
  h.setChild hc rfl rfl

theorem sends_sentTo (h : Sends d d' mails) (i : Nat) :
    d'.sentTo i = d.sentTo i ++ mails i := by
  simp [sentTo, h.child i]

theorem reads_sentTo (h : Reads d d' c rest r) (i : Nat) :
    d'.sentTo i = d.sentTo i ++ r.mails i := by
  by_cases hi : i = c
  · subst hi
    simp [sentTo, h.child i]
  · simp [sentTo, h.child i, hi]

theorem readDown_sentTo (hdown : (d.child c).down = mail :: rest') (i : Nat) :
    (d.readDown c mail rest').sentTo i = d.sentTo i := by
  by_cases hi : i = c
  · subst hi
    simp [sentTo, readDown, DaemonFork.setChild, hdown]
  · simp [sentTo, readDown, DaemonFork.setChild, hi]

theorem childsAfter_ids (r : Request) :
    r.childsAfter.map ChildT.id = r.childs.map ChildT.id := by
  unfold Request.childsAfter
  split
  · exact map_rename_id
  · rfl

theorem childsAfter_mem {t : ChildT} (h : t ∈ r.childsAfter) : ∃ u ∈ r.childs, u.id = t.id := by
  have : t.id ∈ r.childs.map ChildT.id := childsAfter_ids r ▸ List.mem_map_of_mem h
  simpa using this

theorem History.fork (h : History d) :
    History { d with forked := d.forked + 1, childs := d.childs ++ [⟨d.forked, []⟩] } where
  nodup := by
    rw [List.map_append, List.nodup_append]
    refine ⟨h.nodup, by simp, ?_⟩
    intro a ha b hb
    obtain ⟨t, ht, rfl⟩ := List.mem_map.mp ha
    have hb : b = d.forked := by simpa using hb
    have := h.bound t ht
    omega
  bound := by
    intro t ht
    rcases List.mem_append.mp ht with ht | ht
    · exact Nat.lt_succ_of_lt (h.bound t ht)
    · obtain rfl := List.mem_singleton.mp ht
      exact Nat.lt_succ_self d.forked
  fresh := fun i hi => h.fresh i (Nat.le_of_succ_le hi)
  src := h.src
  seen := fun r hr i hi => Nat.lt_succ_of_lt (h.seen r hr i hi)
  no := h.no
  distinct := h.distinct
  received := h.received
  sent := h.sent
  acts := h.acts

theorem History.leave (h : History d) (p : ChildT → Bool) :
    History { d with childs := d.childs.filter p } where
  nodup := h.nodup.sublist (List.filter_sublist.map _)
  bound := fun t ht => h.bound t (List.mem_filter.mp ht).1
  fresh := h.fresh
  src := h.src
  seen := h.seen
  no := h.no
  distinct := h.distinct
  received := h.received
  sent := h.sent
  acts := h.acts

theorem History.sighup (h : History d) (hs : Sends d d' mails)
    (hmails : ∀ i, ∀ x ∈ mails i, x.origin = .sighup ∧ i < d.forked) : History d' where
  nodup := hs.childs ▸ h.nodup
  bound := by
    rw [hs.childs, hs.forked]
    exact h.bound
  fresh := fun i hi => by
    rw [hs.forked] at hi
    have hnone : mails i = [] := by
      apply List.eq_nil_iff_forall_not_mem.mpr
      intro x hx
      have := (hmails i x hx).2
      omega
    rw [hs.child i, hnone, h.fresh i hi]
    rfl
  src := hs.processed ▸ h.src
  seen := by
    rw [hs.processed, hs.forked]
    exact h.seen
  no := by
    rw [hs.processed, hs.taken]
    exact h.no
  distinct := hs.processed ▸ h.distinct
  received := hs.processed ▸ h.received
  sent := fun i => by
    have hnone : (mails i).filter (·.origin != .sighup) = [] := by
      rw [List.filter_eq_nil_iff]
      intro x hx
      simp [(hmails i x hx).1]
    rw [sends_sentTo hs, List.filter_append, hnone, List.append_nil, hs.processed]
    exact h.sent i
  acts := fun i => by
    rw [hs.child i]
    exact h.acts i

theorem History.reads (h : History d) (hr : Reads d d' c rest r) (hc : d.attached c = true)
    (hsrc : r.src = c) (hno : r.no = d.taken c) (hchilds : r.childs = d.childs)
    (hreceived : r.received = ipcDispatch (IpcSocket.line r.raw)) : History d' where
  nodup := by
    rw [hr.childs, childsAfter_ids, hchilds]
    exact h.nodup
  bound := by
    intro t ht
    rw [hr.childs] at ht
    obtain ⟨u, hu, hid⟩ := childsAfter_mem ht
    rw [hr.forked, ← hid]
    exact h.bound u (hchilds ▸ hu)
  fresh := fun i hi => by
    rw [hr.forked] at hi
    obtain ⟨t, ht, hid⟩ := attached_iff.mp hc
    have hlt := h.bound t ht
    have hne : i ≠ c := by omega
    have hpresent : r.present i = false := by
      rw [Request.present, List.any_eq_false]
      intro u hu hboth
      have := h.bound u (hchilds ▸ hu)
      have heq : u.id = i := beq_iff_eq.mp hboth
      omega
    rw [hr.child i, mails_present hpresent, update_of_ne hne, h.fresh i hi]
    rfl
  src := by
    rw [hr.processed]
    intro q hq
    rcases List.mem_append.mp hq with hq | hq
    · exact h.src q hq
    · obtain rfl := List.mem_singleton.mp hq
      obtain ⟨t, ht, hid⟩ := attached_iff.mp hc
      rw [Request.present, List.any_eq_true]
      exact ⟨t, hchilds ▸ ht, by simp [hid, hsrc]⟩
  seen := by
    rw [hr.processed, hr.forked]
    intro q hq i hi
    rcases List.mem_append.mp hq with hq | hq
    · exact h.seen q hq i hi
    · obtain rfl := List.mem_singleton.mp hq
      obtain ⟨u, hu, hid⟩ := List.any_eq_true.mp hi
      exact beq_iff_eq.mp hid ▸ h.bound u (hchilds ▸ hu)
  no := by
    rw [hr.processed, hr.taken]
    intro q hq
    rcases List.mem_append.mp hq with hq | hq
    · have := h.no q hq
      by_cases hqc : q.src = c
      · rw [hqc] at this ⊢
        rw [update_self]
        omega
      · rw [update_of_ne hqc]
        exact this
    · obtain rfl := List.mem_singleton.mp hq
      rw [hsrc, update_self, hno]
      omega
  distinct := by
    rw [hr.processed, List.map_append, List.nodup_append]
    refine ⟨h.distinct, by simp, ?_⟩
    intro a ha b hb
    obtain ⟨q, hq, rfl⟩ := List.mem_map.mp ha
    have hb : b = (r.src, r.no) := by simpa using hb
    intro heq
    have hpair := Prod.mk.inj (heq.trans hb)
    have := h.no q hq
    rw [hpair.1, hpair.2, hsrc, hno] at this
    exact absurd this (Nat.lt_irrefl _)
  received := by
    rw [hr.processed]
    intro q hq
    rcases List.mem_append.mp hq with hq | hq
    · exact h.received q hq
    · exact List.mem_singleton.mp hq ▸ hreceived
  sent := fun i => by
    have hkeep : (r.mails i).filter (·.origin != .sighup) = r.mails i := by
      rw [List.filter_eq_self]
      intro x hx
      rcases mails_origin hx with ho | ho <;> simp [ho]
    rw [reads_sentTo hr, List.filter_append, hkeep, hr.processed, List.flatMap_append, h.sent i]
    simp
  acts := fun i => by
    rw [hr.child i]
    by_cases hi : i = c
    · subst hi
      simpa using h.acts i
    · simpa [hi] using h.acts i

theorem History.readDown (h : History d) (hc : d.attached c = true)
    (hdown : (d.child c).down = mail :: rest') : History (d.readDown c mail rest') where
  nodup := h.nodup
  bound := h.bound
  fresh := fun i hi => by
    obtain ⟨t, ht, hid⟩ := attached_iff.mp hc
    have hlt := h.bound t ht
    have hne : i ≠ c := by
      have : d.forked ≤ i := hi
      omega
    exact (update_of_ne hne _ d.child).trans (h.fresh i hi)
  src := h.src
  seen := h.seen
  no := h.no
  distinct := h.distinct
  received := h.received
  sent := fun i => by
    rw [readDown_sentTo hdown]
    exact h.sent i
  acts := fun i => by
    by_cases hi : i = c
    · subst hi
      intro x hx
      simp only [DaemonFork.readDown, DaemonFork.setChild, update_self] at hx
      rcases List.mem_append.mp hx with hx | hx
      · exact h.acts i x hx
      · obtain rfl := List.mem_singleton.mp hx
        rfl
    · simpa [DaemonFork.readDown, DaemonFork.setChild, hi] using h.acts i

theorem step_moves (h : History d) (hs : d.step e = some d') : Moves d e d' := by
  cases e with
  | fork =>
    obtain rfl := Option.some.inj hs
    exact .fork
  | leave c =>
    simp only [step] at hs
    split at hs
    · next hc =>
      obtain rfl := Option.some.inj hs
      exact .leave hc
    · cases hs
  | register c nick =>
    simp only [step, Bool.and_eq_true, Bool.not_eq_true'] at hs
    split at hs
    · next hg =>
      obtain rfl := Option.some.inj hs
      exact .register hg.1.1 hg.1.2 hg.2
    · cases hs
  | oper c =>
    simp only [step, Bool.and_eq_true, Bool.not_eq_true'] at hs
    split at hs
    · next hg =>
      obtain rfl := Option.some.inj hs
      exact .oper hg.1.1 hg.1.2
    · cases hs
  | command c cmd =>
    simp only [step, Bool.and_eq_true] at hs
    split at hs
    · next hg =>
      cases cmd with
      | wallops text => exact Option.some.inj hs ▸ .command hg.1 hg.2 nofun
      | die text => exact Option.some.inj hs ▸ .command hg.1 hg.2 nofun
      | rehash => exact Option.some.inj hs ▸ .rehash hg.1 hg.2
    · cases hs
  | toMaster c =>
    simp only [step] at hs
    split at hs
    · next hc =>
      split at hs
      · cases hs
      · next m rest hup =>
        split at hs
        · exact Option.some.inj hs ▸ .toMaster hc hup (readUp_reads h.nodup)
        · exact Option.some.inj hs ▸ .blocked
    · cases hs
  | toChild c =>
    simp only [step] at hs
    split at hs
    · next hc =>
      split at hs
      · cases hs
      · next mail rest hdown =>
        split at hs
        · exact Option.some.inj hs ▸ .toChild hc hdown
        · exact Option.some.inj hs ▸ .blocked
    · cases hs
  | sighup =>
    obtain rfl := Option.some.inj hs
    refine .sighup (sendSome_sends h.nodup _ _) fun i x hx => ?_
    split at hx
    · next hany =>
      obtain ⟨t, ht, hid⟩ := List.any_eq_true.mp hany
      simp only [Bool.and_eq_true, beq_iff_eq] at hid
      exact ⟨List.mem_singleton.mp hx, hid.1 ▸ h.bound t ht⟩
    · cases hx

theorem history_moves (h : History d) (hm : Moves d e d') : History d' := by
  have hlt : ∀ c, d.attached c = true → c < d.forked := by
    intro c hc
    obtain ⟨t, ht, hid⟩ := attached_iff.mp hc
    exact hid ▸ h.bound t ht
  cases hm with
  | fork => exact h.fork
  | leave hc => exact h.leave _
  | register hc _ _ =>
    refine History.childSend ?_ ?_ _
    · exact h.setChild (hlt _ hc) (by rfl) (by rfl)
    · exact hlt _ hc
  | oper hc _ =>
    refine History.childSend ?_ ?_ _
    · exact h.setChild (hlt _ hc) (by rfl) (by rfl)
    · exact hlt _ hc
  | command hc _ _ => exact h.childSend (hlt _ hc) _
  | rehash hc _ => exact h.setChild (hlt _ hc) rfl rfl
  | toMaster hc _ hr => exact h.reads hr hc rfl rfl rfl rfl
  | toChild hc hdown => exact h.readDown hc hdown
  | blocked => exact h
  | sighup hs hmails => exact h.sighup hs fun i x hx => ⟨by simp [(hmails i x hx).1], (hmails i x hx).2⟩

theorem run_history (hr : run step {} es = some d) : History d :=
  run_invariant (I := fun _ d => History d)
    (fun _ _ _ _ h hs => history_moves h (step_moves h hs)) initial_history hr

end DaemonFork
end Minbif
