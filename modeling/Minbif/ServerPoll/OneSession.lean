import Mathlib.Data.List.Count
import Minbif.ServerPoll.Messages
import Minbif.ServerPoll.Queues

/-! One session per user: the announcements that the master processes, and whom it sends DIE. -/
namespace Minbif
open Function Runs Message

namespace DaemonFork

def isUser (m : Message) : Bool := m.cmd == IpcCmd.user.name

/-- The announcements the master has processed, in order: child and username. -/
def announced (d : DaemonFork) : List (Nat × Str) :=
  d.processed.filterMap fun r => r.announces.map (r.src, ·)

/-- Child `i` was sent the DIE that announcement `k` of child `c` asks for. -/
def SentDie (d : DaemonFork) (i c k : Nat) : Prop :=
  ∃ name, ⟨.location c k, dieMessage name⟩ ∈ d.sentTo i

/-- A later announcement named the same user. -/
def Superseded (ann : List (Nat × Str)) (i : Nat) : Prop :=
  ∃ l v later, ann = l ++ (i, v) :: later ∧ ∃ x ∈ later, sameName v x.2 = true

variable {d d' : DaemonFork} {e : Event} {es : List Event} {c i : Nat} {m : Message} {mail : Mail}
  {r : Request} {u v : Str} {ann : List (Nat × Str)} {y : Nat × Str}

theorem sameName_iff : sameName u v = true ↔ strlower u = strlower v := by
  simp [sameName]

theorem sameName_nil (h : sameName [] u = true) : u = [] := by
  have := (sameName_iff.mp h).symm
  simpa [strlower] using this

/-- Only an announcement is taken for one. -/
theorem fromChild_announces (hm : FromChild r.raw)
    (hr : r.received = ipcDispatch (IpcSocket.line r.raw)) :
    (isUser r.raw = false ∧ r.announces = none) ∨
      ∃ u, isUser r.raw = true ∧ isValidNickname u = true ∧ r.announces = some u := by
  generalize hraw : r.raw = m at hm
  unfold Request.announces
  cases hm with
  | @user nick h =>
    have hw := (valid_word h).1
    rw [handled_line hraw middle_singleton hr, readBack_word hw]
    exact .inr ⟨nick, by simp [isUser], h, rfl⟩
  | @oper nick h =>
    rw [handled_line hraw middle_singleton hr, readBack_word (valid_word h).1]
    exact .inl ⟨rfl, rfl⟩
  | @wallops nick h text =>
    rw [handled_line hraw (by simp [hasSpace_false, (valid_word h).1.noSpace]) hr]
    refine .inl ⟨rfl, ?_⟩
    split
    · next hif =>
      split at hif <;> cases hif
    · rfl
  | @die nick h text =>
    rw [handled_line hraw (by simp [hasSpace_false, (valid_word h).1.noSpace]) hr]
    refine .inl ⟨rfl, ?_⟩
    split
    · next hif =>
      split at hif <;> cases hif
    · rfl

theorem superseded_concat :
    Superseded (ann ++ [y]) i ↔ Superseded ann i ∨ ∃ v, (i, v) ∈ ann ∧ sameName v y.2 = true := by
  constructor
  · rintro ⟨l, v, later, heq, x, hx, hsame⟩
    rcases List.eq_nil_or_concat later with rfl | ⟨later, z, rfl⟩
    · cases hx
    · rw [List.concat_eq_append, ← List.cons_append, ← List.append_assoc] at heq
      obtain ⟨hann, hz⟩ := List.append_inj' heq rfl
      obtain rfl : y = z := by simpa using hz
      rw [List.concat_eq_append] at hx
      rcases List.mem_append.mp hx with hx | hx
      · exact .inl ⟨l, v, later, hann, x, hx, hsame⟩
      · obtain rfl := List.mem_singleton.mp hx
        exact .inr ⟨v, by simp [hann], hsame⟩
  · rintro (⟨l, v, later, rfl, x, hx, hsame⟩ | ⟨v, hv, hsame⟩)
    · exact ⟨l, v, later ++ [y], by simp, x, List.mem_append_left _ hx, hsame⟩
    · obtain ⟨l, later, rfl⟩ := List.append_of_mem hv
      exact ⟨l, v, later ++ [y], by simp, y, by simp, hsame⟩

/-- With one announcement each, a child is superseded when it is not the last of its name. -/
theorem superseded_iff (hnodup : (ann.map Prod.fst).Nodup) (hv : (i, v) ∈ ann)
    (hu : sameName v u = true) :
    ¬ Superseded ann i ↔ ((ann.filter (sameName ·.2 u)).getLast?).map Prod.fst = some i := by
  obtain ⟨l, later, rfl⟩ := List.append_of_mem hv
  have hnext : ∀ x ∈ later, x.1 ≠ i := by
    intro x hx hxi
    rw [List.map_append, List.map_cons] at hnodup
    have := (List.nodup_cons.mp (List.nodup_append.mp hnodup).2.1).1
    exact this (List.mem_map.mpr ⟨x, hx, hxi⟩)
  have hbefore : ∀ x ∈ l, x.1 ≠ i := by
    intro x hx hxi
    rw [List.map_append, List.map_cons] at hnodup
    exact (List.nodup_append.mp hnodup).2.2 x.1 (List.mem_map_of_mem hx) i (by simp) hxi
  have hsup : Superseded (l ++ (i, v) :: later) i ↔ ∃ x ∈ later, sameName x.2 u = true := by
    have hname : ∀ x : Nat × Str, sameName v x.2 = true ↔ sameName x.2 u = true := by
      intro x
      rw [sameName_iff, sameName_iff, ← sameName_iff.mp hu]
      exact eq_comm
    constructor
    · rintro ⟨l', w, later', heq, x, hx, hsame⟩
      have hinj := (List.append_cons_inj_of_notMem (fun hmem => hbefore (i, w) hmem rfl)
        (fun hmem => hnext (i, w) hmem rfl)).mp heq
      obtain ⟨rfl, hvw, rfl⟩ := hinj
      obtain rfl := (Prod.mk.inj hvw).2
      exact ⟨x, hx, (hname x).mp hsame⟩
    · rintro ⟨x, hx, hsame⟩
      exact ⟨l, v, later, rfl, x, hx, (hname x).mpr hsame⟩
  have hfilter : (l ++ (i, v) :: later).filter (sameName ·.2 u) =
      l.filter (sameName ·.2 u) ++ (i, v) :: later.filter (sameName ·.2 u) := by
    rw [List.filter_append]
    simp [hu]
  rw [hsup, hfilter]
  cases hlast : (later.filter (sameName ·.2 u)).getLast? with
  | none =>
    have hnil := List.getLast?_eq_none_iff.mp hlast
    have hno : ¬ ∃ x ∈ later, sameName x.2 u = true := by
      rintro ⟨x, hx, hsame⟩
      have hmem : x ∈ later.filter (sameName ·.2 u) := List.mem_filter.mpr ⟨hx, by simpa using hsame⟩
      rw [hnil] at hmem
      cases hmem
    simp [hnil, hno]
  | some x =>
    have hx := List.mem_filter.mp (List.mem_of_getLast? hlast)
    have hne := hnext x hx.1
    have hsome : ∃ x ∈ later, sameName x.2 u = true := ⟨x, hx.1, hx.2⟩
    have hget : (l.filter (sameName ·.2 u) ++ (i, v) :: later.filter (sameName ·.2 u)).getLast? =
        some x := by
      rw [List.getLast?_append, List.getLast?_cons, hlast]
      rfl
    simp [hget, hsome, hne]

/-- What is known of a child's own state, and of what it wrote. -/
structure Client (d : DaemonFork) (c : Nat) : Prop where
  nick : (d.child c).registered = true → isValidNickname (d.child c).nickname = true
  oper : (d.child c).oper = true → (d.child c).registered = true
  written : ∀ m ∈ d.written c, FromChild m
  /-- It announces its username once, when it registers. -/
  once : (d.child c).up.countP isUser + (d.announced.map Prod.fst).count c =
    if (d.child c).registered then 1 else 0

/-- What the announcements processed say of the entries of `childs` and of the DIE sent. -/
structure Sessions (d : DaemonFork) : Prop where
  client : ∀ c, d.Client c
  full : ∀ x ∈ d.announced, x.2 ≠ []
  username : ∀ t ∈ d.childs, (∀ u, (t.id, u) ∈ d.announced → t.username = u) ∧
    ((∀ u, (t.id, u) ∉ d.announced) → t.username = [])
  sent : ∀ i c k, d.SentDie i c k → Superseded d.announced i ∧ ∃ r ∈ d.processed,
    r.src = c ∧ r.no = k ∧ ∃ u v, r.announces = some u ∧ (i, v) ∈ d.announced ∧
      sameName v u = true
  served : ∀ t ∈ d.childs, Superseded d.announced t.id → ∃ c k, d.SentDie t.id c k

theorem initial_sessions : Sessions {} where
  client := fun _ => ⟨nofun, nofun, nofun, rfl⟩
  full := nofun
  username := nofun
  sent := fun _ _ _ ⟨_, h⟩ => nomatch h
  served := nofun

theorem Sessions.nodup (h : Sessions d) : (d.announced.map Prod.fst).Nodup := by
  rw [List.nodup_iff_count_le_one]
  intro c
  have := (h.client c).once
  split at this <;> omega

theorem Client.congr (h : d.Client c) (hp : d'.processed = d.processed)
    (hnick : (d'.child c).nickname = (d.child c).nickname)
    (hreg : (d'.child c).registered = (d.child c).registered)
    (hoper : (d'.child c).oper = (d.child c).oper) (hup : (d'.child c).up = (d.child c).up) :
    d'.Client c where
  nick := by
    rw [hreg, hnick]
    exact h.nick
  oper := by
    rw [hoper, hreg]
    exact h.oper
  written := by
    unfold DaemonFork.written
    rw [hp, hup]
    exact h.written
  once := by
    unfold announced
    rw [hp, hup, hreg]
    exact h.once

/-- A step that announces nothing to the master, and takes nothing from it. -/
theorem Sessions.frame (h : Sessions d) (hchilds : ∀ t ∈ d'.childs, t ∈ d.childs)
    (hp : d'.processed = d.processed) (hdie : ∀ i c k, d'.SentDie i c k ↔ d.SentDie i c k)
    (hclient : ∀ c, d'.Client c) : Sessions d' := by
  have hann : d'.announced = d.announced := by
    unfold announced
    rw [hp]
  refine ⟨hclient, hann ▸ h.full, fun t ht => hann ▸ h.username t (hchilds t ht), ?_, ?_⟩
  · intro i c k hd
    rw [hann, hp]
    exact h.sent i c k ((hdie i c k).mp hd)
  · intro t ht hs
    rw [hann] at hs
    obtain ⟨c, k, hd⟩ := h.served t (hchilds t ht) hs
    exact ⟨c, k, (hdie t.id c k).mpr hd⟩

/-- A child changes its own state, without a new message. -/
theorem Sessions.setChild {x : Child} (h : Sessions d) (hread : x.read = (d.child c).read)
    (hdown : x.down = (d.child c).down) (hclient : (d.setChild c x).Client c) :
    Sessions (d.setChild c x) := by
  refine h.frame (fun _ ht => ht) rfl (fun i a k => ?_) (fun i => ?_)
  · have hsent : (d.setChild c x).sentTo i = d.sentTo i := by
      by_cases hi : i = c
      · subst hi
        simp [sentTo, DaemonFork.setChild, hread, hdown]
      · simp [sentTo, DaemonFork.setChild, hi]
    simp [SentDie, hsent]
  · by_cases hi : i = c
    · exact hi ▸ hclient
    · have hsame : (d.setChild c x).child i = d.child i := by simp [DaemonFork.setChild, hi]
      exact (h.client i).congr rfl (by rw [hsame]) (by rw [hsame]) (by rw [hsame]) (by rw [hsame])

/-- A child writes one more message. -/
theorem Client.write {x : Child} (h : d.Client c)
    (hnick : x.registered = true → isValidNickname x.nickname = true)
    (hoper : x.oper = true → x.registered = true) (hup : x.up = (d.child c).up ++ [m])
    (hm : FromChild m) (honce : (if x.registered then 1 else 0) =
      (if (d.child c).registered then 1 else 0) + if isUser m then 1 else 0) :
    (d.setChild c x).Client c := by
  have hx : (d.setChild c x).child c = x := by simp [DaemonFork.setChild]
  refine ⟨by rwa [hx], by rwa [hx], fun q hq => ?_, ?_⟩
  · unfold DaemonFork.written at hq
    rw [hx, hup, ← List.append_assoc] at hq
    rcases List.mem_append.mp hq with hq | hq
    · exact h.written q hq
    · exact List.mem_singleton.mp hq ▸ hm
  · have hsame : (d.setChild c x).announced = d.announced := rfl
    rw [hx, hup, hsame, List.countP_append, honce, ← h.once, List.countP_singleton]
    omega

theorem announced_lt (h : History d) (hx : (c, u) ∈ d.announced) : c < d.forked := by
  obtain ⟨r, hr, ha⟩ := List.mem_filterMap.mp hx
  obtain ⟨v, -, hv⟩ := Option.map_eq_some_iff.mp ha
  exact (Prod.mk.inj hv).1 ▸ h.seen r hr r.src (h.src r hr)

theorem Superseded.mem (h : Superseded ann i) : ∃ v, (i, v) ∈ ann := by
  obtain ⟨l, v, later, rfl, -⟩ := h
  exact ⟨v, by simp⟩

theorem Sessions.fork (h : Sessions d) (hh : History d) :
    Sessions { d with forked := d.forked + 1, childs := d.childs ++ [⟨d.forked, []⟩] } where
  client := fun c => (h.client c).congr rfl rfl rfl rfl rfl
  full := h.full
  username := by
    intro t ht
    rcases List.mem_append.mp ht with ht | ht
    · exact h.username t ht
    · obtain rfl := List.mem_singleton.mp ht
      exact ⟨fun u hu => absurd (announced_lt hh hu) (Nat.lt_irrefl _), fun _ => rfl⟩
  sent := h.sent
  served := by
    intro t ht hs
    rcases List.mem_append.mp ht with ht | ht
    · exact h.served t ht hs
    · obtain rfl := List.mem_singleton.mp ht
      obtain ⟨v, hv⟩ := hs.mem
      exact absurd (announced_lt hh hv) (Nat.lt_irrefl _)

/-- The DIE that a message makes the master send. -/
theorem mem_mails_location {a k : Nat} {name : Str} :
    ⟨.location a k, dieMessage name⟩ ∈ r.mails i ↔ (a = r.src ∧ k = r.no) ∧
      r.announces = some name ∧
      ∃ t ∈ r.childs, t.id = i ∧ t.id ≠ r.src ∧ sameName t.username name = true := by
  constructor
  · intro hm
    unfold Request.mails at hm
    unfold Request.announces
    split at hm
    · cases hm
    · split at hm <;> simp at hm
    · split at hm <;> simp at hm
    · split at hm <;> simp at hm
    · split at hm <;> simp at hm
    · next m hu =>
      split at hm
      · next hany =>
        obtain ⟨t, ht, hboth⟩ := List.any_eq_true.mp hany
        simp only [List.mem_singleton, Mail.mk.injEq, Origin.location.injEq, dieMessage,
          Message.mk.injEq, List.cons.injEq, true_and, and_true] at hm
        simp only [Bool.and_eq_true, beq_iff_eq, bne_iff_ne] at hboth
        rw [hu, hm.2]
        exact ⟨hm.1, rfl, t, ht, hboth.1, hboth.2.1, hboth.2.2⟩
      · cases hm
  · rintro ⟨⟨rfl, rfl⟩, hann, t, ht, hid, hne, hsame⟩
    unfold Request.announces at hann
    split at hann
    · next m hu =>
      obtain rfl := Option.some.inj hann
      have hany : r.childs.any (fun t =>
          t.id == i && (t.id != r.src && sameName t.username (arg m 0))) = true := by
        rw [List.any_eq_true]
        exact ⟨t, ht, by simp [hid, hsame, hid ▸ hne]⟩
      unfold Request.mails
      rw [hu]
      simp [hany]
    · cases hann

theorem reads_sentDie {rest : List Message} (hr : Reads d d' c rest r) {a k : Nat} :
    d'.SentDie i a k ↔ d.SentDie i a k ∨ ((a = r.src ∧ k = r.no) ∧ ∃ name,
      r.announces = some name ∧
        ∃ t ∈ r.childs, t.id = i ∧ t.id ≠ r.src ∧ sameName t.username name = true) := by
  unfold SentDie
  rw [reads_sentTo hr i]
  simp only [List.mem_append, exists_or, mem_mails_location, exists_and_left]

theorem reads_written {rest : List Message} (hr : Reads d d' c rest r) (hsrc : r.src = c)
    (hup : (d.child c).up = r.raw :: rest) (i : Nat) : d'.written i = d.written i := by
  unfold written
  rw [hr.processed, List.filter_append, List.map_append, hr.child i]
  by_cases hi : i = c
  · subst hi
    simp [hsrc, hup]
  · have hne : (r.src == i) = false := by simp [hsrc, Ne.symm hi]
    simp [hne, hi]

theorem reads_announced {rest : List Message} (hr : Reads d d' c rest r) :
    d'.announced = d.announced ++ (r.announces.map (r.src, ·)).toList := by
  unfold announced
  rw [hr.processed, List.filterMap_append]
  cases h : r.announces <;> simp [h]

section Reads

variable {rest : List Message}

theorem Sessions.reads_client (h : Sessions d) (hr : Reads d d' c rest r) (hsrc : r.src = c)
    (hup : (d.child c).up = r.raw :: rest)
    (hreceived : r.received = ipcDispatch (IpcSocket.line r.raw)) (i : Nat) : d'.Client i := by
  have hraw : FromChild r.raw := (h.client c).written r.raw (by simp [written, hup])
  have honce := (h.client i).once
  have hcount : (d'.child i).up.countP isUser + (d'.announced.map Prod.fst).count i =
      (d.child i).up.countP isUser + (d.announced.map Prod.fst).count i := by
    rw [reads_announced hr, hr.child i]
    by_cases hi : i = c
    · subst hi
      rw [update_self, hup]
      rcases fromChild_announces hraw hreceived with ⟨huser, hann⟩ | ⟨u, huser, -, hann⟩
      · simp [hann, huser]
      · simp [hann, huser, hsrc]
        omega
    · rw [update_of_ne hi]
      have hne : r.src ≠ i := fun heq => hi (heq.symm.trans hsrc)
      cases r.announces <;> simp [hne]
  have hreg : (d'.child i).registered = (d.child i).registered := by
    rw [hr.child i]
    by_cases hi : i = c
    · subst hi
      simp
    · simp [hi]
  have hnick : (d'.child i).nickname = (d.child i).nickname := by
    rw [hr.child i]
    by_cases hi : i = c
    · subst hi
      simp
    · simp [hi]
  have hoper : (d'.child i).oper = (d.child i).oper := by
    rw [hr.child i]
    by_cases hi : i = c
    · subst hi
      simp
    · simp [hi]
  refine ⟨?_, ?_, ?_, ?_⟩
  · rw [hreg, hnick]
    exact (h.client i).nick
  · rw [hreg, hoper]
    exact (h.client i).oper
  · rw [reads_written hr hsrc hup]
    exact (h.client i).written
  · rw [hcount, hreg]
    exact honce

/-- A message that announces nothing. -/
theorem Sessions.reads_other (h : Sessions d) (hr : Reads d d' c rest r)
    (hclient : ∀ i, d'.Client i) (hchilds : r.childs = d.childs) (hann : r.announces = none) :
    Sessions d' := by
  have hsame : d'.announced = d.announced := by
    rw [reads_announced hr, hann]
    simp
  have hkept : d'.childs = d.childs := by
    rw [hr.childs, Request.childsAfter, hann]
    exact hchilds
  have hdie : ∀ i a k, d'.SentDie i a k ↔ d.SentDie i a k := by
    intro i a k
    rw [reads_sentDie hr, hann]
    simp
  refine ⟨hclient, hsame ▸ h.full, ?_, ?_, ?_⟩
  · rw [hsame, hkept]
    exact h.username
  · intro i a k hd
    rw [hsame, hr.processed]
    obtain ⟨hsup, q, hq, hrest⟩ := h.sent i a k ((hdie i a k).mp hd)
    exact ⟨hsup, q, List.mem_append_left _ hq, hrest⟩
  · rw [hsame, hkept]
    intro t ht hs
    obtain ⟨a, k, hd⟩ := h.served t ht hs
    exact ⟨a, k, (hdie t.id a k).mpr hd⟩

/-- The announcement of a child: the others of its name are sent DIE. -/
theorem Sessions.reads_announcement (h : Sessions d) (hr : Reads d d' c rest r)
    (hclient : ∀ i, d'.Client i) (hsrc : r.src = c) (hchilds : r.childs = d.childs)
    (hann : r.announces = some u) (hu : u ≠ []) (hnew : ∀ v, (c, v) ∉ d.announced) :
    Sessions d' := by
  have hlist : d'.announced = d.announced ++ [(c, u)] := by
    rw [reads_announced hr, hann]
    simp [hsrc]
  have hkept : d'.childs = d.childs.map (ChildT.rename c u) := by
    rw [hr.childs, Request.childsAfter, hann, hchilds, hsrc]
  refine ⟨hclient, ?_, ?_, ?_, ?_⟩
  · rw [hlist]
    intro x hx
    rcases List.mem_append.mp hx with hx | hx
    · exact h.full x hx
    · exact List.mem_singleton.mp hx ▸ hu
  · rw [hlist, hkept]
    intro t ht
    obtain ⟨t, hmem, rfl⟩ := List.mem_map.mp ht
    rw [rename_id]
    by_cases hid : t.id = c
    · refine ⟨fun w hw => ?_, fun hnone => (hnone u (by simp [hid])).elim⟩
      rcases List.mem_append.mp hw with hw | hw
      · exact (hnew w (hid ▸ hw)).elim
      · have hwu : w = u := by simpa [hid] using hw
        simp [ChildT.rename, hid, hwu]
    · have hold : ∀ w, (t.id, w) ∈ d.announced ++ [(c, u)] ↔ (t.id, w) ∈ d.announced := by
        simp [hid]
      have hname : (t.rename c u).username = t.username := by simp [ChildT.rename, hid]
      simp only [hold, hname]
      exact h.username t hmem
  · intro i a k hd
    rw [hlist, hr.processed]
    rcases (reads_sentDie hr).mp hd with hd | ⟨⟨rfl, rfl⟩, name, hname, t, ht, hid, -, hsame⟩
    · obtain ⟨hsup, q, hq, h1, h2, w, v, hw, hv, hsame⟩ := h.sent i a k hd
      exact ⟨superseded_concat.mpr (.inl hsup), q, List.mem_append_left _ hq, h1, h2, w, v, hw,
        List.mem_append_left _ hv, hsame⟩
    · obtain rfl : u = name := Option.some.inj (hann.symm.trans hname)
      rw [hchilds] at ht
      -- its entry has a username, so it has announced one
      have hany : ∃ w, (t.id, w) ∈ d.announced := by
        by_contra hno
        rw [(h.username t ht).2 fun w hw => hno ⟨w, hw⟩] at hsame
        exact hu (sameName_nil hsame)
      obtain ⟨w, hw⟩ := hany
      have hwname := (h.username t ht).1 w hw
      rw [hid] at hw
      rw [hwname] at hsame
      exact ⟨superseded_concat.mpr (.inr ⟨w, hw, hsame⟩), r, by simp, rfl, rfl, u, w, hann,
        List.mem_append_left _ hw, hsame⟩
  · rw [hlist, hkept]
    intro t ht hs
    obtain ⟨t, hmem, rfl⟩ := List.mem_map.mp ht
    rw [rename_id] at hs ⊢
    rcases superseded_concat.mp hs with hs | ⟨v, hv, hsame⟩
    · obtain ⟨a, k, hd⟩ := h.served t hmem hs
      exact ⟨a, k, (reads_sentDie hr).mpr (.inl hd)⟩
    · have hne : t.id ≠ r.src := fun heq => hnew v (hsrc ▸ heq ▸ hv)
      have hname := (h.username t hmem).1 v hv
      exact ⟨r.src, r.no, (reads_sentDie hr).mpr (.inr ⟨⟨rfl, rfl⟩, u, hann, t, hchilds ▸ hmem, rfl,
        hne, hname ▸ hsame⟩)⟩

theorem Sessions.reads (h : Sessions d) (hr : Reads d d' c rest r) (hsrc : r.src = c)
    (hchilds : r.childs = d.childs) (hup : (d.child c).up = r.raw :: rest)
    (hreceived : r.received = ipcDispatch (IpcSocket.line r.raw)) : Sessions d' := by
  have hclient := h.reads_client hr hsrc hup hreceived
  have hraw : FromChild r.raw := (h.client c).written r.raw (by simp [written, hup])
  rcases fromChild_announces hraw hreceived with ⟨-, hann⟩ | ⟨u, huser, hu, hann⟩
  · exact h.reads_other hr hclient hchilds hann
  · refine h.reads_announcement hr hclient hsrc hchilds hann (valid_word hu).1.full fun v hv => ?_
    -- the message read is the only announcement of the child
    have honce := (h.client c).once
    have hmem : c ∈ d.announced.map Prod.fst := List.mem_map.mpr ⟨(c, v), hv, rfl⟩
    have hcount := List.count_pos_iff.mpr hmem
    rw [hup, List.countP_cons_of_pos huser] at honce
    split at honce <;> omega

end Reads

theorem setChild_childSend (d : DaemonFork) (c : Nat) (x : Child) (m : Message) :
    (d.setChild c x).childSend c m =
      d.setChild c { x with up := x.up ++ [m], issued := x.issued ++ [m] } := by
  simp [childSend, setChild]

theorem isUser_name (f : IpcCmd) (l : List Str) :
    isUser { cmd := f.name, args := l } = (f == .user) := by
  cases f <;> rfl

/-- The message of an operator command, without REHASH. -/
theorem command_message {cmd : OperCmd} {nick : Str} (hnick : isValidNickname nick = true)
    (hcmd : cmd ≠ .rehash) :
    FromChild (cmd.message nick) ∧ isUser (cmd.message nick) = false := by
  cases cmd with
  | wallops text => exact ⟨.wallops hnick text, rfl⟩
  | die text => exact ⟨.die hnick text, rfl⟩
  | rehash => exact (hcmd rfl).elim

theorem sessions_moves (h : Sessions d) (hh : History d) (hm : Moves d e d') : Sessions d' := by
  cases hm with
  | fork => exact h.fork hh
  | leave hc =>
    refine h.frame (fun t ht => (List.mem_filter.mp ht).1) rfl (fun _ _ _ => .rfl) fun i => ?_
    exact (h.client i).congr rfl rfl rfl rfl rfl
  | @register c nick hc hreg hnick =>
    rw [setChild_childSend]
    refine h.setChild rfl rfl ((h.client c).write (m := { cmd := IpcCmd.user.name, args := [nick] })
      (fun _ => hnick) (fun _ => rfl) rfl (.user hnick) ?_)
    simp [hreg, isUser_name]
  | @oper c hc hreg =>
    rw [setChild_childSend]
    have hnick := (h.client c).nick hreg
    have huser : isUser { cmd := str "OPER", args := [(d.child c).nickname] } = false := rfl
    exact h.setChild rfl rfl ((h.client c).write (fun _ => hnick) (fun _ => hreg) rfl (.oper hnick)
      (by simp [huser]))
  | @command c cmd hc hoper hcmd =>
    have hreg := (h.client c).oper hoper
    have hnick := (h.client c).nick hreg
    have hm := command_message hnick hcmd
    exact h.setChild rfl rfl ((h.client c).write (fun _ => hnick) (fun _ => hreg) rfl hm.1
      (by simp [hm.2]))
  | @rehash c hc hoper =>
    refine h.setChild rfl rfl ((h.client c).congr rfl ?_ ?_ ?_ ?_) <;> simp [DaemonFork.setChild]
  | @toMaster c m rest d' hc hup hr => exact h.reads hr rfl rfl hup rfl
  | @toChild c mail rest hc hdown =>
    refine h.frame (fun _ ht => ht) rfl (fun i a k => ?_) fun i => ?_
    · unfold SentDie
      rw [readDown_sentTo hdown]
    · have hother : ((d.readDown c mail rest).child i).nickname = (d.child i).nickname ∧
          ((d.readDown c mail rest).child i).registered = (d.child i).registered ∧
          ((d.readDown c mail rest).child i).oper = (d.child i).oper ∧
          ((d.readDown c mail rest).child i).up = (d.child i).up := by
        by_cases hi : i = c
        · subst hi
          simp [readDown, DaemonFork.setChild]
        · simp [readDown, DaemonFork.setChild, hi]
      exact (h.client i).congr rfl hother.1 hother.2.1 hother.2.2.1 hother.2.2.2
  | blocked => exact h
  | @sighup d' mails hs hmails =>
    refine h.frame (fun _ ht => hs.childs ▸ ht) hs.processed (fun i a k => ?_) fun i => ?_
    · unfold SentDie
      rw [sends_sentTo hs]
      have hnone : ∀ name, ⟨.location a k, dieMessage name⟩ ∉ mails i := by
        intro name hmem
        cases (hmails i _ hmem).1
      simp [hnone]
    · exact (h.client i).congr hs.processed (by rw [hs.child i]) (by rw [hs.child i])
        (by rw [hs.child i]) (by rw [hs.child i])

theorem run_sessions (hr : run step {} es = some d) : History d ∧ Sessions d :=
  run_invariant (I := fun _ d => History d ∧ Sessions d)
    (fun _ _ _ _ h hs => ⟨history_moves h.1 (step_moves h.1 hs),
      sessions_moves h.2 h.1 (step_moves h.1 hs)⟩) ⟨initial_history, initial_sessions⟩ hr

/-- One session per user: of the children attached that announced a username, all but the one
whose announcement was processed last are sent DIE, and an announcement has no other child sent
DIE. -/
theorem run_oneSession (hr : run step {} es = some d) :
    (d.announced.map Prod.fst).Nodup ∧
    (∀ u, ∀ t ∈ d.childs, (∃ v, (t.id, v) ∈ d.announced ∧ sameName v u = true) →
      ((∀ c k, ¬ d.SentDie t.id c k) ↔
        ((d.announced.filter (sameName ·.2 u)).getLast?).map Prod.fst = some t.id)) ∧
    ∀ i c k, d.SentDie i c k → ∃ r ∈ d.processed, r.src = c ∧ r.no = k ∧
      ∃ u v, r.announces = some u ∧ (i, v) ∈ d.announced ∧ sameName v u = true := by
  obtain ⟨-, h⟩ := run_sessions hr
  refine ⟨h.nodup, fun u t ht hv => ?_, fun i c k hd => (h.sent i c k hd).2⟩
  obtain ⟨v, hv, hu⟩ := hv
  rw [← superseded_iff h.nodup hv hu]
  constructor
  · intro hnone hs
    obtain ⟨c, k, hd⟩ := h.served t ht hs
    exact hnone c k hd
  · intro hs c k hd
    exact hs (h.sent t.id c k hd).1

/-- A user logs in from two places. -/
def twoLogins : DaemonFork :=
  (run step {} [.fork, .fork, .register 0 ['b', 'o', 'b'], .register 1 ['B', 'o', 'b'],
    .toMaster 1, .toMaster 0]).getD {}

theorem run_oneSession_bob : (∀ c k, ¬ twoLogins.SentDie 0 c k) ∧ ¬ ∀ c k, ¬ twoLogins.SentDie 1 c k := by
  have hrun : run step {} [.fork, .fork, .register 0 ['b', 'o', 'b'], .register 1 ['B', 'o', 'b'],
    .toMaster 1, .toMaster 0] = some twoLogins := by rfl
  have h := (run_oneSession hrun).2.1 ['b', 'o', 'b']
  have h0 := h ⟨0, ['b', 'o', 'b']⟩ (by decide) ⟨['b', 'o', 'b'], by decide, by decide⟩
  have h1 := h ⟨1, ['B', 'o', 'b']⟩ (by decide) ⟨['B', 'o', 'b'], by decide, by decide⟩
  exact ⟨h0.mpr (by decide), fun hno => absurd (h1.mp hno) (by decide)⟩

end DaemonFork
end Minbif
