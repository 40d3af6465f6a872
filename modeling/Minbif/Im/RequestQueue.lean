import Minbif.Im.Request
import Minbif.Lib.Runs
import Mathlib.Algebra.Order.BigOperators.Group.List
import Mathlib.Algebra.Order.Group.Nat

/-! Who answers, what is displayed and what is deleted, whatever the callbacks do. -/
namespace Minbif
open Runs

namespace Requests

/-- The images in front are closed as soon as they are displayed. -/
def Request.settled (r : Request) : Request :=
  { r with subrequests := r.subrequests.dropWhile Question.isImage }

/-- All that the user is told when the request is displayed. -/
def Request.shows (r : Request) : List Str :=
  (r.subrequests.takeWhile Question.isImage).flatMap Question.display ++ r.settled.front.display

variable {s t : Requests} {x y : Request} {rest : List Request} {r : RequestRef} {n : Nat}
  {a : Act} {acts : List Act} {e : Event}

theorem settled_eq (h : x.front.isImage = false) : x.settled = x := by
  obtain ⟨id, question, qs⟩ := x
  cases qs with
  | nil => rfl
  | cons q qs =>
    have hq : q.isImage = false := h
    simp [Request.settled, hq]

theorem shows_eq (h : x.front.isImage = false) : x.shows = x.front.display := by
  rw [Request.shows, settled_eq h]
  cases hqs : x.subrequests with
  | nil => simp
  | cons q qs =>
    have hq : q.isImage = false := by simpa [Request.front, hqs] using h
    simp [hq]

theorem settled_front (h : x.question.isImage = false) : x.settled.front.isImage = false := by
  cases hqs : x.subrequests.dropWhile Question.isImage with
  | nil => simpa [Request.front, Request.settled, hqs] using h
  | cons q qs =>
    have hhead := List.head?_dropWhile_not Question.isImage x.subrequests
    rw [hqs] at hhead
    simpa [Request.front, Request.settled, hqs] using hhead

/-- The head was displayed. -/
def showing (s : Requests) (x : Request) (rest : List Request) : Requests :=
  { s with
    requests := x.settled :: rest
    said := s.said ++ x.shows
    displayed := some x.id }

theorem find_head (h : s.requests = x :: rest) : s.find x.id = some x := by
  simp [find, h]

theorem display_plain (h : s.find r = some x) (hx : x.front.isImage = false) :
    display (n + 1) s r = some { s.say x.front.display with displayed := some r } := by
  rw [display, h]
  unfold Question.isImage at hx
  simp only
  split
  · next shown himage => simp [himage] at hx
  · rfl

/-- An image closes the first request: only the head is displayed, so it closes itself. -/
theorem display_head (hs : s.requests = x :: rest) (hx : x.question.isImage = false)
    (hrest : ∀ y ∈ rest, y.id ≠ x.id) (hn : 2 * x.subrequests.length < n) :
    display n s x.id = some (s.showing x rest) := by
  induction hqs : x.subrequests generalizing n s x with
  | nil =>
    obtain ⟨n, rfl⟩ := Nat.exists_eq_succ_of_ne_zero (by omega : n ≠ 0)
    have hfront : x.front.isImage = false := by simpa [Request.front, hqs] using hx
    rw [display_plain (find_head hs) hfront]
    simp [showing, settled_eq hfront, shows_eq hfront, say, ← hs]
  | cons q qs ih =>
    rw [hqs, List.length_cons] at hn
    cases hq : q.isImage with
    | false =>
      obtain ⟨n, rfl⟩ := Nat.exists_eq_succ_of_ne_zero (by omega : n ≠ 0)
      have hfront : x.front.isImage = false := by simpa [Request.front, hqs] using hq
      rw [display_plain (find_head hs) hfront]
      simp [showing, settled_eq hfront, shows_eq hfront, say, ← hs]
    | true =>
      obtain ⟨n, rfl⟩ : ∃ m, n = m + 2 := ⟨n - 2, by omega⟩
      obtain ⟨shown, hform⟩ : ∃ shown, q.form = .image shown := by
        unfold Question.isImage at hq
        split at hq
        · next shown h => exact ⟨shown, h⟩
        · cases hq
      have hset : ((s.say shown).setSubrequests x.id qs).requests =
          { x with subrequests := qs } :: rest := by
        have hsame : ∀ y ∈ rest, (if y.id = x.id then { y with subrequests := qs } else y) = y :=
          fun y hy => if_neg (hrest y hy)
        simp [setSubrequests, say, hs, List.map_congr_left hsame]
      have hdisplay : display (n + 2) s x.id = close (n + 1) (s.say shown) x.id := by
        rw [display, find_head hs]
        simp [Request.front, hqs, hform, say, hs]
      have hclose : close (n + 1) (s.say shown) x.id =
          display n ((s.say shown).setSubrequests x.id qs) x.id := by
        have hfind : (s.say shown).find x.id = some x := find_head hs
        rw [close, hfind]
        simp only [hqs]
      have hnext := ih (x := { x with subrequests := qs }) (n := n) hset hx hrest
        (by simp only; omega) rfl
      have hshows : q.display = shown := by simp [Question.display, hform]
      rw [hdisplay, hclose, hnext]
      simp [showing, say, Request.shows, Request.settled, hqs, hq, hshows, setSubrequests, Request.front]

/-- A request is in the queue, under one handle, or was deleted once. -/
structure Queue (s : Requests) : Prop where
  nodup : (s.requests.map (·.id)).Nodup
  handles : s.handles = s.requests.map (·.id)
  deleted : s.deleted.Nodup
  gone : ∀ r, r ∈ s.deleted ↔ r < s.next ∧ r ∉ s.requests.map (·.id)
  known : ∀ x ∈ s.requests, x.id < s.next
  questions : ∀ x ∈ s.requests, x.question.isImage = false

/-- The user has seen the head of the queue. -/
structure Sound (s : Requests) : Prop extends Queue s where
  shown : ∀ x ∈ s.requests.head?, s.displayed = some x.id ∧ x.front.isImage = false

theorem Queue.rest_ne (h : Queue s) (hs : s.requests = x :: rest) : ∀ y ∈ rest, y.id ≠ x.id := by
  have hnodup := h.nodup
  rw [hs, List.map_cons, List.nodup_cons] at hnodup
  intro y hy heq
  exact hnodup.1 (heq ▸ List.mem_map_of_mem hy)

/-- Some of the questions of the head may have been answered. -/
theorem Queue.showing (h : Queue s) (hs : s.requests = y :: rest) (hid : x.id = y.id)
    (hq : x.question = y.question) : Sound (s.showing x rest) := by
  have hids : (s.showing x rest).requests.map (·.id) = s.requests.map (·.id) := by
    rw [hs, List.map_cons, ← hid]
    rfl
  have hmem : ∀ z ∈ (s.showing x rest).requests,
      ∃ w ∈ s.requests, w.id = z.id ∧ w.question = z.question := by
    intro z hz
    rw [hs]
    rcases List.mem_cons.mp hz with rfl | hz
    · exact ⟨y, by simp, hid.symm, hq.symm⟩
    · exact ⟨z, by simp [hz], rfl, rfl⟩
  refine ⟨⟨?_, ?_, h.deleted, ?_, ?_, ?_⟩, ?_⟩
  · rw [hids]
    exact h.nodup
  · rw [hids]
    exact h.handles
  · rw [hids]
    exact h.gone
  · intro z hz
    obtain ⟨w, hw, hid, -⟩ := hmem z hz
    exact hid ▸ h.known w hw
  · intro z hz
    obtain ⟨w, hw, -, hq⟩ := hmem z hz
    exact hq ▸ h.questions w hw
  · intro z hz
    obtain rfl := Option.some.inj hz
    exact ⟨rfl, settled_front (hq ▸ h.questions y (by simp [hs]))⟩

theorem Queue.say {l : List Str} (h : Queue s) : Queue (s.say l) :=
  ⟨h.nodup, h.handles, h.deleted, h.gone, h.known, h.questions⟩

/-- The request is taken out of the queue. -/
def dropped (s : Requests) (r : RequestRef) : Requests :=
  { s with
    handles := s.handles.erase r
    requests := s.requests.filter (·.id ≠ r)
    deleted := s.deleted ++ [r] }

theorem Queue.dropped (h : Queue s) (hr : r ∈ s.handles) : Queue (s.dropped r) := by
  have hids : (s.dropped r).requests.map (·.id) = (s.requests.map (·.id)).filter (· ≠ r) := by
    rw [List.filter_map]
    rfl
  have hmem := h.handles ▸ hr
  refine ⟨?_, ?_, ?_, ?_, ?_, ?_⟩
  · rw [hids]
    exact h.nodup.filter _
  · rw [hids, Requests.dropped, h.handles, h.nodup.erase_eq_filter]
    exact List.filter_congr fun y _ => Bool.eq_iff_iff.mpr (by simp)
  · have hnot : r ∉ s.deleted := fun hd => ((h.gone r).mp hd).2 hmem
    refine List.nodup_append.mpr ⟨h.deleted, by simp, ?_⟩
    rintro a ha b hb rfl
    exact hnot (List.mem_singleton.mp hb ▸ ha)
  · intro y
    rw [hids]
    obtain ⟨x, hx, hid⟩ := List.mem_map.mp hmem
    have hlt : r < s.next := hid ▸ h.known x hx
    have hgone := h.gone y
    simp only [Requests.dropped, List.mem_append, List.mem_singleton, List.mem_filter,
      decide_eq_true_eq, hgone]
    by_cases hy : y = r
    · subst hy
      simp [hlt]
    · simp [hy]
  · intro x hx
    exact h.known x (List.mem_of_mem_filter hx)
  · intro x hx
    exact h.questions x (List.mem_of_mem_filter hx)

/-- The request was closed. -/
def closed (s : Requests) (r : RequestRef) : Requests :=
  if s.requests.head?.map (·.id) = some r then
    match (s.dropped r).requests with
    | [] => (s.dropped r).say [str "Request closed."]
    | x :: rest => ((s.dropped r).say [str "Request closed."]).showing x rest
  else s.dropped r

theorem Queue.find_of_mem (h : Queue s) (hr : r ∈ s.handles) : ∃ x ∈ s.requests, s.find r = some x := by
  rw [h.handles] at hr
  obtain ⟨x, hx, rfl⟩ := List.mem_map.mp hr
  cases hf : s.find x.id with
  | none => simpa using List.find?_eq_none.mp hf x hx
  | some y => exact ⟨y, List.mem_of_find?_eq_some hf, rfl⟩

theorem purpleRequestClose_eq (h : Queue s) (hr : r ∈ s.handles)
    (hn : ∀ x ∈ s.requests, 2 * x.subrequests.length + 3 ≤ n) :
    purpleRequestClose n s r = some (s.closed r) := by
  obtain ⟨x, hx, hfind⟩ := h.find_of_mem hr
  obtain ⟨n, rfl⟩ : ∃ m, n = m + 2 := ⟨n - 2, by have := hn x hx; omega⟩
  have hdrop := h.dropped hr
  have hfind' : { s with handles := s.handles.erase r : Requests }.find r = some x := hfind
  rw [purpleRequestClose, if_pos hr, closeRequest, hfind']
  simp only [closed]
  split
  · cases hrest : (s.dropped r).requests with
    | nil =>
      have hhead : (s.requests.filter (·.id ≠ r)).head? = none := by
        rw [show s.requests.filter (·.id ≠ r) = [] from hrest]
        rfl
      simp only [say, hhead]
      rfl
    | cons y rest =>
      have hhead : (s.requests.filter (·.id ≠ r)).head? = some y := by
        rw [show s.requests.filter (·.id ≠ r) = y :: rest from hrest]
        rfl
      have hy : y ∈ s.requests := List.mem_of_mem_filter (show y ∈ (s.dropped r).requests by simp [hrest])
      have hlen := hn y hy
      have hshow := display_head (s := (s.dropped r).say [str "Request closed."]) (n := n) hrest
        (h.questions y hy) (hdrop.rest_ne hrest) (by omega)
      simp only [say, hhead]
      exact hshow
  · rfl

theorem Sound.closed (h : Sound s) (hr : r ∈ s.handles) : Sound (s.closed r) := by
  have hdrop := h.toQueue.dropped hr
  unfold Requests.closed
  split
  · split
    · next hnil =>
      refine ⟨hdrop.say, fun x hx => ?_⟩
      rw [show ((s.dropped r).say [str "Request closed."]).requests = [] from hnil] at hx
      cases hx
    · next x rest hrest =>
      exact hdrop.say.showing hrest rfl rfl
  · next hfirst =>
    refine ⟨hdrop, fun x hx => ?_⟩
    cases hs : s.requests with
    | nil => simp [Requests.dropped, hs] at hx
    | cons y rest =>
      have hne : y.id ≠ r := by simpa [hs] using hfirst
      have hhead : (s.dropped r).requests.head? = some y := by simp [Requests.dropped, hs, hne]
      obtain rfl := Option.some.inj (hhead.symm.trans hx)
      exact h.shown y (by simp [hs])

theorem closed_same : (s.closed r).processed = s.processed ∧
    (s.closed r).usedDeleted = s.usedDeleted ∧ (s.closed r).deleted = s.deleted ++ [r] ∧
    (s.closed r).next = s.next := by
  unfold Requests.closed
  split
  · split <;> exact ⟨rfl, rfl, rfl, rfl⟩
  · exact ⟨rfl, rfl, rfl, rfl⟩

theorem depth_le (h : x ∈ s.requests) : 2 * x.subrequests.length + 4 ≤ s.depth := by
  have hle : x.subrequests.length ≤ (s.requests.map (·.subrequests.length)).sum :=
    List.le_sum_of_mem (List.mem_map_of_mem (f := (·.subrequests.length)) h)
  unfold depth
  omega

/-- The main request always is a list of fields or an input. -/
theorem request_isImage (a : Asked) : a.request.1.isImage = false := by
  cases a <;> rfl

/-- What an action on requests leaves as it was, and what it does to the one it closes. -/
structure Passed (s : Requests) (a : Act) (t : Requests) : Prop where
  processed : t.processed = s.processed
  usedDeleted : t.usedDeleted = s.usedDeleted
  deleted : s.deleted <+: t.deleted
  next : s.next ≤ t.next
  head : ∀ x ∈ s.requests.head?, (∀ r, a = .closed r → r ≠ x.id) → t.requests.head? = some x
  closes : ∀ r, a = .closed r → r < s.next → r ∈ t.deleted

/-- The new request stands last, under a new handle. -/
def pushed (s : Requests) (q : Asked) : Requests :=
  { s with
    requests := s.requests ++ [⟨s.next, q.request.1, q.request.2⟩]
    next := s.next + 1
    handles := s.handles ++ [s.next] }

theorem Queue.pushed (h : Queue s) (q : Asked) : Queue (s.pushed q) := by
  have hids : (s.pushed q).requests.map (·.id) = s.requests.map (·.id) ++ [s.next] := by
    simp [Requests.pushed]
  have hnew : ∀ r ∈ s.requests.map (·.id), r < s.next := by
    intro r hr
    obtain ⟨x, hx, rfl⟩ := List.mem_map.mp hr
    exact h.known x hx
  refine ⟨?_, ?_, h.deleted, ?_, ?_, ?_⟩
  · rw [hids]
    refine List.nodup_append.mpr ⟨h.nodup, by simp, ?_⟩
    rintro r hr b hb rfl
    exact Nat.lt_irrefl r (List.mem_singleton.mp hb ▸ hnew r hr)
  · rw [hids, ← h.handles]
    rfl
  · intro r
    have hgone := h.gone r
    rw [hids]
    simp only [Requests.pushed, hgone, List.mem_append, List.mem_singleton, not_or]
    constructor
    · rintro ⟨hlt, hr⟩
      exact ⟨Nat.lt_succ_of_lt hlt, hr, Nat.ne_of_lt hlt⟩
    · rintro ⟨hlt, hr, hne⟩
      exact ⟨Nat.lt_of_le_of_ne (Nat.le_of_lt_succ hlt) hne, hr⟩
  · intro x hx
    rcases List.mem_append.mp hx with hx | hx
    · exact Nat.lt_succ_of_lt (h.known x hx)
    · obtain rfl := List.mem_singleton.mp hx
      exact Nat.lt_succ_self _
  · intro x hx
    rcases List.mem_append.mp hx with hx | hx
    · exact h.questions x hx
    · obtain rfl := List.mem_singleton.mp hx
      exact request_isImage q

theorem addRequest_nil (hs : s.requests = []) (q : Asked) :
    s.addRequest q = some ((s.pushed q).showing ⟨s.next, q.request.1, q.request.2⟩ []) := by
  let x : Request := ⟨s.next, q.request.1, q.request.2⟩
  let u : Requests := { s with requests := s.requests ++ [x], next := s.next + 1 }
  have hone : u.requests = [x] := by simp [u, hs]
  have hdepth := depth_le (s := u) (x := x) (by simp [hone])
  have hshow := display_head (n := u.depth) hone (request_isImage q) nofun (by omega)
  have hlen : u.requests.length = 1 := by simp [hone]
  simp only [addRequest]
  rw [if_pos hlen, hshow]
  rfl

theorem addRequest_cons (hs : s.requests ≠ []) (q : Asked) :
    ∃ l, s.addRequest q = some ((s.pushed q).say l) := by
  let x : Request := ⟨s.next, q.request.1, q.request.2⟩
  have hlen : ¬ (s.requests ++ [x]).length = 1 := by simpa using hs
  simp only [addRequest]
  rw [if_neg hlen]
  exact ⟨_, rfl⟩

theorem addRequest_spec (h : Sound s) (q : Asked) :
    ∃ t, s.addRequest q = some t ∧ Sound t ∧ Passed s (.added q) t := by
  have hpush := h.toQueue.pushed q
  cases hs : s.requests with
  | nil =>
    have hone : (s.pushed q).requests = [⟨s.next, q.request.1, q.request.2⟩] := by
      simp [pushed, hs]
    refine ⟨_, addRequest_nil hs q, hpush.showing hone rfl rfl, rfl, rfl, List.prefix_refl _,
      Nat.le_succ _, ?_, nofun⟩
    intro y hy
    simp [hs] at hy
  | cons y rest =>
    have hne : s.requests ≠ [] := by simp [hs]
    obtain ⟨l, heq⟩ := addRequest_cons hne q
    have hhead : (s.pushed q).requests.head? = s.requests.head? := by simp [pushed, hs]
    refine ⟨_, heq, ⟨hpush.say, fun z hz => h.shown z ?_⟩, rfl, rfl, List.prefix_refl _,
      Nat.le_succ _, fun z hz _ => ?_, nofun⟩
    · rw [← hhead]
      exact hz
    · exact hhead.trans hz

theorem purpleRequestClose_spec (h : Sound s) (r : RequestRef) :
    ∃ t, purpleRequestClose s.depth s r = some t ∧ Sound t ∧ Passed s (.closed r) t := by
  by_cases hr : r ∈ s.handles
  · have heq := purpleRequestClose_eq (n := s.depth) h.toQueue hr fun x hx =>
      Nat.le_of_succ_le (depth_le hx)
    refine ⟨_, heq, h.closed hr, ?_⟩
    obtain ⟨hproc, hused, hdel, hnext⟩ := closed_same (s := s) (r := r)
    refine ⟨hproc, hused, ⟨[r], hdel.symm⟩, Nat.le_of_eq hnext.symm, ?_, ?_⟩
    · intro x hx hne
      have hxr : x.id ≠ r := (hne r rfl).symm
      obtain ⟨rest, hs⟩ : ∃ rest, s.requests = x :: rest := by
        cases hs : s.requests with
        | nil => simp [hs] at hx
        | cons y rest => exact ⟨rest, by simpa [hs] using hx⟩
      have hfirst : s.requests.head?.map (·.id) ≠ some r := by simpa [hs] using hxr
      rw [Requests.closed, if_neg hfirst]
      simp [Requests.dropped, hs, hxr]
    · rintro _ ⟨⟩ -
      rw [hdel]
      simp
  · refine ⟨s, ?_, h, rfl, rfl, List.prefix_refl _, Nat.le_refl _, fun x hx _ => hx, ?_⟩
    · have hdepth : s.depth = (s.depth - 1) + 1 := by
        unfold depth
        omega
      rw [hdepth, purpleRequestClose, if_neg hr]
    · rintro _ ⟨⟩ hlt
      exact (h.gone r).mpr ⟨hlt, h.handles ▸ hr⟩

theorem act_spec (h : Sound s) (a : Act) : ∃ t, s.act a = some t ∧ Sound t ∧ Passed s a t := by
  cases a with
  | added q => exact addRequest_spec h q
  | closed r => exact purpleRequestClose_spec h r

/-- What a callback leaves: the head stays, unless it is closed. -/
theorem callback_spec (h : Sound s) (acts : List Act) :
    ∃ t, callback s acts = some t ∧ Sound t ∧ t.processed = s.processed ∧
      t.usedDeleted = s.usedDeleted ∧ s.deleted <+: t.deleted ∧ s.next ≤ t.next ∧
      ∀ x ∈ s.requests.head?, (.closed x.id ∈ acts → x.id ∈ t.deleted) ∧
        (.closed x.id ∉ acts → t.requests.head? = some x) := by
  induction acts generalizing s with
  | nil => exact ⟨s, rfl, h, rfl, rfl, List.prefix_refl _, Nat.le_refl _,
    fun x hx => ⟨nofun, fun _ => hx⟩⟩
  | cons a acts ih =>
    obtain ⟨u, hu, hsound, hpass⟩ := act_spec h a
    obtain ⟨t, ht, hsound', hproc, hused, hdel, hnext, hhead⟩ := ih hsound
    refine ⟨t, by rw [callback, hu]; exact ht, hsound', hproc.trans hpass.processed,
      hused.trans hpass.usedDeleted, hpass.deleted.trans hdel, Nat.le_trans hpass.next hnext, ?_⟩
    intro x hx
    by_cases ha : a = .closed x.id
    · have hmem : x ∈ s.requests := List.mem_of_head? hx
      have hdeleted := hdel.subset (hpass.closes x.id ha (h.known x hmem))
      exact ⟨fun _ => hdeleted, fun hnot => absurd (by simp [ha]) hnot⟩
    · have hkept : u.requests.head? = some x := hpass.head x hx fun r hr => by
        rintro rfl
        exact ha hr
      simpa [Ne.symm ha] using hhead x hkept

/-- `RequestNick::send` takes the line as an answer. -/
def Taken (command : Str) (toThis : Bool) (answer : Str) : Prop :=
  command = str "PRIVMSG" ∧ toThis = true ∧ answer.head? ≠ some '\x01'

/-- What the event was to do with the queue. -/
def Answered (s : Requests) : Event → Requests → Prop
  | .sent command toThis answer _, t =>
    (¬ Taken command toThis answer → t = s) ∧
    (Taken command toThis answer → s.requests = [] → t = s.say [str "No active question"]) ∧
    (Taken command toThis answer → ∀ x ∈ s.requests.head?,
      (x.accepts answer = true → t.processed = s.processed ++ [(x.id, answer)] ∧
        (x.subrequests = [] → x.id ∈ t.deleted) ∧
        (x.subrequests ≠ [] → t.requests =
          { x with subrequests := x.subrequests.tail : Request }.settled :: s.requests.tail)) ∧
      (x.accepts answer = false → t =
        s.say ((str "ERROR: Answer '" ++ answer ++ str "' is not valid.") :: x.front.display)))
  | .libpurple a, t =>
    t.processed = s.processed ∧ ∀ r, a = .closed r → r < s.next → r ∈ t.deleted

/-- The head is the request last displayed, and the others were removed, each once. -/
structure Settled (t : Requests) : Prop where
  displayed : ∀ x ∈ t.requests.head?, t.displayed = some x.id
  once : t.deleted.Nodup
  removed : ∀ r, r ∈ t.deleted ↔ r < t.next ∧ r ∉ t.requests.map (·.id)

/-- The queue is settled whenever a callback is between two of its calls. -/
def Nested (s : Requests) : Event → Prop
  | .sent _ _ answer acts => ∀ x ∈ s.requests.head?, ∀ pre, pre <+: acts →
      ∃ u, callback { s with processed := s.processed ++ [(x.id, answer)] } pre = some u ∧ Settled u
  | .libpurple _ => True

/-- The answer went to the head, the queue is settled, and no deleted request was used. -/
structure Right (s : Requests) (e : Event) (t : Requests) : Prop where
  answered : Answered s e t
  settled : Settled t
  nested : Nested s e
  removed : s.deleted <+: t.deleted
  safe : t.usedDeleted = false

/-- No callback closes the request whose answer runs it. -/
def Undisturbed (s : Requests) : Event → Prop
  | .sent command toThis answer acts => Taken command toThis answer →
      ∀ x ∈ s.requests.head?, x.subrequests = [] → x.accepts answer = true →
        .closed x.id ∉ acts
  | .libpurple _ => True

theorem close_gone (h : s.find r = none) : close (n + 1) s r = some { s with usedDeleted := true } := by
  rw [close, h]

/-- A head without questions left is handed to libpurple. -/
theorem close_last (h : Sound s) (hs : s.requests = x :: rest) (hx : x.subrequests = []) :
    close s.depth s x.id = some (s.closed x.id) := by
  obtain ⟨n, hn⟩ : ∃ n, s.depth = n + 1 := ⟨_, rfl⟩
  have hlen : ∀ y ∈ s.requests, 2 * y.subrequests.length + 3 ≤ n := by
    intro y hy
    have hle := depth_le hy
    omega
  have hmem : x.id ∈ s.handles := by simp [h.handles, hs]
  rw [hn, close, find_head hs]
  simp only [hx]
  exact purpleRequestClose_eq h.toQueue hmem hlen

/-- A head with questions left goes on with the next one. -/
theorem close_next (h : Sound s) (hs : s.requests = x :: rest) (hx : x.subrequests ≠ []) :
    close s.depth s x.id =
      some (s.showing { x with subrequests := x.subrequests.tail } rest) := by
  obtain ⟨q, qs, hqs⟩ := List.exists_cons_of_ne_nil hx
  obtain ⟨n, hn⟩ : ∃ n, s.depth = n + 1 := ⟨_, rfl⟩
  have hle := depth_le (s := s) (x := x) (by simp [hs])
  have hrest := h.rest_ne hs
  have hset : (s.setSubrequests x.id qs).requests = { x with subrequests := qs } :: rest := by
    have hsame : ∀ y ∈ rest, (if y.id = x.id then { y with subrequests := qs } else y) = y :=
      fun y hy => if_neg (hrest y hy)
    simp [setSubrequests, hs, List.map_congr_left hsame]
  rw [hqs, List.length_cons] at hle
  have hshow := display_head (x := { x with subrequests := qs }) (n := n) hset
    (h.questions x (by simp [hs])) hrest (by simp only; omega)
  rw [hn, close, find_head hs]
  simp only [hqs, List.tail_cons]
  rw [hshow]
  simp [showing, setSubrequests]

/-- What one event does from a sound state. -/
structure Outcome (s : Requests) (e : Event) (t : Requests) : Prop where
  sound : Sound t
  answered : s.usedDeleted = false → Undisturbed s e → Answered s e t
  removed : s.deleted <+: t.deleted
  safe : s.usedDeleted = false → (t.usedDeleted = false ↔ Undisturbed s e)

theorem Taken.send {command answer : Str} {toThis : Bool} (h : Taken command toThis answer)
    (hs : s.requests = x :: rest) :
    s.send command toThis answer acts =
      if x.accepts answer then
        (if x.subrequests.isEmpty then
          callback { s with processed := s.processed ++ [(x.id, answer)] } acts
        else some { s with processed := s.processed ++ [(x.id, answer)] }).bind fun s =>
          close s.depth s x.id
      else display s.depth
        (s.say [str "ERROR: Answer '" ++ answer ++ str "' is not valid."]) x.id := by
  obtain ⟨hcommand, hthis, hctcp⟩ := h
  rw [Requests.send, if_neg (by simp [hcommand, hthis]), if_neg hctcp, hs]
  rfl

theorem send_untaken {command answer : Str} {toThis : Bool} (h : ¬ Taken command toThis answer) :
    s.send command toThis answer acts = some s := by
  rw [Requests.send]
  split
  · rfl
  split
  · rfl
  · next hcommand hctcp =>
    rw [not_or] at hcommand
    exact absurd ⟨not_not.mp hcommand.1, by simpa using hcommand.2, hctcp⟩ h

theorem Sound.processed (h : Sound s) (p : List (RequestRef × Str)) :
    Sound { s with processed := p } :=
  ⟨⟨h.nodup, h.handles, h.deleted, h.gone, h.known, h.questions⟩, h.shown⟩

theorem send_next_eq (h : Sound s) {command answer : Str} {toThis : Bool}
    (htaken : Taken command toThis answer) (hs : s.requests = x :: rest)
    (hx : x.accepts answer = true) (hsub : x.subrequests ≠ []) :
    s.send command toThis answer acts =
      some (({ s with processed := s.processed ++ [(x.id, answer)] } : Requests).showing
        { x with subrequests := x.subrequests.tail } rest) := by
  have hempty : x.subrequests.isEmpty = false := by simpa using hsub
  rw [htaken.send hs, if_pos hx, hempty, if_neg nofun, Option.bind_some]
  exact close_next (h.processed _) hs hsub

theorem send_rejected_eq (h : Sound s) {command answer : Str} {toThis : Bool}
    (htaken : Taken command toThis answer) (hs : s.requests = x :: rest)
    (hx : x.accepts answer = false) :
    s.send command toThis answer acts = some (s.say
      ((str "ERROR: Answer '" ++ answer ++ str "' is not valid.") :: x.front.display)) := by
  have hshown := h.shown x (by simp [hs])
  have hlen := depth_le (s := s) (x := x) (by simp [hs])
  let u := s.say [str "ERROR: Answer '" ++ answer ++ str "' is not valid."]
  have hdisplay : display s.depth u x.id = some (u.showing x rest) :=
    display_head hs (h.questions x (by simp [hs])) (h.rest_ne hs) (by omega)
  rw [htaken.send hs, if_neg (by simp [hx]), hdisplay]
  -- the head was displayed before, so it shows no image and stays as it is
  simp only [showing, settled_eq hshown.2, shows_eq hshown.2, say, u, ← hs, ← hshown.1]
  simp

/-- The callback of the last answer may have closed the request before it is closed. -/
theorem send_last_eq (h : Sound s) {command answer : Str} {toThis : Bool}
    (htaken : Taken command toThis answer) (hs : s.requests = x :: rest)
    (hx : x.accepts answer = true) (hsub : x.subrequests = []) :
    ∃ u, callback { s with processed := s.processed ++ [(x.id, answer)] } acts = some u ∧ Sound u ∧
      ((.closed x.id ∈ acts ∧ x.id ∈ u.deleted ∧
          s.send command toThis answer acts = some { u with usedDeleted := true }) ∨
        (.closed x.id ∉ acts ∧ u.requests.head? = some x ∧
          s.send command toThis answer acts = some (u.closed x.id))) := by
  obtain ⟨u, hu, hsound, -, -, -, -, hhead⟩ :=
    callback_spec (h.processed (s.processed ++ [(x.id, answer)])) acts
  have hhead := hhead x (by simp [hs])
  refine ⟨u, hu, hsound, ?_⟩
  rw [htaken.send hs, if_pos hx, hsub, List.isEmpty_nil, if_pos rfl, hu, Option.bind_some]
  by_cases hclosed : .closed x.id ∈ acts
  · have hgone := ((hsound.gone x.id).mp (hhead.1 hclosed)).2
    have hfind : u.find x.id = none := by
      refine List.find?_eq_none.mpr fun y hy hid => hgone ?_
      exact List.mem_map.mpr ⟨y, hy, by simpa using hid⟩
    exact .inl ⟨hclosed, hhead.1 hclosed, close_gone hfind⟩
  · obtain ⟨rest', hs'⟩ := List.head?_eq_some_iff.mp (hhead.2 hclosed)
    exact .inr ⟨hclosed, hhead.2 hclosed, close_last hsound hs' hsub⟩

/-- An accepted answer to a request without questions left: it is closed, if its callback has not
closed it before. -/
theorem send_last (h : Sound s) {command answer : Str} {toThis : Bool}
    (htaken : Taken command toThis answer) (hs : s.requests = x :: rest)
    (hx : x.accepts answer = true) (hsub : x.subrequests = []) :
    ∃ t, s.send command toThis answer acts = some t ∧
      Outcome s (.sent command toThis answer acts) t := by
  obtain ⟨u, hu, hsound, hsend⟩ : ∃ u, callback _ acts = some u ∧ Sound u ∧ _ :=
    send_last_eq h htaken hs hx hsub
  obtain ⟨v, hv, -, hproc, hused, hdel, -⟩ :=
    callback_spec (h.processed (s.processed ++ [(x.id, answer)])) acts
  obtain rfl := Option.some.inj (hu.symm.trans hv)
  rcases hsend with ⟨hclosed, -, hsend⟩ | ⟨hclosed, hhead, hsend⟩
  · have hnot : ¬ Undisturbed s (.sent command toThis answer acts) := fun hq =>
      hq htaken x (by simp [hs]) hsub hx hclosed
    have hbad : Sound { u with usedDeleted := true } :=
      ⟨⟨hsound.nodup, hsound.handles, hsound.deleted, hsound.gone, hsound.known, hsound.questions⟩,
        hsound.shown⟩
    exact ⟨_, hsend, hbad, fun _ hq => absurd hq hnot, hdel, fun _ => iff_of_false nofun hnot⟩
  · obtain ⟨rest', hs'⟩ := List.head?_eq_some_iff.mp hhead
    have hmem : x.id ∈ u.handles := by simp [hsound.handles, hs']
    obtain ⟨hproc', hused', hdel', -⟩ := closed_same (s := u) (r := x.id)
    refine ⟨_, hsend, hsound.closed hmem, fun _ _ => ?_, ?_, fun hsafe => ?_⟩
    · refine ⟨fun hno => absurd htaken hno, fun _ hnil => by simp [hs] at hnil, ?_⟩
      intro _ y hy
      obtain rfl : x = y := by simpa [hs] using hy
      refine ⟨fun _ => ⟨hproc'.trans hproc, fun _ => by simp [hdel'], fun hne => absurd hsub hne⟩, ?_⟩
      intro hno
      rw [hx] at hno
      cases hno
    · rw [hdel']
      exact hdel.trans (List.prefix_append _ _)
    · refine iff_of_true (hused'.trans (hused.trans hsafe)) ?_
      intro _ y hy _ _
      obtain rfl : x = y := by simpa [hs] using hy
      exact hclosed

/-- An accepted answer to a question of the head: the next one is displayed. -/
theorem send_next (h : Sound s) {command answer : Str} {toThis : Bool}
    (htaken : Taken command toThis answer) (hs : s.requests = x :: rest)
    (hx : x.accepts answer = true) (hsub : x.subrequests ≠ []) :
    ∃ t, s.send command toThis answer acts = some t ∧
      Outcome s (.sent command toThis answer acts) t := by
  have hp := h.processed (s.processed ++ [(x.id, answer)])
  refine ⟨_, send_next_eq h htaken hs hx hsub, hp.toQueue.showing (y := x) hs rfl rfl, fun _ _ => ?_,
    List.prefix_refl _, fun hsafe => ?_⟩
  · refine ⟨fun hno => absurd htaken hno, fun _ hnil => by simp [hs] at hnil, ?_⟩
    intro _ y hy
    obtain rfl : x = y := by simpa [hs] using hy
    refine ⟨fun _ => ⟨rfl, fun hnil => absurd hnil hsub, fun _ => ?_⟩, ?_⟩
    · rw [hs]
      rfl
    · intro hno
      rw [hx] at hno
      cases hno
  · refine iff_of_true hsafe fun _ y hy hnil => ?_
    obtain rfl : x = y := by simpa [hs] using hy
    exact absurd hnil hsub

theorem send_rejected (h : Sound s) {command answer : Str} {toThis : Bool}
    (htaken : Taken command toThis answer) (hs : s.requests = x :: rest)
    (hx : x.accepts answer = false) :
    ∃ t, s.send command toThis answer acts = some t ∧
      Outcome s (.sent command toThis answer acts) t := by
  refine ⟨_, send_rejected_eq h htaken hs hx, ⟨h.toQueue.say, h.shown⟩, fun _ _ => ?_,
    List.prefix_refl _, fun hsafe => ?_⟩
  · refine ⟨fun hno => absurd htaken hno, fun _ hnil => by simp [hs] at hnil, ?_⟩
    intro _ y hy
    obtain rfl : x = y := by simpa [hs] using hy
    refine ⟨fun hyes => ?_, fun _ => rfl⟩
    rw [hx] at hyes
    cases hyes
  · refine iff_of_true hsafe fun _ y hy _ hyes => ?_
    obtain rfl : x = y := by simpa [hs] using hy
    rw [hx] at hyes
    cases hyes

theorem step_spec (h : Sound s) (e : Event) : ∃ t, step s e = some t ∧ Outcome s e t := by
  cases e with
  | libpurple a =>
    obtain ⟨t, ht, hsound, hpass⟩ := act_spec h a
    exact ⟨t, ht, hsound, fun _ _ => ⟨hpass.processed, hpass.closes⟩, hpass.deleted,
      fun hsafe => iff_of_true (hpass.usedDeleted.trans hsafe) trivial⟩
  | sent command toThis answer acts =>
    by_cases htaken : Taken command toThis answer
    · cases hs : s.requests with
      | nil =>
        obtain ⟨hcommand, hthis, hctcp⟩ := id htaken
        refine ⟨s.say [str "No active question"], ?_, ⟨h.toQueue.say, h.shown⟩, fun _ _ => ?_,
          List.prefix_refl _, fun hsafe => iff_of_true hsafe fun _ x hx => by simp [hs] at hx⟩
        · rw [step, send, if_neg (by simp [hcommand, hthis]), if_neg hctcp, hs]
          rfl
        · exact ⟨fun hno => absurd htaken hno, fun _ _ => rfl, fun _ x hx => by simp [hs] at hx⟩
      | cons x rest =>
        cases hx : x.accepts answer with
        | false => exact send_rejected h htaken hs hx
        | true =>
          by_cases hsub : x.subrequests = []
          · exact send_last h htaken hs hx hsub
          · exact send_next h htaken hs hx hsub
    · refine ⟨s, send_untaken htaken, h, fun _ _ => ?_, List.prefix_refl _,
        fun hsafe => iff_of_true hsafe fun htaken' => absurd htaken' htaken⟩
      exact ⟨fun _ => rfl, fun htaken' => absurd htaken' htaken,
        fun htaken' => absurd htaken' htaken⟩

theorem Sound.settled (h : Sound s) : Settled s :=
  ⟨fun x hx => (h.shown x hx).1, h.deleted, h.gone⟩

theorem Sound.nested (h : Sound s) (e : Event) : Nested s e := by
  cases e with
  | libpurple a => trivial
  | sent command toThis answer acts =>
    intro x _ pre _
    obtain ⟨u, hu, hsound, -⟩ :=
      callback_spec (h.processed (s.processed ++ [(x.id, answer)])) pre
    exact ⟨u, hu, hsound.settled⟩

theorem right_step (h : Sound s ∧ s.usedDeleted = false) (e : Event) :
    ∃ t, step s e = some t ∧ (Right s e t ↔ Undisturbed s e) ∧
      (Right s e t → Sound t ∧ t.usedDeleted = false) := by
  obtain ⟨hsound, hsafe⟩ := h
  obtain ⟨t, ht, hout⟩ := step_spec hsound e
  refine ⟨t, ht, ⟨fun hr => (hout.safe hsafe).mp hr.safe, fun hq => ?_⟩,
    fun hr => ⟨hout.sound, hr.safe⟩⟩
  exact ⟨hout.answered hsafe hq, hout.sound.settled, hsound.nested e, hout.removed,
    (hout.safe hsafe).mpr hq⟩

theorem sound_init : Sound {} := by
  refine ⟨⟨List.nodup_nil, rfl, List.nodup_nil, fun r => ?_, nofun, nofun⟩, nofun⟩
  exact iff_of_false nofun fun h => Nat.not_lt_zero r h.1

theorem stepwise_right_iff {es : List Event} :
    Stepwise step Right {} es ↔ Along step Undisturbed {} es :=
  stepwise_iff (I := fun s => Sound s ∧ s.usedDeleted = false) (fun _ e h => right_step h e)
    ⟨sound_init, rfl⟩

/-- Every run goes through, and right exactly if no callback closes the request it answers. -/
theorem run_right_iff (es : List Event) :
    (run step {} es).isSome ∧ (Stepwise step Right {} es ↔ Along step Undisturbed {} es) := by
  obtain ⟨t, ht, -⟩ := run_total (I := Sound) (fun s e h => by
    obtain ⟨t, ht, hout⟩ := step_spec h e
    exact ⟨t, ht, hout.sound⟩) sound_init
  exact ⟨by rw [ht]; rfl, stepwise_right_iff⟩

/-- The callback of the answer closes the request, which `send` then closes again. -/
theorem run_not_right : ¬ Stepwise step Right {}
    [.libpurple (.added (.input none none none none none)),
      .sent (str "PRIVMSG") true (str "yes") [.closed 0]] := by
  intro h
  have hsent := ((stepwise_right_iff.mp h).2 _ (addRequest_nil rfl _)).1
  exact hsent ⟨rfl, rfl, by decide⟩ _ rfl rfl rfl (List.mem_singleton.mpr rfl)

end Requests
end Minbif
