import Minbif.Im.FormFields
import Minbif.Im.RequestPassed

/-! What the fields of a form are answered. -/
namespace Minbif
open Runs

namespace Requests

/-- What the answers to a form do. -/
inductive Effect
  | set (field : Nat) (value : FieldValue)
  | ok
  | cancel
deriving DecidableEq, Repr

/-- What `process` does. The subrequests are deleted from the front: of the fields that were asked,
the first one left belongs to the field that as many stand behind. -/
def effect (r : RequestRef) (fields : List (PurpleField × Nat)) (s : Requests) : Event → List Effect
  | .sent command toThis answer _ =>
    match s.requests.head? with
    | none => []
    | some x =>
      if Taken command toThis answer ∧ x.id = r ∧ x.accepts answer = true then
        if x.subrequests.isEmpty then [if answer = str "ok" then .ok else .cancel]
        else
          ((fields[fields.length - x.subrequests.length]?).bind fun f =>
            (f.1.process answer).map (.set f.2)).toList
      else []
  | .libpurple _ => []

/-- The first answer that is acceptable goes to the first field, and so on; then the form is
confirmed or not. -/
def fill : List (PurpleField × Nat) → List Str → List Effect
  | _, [] => []
  | [], answer :: answers =>
    if answer = str "ok" then [.ok] else if answer = str "cancel" then [.cancel] else fill [] answers
  | f :: fields, answer :: answers =>
    match f.1.process answer with
    | some value => .set f.2 value :: fill fields answers
    | none => fill (f :: fields) answers

variable {s t u : Requests} {x y : Request} {rest : List Request} {r : RequestRef} {a : Act}
  {acts : List Act} {e : Event}

section Others

theorem effect_nil {fields : List (PurpleField × Nat)} (h : s.answer r e = []) :
    s.effect r fields e = [] := by
  cases e with
  | libpurple a => rfl
  | sent command toThis text acts =>
    rw [effect]
    cases hs : s.requests.head? with
    | none => rfl
    | some x =>
      dsimp only
      rw [if_neg]
      rintro ⟨htaken, hid, -⟩
      simp [answer, htaken, hs, hid] at h

/-- A request that is gone is not answered any more. -/
theorem collect_gone (fields : List (PurpleField × Nat)) (es : List Event) (h : Sound s)
    (hr : r ∈ s.deleted) : collect step (effect r fields) s es = [] ∧
      collect step (answer r) s es = [] := by
  induction es generalizing s with
  | nil => exact ⟨rfl, rfl⟩
  | cons e es ih =>
    obtain ⟨t, ht, hout⟩ := step_spec h e
    have hnone : s.answer r e = [] := by
      by_contra hanswer
      obtain ⟨-, -, -, -, x, rest, -, -, hs, hid, -⟩ := answer_cases hanswer
      exact ((h.gone r).mp hr).2 (by simp [hs, hid])
    obtain ⟨heffect, hanswer⟩ := ih hout.sound (hout.removed.subset hr)
    rw [collect_cons ht, collect_cons ht, effect_nil hnone, hnone, heffect, hanswer]
    exact ⟨rfl, rfl⟩

/-- The form is confirmed or not when no question of it is left. -/
theorem called_iff {command text : Str} {toThis : Bool} (fields : List (PurpleField × Nat)) :
    (.ok ∈ s.effect r fields (.sent command toThis text acts) ∨
        .cancel ∈ s.effect r fields (.sent command toThis text acts)) ↔
      Taken command toThis text ∧ ∃ x ∈ s.requests.head?, x.id = r ∧ x.accepts text = true ∧
        x.subrequests = [] := by
  rw [effect]
  cases hs : s.requests.head? with
  | none => simp
  | some x =>
    simp only [Option.mem_some_iff, exists_eq_left']
    by_cases hcond : Taken command toThis text ∧ x.id = r ∧ x.accepts text = true
    · rw [if_pos hcond]
      cases hsub : x.subrequests with
      | nil =>
        refine iff_of_true ?_ ⟨hcond.1, hcond.2.1, hcond.2.2, rfl⟩
        rw [List.isEmpty_nil, if_pos rfl]
        split
        · exact .inl (List.mem_singleton.mpr rfl)
        · exact .inr (List.mem_singleton.mpr rfl)
      | cons q qs =>
        rw [List.isEmpty_cons, if_neg nofun]
        refine iff_of_false (fun hmem => ?_) (fun hnil => by cases hnil.2.2.2)
        simp [Option.bind_eq_some_iff] at hmem
    · rw [if_neg hcond]
      exact iff_of_false (by simp) fun hall => hcond ⟨hall.1, hall.2.1, hall.2.2.1⟩

/-- A form that libpurple does not close is gone with its callback. -/
theorem deleted_step (h : Sound s) (fields : List (PurpleField × Nat)) (ht : step s e = some t)
    (hclose : ¬ e.Closes r) : r ∈ t.deleted ↔
      r ∈ s.deleted ∨ .ok ∈ s.effect r fields e ∨ .cancel ∈ s.effect r fields e := by
  obtain ⟨v, hv, hout⟩ := step_spec h e
  obtain rfl := Option.some.inj (hv.symm.trans ht)
  cases e with
  | libpurple a =>
    rw [effect]
    simp only [List.not_mem_nil, or_false]
    exact ⟨fun hr => (deleted_act h ht hr).resolve_right hclose, fun hr => hout.removed.subset hr⟩
  | sent command toThis text acts =>
    rw [called_iff]
    by_cases hlast : Taken command toThis text ∧ ∃ x ∈ s.requests.head?, x.accepts text = true ∧
        x.subrequests = []
    · obtain ⟨htaken, x, hhead, haccepts, hsub⟩ := hlast
      obtain ⟨rest, hs⟩ := List.head?_eq_some_iff.mp hhead
      obtain ⟨hdel, hothers⟩ := deleted_last h htaken hs haccepts hsub ht
      constructor
      · intro hr
        rcases hothers r hr with hid | hr | hr
        · exact .inr ⟨htaken, x, hhead, hid.symm, haccepts, hsub⟩
        · exact .inl hr
        · exact absurd hr hclose
      · rintro (hr | ⟨-, y, hy, hid, -⟩)
        · exact hout.removed.subset hr
        · obtain rfl := Option.some.inj (hhead.symm.trans hy)
          exact hid ▸ hdel
    · have hsame : v.deleted = s.deleted := by
        by_cases htaken : Taken command toThis text
        · cases hs : s.requests with
          | nil =>
            obtain ⟨hcommand, hthis, hctcp⟩ := id htaken
            rw [step, send, if_neg (by simp [hcommand, hthis]), if_neg hctcp, hs] at ht
            obtain rfl := Option.some.inj ht
            rfl
          | cons x rest =>
            cases hx : x.accepts text with
            | false =>
              obtain rfl := Option.some.inj ((send_rejected_eq h htaken hs hx).symm.trans ht)
              rfl
            | true =>
              have hsub : x.subrequests ≠ [] := fun hsub =>
                hlast ⟨htaken, x, by simp [hs], hx, hsub⟩
              obtain rfl := Option.some.inj ((send_next_eq h htaken hs hx hsub).symm.trans ht)
              rfl
        · obtain rfl := Option.some.inj ((send_untaken htaken).symm.trans ht)
          rfl
      rw [hsame]
      refine (or_iff_left fun hcalled => hlast ?_).symm
      obtain ⟨htaken, x, hhead, -, haccepts, hsub⟩ := hcalled
      exact ⟨htaken, x, hhead, haccepts, hsub⟩

/-- In a run that does not close the form, it is gone exactly when its callback was called. -/
theorem deleted_run (h : Sound s) (fields : List (PurpleField × Nat)) {es : List Event}
    (hrun : run step s es = some u) (hclose : ∀ e ∈ es, ¬ e.Closes r) : r ∈ u.deleted ↔
      r ∈ s.deleted ∨ .ok ∈ collect step (effect r fields) s es ∨
        .cancel ∈ collect step (effect r fields) s es := by
  induction es generalizing s with
  | nil =>
    obtain rfl := Option.some.inj hrun
    simp [collect]
  | cons e es ih =>
    obtain ⟨t, ht, hrun⟩ := run_cons.mp hrun
    obtain ⟨v, hv, hout⟩ := step_spec h e
    obtain rfl := Option.some.inj (hv.symm.trans ht)
    obtain ⟨he, hes⟩ := List.forall_mem_cons.mp hclose
    rw [ih hout.sound hrun hes, deleted_step h fields ht he, collect_cons ht, List.mem_append,
      List.mem_append]
    constructor
    · rintro ((hr | hok | hcancel) | hok | hcancel)
      · exact .inl hr
      · exact .inr (.inl (.inl hok))
      · exact .inr (.inr (.inl hcancel))
      · exact .inr (.inl (.inr hok))
      · exact .inr (.inr (.inr hcancel))
    · rintro (hr | (hok | hok) | hcancel | hcancel)
      · exact .inl (.inl hr)
      · exact .inl (.inr (.inl hok))
      · exact .inr (.inl hok)
      · exact .inl (.inr (.inr hcancel))
      · exact .inr (.inr hcancel)

end Others

section Forms

variable {account title primary secondary : Option Str} {visible : List PurpleField}
  {ok cancel text : Str} {fields left : List (PurpleField × Nat)} {f : PurpleField × Nat}
  {es : List Event}

/-- The request that is made for a form. -/
def formRequest (r : RequestRef) (q : Asked) : Request := ⟨r, q.request.1, q.request.2⟩

/-- The subrequests of these fields. -/
def subs (account title primary secondary : Option Str) (left : List (PurpleField × Nat)) :
    List Question :=
  left.filterMap fun f => Asked.subrequest account title primary secondary f.1

/-- The form is in the queue, with subrequests for the fields that are left. -/
def InForm (account title primary secondary : Option Str) (ok cancel : Str) (r : RequestRef)
    (left : List (PurpleField × Nat)) (y : Request) : Prop :=
  y.id = r ∧ y.question = (Asked.fields account title primary secondary [] ok cancel).request.1 ∧
    y.subrequests = subs account title primary secondary left

theorem subrequest_asked (hf : f ∈ PurpleField.asked visible) :
    ∃ q, Asked.subrequest account title primary secondary f.1 = some q := by
  obtain ⟨-, hasked⟩ := List.mem_filter.mp hf
  obtain ⟨f, i⟩ := f
  cases f with
  | skipped => cases hasked
  | string label default_value | integer label default_value | image shown | boolean label
  | choice label labels | list label items => exact ⟨_, rfl⟩

theorem subs_asked (visible : List PurpleField) :
    subs account title primary secondary (PurpleField.asked visible) =
      visible.filterMap (Asked.subrequest account title primary secondary) := by
  have hgen : ∀ n, subs account title primary secondary
      ((visible.zipIdx n).filter fun f => !f.1.isSkipped) =
        visible.filterMap (Asked.subrequest account title primary secondary) := by
    induction visible with
    | nil => exact fun _ => rfl
    | cons f visible ih =>
      intro n
      rw [List.zipIdx_cons]
      cases f with
      | skipped => exact ih (n + 1)
      | string label default_value | integer label default_value | image shown | boolean label
      | choice label labels | list label items => exact congrArg (_ :: ·) (ih (n + 1))
  exact hgen 0

theorem subs_cons (hf : f ∈ PurpleField.asked visible) : ∃ q,
    Asked.subrequest account title primary secondary f.1 = some q ∧
      subs account title primary secondary (f :: left) =
        q :: subs account title primary secondary left := by
  obtain ⟨q, hq⟩ := subrequest_asked hf
  exact ⟨q, hq, List.filterMap_cons_some hq⟩

theorem length_subs (hleft : ∀ f ∈ left, f ∈ PurpleField.asked visible) :
    (subs account title primary secondary left).length = left.length := by
  induction left with
  | nil => rfl
  | cons f left ih =>
    obtain ⟨hf, hleft⟩ := List.forall_mem_cons.mp hleft
    obtain ⟨q, -, hsubs⟩ : ∃ q, _ ∧ subs account title primary secondary (f :: left) = _ :=
      subs_cons hf
    rw [hsubs, List.length_cons, List.length_cons, ih hleft]

/-- The images in front have questions that are shown and dropped. -/
theorem subs_dropWhile (hleft : ∀ f ∈ left, f ∈ PurpleField.asked visible) :
    (subs account title primary secondary left).dropWhile Question.isImage =
      subs account title primary secondary (left.dropWhile fun f => f.1.isImage) := by
  induction left with
  | nil => rfl
  | cons f left ih =>
    obtain ⟨hf, hleft⟩ := List.forall_mem_cons.mp hleft
    obtain ⟨q, hq, hsubs⟩ : ∃ q, _ ∧ subs account title primary secondary (f :: left) = _ :=
      subs_cons hf
    rw [hsubs, List.dropWhile_cons, List.dropWhile_cons, isImage_subrequest hq]
    split
    · exact ih hleft
    · exact hsubs.symm

theorem filter_dropWhile (left : List (PurpleField × Nat)) :
    (left.dropWhile fun f => f.1.isImage).filter (fun f => !f.1.isImage) =
      left.filter fun f => !f.1.isImage := by
  induction left with
  | nil => rfl
  | cons f left ih =>
    cases hf : f.1.isImage with
    | true => simp [hf, ih]
    | false => simp [hf]

/-- The form itself takes two answers. -/
theorem accepts_confirm : (Asked.fields account title primary secondary [] ok cancel).request.1.accepts
    text = true ↔ text = str "ok" ∨ text = str "cancel" := by
  have hfields : (RequestFields.ofList [{ label := str "ok", text := ok },
      { label := str "cancel", text := cancel }]).entries =
        [(str "cancel", cancel), (str "ok", ok)] := rfl
  change ((RequestFields.ofList _).find? text).isSome = true ↔ _
  rw [isSome_find?, hfields]
  simp [or_comm]

/-- The fields are given values in their order, and one callback is called after the last of them. -/
theorem fill_shape (fields : List (PurpleField × Nat)) (answers : List Str) :
    ∃ values call, fill fields answers =
        List.zipWith (fun f value => .set f.2 value) fields values ++ call ∧
      (call = [] ∨ values.length = fields.length ∧ (call = [.ok] ∨ call = [.cancel])) := by
  induction answers generalizing fields with
  | nil => exact ⟨[], [], by simp [fill], .inl rfl⟩
  | cons answer answers ih =>
    cases fields with
    | nil =>
      rw [fill]
      split
      · exact ⟨[], [.ok], rfl, .inr ⟨rfl, .inl rfl⟩⟩
      split
      · exact ⟨[], [.cancel], rfl, .inr ⟨rfl, .inr rfl⟩⟩
      · exact ih []
    | cons f fields =>
      rw [fill]
      cases f.1.process answer with
      | none => exact ih (f :: fields)
      | some value =>
        obtain ⟨values, call, hfill, hcall⟩ := ih fields
        refine ⟨value :: values, call, by simp [hfill], hcall.imp_right fun h => ⟨?_, h.2⟩⟩
        rw [List.length_cons, List.length_cons, h.1]

theorem fill_end (answers : List Str) : fill [] (text :: answers) =
    if text = str "ok" ∨ text = str "cancel" then
      [if text = str "ok" then .ok else .cancel] else fill [] answers := by
  rw [fill]
  by_cases hok : text = str "ok"
  · simp [hok]
  · simp [hok]

/-- The front of a request that is displayed is no image. -/
theorem not_image_of_front (h : Sound s) (hs : s.requests = x :: rest)
    (hform : InForm account title primary secondary ok cancel r (f :: left) x)
    (hf : f ∈ PurpleField.asked visible) : f.1.isImage = false := by
  obtain ⟨q, hq, hsubs⟩ : ∃ q, _ ∧ subs account title primary secondary (f :: left) = _ :=
    subs_cons hf
  have hshown := (h.shown x (by simp [hs])).2
  rw [Request.front, hform.2.2, hsubs] at hshown
  exact (isImage_subrequest hq).symm.trans hshown

theorem InForm.settled (h : InForm account title primary secondary ok cancel r left x)
    (hleft : ∀ f ∈ left, f ∈ PurpleField.asked visible) :
    InForm account title primary secondary ok cancel r (left.dropWhile fun f => f.1.isImage)
      x.settled := by
  refine ⟨h.1, h.2.1, ?_⟩
  rw [Request.settled, h.2.2]
  exact subs_dropWhile hleft

theorem InForm.accepts (h : InForm account title primary secondary ok cancel r (f :: left) x)
    (hf : f ∈ PurpleField.asked visible) (himage : f.1.isImage = false) (text : Str) :
    x.accepts text = (f.1.process text).isSome := by
  obtain ⟨q, hq, hsubs⟩ : ∃ q, _ ∧ subs account title primary secondary (f :: left) = _ :=
    subs_cons hf
  rw [Request.accepts, Request.front, h.2.2, hsubs]
  exact accepts_subrequest hq himage text

theorem InForm.accepts_end (h : InForm account title primary secondary ok cancel r [] x) :
    x.accepts text = true ↔ text = str "ok" ∨ text = str "cancel" := by
  rw [Request.accepts, Request.front, h.2.2, h.2.1]
  exact accepts_confirm

theorem InForm.next (h : InForm account title primary secondary ok cancel r (f :: left) x)
    (hleft : ∀ f' ∈ f :: left, f' ∈ PurpleField.asked visible) :
    InForm account title primary secondary ok cancel r (left.dropWhile fun f => f.1.isImage)
      { x with subrequests := x.subrequests.tail : Request }.settled := by
  obtain ⟨hf, hleft⟩ := List.forall_mem_cons.mp hleft
  obtain ⟨q, -, hsubs⟩ : ∃ q, _ ∧ subs account title primary secondary (f :: left) = _ :=
    subs_cons hf
  have htail : InForm account title primary secondary ok cancel r left
      { x with subrequests := x.subrequests.tail } := by
    refine ⟨h.1, h.2.1, ?_⟩
    dsimp only
    rw [h.2.2, hsubs]
    rfl
  exact htail.settled hleft

/-- The field that the front subrequest belongs to. -/
theorem getElem?_suffix (hleft : f :: left <:+ fields) :
    fields[fields.length - (left.length + 1)]? = some f := by
  obtain ⟨before, rfl⟩ := hleft
  have hindex : (before ++ f :: left).length - (left.length + 1) = before.length := by simp
  rw [hindex, List.getElem?_append_right le_rfl, Nat.sub_self]
  rfl

section OneAnswer

variable {command : Str} {toThis : Bool}

/-- An answer that is not acceptable does nothing. -/
theorem effect_rejected (h : Sound s) (hs : s.requests = x :: rest)
    (hform : InForm account title primary secondary ok cancel r left x)
    (hleft : ∀ f ∈ left, f ∈ PurpleField.asked visible) (hx : x.accepts text = false) :
    s.effect r fields (.sent command toThis text acts) = [] ∧ ∀ answers,
      fill (left.filter fun f => !f.1.isImage) (text :: answers) =
        fill (left.filter fun f => !f.1.isImage) answers := by
  refine ⟨by simp [effect, hs, hx], fun answers => ?_⟩
  cases left with
  | nil =>
    have hother : ¬ (text = str "ok" ∨ text = str "cancel") := by
      rw [← hform.accepts_end, hx]
      exact nofun
    exact (fill_end answers).trans (if_neg hother)
  | cons f left =>
    have hf := hleft f (by simp)
    have himage := not_image_of_front h hs hform hf
    have hprocess : f.1.process text = none := by
      rw [hform.accepts hf himage, Option.isSome_eq_false_iff] at hx
      exact Option.isNone_iff_eq_none.mp hx
    rw [List.filter_cons_of_pos (by simp [himage]), fill, hprocess]

/-- The form without questions is confirmed or not. -/
theorem effect_last (hs : s.requests = x :: rest) (htaken : Taken command toThis text)
    (hform : InForm account title primary secondary ok cancel r [] x) (hx : x.accepts text = true)
    (answers : List Str) :
    s.effect r fields (.sent command toThis text acts) = fill [] (text :: answers) := by
  have hsub : x.subrequests = [] := hform.2.2
  rw [effect, hs]
  simp only [List.head?_cons]
  rw [if_pos ⟨htaken, hform.1, hx⟩, hsub, List.isEmpty_nil, if_pos rfl]
  exact ((fill_end answers).trans (if_pos (hform.accepts_end.mp hx))).symm

/-- The first field that is left is given the answer. -/
theorem effect_next (h : Sound s) (hs : s.requests = x :: rest) (htaken : Taken command toThis text)
    (hleft : f :: left <:+ PurpleField.asked visible)
    (hform : InForm account title primary secondary ok cancel r (f :: left) x)
    (hx : x.accepts text = true) : x.subrequests ≠ [] ∧ ∀ answers,
      fill ((f :: left).filter fun f => !f.1.isImage) (text :: answers) =
        s.effect r (PurpleField.asked visible) (.sent command toThis text acts) ++
          fill (left.filter fun f => !f.1.isImage) answers := by
  have hmem : ∀ f' ∈ f :: left, f' ∈ PurpleField.asked visible := fun f' hf' => hleft.subset hf'
  have hf := hmem f (by simp)
  have himage := not_image_of_front h hs hform hf
  have hlength : x.subrequests.length = left.length + 1 := by
    rw [hform.2.2, length_subs hmem]
    rfl
  have hsub : x.subrequests ≠ [] := List.ne_nil_of_length_eq_add_one hlength
  obtain ⟨value, hvalue⟩ : ∃ value, f.1.process text = some value := by
    rw [hform.accepts hf himage] at hx
    exact Option.isSome_iff_exists.mp hx
  have heffect : s.effect r (PurpleField.asked visible) (.sent command toThis text acts) =
      [.set f.2 value] := by
    rw [effect, hs]
    simp only [List.head?_cons]
    rw [if_pos ⟨htaken, hform.1, hx⟩, if_neg (by simpa using hsub), hlength, getElem?_suffix hleft,
      Option.bind_some, hvalue]
    rfl
  refine ⟨hsub, fun answers => ?_⟩
  rw [heffect, List.filter_cons_of_pos (by simp [himage]), fill, hvalue]
  rfl

end OneAnswer

/-- A step that gives the form no answer leaves it its fields, or ends it. -/
theorem InForm.passes (h : InForm account title primary secondary ok cancel r left y)
    (hpass : Passes r s t) (hy : y ∈ s.requests)
    (hleft : ∀ f ∈ left, f ∈ PurpleField.asked visible) : r ∈ t.deleted ∨ ∃ left', left' <:+ left ∧
      (left'.filter fun f => !f.1.isImage) = left.filter (fun f => !f.1.isImage) ∧
        ∃ z ∈ t.requests, InForm account title primary secondary ok cancel r left' z := by
  obtain ⟨x, rest, hs⟩ := List.exists_cons_of_ne_nil (List.ne_nil_of_mem hy)
  rw [hs] at hy
  rcases List.mem_cons.mp hy with rfl | hy
  · refine (hpass.head y (by simp [hs]) h.1).imp_right fun hhead => ?_
    exact ⟨left, List.suffix_refl _, rfl, y, List.mem_of_head? hhead, h⟩
  · rcases hpass.tail y (by simpa [hs] using hy) h.1 with hdel | htail | ⟨hhead, -⟩
    · exact .inl hdel
    · exact .inr ⟨left, List.suffix_refl _, rfl, y, List.mem_of_mem_tail htail, h⟩
    · exact .inr ⟨_, List.dropWhile_suffix _, filter_dropWhile left, _, List.mem_of_head? hhead,
        h.settled hleft⟩

/-- What the answers to the form do, from a state in which these fields are left. -/
theorem collect_effect (h : Sound s) (hleft : left <:+ PurpleField.asked visible)
    (hform : ∃ y ∈ s.requests, InForm account title primary secondary ok cancel r left y) :
    collect step (effect r (PurpleField.asked visible)) s es =
      fill (left.filter fun f => !f.1.isImage) (collect step (answer r) s es) := by
  induction es generalizing s left with
  | nil => simp [collect, fill]
  | cons e es ih =>
    obtain ⟨t, ht, hout⟩ := step_spec h e
    have hmem : ∀ f ∈ left, f ∈ PurpleField.asked visible := fun f hf => hleft.subset hf
    rw [collect_cons ht, collect_cons ht]
    obtain ⟨y, hy, hyform⟩ := hform
    by_cases hnone : s.answer r e = []
    · rw [effect_nil hnone, hnone, List.nil_append, List.nil_append]
      rcases hyform.passes (passes_step h hnone ht) hy hmem with hdel | ⟨left', hsuffix, hsame, hin⟩
      · obtain ⟨heffect, hanswer⟩ :=
          collect_gone (PurpleField.asked visible) es hout.sound hdel
        rw [heffect, hanswer, fill]
      · rw [← hsame]
        exact ih hout.sound (hsuffix.trans hleft) hin
    · obtain ⟨command, toThis, text, acts, x, rest, rfl, htaken, hs, hid, hanswer⟩ :=
        answer_cases hnone
      obtain rfl : y = x := by
        rw [hs] at hy
        rcases List.mem_cons.mp hy with rfl | hy
        · rfl
        · exact absurd (hyform.1.trans hid.symm) (h.rest_ne hs y hy)
      rw [hanswer, List.singleton_append]
      cases haccepts : y.accepts text with
      | false =>
        obtain rfl := Option.some.inj ((send_rejected_eq h htaken hs haccepts).symm.trans ht)
        obtain ⟨heffect, hfill⟩ := effect_rejected h hs hyform hmem haccepts
        rw [heffect, List.nil_append, hfill]
        exact ih hout.sound hleft ⟨y, hy, hyform⟩
      | true =>
        cases left with
        | nil =>
          obtain ⟨hdel, -⟩ := deleted_last h htaken hs haccepts hyform.2.2 ht
          obtain ⟨heffect, hanswers⟩ :=
            collect_gone (PurpleField.asked visible) es hout.sound (hyform.1 ▸ hdel)
          rw [heffect, hanswers, List.append_nil]
          exact effect_last hs htaken hyform haccepts []
        | cons f left =>
          obtain ⟨hsub, hfill⟩ : y.subrequests ≠ [] ∧ _ :=
            effect_next h hs htaken hleft hyform haccepts
          obtain rfl := Option.some.inj ((send_next_eq h htaken hs haccepts hsub).symm.trans ht)
          rw [hfill, ← filter_dropWhile left]
          refine congrArg _ (ih hout.sound ?_ ⟨_, List.mem_cons_self, hyform.next hmem⟩)
          exact (List.dropWhile_suffix _).trans ((List.suffix_cons f left).trans hleft)

/-- What the user is told of a request: all of it once it comes to the head, then the next question
after each answer that is taken, and the same one after any other. -/
structure Displays (r : RequestRef) (s : Requests) (e : Event) (t : Requests) : Prop where
  first : ∀ y ∈ s.requests.tail, y.id = r → t.requests.head?.map (·.id) = some r →
    ∃ l l', t.said = s.said ++ l ++ y.shows ++ l'
  next : ∀ x ∈ s.requests.head?, x.id = r → ∀ text ∈ s.answer r e, x.accepts text = true →
    x.subrequests ≠ [] →
      t.said = s.said ++ ({ x with subrequests := x.subrequests.tail } : Request).shows
  again : ∀ x ∈ s.requests.head?, x.id = r → ∀ text ∈ s.answer r e, x.accepts text = false →
    t = s.say ((str "ERROR: Answer '" ++ text ++ str "' is not valid.") :: x.front.display)

theorem displays_step (h : Sound s) (ht : step s e = some t) (hsound : Sound t) :
    Displays r s e t := by
  by_cases hnone : s.answer r e = []
  · refine ⟨fun y hy hid hhead => ?_, by simp [hnone], by simp [hnone]⟩
    obtain ⟨x, rest, hrest⟩ : ∃ x rest, t.requests = x :: rest := by
      cases hreq : t.requests with
      | nil => simp [hreq] at hhead
      | cons x rest => exact ⟨x, rest, rfl⟩
    have hxid : x.id = r := by simpa [hrest] using hhead
    rcases (passes_step h hnone ht).tail y hy hid with hdel | htail | ⟨-, hshows⟩
    · exact absurd (by simp [hrest, hxid]) ((hsound.gone r).mp hdel).2
    · rw [hrest] at htail
      exact absurd (hid.trans hxid.symm) (hsound.rest_ne hrest y htail)
    · exact hshows
  · obtain ⟨command, toThis, text, acts, x, rest, rfl, htaken, hs, hid, hanswer⟩ :=
      answer_cases hnone
    refine ⟨fun y hy hyid _ => ?_, fun y hy _ text' htext haccepts hsub => ?_,
      fun y hy _ text' htext haccepts => ?_⟩
    · rw [hs] at hy
      exact absurd (hyid.trans hid.symm) (h.rest_ne hs y hy)
    · rw [hanswer, List.mem_singleton] at htext
      subst htext
      rw [hs] at hy
      obtain rfl := Option.some.inj hy
      obtain rfl := Option.some.inj ((send_next_eq h htaken hs haccepts hsub).symm.trans ht)
      rfl
    · rw [hanswer, List.mem_singleton] at htext
      subst htext
      rw [hs] at hy
      obtain rfl := Option.some.inj hy
      exact Option.some.inj (ht.symm.trans (send_rejected_eq h htaken hs haccepts))

/-- The new form is the last of the queue, and displayed if it is the first. -/
theorem addRequest_form
    (hadded : s.addRequest (.fields account title primary secondary visible ok cancel) = some t) :
    ∃ left, left <:+ PurpleField.asked visible ∧
      (left.filter fun f => !f.1.isImage) = PurpleField.answered visible ∧
      ∃ y ∈ t.requests, InForm account title primary secondary ok cancel s.next left y := by
  have hform : InForm account title primary secondary ok cancel s.next (PurpleField.asked visible)
      (formRequest s.next (.fields account title primary secondary visible ok cancel)) :=
    ⟨rfl, rfl, (subs_asked visible).symm⟩
  cases hs : s.requests with
  | nil =>
    rw [addRequest_nil hs] at hadded
    obtain rfl := Option.some.inj hadded
    exact ⟨_, List.dropWhile_suffix _, filter_dropWhile _, _, List.mem_cons_self,
      hform.settled fun f hf => hf⟩
  | cons x rest =>
    have hne : s.requests ≠ [] := by simp [hs]
    obtain ⟨l, heq⟩ :=
      addRequest_cons hne (.fields account title primary secondary visible ok cancel)
    obtain rfl := Option.some.inj (heq.symm.trans hadded)
    exact ⟨_, List.suffix_refl _, rfl, _, List.mem_append_right _ (List.mem_singleton.mpr rfl), hform⟩

example : fill (PurpleField.answered [.image [], .boolean none, .choice none [str "a", str "a"]])
    [str "maybe", str "true", str "a_", str "no", str "cancel"] =
      [.set 1 (.bool true), .set 2 (.choice 1), .cancel] := by decide

end Forms

end Requests
end Minbif
