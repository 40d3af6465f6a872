import Mathlib.Data.List.Induction
import Minbif.Core.Markup

/-! Which codes `irc2markup` makes balanced tags of. -/
namespace Minbif
namespace Mirc
open Tagged

inductive Kind
  | bold
  | italic
  | underline
  | font
deriving DecidableEq

namespace Kind

def name : Kind → Str
  | bold => ['B']
  | italic => ['I']
  | underline => ['U']
  | font => str "FONT"

def flag : Kind → Flags → Bool
  | bold, f => f.bold
  | italic, f => f.italic
  | underline, f => f.underline
  | font, f => f.font

/-- A code of this kind; the search finds none for italics. -/
def has : Kind → Piece → Bool
  | bold, .bold => true
  | underline, .underline => true
  | font, .colour _ _ => true
  | _, _ => false

/-- Whether it is on after these pieces: the last colour has a number up to 15, or the number of
codes is odd. -/
def on (k : Kind) (l : List Piece) : Bool :=
  match k with
  | font => (l.reverse.find? font.has).any Piece.opens
  | k => l.countP k.has % 2 = 1

/-- The resets after the last code of the kind. -/
def resets (k : Kind) (l : List Piece) : Nat :=
  (l.reverse.takeWhile fun p => !k.has p).count .reset

end Kind

/-- A kind that is on is not reset before its next code, and at the end it is closed once: by a
reset, or by the end of the string when this comes after text. -/
structure Tidy (k : Kind) (l : List Piece) : Prop where
  between : ∀ l₁ p l₂, l = l₁ ++ p :: l₂ → k.has p = true → k.on l₁ = true → k.resets l₁ = 0
  last : k.on l = true → k.resets l + (if endsInText l then 1 else 0) = 1

/-- A tag that opens or closes an element of this name. -/
def event (name t : Str) : Option Bool :=
  if t = name ∨ (name ++ [' ']).isPrefixOf t then some true
  else if t = '/' :: name then some false
  else none

/-- Each element of the name that is opened is closed once, and no other is closed. -/
def BalancedIn (out name : Str) : Prop :=
  BalancedFrom 0 ((tags '<' '>' none out).filterMap (event name))

instance (out name : Str) : Decidable (BalancedIn out name) :=
  inferInstanceAs (Decidable (BalancedFrom _ _))

section Events

variable {k : Kind} {f : Flags} {p : Piece} {l l₁ l₂ pre : List Piece} {escape : Char → Str}
  {on ends : Bool}

/-- A code of the kind: a toggle, but for the colours. -/
def Kind.turned (k : Kind) (p : Piece) (on : Bool) : Bool :=
  match k with
  | font => p.opens
  | _ => !on

def Kind.step (k : Kind) (on : Bool) (p : Piece) : Bool :=
  if k.has p then k.turned p on else on

/-- What a piece does to the tags of the kind. -/
def Kind.events (k : Kind) (on : Bool) (p : Piece) : List Bool :=
  if k.has p then (if on then [false] else []) ++ (if k.turned p on then [true] else [])
  else if p = .reset ∧ on = true then [false]
  else []

def Kind.eventsOf (k : Kind) : Bool → List Piece → List Bool
  | _, [] => []
  | on, p :: l => k.events on p ++ k.eventsOf (k.step on p) l

theorem flag_next (k : Kind) (f : Flags) (p : Piece) : k.flag (f.next p) = k.step (k.flag f) p := by
  cases k <;> cases p <;> rfl

theorem odd_concat (q : Piece → Bool) (l : List Piece) (p : Piece) :
    decide ((l ++ [p]).countP q % 2 = 1) =
      if q p then !decide (l.countP q % 2 = 1) else decide (l.countP q % 2 = 1) := by
  rw [List.countP_append, List.countP_singleton]
  cases q p with
  | true =>
    rw [if_pos rfl, if_pos rfl, ← decide_not, decide_eq_decide]
    omega
  | false => rfl

theorem on_concat (k : Kind) (l : List Piece) (p : Piece) : k.on (l ++ [p]) = k.step (k.on l) p := by
  cases k with
  | font =>
    simp only [Kind.on, Kind.step, Kind.turned, List.reverse_append, List.reverse_singleton,
      List.singleton_append, List.find?_cons]
    cases Kind.font.has p <;> rfl
  | bold => exact odd_concat Kind.bold.has l p
  | italic => exact odd_concat Kind.italic.has l p
  | underline => exact odd_concat Kind.underline.has l p

theorem resets_concat (k : Kind) (l : List Piece) (p : Piece) : k.resets (l ++ [p]) =
    if k.has p then 0 else k.resets l + if p = .reset then 1 else 0 := by
  unfold Kind.resets
  rw [List.reverse_append, List.reverse_singleton, List.singleton_append, List.takeWhile_cons]
  cases k.has p with
  | true => rfl
  | false =>
    rw [Bool.not_false, if_pos rfl, List.count_cons, if_neg Bool.false_ne_true]
    simp

theorem flag_after (k : Kind) (l : List Piece) : k.flag (({} : Flags).after l) = k.on l := by
  induction l using List.reverseRecOn with
  | nil => cases k <;> rfl
  | append_singleton l p ih =>
    rw [Flags.after, List.foldl_append, List.foldl_cons, List.foldl_nil, flag_next, on_concat, ← ih]
    rfl

/-- The part of `Tidy` that concerns what comes after `pre`. -/
def TidyFrom (k : Kind) (ends : Bool) (pre l : List Piece) : Prop :=
  (∀ l₁ p l₂, l = l₁ ++ p :: l₂ → k.has p = true → k.on (pre ++ l₁) = true →
    k.resets (pre ++ l₁) = 0) ∧
      (k.on (pre ++ l) = true → k.resets (pre ++ l) + ends.toNat = 1)

theorem tidyFrom_nil :
    TidyFrom k ends pre [] ↔ (k.on pre = true → k.resets pre + ends.toNat = 1) := by
  unfold TidyFrom
  rw [List.append_nil]
  refine and_iff_right fun l₁ p l₂ h => ?_
  exact absurd h.symm (by simp)

theorem tidyFrom_cons : TidyFrom k ends pre (p :: l) ↔
    (k.has p = true → k.on pre = true → k.resets pre = 0) ∧ TidyFrom k ends (pre ++ [p]) l := by
  have happ : ∀ m : List Piece, pre ++ [p] ++ m = pre ++ p :: m := by
    intro m
    rw [List.append_assoc, List.singleton_append]
  unfold TidyFrom
  rw [happ l, ← and_assoc]
  refine and_congr_left fun _ => ⟨fun h => ⟨?_, ?_⟩, ?_⟩
  · simpa using h [] p l rfl
  · intro l₁ q l₂ he hq hon
    rw [happ] at hon ⊢
    exact h (p :: l₁) q l₂ (by rw [he, List.cons_append]) hq hon
  · rintro ⟨hfirst, hrest⟩ l₁ q l₂ he hq hon
    cases l₁ with
    | nil =>
      obtain ⟨rfl, rfl⟩ := List.cons.inj he
      rw [List.append_nil] at hon ⊢
      exact hfirst hq hon
    | cons r l₁ =>
      obtain ⟨rfl, rfl⟩ := List.cons.inj he
      rw [← happ] at hon ⊢
      exact hrest l₁ q l₂ rfl hq hon

/-- After two resets nothing helps. -/
theorem not_tidyFrom (hon : k.on pre = true) (hr : 2 ≤ k.resets pre) : ¬ TidyFrom k ends pre l := by
  induction l generalizing pre with
  | nil =>
    rw [tidyFrom_nil]
    intro h
    have := h hon
    omega
  | cons p l ih =>
    rw [tidyFrom_cons]
    rintro ⟨hfirst, hrest⟩
    have hp : k.has p = false := by
      by_contra hp
      have := hfirst (by simpa using hp) hon
      omega
    refine ih ?_ ?_ hrest
    · rw [on_concat, Kind.step, hp]
      exact hon
    · rw [resets_concat, hp, if_neg Bool.false_ne_true]
      omega

/-- What is open after `pre`. -/
def Kind.depth (k : Kind) (pre : List Piece) : Nat :=
  if k.on pre then 1 - k.resets pre else 0

/-- What one piece does to the depth, as long as it closes nothing that is closed. -/
theorem balanced_events {tail : List Bool}
    (hfit : k.on pre = true → k.has p = true ∨ p = .reset → k.resets pre = 0) :
    BalancedFrom (k.depth pre) (k.events (k.on pre) p ++ tail) ↔
      BalancedFrom (k.depth (pre ++ [p])) tail := by
  unfold Kind.depth Kind.events
  rw [on_concat, resets_concat, Kind.step]
  cases hp : k.has p with
  | true =>
    cases hon : k.on pre with
    | false => cases k.turned p false <;> simp [BalancedFrom]
    | true =>
      rw [hfit hon (.inl hp)]
      cases k.turned p true <;> simp [BalancedFrom]
  | false =>
    cases hon : k.on pre with
    | false => simp
    | true =>
      by_cases hreset : p = .reset
      · rw [hfit hon (.inr hreset)]
        simp [hreset, BalancedFrom]
      · simp [hreset]

/-- It closes something twice, and that is not undone. -/
theorem not_balanced_events {tail : List Bool} (hon : k.on pre = true) (hr : k.resets pre = 1)
    (hp : k.has p = true ∨ p = .reset) :
    ¬ BalancedFrom (k.depth pre) (k.events (k.on pre) p ++ tail) := by
  unfold Kind.depth Kind.events
  rw [hon, hr]
  rcases hp with hp | rfl
  · simp [hp, BalancedFrom]
  · cases k <;> simp [Kind.has, BalancedFrom]

/-- By induction on what follows: as long as nothing was closed twice, the depth is what the flag
and the resets say. -/
theorem balanced_from (hpre : k.on pre = true → k.resets pre ≤ 1) : BalancedFrom (k.depth pre)
    (k.eventsOf (k.on pre) l ++ if ends = true ∧ k.on (pre ++ l) = true then [false] else []) ↔
      TidyFrom k ends pre l := by
  induction l generalizing pre with
  | nil =>
    rw [tidyFrom_nil, List.append_nil, Kind.eventsOf, List.nil_append, Kind.depth]
    cases hon : k.on pre with
    | false => simp [BalancedFrom]
    | true =>
      have hr := hpre hon
      generalize k.resets pre = r at hr ⊢
      rcases (by omega : r = 0 ∨ r = 1) with rfl | rfl <;> cases ends <;> simp [BalancedFrom]
  | cons p l ih =>
    have happ : pre ++ p :: l = pre ++ [p] ++ l := by
      rw [List.append_assoc, List.singleton_append]
    rw [tidyFrom_cons, happ, Kind.eventsOf, List.append_assoc, ← on_concat]
    by_cases hfit : k.on pre = true → k.has p = true ∨ p = .reset → k.resets pre = 0
    · rw [balanced_events hfit, ih]
      · exact (and_iff_right fun hp hon => hfit hon (.inl hp)).symm
      · rw [on_concat, resets_concat, Kind.step]
        cases hk : k.has p with
        | true => simp
        | false =>
          intro hon
          rw [if_neg Bool.false_ne_true]
          split
          · next hreset => rw [hfit hon (.inr hreset)]
          · exact hpre hon
    · simp only [Classical.not_imp] at hfit
      obtain ⟨hon, hp, hne⟩ := hfit
      have hr : k.resets pre = 1 := by
        have := hpre hon
        omega
      refine iff_of_false (not_balanced_events hon hr hp) ?_
      rintro ⟨hfirst, hrest⟩
      cases hk : k.has p with
      | true => exact hne (hfirst hk hon)
      | false =>
        obtain rfl := hp.resolve_left (by simp [hk])
        refine not_tidyFrom ?_ ?_ hrest
        · rw [on_concat, Kind.step, hk]
          exact hon
        · rw [resets_concat, hk, hr]
          simp

theorem balanced_iff_tidy : BalancedFrom 0 (k.eventsOf false l ++
    if endsInText l = true ∧ k.on l = true then [false] else []) ↔ Tidy k l := by
  have hon : k.on [] = false := by cases k <;> rfl
  have h := @balanced_from k l [] (endsInText l) (by simp [hon])
  rw [Kind.depth, hon, if_neg Bool.false_ne_true] at h
  refine h.trans ⟨fun h => ⟨h.1, ?_⟩, fun h => ⟨h.between, ?_⟩⟩
  · intro hl
    have := h.2 hl
    cases hends : endsInText l <;> simpa [hends] using this
  · intro hl
    have := h.last hl
    cases hends : endsInText l <;> simpa [hends] using this

/-- The tags of the kind in these chunks. -/
def eventsIn (k : Kind) (m : List (Chunk Char)) : List Bool :=
  (m.filterMap Chunk.tag?).filterMap (event k.name)

theorem eventsIn_append (k : Kind) (m m' : List (Chunk Char)) :
    eventsIn k (m ++ m') = eventsIn k m ++ eventsIn k m' := by
  rw [eventsIn, List.filterMap_append, List.filterMap_append]
  rfl

theorem event_fontTag (k : Kind) (fg : Str) (bg : Option Str) :
    event k.name (fontTag fg bg) = if k = .font then some true else none := by
  obtain ⟨r, hr⟩ : ∃ r, fontTag fg bg = str "FONT " ++ r := by
    exact ⟨str "COLOR=\"" ++ ircColors.getD (decimal fg) [] ++ str "\"" ++ _, rfl⟩
  rw [hr]
  cases k <;> simp [event, Kind.name, str]

theorem eventsIn_closing (k : Kind) (f : Flags) :
    eventsIn k (closingChunks f) = if k.flag f = true then [false] else [] := by
  obtain ⟨font, bold, underline, italic⟩ := f
  cases k <;> cases font <;> cases bold <;> cases underline <;> cases italic <;> decide

theorem eventsIn_emit (k : Kind) (f : Flags) (p : Piece) :
    eventsIn k (f.emit escape p) = k.events (k.flag f) p := by
  cases p with
  | text c => cases k <;> rfl
  | dropped => cases k <;> rfl
  | bold =>
    obtain ⟨font, bold, underline, italic⟩ := f
    cases k <;> cases bold <;> rfl
  | underline =>
    obtain ⟨font, bold, underline, italic⟩ := f
    cases k <;> cases underline <;> rfl
  | reset =>
    rw [Flags.emit, eventsIn_closing]
    cases k <;> simp [Kind.events, Kind.has]
  | colour fg bg =>
    have hclose : eventsIn k (closeTag f.font (str "FONT")) =
        if k = .font ∧ k.flag f = true then [false] else [] := by
      cases hf : f.font <;> cases k <;> simp [closeTag, Kind.flag, hf] <;> rfl
    have hopen : eventsIn k (if Piece.opens (.colour fg bg) then [.tag (fontTag fg bg)] else []) =
        if k = .font ∧ Piece.opens (.colour fg bg) = true then [true] else [] := by
      have htag := event_fontTag k fg bg
      cases Piece.opens (.colour fg bg) with
      | false => simp [eventsIn]
      | true => cases k <;> simp [eventsIn, Chunk.tag?, htag]
    rw [Flags.emit, eventsIn_append, hclose, hopen]
    cases hp : Piece.opens (.colour fg bg) <;>
      cases k <;> simp [Kind.events, Kind.has, Kind.turned, hp]

theorem eventsIn_write (k : Kind) (f : Flags) (l : List Piece) :
    eventsIn k (f.write escape l) = k.eventsOf (k.flag f) l := by
  induction l generalizing f with
  | nil => rfl
  | cons p l ih => rw [Flags.write, eventsIn_append, eventsIn_emit, ih, flag_next, Kind.eventsOf]

theorem eventsIn_chunks (k : Kind) (l : List Piece) :
    eventsIn k (({} : Flags).chunks escape l) = k.eventsOf false l ++
      if endsInText l = true ∧ k.on l = true then [false] else [] := by
  have hflag : k.flag {} = false := by cases k <;> rfl
  rw [Flags.chunks, eventsIn_append, eventsIn_write, hflag]
  cases endsInText l with
  | false => rfl
  | true =>
    rw [if_pos rfl, eventsIn_closing, flag_after]
    simp

/-- No tag has a delimiter inside. -/
theorem fontTag_clean (fg : Str) (bg : Option Str) : '>' ∉ fontTag fg bg := by
  have hnames : ∀ x ∈ ircColors, '>' ∉ x := by decide
  have hname : ∀ n, '>' ∉ ircColors.getD n [] := by
    intro n
    rw [List.getD_eq_getElem?_getD]
    cases h : ircColors[n]? with
    | none => exact List.not_mem_nil
    | some x => exact hnames x (List.mem_of_getElem? h)
  unfold fontTag
  simp only [List.mem_append, not_or]
  refine ⟨⟨⟨by decide, hname _⟩, by decide⟩, ?_⟩
  split
  · simp only [List.mem_append, not_or]
    exact ⟨⟨by decide, hname _⟩, by decide⟩
  · exact List.not_mem_nil

theorem closeTag_clean {on : Bool} {name : Str} (h : '>' ∉ name) :
    ∀ x ∈ closeTag on name, x.Clean '<' '>' := by
  intro x hx
  cases on with
  | false => cases hx
  | true =>
    obtain rfl := List.mem_singleton.mp hx
    simpa [Chunk.Clean] using h

theorem closing_clean (f : Flags) : ∀ x ∈ closingChunks f, x.Clean '<' '>' := by
  intro x hx
  simp only [closingChunks, List.mem_append] at hx
  rcases hx with ((hx | hx) | hx) | hx
  all_goals exact closeTag_clean (by decide) x hx

theorem emit_clean (E : Escaping) (f : Flags) (p : Piece) :
    ∀ x ∈ f.emit E.escape p, x.Clean '<' '>' := by
  intro x hx
  cases p with
  | text c =>
    obtain rfl := List.mem_singleton.mp hx
    exact E.untagged c
  | bold =>
    obtain rfl := List.mem_singleton.mp hx
    cases f.bold <;> simp [Chunk.Clean]
  | underline =>
    obtain rfl := List.mem_singleton.mp hx
    cases f.underline <;> simp [Chunk.Clean]
  | dropped => cases hx
  | reset => exact closing_clean f x hx
  | colour fg bg =>
    rcases List.mem_append.mp hx with hx | hx
    · exact closeTag_clean (by decide) x hx
    · split at hx
      · obtain rfl := List.mem_singleton.mp hx
        exact fontTag_clean fg bg
      · cases hx

theorem chunks_clean (E : Escaping) (f : Flags) (l : List Piece) :
    ∀ x ∈ f.chunks E.escape l, x.Clean '<' '>' := by
  have hwrite : ∀ f : Flags, ∀ x ∈ f.write E.escape l, x.Clean '<' '>' := by
    induction l with
    | nil => exact fun _ _ hx => nomatch hx
    | cons p l ih =>
      intro f x hx
      rcases List.mem_append.mp hx with hx | hx
      · exact emit_clean E f p x hx
      · exact ih _ x hx
  intro x hx
  rcases List.mem_append.mp hx with hx | hx
  · exact hwrite f x hx
  · split at hx
    · exact closing_clean _ x hx
    · cases hx

theorem balancedIn_iff (E : Escaping) (k : Kind) (l : List Piece) :
    BalancedIn (asString (({} : Flags).chunks E.escape l)) k.name ↔ Tidy k l := by
  rw [← balanced_iff_tidy, ← @eventsIn_chunks E.escape]
  unfold BalancedIn asString
  rw [tags_write (chunks_clean E {} l)]
  rfl

end Events

end Mirc
end Minbif
