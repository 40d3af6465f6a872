import Minbif.Irc.DccOffer

/-! `Message::rebuildWithQuotes` as it walks the arguments with two iterators. -/
namespace Minbif
namespace Quotes
open Message Tokens

/-- Why the walk does not return. -/
inductive Fault
  /-- An iterator at or past the end is dereferenced. -/
  | pastEnd
  /-- A character outside its string is read. -/
  | outOfString
  | outOfFuel
deriving DecidableEq, Repr

/-- `*it`, an iterator being the position that it is at. -/
def deref (args : List Str) (it : Nat) : Except Fault Str :=
  match args[it]? with
  | some a => .ok a
  | none => .error .pastEnd

section Walk

-- Whether `operator[]` may read the terminator of a string.
variable (terminator : Bool)

/-- `a[i]`. -/
def charAt (a : Str) (i : Int) : Except Fault Char :=
  if i = a.length ∧ terminator = true then .ok '\x00'
  else if i < 0 then .error .outOfString
  else
    match a[i.toNat]? with
    | some c => .ok c
    | none => .error .outOfString

/-- `while((*next)[next->size()-1] != '"')`: the arguments and `next` after it. -/
def gather (s : Nat) : Nat → List Str → Nat → Except Fault (List Str × Nat)
  | 0, _, _ => .error .outOfFuel
  | fuel + 1, args, next => do
    let n ← deref args next
    if (← charAt terminator n (n.length - 1)) = '"' then return (args, next)
    let args := if next = s then args else args.eraseIdx next
    let next := if next = s then next + 1 else next
    if next = args.length then return (args, next)
    let a ← deref args s
    let n ← deref args next
    gather s fuel (args.set s (a ++ ' ' :: n)) next

/-- The mark at the end of the gathered text is taken off. -/
def strip (args : List Str) (s : Nat) : Except Fault (List Str) := do
  let a ← deref args s
  if (← charAt terminator a (a.length - 1)) = '"' then return args.set s a.dropLast
  return args

/-- `for(s = args.begin(); s != args.end(); ++s)`. -/
def rebuild : Nat → List Str → Nat → Except Fault (List Str)
  | 0, _, _ => .error .outOfFuel
  | fuel + 1, args, s => do
    if s = args.length then return args
    let a ← deref args s
    if (← charAt terminator a 0) = '"' ∧ hasSpace a = false then
      let (args, next) ← gather terminator s (fuel + 1) (args.set s a.tail) s
      let args ← strip terminator args s
      if next = args.length then return args
      rebuild fuel (if next = s then args else args.eraseIdx next) (s + 1)
    else rebuild fuel args (s + 1)

/-- The characters that the walk asks for are there, from an argument on that is read while a
quotation is open, or while none is. -/
def InBounds : Bool → List Str → Prop
  | _, [] => True
  | false, a :: args =>
    (terminator = true ∨ a ≠ []) ∧
      if a.head? = some '"' ∧ hasSpace a = false then
        a.tail ≠ [] ∧ InBounds (!closes a.tail) args
      else InBounds false args
  | true, a :: args => a ≠ [] ∧ InBounds (!closes a) args

end Walk

instance (t : Bool) : ∀ (o : Bool) (args : List Str), Decidable (InBounds t o args)
  | _, [] => inferInstanceAs (Decidable True)
  | false, a :: args =>
    have := instDecidableInBounds t (!closes a.tail) args
    have := instDecidableInBounds t false args
    by unfold InBounds; infer_instance
  | true, a :: args =>
    have := instDecidableInBounds t (!closes a) args
    by unfold InBounds; infer_instance

variable {t : Bool} {a q n m : Str} {done rest args : List Str} {fuel : Nat}

theorem deref_at : deref (done ++ a :: rest) done.length = .ok a := by
  simp [deref]

theorem deref_next : deref (done ++ q :: n :: rest) (done.length + 1) = .ok n := by
  simp [deref]

theorem charAt_last : charAt t a (a.length - 1) = match a.getLast? with
    | some c => .ok c
    | none => .error .outOfString := by
  rcases List.eq_nil_or_concat a with rfl | ⟨u, c, rfl⟩
  · simp [charAt]
  · have hlast : (u.length : Int) ≠ u.length + 1 := by omega
    have hpos : ¬ (u.length : Int) < 0 := by omega
    simp [charAt, hlast, hpos]

theorem charAt_first : charAt t a 0 = match a with
    | c :: _ => .ok c
    | [] => if t = true then .ok '\x00' else .error .outOfString := by
  cases a with
  | nil => cases t <;> simp [charAt]
  | cons c a =>
    have hne : ¬ ((0 : Int) = (c :: a).length ∧ t = true) := by
      simp only [List.length_cons]
      omega
    rw [charAt, if_neg hne]
    rfl

/-- The last character is read, or it is none of the string. -/
theorem charAt_last_closes (h : a ≠ []) :
    ∃ c, charAt t a (a.length - 1) = .ok c ∧ (c = '"' ↔ closes a = true) := by
  rcases List.eq_nil_or_concat a with rfl | ⟨u, c, rfl⟩
  · exact absurd rfl h
  · refine ⟨c, by rw [charAt_last]; simp, ?_⟩
    simp [closes]

/-- What a quotation gathers, from its text and its last word on: the text and, where a mark closes
it, the arguments that are left; nothing where the last character of an empty word is asked for. -/
def quoted (q n : Str) : List Str → Option (Str × Option (List Str))
  | [] => if n = [] then none else some (q, if closes n then some [] else none)
  | m :: rest =>
    if n = [] then none
    else if closes n then some (q, some (m :: rest))
    else quoted (q ++ ' ' :: m) m rest

/-- What the walk leaves of a quotation that does not end in its first word. -/
def Gathered (done : List Str) (r : Except Fault (List Str × Nat)) :
    Option (Str × Option (List Str)) → Prop
  | none => r = .error .outOfString
  | some (q, none) => r = .ok (done ++ [q], done.length + 1)
  | some (q, some rest) => ∃ n, r = .ok (done ++ q :: n :: rest, done.length + 1)

theorem gather_turn (hn : n ≠ []) (hopen : closes n = false) :
    gather t done.length (fuel + 1) (done ++ q :: n :: m :: rest) (done.length + 1) =
      gather t done.length fuel (done ++ (q ++ ' ' :: m) :: m :: rest) (done.length + 1) := by
  obtain ⟨c, hc, hquote⟩ := charAt_last_closes (t := t) hn
  have hne : ¬ c = '"' := by simp [hquote, hopen]
  have herase : (done ++ q :: n :: m :: rest).eraseIdx (done.length + 1) = done ++ q :: m :: rest := by
    rw [List.eraseIdx_append_of_length_le (by omega)]
    simp
  have hset : (done ++ q :: m :: rest).set done.length (q ++ ' ' :: m) =
      done ++ (q ++ ' ' :: m) :: m :: rest := by
    rw [List.set_append_right _ _ (Nat.le_refl _)]
    simp
  have hend : ¬ done.length + 1 = (done ++ q :: m :: rest).length := by simp
  have hs : ¬ done.length + 1 = done.length := by omega
  rw [gather, deref_next]
  simp only [bind, Except.bind, hc, if_neg hne, if_neg hs, herase, if_neg hend, deref_at, deref_next,
    hset]

theorem gather_empty :
    gather t done.length (fuel + 1) (done ++ q :: [] :: rest) (done.length + 1) =
      .error .outOfString := by
  rw [gather, deref_next]
  simp only [bind, Except.bind, charAt_last]
  rfl

theorem gather_closed (hclosed : closes n = true) :
    gather t done.length (fuel + 1) (done ++ q :: n :: rest) (done.length + 1) =
      .ok (done ++ q :: n :: rest, done.length + 1) := by
  have hn : n ≠ [] := by
    rintro rfl
    cases hclosed
  obtain ⟨c, hc, hquote⟩ := charAt_last_closes (t := t) hn
  rw [gather, deref_next]
  simp only [bind, Except.bind, hc, if_pos (hquote.mpr hclosed)]
  rfl

theorem gather_last (hn : n ≠ []) (hopen : closes n = false) :
    gather t done.length (fuel + 1) (done ++ [q, n]) (done.length + 1) =
      .ok (done ++ [q], done.length + 1) := by
  obtain ⟨c, hc, hquote⟩ := charAt_last_closes (t := t) hn
  have hne : ¬ c = '"' := by simp [hquote, hopen]
  have herase : (done ++ [q, n]).eraseIdx (done.length + 1) = done ++ [q] := by
    rw [List.eraseIdx_append_of_length_le (by omega)]
    simp
  have hend : done.length + 1 = (done ++ [q]).length := by simp
  have hs : ¬ done.length + 1 = done.length := by omega
  rw [gather, deref_next]
  simp only [bind, Except.bind, hc, if_neg hne, if_neg hs, herase, if_pos hend]
  rfl

/-- The iterator goes from one erased word to the next until a mark, the end or an empty word. -/
theorem gather_quoted (hfuel : rest.length < fuel) :
    Gathered done (gather t done.length fuel (done ++ q :: n :: rest) (done.length + 1))
      (quoted q n rest) := by
  induction rest generalizing q n fuel with
  | nil =>
    obtain ⟨fuel, rfl⟩ := Nat.exists_eq_add_of_lt hfuel
    by_cases hn : n = []
    · subst hn
      exact gather_empty
    · cases hclose : closes n with
      | true => simpa [quoted, hn, hclose, Gathered] using ⟨n, gather_closed hclose⟩
      | false => simpa [quoted, hn, hclose, Gathered] using gather_last hn hclose
  | cons m rest ih =>
    obtain ⟨fuel, rfl⟩ : ∃ k, fuel = k + 1 := ⟨fuel - 1, by omega⟩
    by_cases hn : n = []
    · subst hn
      exact gather_empty
    · cases hclose : closes n with
      | true => simpa [quoted, hn, hclose, Gathered] using ⟨n, gather_closed hclose⟩
      | false =>
        rw [quoted, if_neg hn, hclose, gather_turn hn hclose]
        simp only [List.length_cons] at hfuel
        exact ih (by omega)

/-- The first word of a quotation is read where it stands. -/
theorem gather_first (hq : q ≠ []) :
    gather t done.length (fuel + 1) (done ++ q :: rest) done.length =
      if closes q then .ok (done ++ q :: rest, done.length)
      else
        match rest with
        | [] => .ok (done ++ [q], done.length + 1)
        | n :: rest =>
          gather t done.length fuel (done ++ (q ++ ' ' :: n) :: n :: rest) (done.length + 1) := by
  obtain ⟨c, hc, hquote⟩ := charAt_last_closes (t := t) hq
  rw [gather, deref_at]
  cases hclose : closes q with
  | true =>
    simp only [bind, Except.bind, hc, if_pos (hquote.mpr hclose)]
    rfl
  | false =>
    have hne : ¬ c = '"' := by simp [hquote, hclose]
    cases rest with
    | nil => simp [bind, Except.bind, hc, hne, pure, Except.pure]
    | cons n rest =>
      have hset : (done ++ q :: n :: rest).set done.length (q ++ ' ' :: n) =
          done ++ (q ++ ' ' :: n) :: n :: rest := by
        rw [List.set_append_right _ _ (Nat.le_refl _)]
        simp
      have hend : ¬ done.length + 1 = (done ++ q :: n :: rest).length := by simp
      simp only [bind, Except.bind, hc, if_neg hne, if_true, if_neg hend, deref_at, deref_next, hset]
      rfl

theorem strip_eq (hq : q ≠ []) :
    strip t (done ++ q :: rest) done.length = .ok (done ++ unquote q :: rest) := by
  obtain ⟨c, hc, hquote⟩ := charAt_last_closes (t := t) hq
  have hset : (done ++ q :: rest).set done.length q.dropLast = done ++ q.dropLast :: rest := by
    rw [List.set_append_right _ _ (Nat.le_refl _)]
    simp
  rw [strip, deref_at, unquote]
  simp only [bind, Except.bind, hc, hquote, hset]
  cases closes q <;> rfl

/-- What the walk has read of a quotation and what it leaves, against the arguments it started from. -/
def Reads (t : Bool) (q₀ : Str) (l : List Str) : Option (Str × Option (List Str)) → Prop
  | none => ¬ InBounds t true l
  | some (q, none) => q ≠ [] ∧ InBounds t true l ∧ rebuildLoop (some q₀) l = [unquote q]
  | some (q, some rest) =>
    q ≠ [] ∧ rest.length < l.length ∧ (InBounds t true l ↔ InBounds t false rest) ∧
      rebuildLoop (some q₀) l = unquote q :: rebuildLoop none rest

theorem quoted_reads (q₀ n : Str) (rest : List Str) :
    Reads t q₀ (n :: rest) (quoted (q₀ ++ ' ' :: n) n rest) := by
  induction rest generalizing q₀ n with
  | nil =>
    by_cases hn : n = []
    · simp [quoted, hn, Reads, InBounds]
    · cases hclose : closes n <;> simp [quoted, hn, hclose, Reads, InBounds, rebuildLoop]
  | cons m rest ih =>
    by_cases hn : n = []
    · simp [quoted, hn, Reads, InBounds]
    · cases hclose : closes n with
      | true => simp [quoted, hn, hclose, Reads, InBounds, rebuildLoop]
      | false =>
        have hgo := ih (q₀ ++ ' ' :: n) m
        have hbounds : InBounds t true (n :: m :: rest) ↔ InBounds t true (m :: rest) := by
          rw [InBounds, hclose]
          exact and_iff_right hn
        have hloop : rebuildLoop (some q₀) (n :: m :: rest) =
            rebuildLoop (some (q₀ ++ ' ' :: n)) (m :: rest) := by
          rw [rebuildLoop, hclose]
          rfl
        rw [quoted, if_neg hn, hclose, if_neg Bool.false_ne_true]
        generalize quoted (q₀ ++ ' ' :: n ++ ' ' :: m) m rest = r at hgo
        rcases r with _ | ⟨q, _ | tail⟩
        · exact fun h => hgo (hbounds.mp h)
        · obtain ⟨hq, hin, heq⟩ := hgo
          exact ⟨hq, hbounds.mpr hin, hloop.trans heq⟩
        · obtain ⟨hq, hlen, hin, heq⟩ := hgo
          exact ⟨hq, Nat.lt_succ_of_lt hlen, hbounds.trans hin, hloop.trans heq⟩

section Turns

/-- An argument that opens no quotation is passed. -/
theorem rebuild_plain (h : ¬ (a.head? = some '"' ∧ hasSpace a = false)) :
    rebuild t (fuel + 1) (done ++ a :: rest) done.length =
      if t = true ∨ a ≠ [] then rebuild t fuel (done ++ [a] ++ rest) (done ++ [a]).length
      else .error .outOfString := by
  have hend : ¬ done.length = (done ++ a :: rest).length := by simp
  have hgo : done ++ a :: rest = done ++ [a] ++ rest := by simp
  have hlen : done.length + 1 = (done ++ [a]).length := by simp
  rw [rebuild, if_neg hend, deref_at, hgo, hlen]
  simp only [bind, Except.bind, charAt_first]
  cases a with
  | nil => cases t <;> simp
  | cons c a =>
    have hplain : ¬ (c = '"' ∧ hasSpace (c :: a) = false) := by simpa using h
    simp only [if_neg hplain]
    simp

/-- An argument that opens one starts the inner loop, both iterators standing on it. -/
theorem rebuild_opening {u : Str} (hu : hasSpace ('"' :: u) = false) :
    rebuild t (fuel + 1) (done ++ ('"' :: u) :: rest) done.length = (do
      let (args, next) ← gather t done.length (fuel + 1) (done ++ u :: rest) done.length
      let args ← strip t args done.length
      if next = args.length then return args
      rebuild t fuel (if next = done.length then args else args.eraseIdx next)
        (done.length + 1)) := by
  have hend : ¬ done.length = (done ++ ('"' :: u) :: rest).length := by simp
  have hset : (done ++ ('"' :: u) :: rest).set done.length u = done ++ u :: rest := by
    rw [List.set_append_right _ _ (Nat.le_refl _)]
    simp
  rw [rebuild, if_neg hend, deref_at]
  simp only [bind, Except.bind, charAt_first, hu, and_self, if_true, List.tail_cons, hset]

end Turns

theorem inBounds_plain (h : ¬ (a.head? = some '"' ∧ hasSpace a = false)) :
    InBounds t false (a :: rest) ↔ (t = true ∨ a ≠ []) ∧ InBounds t false rest := by
  rw [InBounds, if_neg h]

theorem inBounds_opening {u : Str} (hu : hasSpace ('"' :: u) = false) :
    InBounds t false (('"' :: u) :: rest) ↔ u ≠ [] ∧ InBounds t (!closes u) rest := by
  rw [InBounds, if_pos ⟨rfl, hu⟩, List.tail_cons]
  exact and_iff_right (.inr (List.cons_ne_nil _ _))

/-- A mark that stands alone leaves an empty text, of which the last character is asked for. -/
theorem rebuild_mark (hu : hasSpace (str "\"") = false) :
    rebuild t (fuel + 1) (done ++ str "\"" :: rest) done.length = .error .outOfString := by
  have hgather : gather t done.length (fuel + 1) (done ++ [] :: rest) done.length =
      .error .outOfString := by
    rw [gather, deref_at]
    simp only [bind, Except.bind, charAt_last]
    rfl
  rw [show str "\"" = '"' :: [] from rfl, rebuild_opening hu, hgather]
  rfl

/-- A quotation that ends in the word that it begins with. -/
theorem rebuild_word {u : Str} (hu : hasSpace ('"' :: u) = false) (hne : u ≠ [])
    (hclose : closes u = true) :
    rebuild t (fuel + 1) (done ++ ('"' :: u) :: rest) done.length =
      rebuild t fuel (done ++ [unquote u] ++ rest) (done ++ [unquote u]).length := by
  have hend : ¬ done.length = (done ++ unquote u :: rest).length := by simp
  have hgo : done ++ unquote u :: rest = done ++ [unquote u] ++ rest := by simp
  have hlen : done.length + 1 = (done ++ [unquote u]).length := by simp
  rw [rebuild_opening hu, gather_first hne, if_pos hclose]
  simp only [bind, Except.bind, strip_eq hne, if_neg hend, if_true]
  rw [hgo, hlen]

/-- The walk after a quotation. -/
def resume (t : Bool) (fuel : Nat) (done : List Str) :
    Option (Str × Option (List Str)) → Except Fault (List Str)
  | none => .error .outOfString
  | some (q, none) => .ok (done ++ [unquote q])
  | some (q, some rest) => rebuild t fuel (done ++ [unquote q] ++ rest) (done ++ [unquote q]).length

/-- A quotation that goes on in the words after the one that it begins with. -/
theorem rebuild_words {u : Str} {r : Option (Str × Option (List Str))} {l : List Str}
    (hu : hasSpace ('"' :: u) = false) (hne : u ≠ []) (hclose : closes u = false)
    (hgather : Gathered done
      (gather t done.length fuel (done ++ (u ++ ' ' :: n) :: n :: rest) (done.length + 1)) r)
    (hreads : Reads t u l r) :
    rebuild t (fuel + 1) (done ++ ('"' :: u) :: n :: rest) done.length = resume t fuel done r := by
  rw [rebuild_opening hu, gather_first hne, hclose, if_neg Bool.false_ne_true]
  match r, hgather, hreads with
  | none, hgather, _ =>
    rw [Gathered] at hgather
    simp only [hgather]
    rfl
  | some (q, none), hgather, ⟨hq, _⟩ =>
    have hend : done.length + 1 = (done ++ [unquote q]).length := by simp
    rw [Gathered] at hgather
    simp only [hgather, bind, Except.bind, strip_eq hq, if_pos hend]
    rfl
  | some (q, some rest), ⟨n, hgather⟩, ⟨hq, _⟩ =>
    have hend : ¬ done.length + 1 = (done ++ unquote q :: n :: rest).length := by simp
    have hs : ¬ done.length + 1 = done.length := by omega
    have herase : (done ++ unquote q :: n :: rest).eraseIdx (done.length + 1) =
        done ++ [unquote q] ++ rest := by
      rw [List.eraseIdx_append_of_length_le (by omega)]
      simp
    have hlen : done.length + 1 = (done ++ [unquote q]).length := by simp
    simp only [hgather, bind, Except.bind, strip_eq hq, if_neg hend, if_neg hs, herase]
    rw [resume, hlen]

/-- The walk either reads all the characters it asks for and puts the quotations together, or asks
for a character that is not there; it never leaves the arguments and never runs on. -/
theorem rebuild_eq (hfuel : rest.length < fuel) :
    rebuild t fuel (done ++ rest) done.length =
      if InBounds t false rest then .ok (done ++ rebuildLoop none rest) else .error .outOfString := by
  induction fuel generalizing done rest with
  | zero => omega
  | succ fuel ih =>
    cases rest with
    | nil => simp [rebuild, InBounds, rebuildLoop, pure, Except.pure]
    | cons a rest =>
      simp only [List.length_cons] at hfuel
      by_cases hopen : a.head? = some '"' ∧ hasSpace a = false
      · obtain ⟨u, rfl⟩ : ∃ u, a = '"' :: u := List.head?_eq_some_iff.mp hopen.1
        have hu := hopen.2
        simp only [inBounds_opening hu]
        rw [rebuildLoop, if_pos hopen, List.tail_cons]
        by_cases hne : u = []
        · subst hne
          rw [if_neg fun h => h.1 rfl]
          exact rebuild_mark hu
        cases hclose : closes u with
        | true =>
          rw [rebuild_word hu hne hclose, ih (by omega)]
          simp [hne]
        | false =>
          cases rest with
          | nil =>
            have hend : done.length + 1 = (done ++ [u]).length := by simp
            have htext : unquote u = u := by rw [unquote, hclose]; rfl
            rw [rebuild_opening hu, gather_first hne, hclose, if_neg Bool.false_ne_true]
            simp only [bind, Except.bind, strip_eq hne, htext, if_pos hend]
            simp [hne, InBounds, rebuildLoop, htext, pure, Except.pure]
          | cons n rest =>
            simp only [List.length_cons] at hfuel
            have hreads := quoted_reads (t := t) u n rest
            rw [rebuild_words hu hne hclose (gather_quoted (by omega)) hreads]
            generalize quoted (u ++ ' ' :: n) n rest = r at hreads
            rcases r with _ | ⟨q, _ | tail⟩
            · rw [resume, if_neg fun h => hreads h.2]
            · obtain ⟨-, hin, heq⟩ := hreads
              simp [resume, hne, hin, heq]
            · obtain ⟨-, hlen, hin, heq⟩ := hreads
              simp only [List.length_cons] at hlen
              have hgo := @ih (done ++ [unquote q]) tail (by omega)
              rw [resume, hgo]
              simp [hne, hin, heq]
      · rw [rebuild_plain hopen, rebuildLoop, if_neg hopen]
        simp only [inBounds_plain hopen]
        by_cases hread : t = true ∨ a ≠ []
        · rw [if_pos hread, ih (by omega)]
          simp [hread]
        · rw [if_neg hread, if_neg fun h => hread h.1]

theorem rebuild_whole (hfuel : args.length < fuel) :
    rebuild t fuel args 0 =
      if InBounds t false args then .ok (rebuildWithQuotes args) else .error .outOfString := by
  have h := @rebuild_eq t [] args fuel hfuel
  simpa [rebuildWithQuotes] using h

/-- Where the terminator may be read, only last characters can be missing. -/
theorem inBounds_true : ∀ (o : Bool) (args : List Str), InBounds true o args ↔ LooksInside o args
  | _, [] => by simp [InBounds, LooksInside]
  | true, a :: args => by rw [InBounds, LooksInside, inBounds_true]
  | false, a :: args => by
    rw [InBounds, LooksInside, inBounds_true, inBounds_true]
    exact and_iff_right (.inl rfl)

section Positions

/-- Whether a quotation is open after the argument. -/
def quotingAfter (inside : Bool) (a : Str) : Bool :=
  if inside then !closes a else a.head? == some '"' && !hasSpace a && !closes a.tail

/-- Whether a quotation is open after these arguments. -/
def quoting (pre : List Str) : Bool := pre.foldl quotingAfter false

/-- The characters asked for of the argument are there. -/
def Readable (t inside : Bool) (a : Str) : Prop :=
  if inside then a ≠ [] else a ≠ str "\"" ∧ (t = true ∨ a ≠ [])

theorem inBounds_cons {o : Bool} :
    InBounds t o (a :: args) ↔ Readable t o a ∧ InBounds t (quotingAfter o a) args := by
  cases o with
  | true => rfl
  | false =>
    by_cases hopen : a.head? = some '"' ∧ hasSpace a = false
    · obtain ⟨u, rfl⟩ : ∃ u, a = '"' :: u := List.head?_eq_some_iff.mp hopen.1
      have hmark : u ≠ [] ↔ '"' :: u ≠ str "\"" := by simp [str]
      rw [inBounds_opening hopen.2, hmark]
      simp [Readable, quotingAfter, hopen.2]
    · have hplain : quotingAfter false a = false := by
        simp only [quotingAfter, Bool.false_eq_true, if_false, Bool.and_eq_false_iff]
        left
        simpa [Classical.or_iff_not_imp_left] using hopen
      have hmark : a ≠ str "\"" := by
        rintro rfl
        exact hopen (by decide)
      rw [inBounds_plain hopen, hplain, Readable]
      simp [hmark]

theorem inBounds_iff {o : Bool} : InBounds t o args ↔
    ∀ pre a post, args = pre ++ a :: post → Readable t (pre.foldl quotingAfter o) a := by
  induction args generalizing o with
  | nil => simp [InBounds]
  | cons b args ih =>
    rw [inBounds_cons, ih]
    constructor
    · rintro ⟨hb, h⟩ pre a post heq
      cases pre with
      | nil =>
        obtain ⟨rfl, -⟩ := List.cons.inj heq
        exact hb
      | cons c pre =>
        obtain ⟨rfl, htail⟩ := List.cons.inj heq
        exact h pre a post htail
    · intro h
      refine ⟨h [] b args rfl, fun pre a post heq => ?_⟩
      exact h (b :: pre) a post (by rw [heq, List.cons_append])

end Positions

/-- The walk goes through exactly if no quotation mark stands alone where a quotation can begin, and
no argument is empty where one is open; without terminators no argument may be empty at all. -/
theorem rebuild_in_bounds_iff (t : Bool) (args : List Str) (fuel : Nat) (h : args.length < fuel) :
    (∃ args', rebuild t fuel args 0 = .ok args') ↔
      ∀ pre a post, args = pre ++ a :: post →
        if quoting pre then a ≠ [] else a ≠ str "\"" ∧ (t = true ∨ a ≠ []) := by
  rw [rebuild_whole h]
  constructor
  · rintro ⟨args', hargs⟩
    have hin : InBounds t false args := by
      by_contra hout
      rw [if_neg hout] at hargs
      cases hargs
    exact inBounds_iff.mp hin
  · intro hread
    exact ⟨_, if_pos (inBounds_iff.mpr hread)⟩

/-- A quotation with a space in the middle, closed before the end. -/
theorem rebuild_in_bounds_alias :
    ∃ args', rebuild false 5 [str "add", str "\"my", str "name\"", str "x"] 0 = .ok args' := by
  refine (rebuild_in_bounds_iff false _ 5 (by decide)).mpr (inBounds_iff.mp ?_)
  decide

/-- A mark alone in a command of the client, an empty last argument, and a mark alone in a request
for a transfer. -/
theorem rebuild_reads_outside :
    (∃ m, parse (str "MAP add jabber \"") = .ok m ∧
      ∀ t, rebuild t 9 m.args 0 = .error .outOfString) ∧
    (∃ m, parse (str "MAP add \"my :") = .ok m ∧
      ∀ t, rebuild t 9 m.args 0 = .error .outOfString) ∧
    ∀ t, rebuild t 9 (dccWords (str "\x01DCC SEND \"\x01")) 0 = .error .outOfString := by
  refine ⟨⟨_, rfl, fun t => ?_⟩, ⟨_, rfl, fun t => ?_⟩, fun t => ?_⟩ <;> cases t <;> decide

end Quotes
end Minbif
