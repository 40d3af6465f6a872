import Minbif.Im.Messages
import Minbif.Irc.ConvEntity

/-! From the User of one gateway to the User of another: the texts that go through the queue of a nick,
`sendMessage`, libpurple at both ends, `write_conv` and `recvMessage`. -/
namespace Minbif
namespace Talk
open Mirc Tagged Tokens Batch ConvEntity Runs

/-- A text that `purple_message_meify` takes for an action. -/
def Me (t : Str) : Prop := strlower (t.take 4) = str "/me "

instance (t : Str) : Decidable (Me t) := inferInstanceAs (Decidable (_ = _))

/-- The functions of `W` are those of `H`, once `&apos;` is undone: a character is escaped by an entity,
a message is an action if its text starts with `/me`, and the protocol does not know the command. -/
structure Transparent (W : Wire) (H : Html) : Prop where
  escape : ∀ c, H.escape c = unquoteFrom 0 (W.escape c)
  entity : ∀ c, W.escape c = [c] ∧ c ≠ '&' ∨
    ∃ name, W.escape c = '&' :: name ++ [';'] ∧ '&' ∉ name ∧ ';' ∉ name
  letters : ∀ c, (str "/me ").contains c = true → W.escape c = [c]
  control : H.plain '\x01' = false
  withHtml : W.withHtml = H.withHtml
  stripHtml : W.stripHtml = H.stripHtml
  command : ∀ cmd markup, W.command cmd markup = false
  meify_me : ∀ m, W.meify (str "/me " ++ m) = some m
  meify_other : ∀ m, ¬ Me (strip '<' '>' false m) → W.meify m = none

/-- A text of the User: a line, an action, or a notice of typing where these are shown. -/
inductive Sayable (H : Html) (notice : Bool) (K : Str → Prop) : Str → Prop
  | line (s : Str) : Typed H s → K s → ¬ Me ((pieces s).flatMap Piece.plain) → Sayable H notice K s
  | action (s : Str) : Typed H s → K s → Sayable H notice K (actionStart ++ s ++ ['\x01'])
  | typing (state : TypingState) : notice = true → state ≠ .typed →
      ∀ text ∈ buddyTyping notice state, Sayable H notice K text

/-- How a client shows the text of a PRIVMSG: whether as an action, and its characters. -/
def asShown (s : Str) : Bool × List (Char × Look) :=
  if actionStart.isPrefixOf s then (true, shown (ctcpText s)) else (false, shown s)

variable {W : Wire} {H : Html} {notice : Bool} {I : Flags → Prop} {K : Str → Prop} {s t r : Str}
  {l : List Piece} {f : Flags} {c : Char} {ls ts ss : List Str} {who : Str}

section Unquote

theorem unquoteFrom_drop (skip : Nat) (s : Str) : unquoteFrom skip s = unquoteFrom 0 (s.drop skip) := by
  induction skip generalizing s with
  | zero => rfl
  | succ skip ih =>
    cases s with
    | nil => rfl
    | cons c s => exact ih s

theorem unquote_plain (h : '&' ∉ s) (r : Str) : unquoteFrom 0 (s ++ r) = s ++ unquoteFrom 0 r := by
  induction s with
  | nil => rfl
  | cons c s ih =>
    rw [List.mem_cons, not_or] at h
    have hno : (str "&apos;").isPrefixOf (c :: (s ++ r)) = false := by
      have hc : ('&' == c) = false := by simpa using h.1
      simp [str, List.isPrefixOf, hc]
    rw [List.cons_append, unquoteFrom, if_neg (by rw [hno]; nofun), ih h.2]
    rfl

theorem unquote_self (h : '&' ∉ s) : unquoteFrom 0 s = s := by
  have hself := unquote_plain h []
  rwa [unquoteFrom, List.append_nil] at hself

/-- The first semicolon ends the name. -/
theorem name_unique {a b x y : Str} (ha : ';' ∉ a) (hb : ';' ∉ b)
    (h : a ++ ';' :: x = b ++ ';' :: y) : a = b := by
  have hcut : ∀ u v : Str, ';' ∉ u → (u ++ ';' :: v).takeWhile (· ≠ ';') = u := by
    intro u v hu
    rw [List.takeWhile_append_of_pos]
    · simp
    · intro c hc
      simpa using fun heq : c = ';' => hu (heq ▸ hc)
  rw [← hcut a x ha, h, hcut b y hb]

/-- `&apos;` is found at an entity or nowhere. -/
theorem unquote_entity {name : Str} (hamp : '&' ∉ name) (hsemi : ';' ∉ name) (r : Str) :
    unquoteFrom 0 ('&' :: name ++ [';'] ++ r) =
      unquoteFrom 0 ('&' :: name ++ [';']) ++ unquoteFrom 0 r := by
  by_cases hapos : name = str "apos"
  · subst hapos
    have hone : ∀ r, unquoteFrom 0 ('&' :: str "apos" ++ [';'] ++ r) = '\'' :: unquoteFrom 0 r := by
      intro r
      have hskip := unquoteFrom_drop 5 (str "apos;" ++ r)
      exact congrArg ('\'' :: ·) hskip
    have hnil := hone []
    rw [List.append_nil] at hnil
    rw [hone, hnil]
    rfl
  · have hno : ∀ r, (str "&apos;").isPrefixOf ('&' :: (name ++ [';'] ++ r)) = false := by
      intro r
      rw [Bool.eq_false_iff]
      intro hpre
      obtain ⟨rest, hrest⟩ := List.isPrefixOf_iff_prefix.mp hpre
      have heq : str "apos" ++ ';' :: rest = name ++ ';' :: r := by
        have htail := congrArg List.tail hrest
        simpa [str] using htail
      exact hapos (name_unique (by decide) hsemi heq).symm
    have hbody : '&' ∉ name ++ [';'] := by simpa using hamp
    have hstep : ∀ r, unquoteFrom 0 ('&' :: name ++ [';'] ++ r) =
        '&' :: (name ++ [';'] ++ unquoteFrom 0 r) := by
      intro r
      have hsame : '&' :: name ++ [';'] ++ r = '&' :: (name ++ [';'] ++ r) := rfl
      rw [hsame, unquoteFrom, if_neg (by rw [hno]; nofun), unquote_plain hbody]
    have hnil := hstep []
    rw [List.append_nil] at hnil
    rw [hstep, hnil]
    simp [unquoteFrom]

variable (hW : Transparent W H)
include hW

theorem Transparent.unquote_escape (c : Char) (r : Str) :
    unquoteFrom 0 (W.escape c ++ r) = H.escape c ++ unquoteFrom 0 r := by
  rw [hW.escape]
  rcases hW.entity c with ⟨hc, hamp⟩ | ⟨name, hname, hamp, hsemi⟩
  · have hfree : '&' ∉ [c] := by simpa using Ne.symm hamp
    rw [hc, unquote_plain hfree, unquote_self hfree]
  · rw [hname]
    exact unquote_entity hamp hsemi r

theorem Transparent.unquote_write (f : Flags) (l : List Piece) (r : Str) :
    unquoteFrom 0 (asString (f.write W.escape l) ++ r) =
      asString (f.write H.escape l) ++ unquoteFrom 0 r := by
  induction l generalizing f with
  | nil => rfl
  | cons p l ih =>
    rw [Flags.write, Flags.write, asString_append, asString_append, List.append_assoc,
      List.append_assoc, ← ih]
    cases hp : p.isText with
    | true =>
      cases p with
      | text c =>
        rw [emit_text, emit_text]
        exact hW.unquote_escape c _
      | _ => cases hp
    | false =>
      obtain ⟨heq, hbare⟩ := emit_code hp W.escape H.escape f
      rw [← heq]
      exact unquote_plain (fun hmem => (hbare _ hmem).2.2 rfl) _

/-- The text that libpurple is given. -/
theorem Transparent.sendText (s : Str) :
    W.sendText s = [.markup (asString (({} : Flags).chunks H.escape (pieces s)))] := by
  have hunquote : unquoteFrom 0 (asString (({} : Flags).chunks W.escape (pieces s))) =
      asString (({} : Flags).chunks H.escape (pieces s)) := by
    rw [Flags.chunks, Flags.chunks, asString_append, asString_append, hW.unquote_write]
    congr 1
    split
    · have hbare := closing_bare (({} : Flags).after (pieces s))
      exact unquote_self fun hmem => (hbare _ hmem).2.2 rfl
    · rfl
  rw [Wire.sendText, irc2markup_eq, Option.map_some, hunquote]
  rfl

end Unquote

section Meant

theorem Html.clean (H : Html) (f : Flags) (l : List Piece) :
    ∀ x ∈ f.chunks H.escape l, x.Clean '<' '>' := by
  have hwrite : ∀ f : Flags, ∀ x ∈ f.write H.escape l, x.Clean '<' '>' := by
    induction l with
    | nil => exact fun _ _ hx => nomatch hx
    | cons p l ih =>
      intro f x hx
      rcases List.mem_append.mp hx with hx | hx
      · cases hp : p.isText with
        | true =>
          cases p with
          | text c =>
            obtain rfl := List.mem_singleton.mp hx
            exact H.untagged c
          | _ => cases hp
        | false =>
          rw [(emit_code hp H.escape entities.escape f).1] at hx
          exact emit_clean entities f p x hx
      · exact ih _ x hx
  intro x hx
  rcases List.mem_append.mp hx with hx | hx
  · exact hwrite f x hx
  · split at hx
    · exact closing_clean _ x hx
    · cases hx

/-- What is read of a line before its end. -/
theorem start_newline {w v : Str} (hw : '\n' ∉ w) (r : Str)
    (h : strlower ((v ++ '\n' :: r).take w.length) = w) : strlower (v.take w.length) = w := by
  induction w generalizing v with
  | nil => rfl
  | cons a w ih =>
    rw [List.mem_cons, not_or] at hw
    cases v with
    | nil =>
      have hhead := (List.cons.inj h).1
      exact (hw.1 hhead).elim
    | cons c v =>
      obtain ⟨hhead, htail⟩ := List.cons.inj h
      have hrest := ih hw.2 htail
      rw [List.length_cons, List.take_succ_cons]
      exact congrArg₂ List.cons hhead hrest

variable (hW : Transparent W H)
include hW

theorem Transparent.escape_head (c : Char) : H.escape c = [c] ∨
    ∃ d r, H.escape c = d :: r ∧ (d = '&' ∨ d = '\'') := by
  rw [hW.escape]
  rcases hW.entity c with ⟨hc, hamp⟩ | ⟨name, hname, -, -⟩
  · left
    rw [hc]
    exact unquote_self (by simpa using Ne.symm hamp)
  · right
    rw [hname, List.cons_append, unquoteFrom]
    split
    · exact ⟨_, _, rfl, .inr rfl⟩
    · exact ⟨_, _, rfl, .inl rfl⟩

/-- An escaped text starts with a word only if the text does. -/
theorem Transparent.start_escaped {w t : Str} (hw : ∀ c ∈ w, c ≠ '&' ∧ c ≠ '\'')
    (h : strlower ((t.flatMap H.escape).take w.length) = w) : strlower (t.take w.length) = w := by
  induction w generalizing t with
  | nil => rfl
  | cons a w ih =>
    obtain ⟨ha, hw⟩ := List.forall_mem_cons.mp hw
    cases t with
    | nil => cases h
    | cons c t =>
      rw [List.flatMap_cons] at h
      rcases hW.escape_head c with hc | ⟨d, r, hc, hd⟩
      · rw [hc] at h
        obtain ⟨hhead, htail⟩ := List.cons.inj h
        have hrest := ih hw htail
        rw [List.length_cons, List.take_succ_cons]
        exact congrArg₂ List.cons hhead hrest
      · rw [hc] at h
        have hhead := (List.cons.inj h).1
        rcases hd with rfl | rfl
        · exact (ha.1 hhead.symm).elim
        · exact (ha.2 hhead.symm).elim

theorem Transparent.meify_line (h : ¬ Me (l.flatMap Piece.plain)) :
    W.meify (asString (({} : Flags).chunks H.escape l)) = none := by
  refine hW.meify_other _ fun hme => h ?_
  have hstrip : strip '<' '>' false (asString (({} : Flags).chunks H.escape l)) =
      (l.flatMap Piece.plain).flatMap H.escape := by
    rw [← text_chunks]
    exact strip_write (Html.clean H _ l)
  rw [hstrip] at hme
  exact hW.start_escaped (w := str "/me ") (forall_of_all (by decide)) hme

end Meant

section Told

theorem show_mem {k : Look} {x : Char × Look} (h : x ∈ k.show l) : .text x.1 ∈ l := by
  induction l generalizing k with
  | nil => cases h
  | cons p l ih =>
    cases p with
    | text c =>
      rcases List.mem_cons.mp h with rfl | h
      · exact List.mem_cons_self
      · exact List.mem_cons_of_mem _ (ih h)
    | _ => exact List.mem_cons_of_mem _ (ih h)

/-- A line that looks like one of the User is no CTCP text. -/
theorem line_noCtcp (hc : H.plain '\x01' = false) (h : Typed H s) (ht : shown t = shown s) :
    isCtcp t = false := by
  cases t with
  | nil => rfl
  | cons c t =>
    rw [isCtcp, List.head?_cons, beq_eq_false_iff_ne]
    intro heq
    obtain rfl := Option.some.inj heq
    have hmem : ('\x01', ({} : Look)) ∈ shown s := by
      rw [← ht, shown, pieces_cons, pieceAt_plain (by decide)]
      exact List.mem_cons_self
    have hplain := h.plain '\x01' (show_mem hmem)
    rw [hc] at hplain
    cases hplain

theorem not_prefix {w : Str} (hs : isCtcp s = false) : ('\x01' :: w).isPrefixOf s = false := by
  cases s with
  | nil => rfl
  | cons c s =>
    rw [isCtcp, List.head?_cons, beq_eq_false_iff_ne] at hs
    have hc : ('\x01' == c) = false := beq_eq_false_iff_ne.mpr fun h => hs (h ▸ rfl)
    rw [List.isPrefixOf, hc]
    rfl

theorem asShown_line (hs : isCtcp s = false) : asShown s = (false, shown s) := by
  have hno : actionStart.isPrefixOf s = false := not_prefix hs
  rw [asShown, hno]
  rfl

theorem action_prefix (s : Str) : actionStart.isPrefixOf (actionStart ++ s ++ ['\x01']) = true :=
  List.isPrefixOf_iff_prefix.mpr ⟨s ++ ['\x01'], (List.append_assoc _ _ _).symm⟩

theorem ctcpText_action (s : Str) : ctcpText (actionStart ++ s ++ ['\x01']) = s := by
  have hdrop : (actionStart ++ s ++ ['\x01']).drop 8 = s ++ ['\x01'] := rfl
  rw [ctcpText, hdrop, List.dropLast_concat]

theorem asShown_action (s : Str) : asShown (actionStart ++ s ++ ['\x01']) = (true, shown s) := by
  rw [asShown, action_prefix, if_pos rfl, ctcpText_action]

theorem said_eq (text : Str) (action : Bool) : said text action = (tokens lineEnds.contains text).map
    fun line => if action then actionStart ++ line ++ ['\x01'] else line := by
  rw [said, stringtokLoop_eq (Nat.lt_succ_self _)]

theorem told_markup (text : Str) : W.told notice who (.markup text) =
    said (markup2irc W.withHtml W.stripHtml ((W.meify text).getD text)) (W.meify text).isSome := rfl

variable (hW : Transparent W H)
include hW

/-- Lines that are sent together are told one by one. -/
theorem Transparent.told_lines (hls : ∀ s ∈ ls, Typed H s ∧ Keeps I s) (hne : ls ≠ []) (hI : I {})
    (hme : ¬ Me ((pieces (['\n'].intercalate ls)).flatMap Piece.plain)) :
    ((W.sendText (['\n'].intercalate ls)).flatMap (W.told notice who)).map asShown =
      ls.map asShown := by
  have hback := lines_markup2irc H hls hne hI
  have htold : (W.sendText (['\n'].intercalate ls)).flatMap (W.told notice who) =
      tokens lineEnds.contains (markup2irc H.withHtml H.stripHtml (asString
        (({} : Flags).chunks H.escape (pieces (['\n'].intercalate ls))))) := by
    rw [hW.sendText, List.flatMap_singleton, told_markup, hW.meify_line hme, said_eq, hW.withHtml,
      hW.stripHtml]
    exact List.map_id _
  rw [htold]
  generalize tokens lineEnds.contains _ = back at hback ⊢
  have hback' : back.map asShown = back.map fun t => (false, shown t) := by
    refine List.map_congr_left fun t ht => ?_
    have hmem : shown t ∈ ls.map shown := hback ▸ List.mem_map_of_mem ht
    obtain ⟨s, hs, hshown⟩ := List.mem_map.mp hmem
    exact asShown_line (line_noCtcp hW.control (hls s hs).1 hshown.symm)
  have hls' : ls.map asShown = ls.map fun t => (false, shown t) :=
    List.map_congr_left fun s hs => asShown_line (line_noCtcp hW.control (hls s hs).1 rfl)
  have hpair := congrArg (List.map fun x : List (Char × Look) => (false, x)) hback
  rw [List.map_map, List.map_map] at hpair
  rw [hback', hls']
  exact hpair

/-- An action that the protocol has no command for is sent as a message, and found again. -/
theorem Transparent.told_action (hs : Typed H s) (hk : Keeps I s) (hI : I {}) :
    ((W.sendMessage (actionStart ++ s ++ ['\x01'])).flatMap (W.told notice who)).map asShown =
      [(true, shown s)] := by
  have hletters : (str "/me ").flatMap H.escape = str "/me " := by
    have hone : ∀ c, (str "/me ").contains c = true → H.escape c = [c] := by
      intro c hc
      have hplain : ∀ c ∈ str "/me ", '&' ∉ [c] := forall_of_all (by decide)
      rw [hW.escape, hW.letters c hc, unquote_self (hplain c (List.contains_iff_mem.mp hc))]
    simp [str, hone]
  have hmarkup : asString (({} : Flags).chunks H.escape (pieces (str "/me " ++ s))) =
      str "/me " ++ asString (({} : Flags).chunks H.escape (pieces s)) := by
    have hcode : ∀ c ∈ str "/me ", c ∉ formatting := forall_of_all (by decide)
    rw [pieces_text hcode, chunks_append _ (pieces_ne_nil hs.ne_nil), asString_append, asString_text,
      after_text, hletters]
  have hlines : ∀ t ∈ [s], Typed H t ∧ Keeps I t := by
    intro t ht
    obtain rfl := List.mem_singleton.mp ht
    exact ⟨hs, hk⟩
  have hback := lines_markup2irc H hlines (List.cons_ne_nil _ _) hI
  rw [List.intercalate_singleton, List.map_singleton] at hback
  obtain ⟨t, ht, hshown⟩ := List.map_eq_singleton_iff.mp hback
  rw [Wire.sendMessage, action_prefix, if_pos rfl, ctcpText_action]
  dsimp only
  rw [hW.command, if_neg Bool.false_ne_true, hW.sendText, hmarkup, List.flatMap_cons,
    List.flatMap_singleton, told_markup, hW.meify_me, said_eq, hW.withHtml, hW.stripHtml,
    Option.getD_some, ht]
  exact congrArg (fun x => [x]) ((asShown_action t).trans (congrArg _ hshown))

end Told

section Queue

theorem Sayable.line_of (h : Sayable H notice K s) (hs : ¬ isCtcp s = true) :
    Typed H s ∧ K s ∧ ¬ Me ((pieces s).flatMap Piece.plain) := by
  cases h with
  | line s ht hk hme => exact ⟨ht, hk, hme⟩
  | action s => exact (hs rfl).elim
  | typing state hnotice _ text htext =>
    subst hnotice
    cases state with
    | notTyping | typing | typed =>
      obtain rfl := List.mem_singleton.mp htext
      exact (hs rfl).elim

theorem me_joined (h : ¬ Me ((pieces s).flatMap Piece.plain)) (ls : List Str) :
    ¬ Me ((pieces (['\n'].intercalate (s :: ls))).flatMap Piece.plain) := by
  cases ls with
  | nil => rwa [List.intercalate_singleton]
  | cons s' ls =>
    rw [List.intercalate_cons_cons, List.append_assoc, List.singleton_append, pieces_newline,
      List.flatMap_append, List.flatMap_cons]
    exact fun hme => h (start_newline (w := str "/me ") (by decide) _ hme)

variable (hW : Transparent W H)
include hW

/-- A batch of lines is no command. -/
theorem Transparent.sendMessage_lines (hs : Typed H s) (ls : List Str) :
    W.sendMessage (['\n'].intercalate (s :: ls)) = W.sendText (['\n'].intercalate (s :: ls)) := by
  have hno : isCtcp (['\n'].intercalate (s :: ls)) = false := by
    have hhead := line_noCtcp hW.control hs rfl
    obtain ⟨c, t, rfl⟩ := List.exists_cons_of_ne_nil hs.ne_nil
    cases ls with
    | nil => rwa [List.intercalate_singleton]
    | cons s' ls =>
      rw [List.intercalate_cons_cons]
      exact hhead
  have haction : actionStart.isPrefixOf (['\n'].intercalate (s :: ls)) = false := not_prefix hno
  have htyping : typingStart.isPrefixOf (['\n'].intercalate (s :: ls)) = false := not_prefix hno
  rw [Wire.sendMessage, haction, htyping]
  rfl

theorem Transparent.told_ctcp (h : Sayable H notice K s) (hK : ∀ s, K s → Keeps I s) (hI : I {})
    (hs : isCtcp s = true) :
    ((W.sendMessage s).flatMap (W.told notice who)).map asShown = [asShown s] := by
  cases h with
  | line s ht =>
    rw [line_noCtcp hW.control ht rfl] at hs
    cases hs
  | action s ht hk => rw [hW.told_action ht (hK s hk) hI, asShown_action]
  | typing state hnotice hstate text htext =>
    subst hnotice
    cases state with
    | typed => exact (hstate rfl).elim
    | notTyping | typing =>
      obtain rfl := List.mem_singleton.mp htext
      rfl

/-- By induction on the batches of the queue. -/
theorem Transparent.told_batched (hK : ∀ s, K s → Keeps I s) (hI : I {})
    (h : Batched (isCtcp · = true) '\n' ts ss) (hts : ∀ t ∈ ts, Sayable H notice K t) :
    ((ss.flatMap W.sendMessage).flatMap (W.told notice who)).map asShown = ts.map asShown := by
  induction h with
  | nil => rfl
  | @single t ts ss ht _ ih =>
    have hone : ((W.sendMessage t).flatMap (W.told notice who)).map asShown = [asShown t] :=
      hW.told_ctcp (hts t List.mem_cons_self) hK hI ht
    rw [List.flatMap_cons, List.flatMap_append, List.map_append, hone,
      ih fun u hu => hts u (List.mem_cons_of_mem _ hu)]
    rfl
  | @joined g ts ss hg hplain _ ih =>
    obtain ⟨s, ls, rfl⟩ := List.exists_cons_of_ne_nil hg
    have hlines : ∀ t ∈ s :: ls, Typed H t ∧ K t ∧ ¬ Me ((pieces t).flatMap Piece.plain) :=
      fun t ht => (hts t (List.mem_append_left _ ht)).line_of (hplain t ht)
    have hfirst := hlines s List.mem_cons_self
    have hbatch : ((W.sendText (['\n'].intercalate (s :: ls))).flatMap (W.told notice who)).map
        asShown = (s :: ls).map asShown :=
      hW.told_lines (fun t ht => ⟨(hlines t ht).1, hK t (hlines t ht).2.1⟩) hg hI
        (me_joined hfirst.2.2 ls)
    rw [List.flatMap_cons, List.flatMap_append, List.map_append, hW.sendMessage_lines hfirst.1, hbatch,
      ih fun u hu => hts u (List.mem_append_right _ hu), List.map_append]

end Queue

section Usual

/-- `purple_message_meify`: the tags that a message starts with are skipped. -/
def meifyFrom (inside : Bool) (seen : Str) : Str → Option Str
  | [] => none
  | c :: s =>
    if inside then meifyFrom (c ≠ '>') (seen ++ [c]) s
    else if c = '<' then meifyFrom true (seen ++ [c]) s
    else if Me (c :: s) then some (seen ++ (c :: s).drop 4)
    else none

theorem meifyFrom_me (m : Str) : meifyFrom false [] (str "/me " ++ m) = some m := by
  have hcons : str "/me " ++ m = '/' :: (str "me " ++ m) := rfl
  have hme : Me ('/' :: (str "me " ++ m)) := rfl
  rw [hcons, meifyFrom, if_neg Bool.false_ne_true, if_neg (by decide), if_pos hme]
  rfl

theorem me_strip (h : Me s) : Me (strip '<' '>' false s) := by
  have hlen : (s.take 4).length = 4 := by
    have hlower := congrArg List.length h
    rwa [strlower, List.length_map] at hlower
  have hfree : '<' ∉ s.take 4 := by
    intro hmem
    have hlow : '<' ∈ strlower (s.take 4) := List.mem_map.mpr ⟨'<', hmem, rfl⟩
    rw [h] at hlow
    revert hlow
    decide
  have hsplit : strip '<' '>' false (s.take 4 ++ s.drop 4) =
      s.take 4 ++ strip '<' '>' false (s.drop 4) := strip_text hfree
  rw [List.take_append_drop] at hsplit
  rw [hsplit, Me, List.take_append_of_le_length (Nat.le_of_eq hlen.symm), List.take_take]
  exact h

theorem me_of_meify {inside : Bool} {seen m : Str} (h : meifyFrom inside seen s = some m) :
    Me (strip '<' '>' inside s) := by
  induction s generalizing inside seen with
  | nil => cases h
  | cons c s ih =>
    rw [meifyFrom] at h
    cases inside with
    | true =>
      have hrest := ih h
      rw [strip]
      by_cases hc : c = '>'
      · simpa [hc] using hrest
      · simpa [hc] using hrest
    | false =>
      rw [if_neg Bool.false_ne_true] at h
      split at h
      · next hc =>
        subst hc
        exact ih h
      · split at h
        · next hme => exact me_strip hme
        · cases h

/-- The entities, `&apos;` apart. -/
def unquotedEntities (c : Char) : Str := unquoteFrom 0 (escapeEntities c)

theorem unquotedEntities_eq (c : Char) : c = '\'' ∧ unquotedEntities c = ['\''] ∨
    c ≠ '\'' ∧ unquotedEntities c = escapeEntities c := by
  by_cases hc : c ∈ marked
  · simp only [marked, List.mem_cons, List.not_mem_nil, or_false] at hc
    rcases hc with rfl | rfl | rfl | rfl | rfl <;> decide
  · have hamp : '&' ∉ [c] := by
      intro hmem
      rw [List.mem_singleton] at hmem
      exact hc (hmem ▸ by decide)
    have hself : escapeEntities c = [c] := if_neg hc
    refine .inr ⟨fun h => hc (h ▸ by decide), ?_⟩
    rw [unquotedEntities, hself, unquote_self hamp]

theorem unquotedEntities_entities : Entities unquotedEntities := by
  have hfree : ∀ (d : Char), d ≠ '\'' → ∀ c, d ∉ escapeEntities c → d ∉ unquotedEntities c := by
    intro d hd c hmem
    rcases unquotedEntities_eq c with ⟨-, heq⟩ | ⟨-, heq⟩
    · rw [heq, List.mem_singleton]
      exact hd
    · rwa [heq]
  refine ⟨fun c => hfree '<' (by decide) c (entities_escape.untagged c), fun c s => ?_, by decide,
    fun c hc => hfree '\n' (by decide) c (entities_escape.oneLine c hc),
    fun c hc => hfree '\r' (by decide) c (entities_escape.noReturn c hc)⟩
  rcases unquotedEntities_eq c with ⟨rfl, heq⟩ | ⟨-, heq⟩
  · rw [heq]
    rfl
  · rw [heq]
    exact unescape_cons c s

/-- A protocol without commands, and a libpurple that knows the five entities. -/
def entityWire : Wire where
  escape := escapeEntities
  command _ _ := false
  meify := meifyFrom false []
  withHtml := unquotedEntities_entities.html.withHtml
  stripHtml := unquotedEntities_entities.html.stripHtml

theorem entityWire_transparent : Transparent entityWire unquotedEntities_entities.html where
  escape _ := rfl
  entity c := by
    by_cases hc : c ∈ marked
    · have hname : ∀ c ∈ marked, entity c = (entity c).dropLast ++ [';'] ∧
          '&' ∉ (entity c).dropLast ∧ ';' ∉ (entity c).dropLast := forall_of_all (by decide)
      obtain ⟨heq, hamp, hsemi⟩ := hname c hc
      refine .inr ⟨(entity c).dropLast, ?_, hamp, hsemi⟩
      have hesc : entityWire.escape c = '&' :: entity c := if_pos hc
      rw [hesc, List.cons_append, ← heq]
    · exact .inl ⟨if_neg hc, fun h => hc (h ▸ by decide)⟩
  letters c hc := by
    have hall : ∀ c ∈ str "/me ", entityWire.escape c = [c] := forall_of_all (by decide)
    exact hall c (List.contains_iff_mem.mp hc)
  control := by decide
  withHtml := rfl
  stripHtml := rfl
  command _ _ := rfl
  meify_me := meifyFrom_me
  meify_other m h := by
    cases hm : entityWire.meify m with
    | none => rfl
    | some m' => exact (h (me_of_meify hm)).elim

theorem typed_of (hline : s.all (fun c => decide (c ≠ '\n' ∧ c ≠ '\r')) = true)
    (hplain : ((pieces s).flatMap Piece.plain).all H.plain = true) (hs : Separate (pieces s))
    (hvisible : shown s ≠ []) : Typed H s where
  line := forall_of_all hline
  plain _ hc := List.all_eq_true.mp hplain _ (List.mem_flatMap.mpr ⟨_, hc, List.mem_singleton_self _⟩)
  numbers := hs.numbers
  visible := hvisible

/-- Two lines in a batch, an action, a notice of typing, and a line that waits. -/
def talk : List ConvEntity.Event :=
  [.enqueue (str "hi & <you>") 300, .enqueue (str "\x02it's\x02 \x034,1me\x03 , d") 300,
    .enqueue (str "\x01ACTION \x1fwaves\x1f\x01") 300, .expire, .enqueue (str "\x01TYPING 1\x01") 0,
    .enqueue (str "bye") 300]

end Usual

end Talk
end Minbif
