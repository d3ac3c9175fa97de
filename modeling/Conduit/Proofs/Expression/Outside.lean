import Conduit.Proofs.Expression.Node
import Mathlib.Data.List.Chain

/-!
# Outside of strings

How a text reads if strings are opaque: `Place` tells where in it one is, with the escapes of JSON
strings, which the search for symbols does not know. `Balanced` says that the parentheses outside of
strings are in pairs, and `Sound` that the symbols outside of strings are connectives with an
operand before and after them. A sound text stays so in parentheses, after white space and after
another text (`Sound.append`), and two sound texts may be connected (`Sound.connect`): a symbol that
is none of theirs would have to be made of two marks that never meet in a symbol (`Meets`).
-/

namespace Conduit.Expression

open Text

variable {cs rest left right symbol : List Char} {c d : Char}

/-! ## Places -/

/-- A place in a text: outside of strings, in a string of either kind, or after a backslash in a
JSON string. -/
inductive Place where
  | outside
  | single
  | double
  | escaped
  deriving DecidableEq

namespace Place

/-- The place after a character. -/
def next : Place → Char → Place
  | outside, c => if c = '\'' then single else if c = '"' then double else outside
  | single, c => if c = '\'' then outside else single
  | double, c => if c = '"' then outside else if c = '\\' then escaped else double
  | escaped, _ => double

/-- The place after a text. -/
def after (p : Place) (cs : List Char) : Place :=
  cs.foldl next p

@[simp] theorem after_nil (p : Place) : p.after [] = p := rfl

@[simp] theorem after_cons (p : Place) (c : Char) (cs : List Char) :
    p.after (c :: cs) = (p.next c).after cs := rfl

@[simp] theorem after_append (p : Place) (cs rest : List Char) :
    p.after (cs ++ rest) = (p.after cs).after rest :=
  List.foldl_append

theorem next_of_not_quote (hsingle : c ≠ '\'') (hdouble : c ≠ '"') : outside.next c = outside := by
  rw [next, if_neg hsingle, if_neg hdouble]

end Place

/-- What follows a text is outside of strings. -/
def Outside (cs : List Char) : Prop :=
  Place.outside.after cs = .outside

instance : DecidablePred Outside := fun cs =>
  inferInstanceAs (Decidable (Place.outside.after cs = .outside))

/-- After a text that ends outside of strings, places are what they are without it. -/
theorem Outside.append_iff (h : Outside cs) : Outside (cs ++ rest) ↔ Outside rest := by
  rw [Outside, Place.after_append, h]
  rfl

theorem Outside.append (h : Outside cs) (hrest : Outside rest) : Outside (cs ++ rest) :=
  h.append_iff.2 hrest

/-- A text without quotation marks has no strings. -/
theorem outside_of_forall (h : ∀ c ∈ cs, c ≠ '\'' ∧ c ≠ '"') : Outside cs := by
  induction cs with
  | nil => rfl
  | cons c cs ih =>
    rw [List.forall_mem_cons] at h
    rw [Outside, Place.after_cons, Place.next_of_not_quote h.1.1 h.1.2]
    exact ih h.2

/-! ## Parentheses -/

/-- The number of open parentheses after a text, those in strings left out; nothing if one is closed
that is not open. -/
def depth? : Place → Nat → List Char → Option Nat
  | _, depth, [] => some depth
  | p, depth, c :: cs =>
    if p = .outside ∧ c = '(' then depth? (p.next c) (depth + 1) cs
    else if p = .outside ∧ c = ')' then
      if depth = 0 then none else depth? (p.next c) (depth - 1) cs
    else depth? (p.next c) depth cs

theorem depth?_append (p : Place) (depth : Nat) (cs rest : List Char) :
    depth? p depth (cs ++ rest) = (depth? p depth cs).bind fun d => depth? (p.after cs) d rest := by
  induction cs generalizing p depth with
  | nil => rfl
  | cons c cs ih =>
    simp only [List.cons_append, depth?, Place.after_cons, ih]
    split
    · rfl
    · split
      · split <;> rfl
      · rfl

/-- With more parentheses open before a text, as many more are open after it. -/
theorem depth?_add {p : Place} {depth k : Nat} (h : depth? p depth cs = some k) (more : Nat) :
    depth? p (depth + more) cs = some (k + more) := by
  induction cs generalizing p depth with
  | nil =>
    cases h
    rfl
  | cons c cs ih =>
    rw [depth?] at h ⊢
    split at h
    · next hopen =>
      rw [if_pos hopen, Nat.add_right_comm]
      exact ih h
    · next hopen =>
      rw [if_neg hopen]
      split at h
      · next hclose =>
        rw [if_pos hclose]
        split at h
        · cases h
        · next hpos =>
          rw [if_neg (by omega), show depth + more - 1 = depth - 1 + more by omega]
          exact ih h
      · next hclose =>
        rw [if_neg hclose]
        exact ih h

/-- The parentheses of a text are in pairs, and its strings are closed. -/
structure Balanced (cs : List Char) : Prop where
  closed : Outside cs
  pairs : depth? .outside 0 cs = some 0

namespace Balanced

theorem depth (h : Balanced cs) (depth : Nat) : depth? .outside depth cs = some depth := by
  have hadd := depth?_add h.pairs depth
  rwa [Nat.zero_add] at hadd

theorem append (h : Balanced cs) (hrest : Balanced rest) : Balanced (cs ++ rest) where
  closed := h.closed.append hrest.closed
  pairs := by
    have hclosed : Place.outside.after cs = .outside := h.closed
    rw [depth?_append, h.pairs, hclosed]
    exact hrest.pairs

theorem parens (h : Balanced cs) : Balanced (parens cs) where
  closed := by
    have hopen : Outside ['('] := rfl
    exact (hopen.append h.closed).append (rfl : Outside [')'])
  pairs := by
    have hclosed : Place.outside.after cs = .outside := h.closed
    show depth? .outside 1 (cs ++ [')']) = some 0
    rw [depth?_append, h.depth, hclosed]
    rfl

end Balanced

/-- A text that opens and closes nothing is balanced. -/
theorem balanced_of_bare (h : ∀ c ∈ cs, c ∉ delimiters) : Balanced cs := by
  induction cs with
  | nil => exact ⟨rfl, rfl⟩
  | cons c cs ih =>
    rw [List.forall_mem_cons] at h
    have hc := h.1
    simp only [delimiters, List.mem_cons, List.not_mem_nil, or_false, not_or] at hc
    have hnext : Place.outside.next c = .outside := Place.next_of_not_quote hc.1 hc.2.1
    obtain ⟨hclosed, hpairs⟩ := ih h.2
    constructor
    · rw [Outside, Place.after_cons, hnext]
      exact hclosed
    · rw [depth?, if_neg fun hopen => hc.2.2.1 hopen.2, if_neg fun hclose => hc.2.2.2 hclose.2,
        hnext]
      exact hpairs

/-! ## Sealed texts -/

/-- Outside of strings, no character of a text is part of a symbol or a parenthesis. -/
def Inert : Place → List Char → Prop
  | _, [] => True
  | p, c :: cs => (p = .outside → c ∉ '(' :: ')' :: marks) ∧ Inert (p.next c) cs

theorem inert_append {p : Place} : Inert p (cs ++ rest) ↔ Inert p cs ∧ Inert (p.after cs) rest := by
  induction cs generalizing p with
  | nil => simp [Inert]
  | cons c cs ih => rw [List.cons_append, Inert, Inert, ih, and_assoc, Place.after_cons]

theorem depth?_of_inert {p : Place} (h : Inert p cs) (depth : Nat) :
    depth? p depth cs = some depth := by
  induction cs generalizing p with
  | nil => rfl
  | cons c cs ih =>
    obtain ⟨hc, hcs⟩ := h
    have hopen : ¬ (p = .outside ∧ c = '(') := by
      rintro ⟨rfl, rfl⟩
      exact hc rfl (by decide)
    have hclose : ¬ (p = .outside ∧ c = ')') := by
      rintro ⟨rfl, rfl⟩
      exact hc rfl (by decide)
    rw [depth?, if_neg hopen, if_neg hclose]
    exact ih hcs

/-- A text that may stand as an operand: its strings are closed, and there is nothing outside of
them that is part of a symbol, or a parenthesis. -/
structure Sealed (cs : List Char) : Prop where
  closed : Outside cs
  inert : Inert .outside cs

namespace Sealed

theorem nil : Sealed [] := ⟨rfl, trivial⟩

theorem append (h : Sealed cs) (hrest : Sealed rest) : Sealed (cs ++ rest) where
  closed := h.closed.append hrest.closed
  inert := by
    have hclosed : Place.outside.after cs = .outside := h.closed
    rw [inert_append, hclosed]
    exact ⟨h.inert, hrest.inert⟩

theorem of_plain (h : ∀ c ∈ cs, isPlain c = true) : Sealed cs := by
  induction cs with
  | nil => exact nil
  | cons c cs ih =>
    rw [List.forall_mem_cons] at h
    obtain ⟨hdelimiter, hmark⟩ := isPlain_iff.1 h.1
    simp only [delimiters, List.mem_cons, List.not_mem_nil, or_false, not_or] at hdelimiter
    have hnext : Place.outside.next c = .outside :=
      Place.next_of_not_quote hdelimiter.1 hdelimiter.2.1
    obtain ⟨hclosed, hinert⟩ := ih h.2
    refine ⟨?_, fun _ => ?_, ?_⟩
    · rw [Outside, Place.after_cons, hnext]
      exact hclosed
    · rw [List.mem_cons, List.mem_cons, not_or, not_or]
      exact ⟨hdelimiter.2.2.1, hdelimiter.2.2.2, hmark⟩
    · rw [hnext]
      exact hinert

theorem balanced (h : Sealed cs) : Balanced cs := ⟨h.closed, depth?_of_inert h.inert 0⟩

end Sealed

/-! ## Symbols next to each other -/

/-- Whether two marks stand next to each other in a symbol. -/
def Meets (c d : Char) : Prop :=
  (c, d) ∈ [('|', '|'), ('&', '&'), ('=', '='), ('!', '='), ('>', '='), ('<', '=')]

instance (c d : Char) : Decidable (Meets c d) :=
  inferInstanceAs (Decidable ((c, d) ∈ _))

/-- The last character of a text and the first of another do not meet in a symbol. -/
def Apart (cs rest : List Char) : Prop :=
  ∀ c ∈ cs.getLast?, ∀ d ∈ rest.head?, ¬ Meets c d

theorem Meets.marks (h : Meets c d) : c ∈ marks ∧ d ∈ marks := by
  have hall : ∀ p ∈ [('|', '|'), ('&', '&'), ('=', '='), ('!', '='), ('>', '='), ('<', '=')],
      p.1 ∈ Expression.marks ∧ p.2 ∈ Expression.marks := by decide
  exact hall (c, d) h

/-- The characters of a symbol meet in it. -/
theorem meets_of_mem_symbols (h : cs ++ rest ∈ symbols) (hc : c ∈ cs.getLast?)
    (hd : d ∈ rest.head?) : Meets c d := by
  have hchain : ∀ symbol ∈ symbols, symbol.IsChain Meets := by decide
  exact (List.isChain_append.1 (hchain _ h)).2.2 c hc d hd

/-- A symbol outside of strings in one text after another is in one of the two. -/
theorem occurs_append (hclosed : Outside cs) (hapart : Apart cs rest) (hsymbol : symbol ∈ symbols)
    (h : cs ++ rest = left ++ symbol ++ right) (hout : Outside left) :
    (∃ more, cs = left ++ symbol ++ more ∧ right = more ++ rest) ∨
      ∃ before, left = cs ++ before ∧ Outside before ∧ rest = before ++ symbol ++ right := by
  rw [List.append_assoc] at h
  obtain ⟨before, hleft, hrest⟩ | ⟨start, hcs, hright⟩ := List.append_eq_append_iff.1 h
  · rw [hleft, hclosed.append_iff] at hout
    exact .inr ⟨before, hleft, hout, by rw [hrest, List.append_assoc]⟩
  · obtain ⟨more, hstart, hmore⟩ | ⟨tail, hsplit, hrest⟩ := List.append_eq_append_iff.1 hright
    · exact .inl ⟨more, by rw [hcs, hstart, List.append_assoc], hmore⟩
    · -- a symbol with a part in each of the two has no mark at one end of them
      rcases List.eq_nil_or_concat start with rfl | ⟨init, c, rfl⟩
      · refine .inr ⟨[], by simp [hcs], rfl, ?_⟩
        rw [hrest, hsplit, List.nil_append, List.nil_append]
      · cases tail with
        | nil => exact .inl ⟨[], by simp [hcs, hsplit], by simp [hrest]⟩
        | cons d tail =>
          have hc : c ∈ cs.getLast? := by simp [hcs]
          have hd : d ∈ rest.head? := by simp [hrest]
          rw [hsplit] at hsymbol
          exact absurd (meets_of_mem_symbols hsymbol (by simp) (by simp)) (hapart c hc d hd)

/-! ## Operands on both sides -/

/-- An operand of a connective ends here: there is something before, and it is neither an opening
parenthesis nor another operator; a conjunction that ends in its operator may stand before `||`. -/
def EndsOperand (symbol left : List Char) : Prop :=
  ∃ init c after, left = init ++ c :: after ∧ isBlank c = false ∧ Blank after ∧
    c ∉ ['(', '|', '=', '!', '<', '>'] ∧ (c = '&' → symbol = ['|', '|'])

/-- An operand starts here: there is something after, and it is neither a closing parenthesis nor
another operator. -/
def StartsOperand (right : List Char) : Prop :=
  ∃ before c rest, right = before ++ c :: rest ∧ Blank before ∧ isBlank c = false ∧
    c ∉ [')', '|', '&', '=', '<', '>'] ∧ (c = '!' → rest.head? ≠ some '=')

/-- The same connective, `||` or `&&`, stands before, between the same parentheses. -/
def Repeats (symbol left : List Char) : Prop :=
  symbol ∈ [['|', '|'], ['&', '&']] ∧
    ∃ before piece, left = before ++ symbol ++ piece ∧ Outside before ∧ Balanced piece

/-- A symbol is a connective with an operand before and after it. The operand after it may be left
out where the connective is repeated. -/
structure Flanked (symbol left right : List Char) : Prop where
  connective : symbol ∈ connectives
  ends : EndsOperand symbol left
  starts : StartsOperand right ∨ Repeats symbol left

theorem EndsOperand.prepend (h : EndsOperand symbol left) (before : List Char) :
    EndsOperand symbol (before ++ left) := by
  obtain ⟨init, c, after, rfl, hc⟩ := h
  exact ⟨before ++ init, c, after, by simp, hc⟩

theorem StartsOperand.append (h : StartsOperand right) (hapart : Apart right rest) :
    StartsOperand (right ++ rest) := by
  obtain ⟨before, c, more, rfl, hbefore, hblank, hc, hbang⟩ := h
  refine ⟨before, c, more ++ rest, by simp, hbefore, hblank, hc, ?_⟩
  rintro rfl hhead
  cases more with
  | nil => exact hapart '!' (by simp) '=' hhead (by decide)
  | cons d more => exact hbang rfl hhead

theorem Repeats.prepend (h : Repeats symbol left) {before : List Char} (hbefore : Outside before) :
    Repeats symbol (before ++ left) := by
  obtain ⟨hsymbol, first, piece, rfl, hfirst, hpiece⟩ := h
  exact ⟨hsymbol, before ++ first, piece, by simp, hbefore.append hfirst, hpiece⟩

theorem Flanked.prepend (h : Flanked symbol left right) {before : List Char}
    (hbefore : Outside before) : Flanked symbol (before ++ left) right where
  connective := h.connective
  ends := h.ends.prepend before
  starts := h.starts.imp_right fun hrepeats => hrepeats.prepend hbefore

theorem Flanked.append (h : Flanked symbol left right) (hapart : Apart right rest) :
    Flanked symbol left (right ++ rest) where
  connective := h.connective
  ends := h.ends
  starts := h.starts.imp_left fun hstarts => hstarts.append hapart

/-- No operator follows where an operand ends. -/
theorem EndsOperand.apart (h : EndsOperand symbol left) (hsymbol : symbol ∈ connectives) :
    Apart left symbol := by
  obtain ⟨init, c, after, rfl, _, hafter, hc, hand⟩ := h
  intro x hx d hd hmeets
  rcases List.eq_nil_or_concat after with rfl | ⟨blanks, b, rfl⟩
  · obtain rfl : c = x := by simpa using hx
    have hhead : ∀ symbol ∈ connectives, symbol.head? = some '&' → symbol ≠ ['|', '|'] := by decide
    simp only [Meets, List.mem_cons, Prod.mk.injEq, List.not_mem_nil, or_false] at hmeets hc
    rcases hmeets with ⟨rfl, _⟩ | ⟨rfl, rfl⟩ | ⟨rfl, _⟩ | ⟨rfl, _⟩ | ⟨rfl, _⟩ | ⟨rfl, _⟩
    · simp at hc
    · exact hhead symbol hsymbol hd (hand rfl)
    all_goals simp at hc
  · have hblank := hafter b (by simp)
    rw [List.concat_eq_append, ← List.cons_append, ← List.append_assoc, List.getLast?_concat] at hx
    cases hx
    exact not_mem_marks_of_isBlank hblank hmeets.marks.1

/-- What an operand starts with continues no operator. -/
theorem StartsOperand.head (h : StartsOperand right) {d : Char} (hd : d ∈ right.head?) :
    d ∉ ['|', '&', '='] := by
  obtain ⟨before, c, rest, rfl, hbefore, _, hc, _⟩ := h
  cases before with
  | nil =>
    obtain rfl : c = d := by simpa using hd
    simp only [List.mem_cons, List.not_mem_nil, or_false, not_or] at hc ⊢
    exact ⟨hc.2.1, hc.2.2.1, hc.2.2.2.1⟩
  | cons b before =>
    obtain rfl : b = d := by simpa using hd
    have hmarks : ['|', '&', '='] ⊆ marks := by decide
    exact fun hmem => not_mem_marks_of_isBlank (hbefore b List.mem_cons_self) (hmarks hmem)

/-- No operator is continued where an operand starts. -/
theorem StartsOperand.apart (h : StartsOperand right) (hsymbol : symbol ∈ connectives) :
    Apart symbol right := by
  have hlast : ∀ symbol ∈ connectives, symbol.getLast? ∈ ['|', '&', '='].map some := by decide
  have hmeets : ∀ x ∈ ['|', '&', '='], ∀ d, Meets x d → d ∈ ['|', '&', '='] := by
    intro x hx d hmeets
    simp only [Meets, List.mem_cons, Prod.mk.injEq, List.not_mem_nil, or_false] at hx hmeets
    rcases hx with rfl | rfl | rfl <;> simp at hmeets <;> simp [hmeets]
  intro x hx d hd h'
  obtain ⟨_, hmem, heq⟩ := List.mem_map.1 (hlast symbol hsymbol)
  obtain rfl := Option.some.inj (heq.trans (Option.mem_def.1 hx))
  exact h.head hd (hmeets _ hmem d h')

/-! ## Sound texts -/

/-- No other symbol stands in a connective. -/
theorem eq_of_mem_connectives {first other more : List Char} (hsymbol : symbol ∈ connectives)
    (hother : other ∈ symbols) (h : symbol = first ++ other ++ more) :
    first = [] ∧ other = symbol ∧ more = [] := by
  have htwo : ∀ symbol ∈ connectives, symbol.length = 2 ∧ '<' ∉ symbol ∧ '>' ∉ symbol := by decide
  have hlong : ∀ other ∈ symbols, 2 ≤ other.length ∨ '<' ∈ other ∨ '>' ∈ other := by decide
  obtain ⟨hlength, hless, hgreater⟩ := htwo symbol hsymbol
  have hadd : symbol.length = first.length + other.length + more.length := by simp [h]; omega
  rcases hlong other hother with hle | hmem | hmem
  · obtain rfl : first = [] := List.eq_nil_of_length_eq_zero (by omega)
    obtain rfl : more = [] := List.eq_nil_of_length_eq_zero (by omega)
    simp [h]
  · exact absurd (by simp [h, hmem]) hless
  · exact absurd (by simp [h, hmem]) hgreater

/-- The strings of a text are closed, and what symbols there are outside of them have their
operands. -/
structure Sound (cs : List Char) : Prop where
  closed : Outside cs
  flanked : ∀ symbol ∈ symbols, ∀ left right, cs = left ++ symbol ++ right → Outside left →
    Flanked symbol left right

theorem Apart.of_append_right (h : Apart (cs ++ right) rest) : Apart right rest := by
  intro c hc d hd
  refine h c ?_ d hd
  rw [List.getLast?_append, Option.mem_def.1 hc]
  rfl

theorem Apart.append_left (h : Apart cs left) (hne : left ≠ []) : Apart cs (left ++ right) := by
  intro c hc d hd
  refine h c hc d ?_
  rwa [List.head?_append_of_ne_nil _ hne] at hd

namespace Sound

theorem append (h : Sound cs) (hrest : Sound rest) (hapart : Apart cs rest) :
    Sound (cs ++ rest) where
  closed := h.closed.append hrest.closed
  flanked symbol hsymbol left right heq hout := by
    obtain ⟨more, hcs, rfl⟩ | ⟨before, rfl, hbefore, hrest'⟩ :=
      occurs_append h.closed hapart hsymbol heq hout
    · rw [hcs] at hapart
      exact (h.flanked symbol hsymbol left more hcs hout).append hapart.of_append_right
    · exact (hrest.flanked symbol hsymbol before right hrest' hbefore).prepend h.closed

/-- Two texts may be connected if an operand ends with the first, and another starts with the
second, unless there is none and the connective is repeated. -/
theorem connect (hleft : Sound left) (hright : Sound right) (hsymbol : symbol ∈ connectives)
    (hends : EndsOperand symbol left)
    (hstarts : StartsOperand right ∨ right = [] ∧ Repeats symbol left) :
    Sound (left ++ symbol ++ right) := by
  have hplain : ∀ symbol ∈ connectives, symbol ≠ [] ∧ Outside symbol := by decide
  obtain ⟨hne, houtside⟩ := hplain symbol hsymbol
  have hbefore : Apart left (symbol ++ right) := (hends.apart hsymbol).append_left hne
  have hafter : Apart symbol right := by
    rcases hstarts with hstarts | ⟨rfl, _⟩
    · exact hstarts.apart hsymbol
    · intro c _ d hd
      cases hd
  have hflanked : Flanked symbol left right := ⟨hsymbol, hends, hstarts.imp_right And.right⟩
  rw [List.append_assoc]
  refine ⟨hleft.closed.append (houtside.append hright.closed), ?_⟩
  intro other hother before after heq hout
  obtain ⟨more, hleft', rfl⟩ | ⟨first, rfl, hfirst, heq⟩ :=
    occurs_append hleft.closed hbefore hother heq hout
  · refine (hleft.flanked other hother before more hleft' hout).append ?_
    rw [hleft'] at hbefore
    exact hbefore.of_append_right
  · obtain ⟨more, hsame, rfl⟩ | ⟨second, rfl, hsecond, heq⟩ :=
      occurs_append houtside hafter hother heq hfirst
    · obtain ⟨rfl, rfl, rfl⟩ := eq_of_mem_connectives hsymbol hother hsame
      simpa using hflanked
    · rw [← List.append_assoc]
      exact (hright.flanked other hother second after heq hsecond).prepend
        (hleft.closed.append houtside)

end Sound

theorem Sealed.sound (h : Sealed cs) : Sound cs where
  closed := h.closed
  flanked symbol hsymbol left right heq hout := by
    obtain ⟨d, more, rfl, hd, _⟩ := exists_of_mem_symbols hsymbol
    have hclosed : Place.outside.after left = .outside := hout
    have hinert := h.inert
    rw [heq, List.append_assoc, inert_append, hclosed] at hinert
    have hmark : d ∈ '(' :: ')' :: marks := List.mem_cons_of_mem _ (List.mem_cons_of_mem _ hd)
    exact absurd hmark (hinert.2.1 rfl)

end Conduit.Expression
