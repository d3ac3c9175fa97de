/-!
# Places in a text of lines

A `Cursor` is what is left of a text, together with the place where it begins. A line ends at a line
feed, at a carriage return, at both in this order, or at one of the three other line breaks of
Unicode. `Cursor.drop` goes on by some characters; `rest_drop` says that it leaves the others.
-/

namespace Conduit.Yaml

/-- Whether a character breaks a line. -/
def isBreak (c : Char) : Bool :=
  c == '\n' || c == '\r' || c == '\u0085' || c == '\u2028' || c == '\u2029'

/-- Whether a character separates words and lines. -/
def isGap (c : Char) : Bool :=
  c == ' ' || c == '\t' || isBreak c

/-- Whether a text is at its end or begins with a gap. -/
def beginsGap : List Char → Bool
  | [] => true
  | c :: _ => isGap c

/-- What is left of a text, and its place: the bytes and the lines before it, and the characters of
its line. -/
structure Cursor where
  rest : List Char
  offset : Nat := 0
  line : Nat := 0
  column : Nat := 0

namespace Cursor

/-- The place after one character. -/
def next (c : Cursor) : Cursor :=
  match c.rest with
  | [] => c
  | x :: xs =>
    let offset := c.offset + x.utf8Size
    if isBreak x then ⟨xs, offset, c.line + 1, 0⟩ else ⟨xs, offset, c.line, c.column + 1⟩

/-- The place after some characters. -/
def drop (n : Nat) (c : Cursor) : Cursor :=
  match n with
  | 0 => c
  | n + 1 => c.next.drop n

/-- One character is gone after it. -/
theorem rest_next (c : Cursor) : c.next.rest = c.rest.drop 1 := by
  unfold next
  split
  · next h => simp [h]
  · next h =>
    simp only [h, List.drop_succ_cons, List.drop_zero]
    split <;> rfl

/-- As many characters are gone as were dropped. -/
theorem rest_drop (n : Nat) (c : Cursor) : (c.drop n).rest = c.rest.drop n := by
  induction n generalizing c with
  | zero => rfl
  | succ n ih => rw [drop, ih, rest_next, List.drop_drop, Nat.add_comm]

/-- What is left gets shorter. -/
theorem length_rest_drop (n : Nat) (c : Cursor) :
    (c.drop n).rest.length = c.rest.length - n := by
  rw [rest_drop, List.length_drop]

/-- The gap with which the text begins. -/
def gap (c : Cursor) : List Char :=
  c.rest.takeWhile isGap

/-- A gap is not empty where a character of it begins the text. -/
theorem length_gap_pos {c : Cursor} {x : Char} {xs : List Char} (h : c.rest = x :: xs)
    (hx : isGap x = true) : 0 < c.gap.length := by
  simp [gap, h, hx]

/-- Whether a line begins with three times the given character and then a gap. -/
def startsWithMark (mark : Char) (c : Cursor) : Bool :=
  c.column == 0 && match c.rest with
    | x :: y :: z :: rest => x == mark && y == mark && z == mark && beginsGap rest
    | _ => false

/-- Whether a line begins with the mark of a document's start or end. -/
def atDocumentMark (c : Cursor) : Bool :=
  c.startsWithMark '-' || c.startsWithMark '.'

end Cursor

/-! ## Folding -/

/-- The line breaks of a gap; all but the separators of Unicode count as line feeds. -/
def breaks : List Char → List Char
  | [] => []
  | '\r' :: '\n' :: cs => '\n' :: breaks cs
  | c :: cs =>
    if c == '\u2028' || c == '\u2029' then c :: breaks cs
    else if isBreak c then '\n' :: breaks cs
    else breaks cs

/-- What a gap inside a scalar stands for: blanks for themselves, one line feed for a space, and of
several the first for nothing. -/
def folded (gap : List Char) : List Char :=
  match breaks gap with
  | [] => gap
  | ['\n'] => [' ']
  | '\n' :: more => more
  | all => all

/-- A gap without a line break stands for itself. -/
theorem folded_eq_self {gap : List Char} (h : breaks gap = []) : folded gap = gap := by
  rw [folded, h]

end Conduit.Yaml
