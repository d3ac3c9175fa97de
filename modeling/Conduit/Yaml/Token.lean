import Conduit.Yaml.Basic
import Conduit.Yaml.Scalar

/-!
# Tokens of YAML

The tokens of a text are its marks and scalars, and the marks that its layout stands for. Outside
flow collections a column opens a block sequence or mapping, and a line that begins before the
column closes it. What begins a key of a mapping is known only when the colon after the key is met,
and the colon must be in the same line and not more than `maxKeyBytes` away; `Scanner.key` remembers
the last place where a key may have begun.

Tokens are read for flow and block collections, plain and quoted scalars, comments, and the marks
between documents. Directives, anchors, aliases, tags and block scalars are refused.
-/

namespace Conduit.Yaml

/-- A token. -/
inductive Token where
  | documentStart
  | documentEnd
  | openSequence
  | closeSequence
  | openMapping
  | closeMapping
  | comma
  | blockSequence
  | blockMapping
  | blockEnd
  | dash
  | key
  | value
  | scalar (value : Yaml)

/-- How far from the beginning of a key its colon may be. -/
def maxKeyBytes : Nat := 1024

/-- A place where a key may have begun, `index` tokens from the start. -/
structure KeyStart where
  index : Nat
  offset : Nat
  line : Nat
  column : Nat
  required : Bool

/-- The tokens read so far, with what the reading of the next one depends on. -/
structure Scanner where
  cursor : Cursor
  tokens : Array Token := #[]
  /-- Where a key may have begun inside the innermost flow collection. -/
  key : Option KeyStart := none
  /-- Where keys may have begun outside the open flow collections, innermost first. -/
  outer : List (Option KeyStart) := []
  /-- Whether a key may begin here. -/
  keyAllowed : Bool := true
  /-- For each open block collection, innermost first, the first column inside it. -/
  margins : List Nat := []

namespace Scanner

/-- Whether a flow collection is open. -/
def inFlow (s : Scanner) : Bool :=
  !s.outer.isEmpty

/-- The first column inside the innermost block collection. -/
def margin (s : Scanner) : Nat :=
  s.margins.headD 0

/-- Goes over blanks, comments and line breaks, and says whether a key may begin after them. Outside
flow collections a new line may begin a key, and no tab may stand where a key may begin. A line may
begin with a byte order mark. -/
def blanks (flow keyAllowed comment : Bool) (c : Cursor) : Bool × Cursor :=
  match _h : c.rest with
  | [] => (keyAllowed, c)
  | x :: _ =>
    if isBreak x then blanks flow (keyAllowed || !flow) false (c.drop 1)
    else if comment || x == '#' then blanks flow keyAllowed true (c.drop 1)
    else if x == ' ' || (x == '\t' && (flow || !keyAllowed)) ||
        (x == '\ufeff' && c.column == 0) then
      blanks flow keyAllowed false (c.drop 1)
    else (keyAllowed, c)
  termination_by c.rest.length
  decreasing_by all_goals simp [Cursor.length_rest_drop, _h]

/-- Appends a token. -/
def emit (t : Token) (s : Scanner) : Scanner :=
  { s with tokens := s.tokens.push t }

/-- Appends a token that is written with some characters. -/
def take (n : Nat) (t : Token) (s : Scanner) : Scanner :=
  { s.emit t with cursor := s.cursor.drop n }

/-- Closes the block collections whose first column is beyond another. -/
def close (column : Nat) (s : Scanner) : Scanner :=
  { s with
    tokens := s.tokens ++ ((s.margins.takeWhile (column < ·)).map fun _ => Token.blockEnd)
    margins := s.margins.dropWhile (column < ·) }

/-- Opens a block collection at a column, unless it is open there; its token is put at `index`. -/
def openBlock (column index : Nat) (t : Token) (s : Scanner) : Scanner :=
  if !s.inFlow && s.margin ≤ column then
    { s with
      tokens := s.tokens.insertIdxIfInBounds index t
      margins := (column + 1) :: s.margins }
  else s

/-- Gives up the last place where a key may have begun, unless a key must have begun there. -/
def dropKey? (s : Scanner) : Option Scanner :=
  if s.key.any KeyStart.required then none else some { s with key := none }

/-- Remembers that a key may begin here. It must, where a block mapping goes on. -/
def startKey? (s : Scanner) : Option Scanner :=
  if s.keyAllowed then do
    let s ← s.dropKey?
    let c := s.cursor
    let required := !s.inFlow && s.margin == c.column + 1
    return { s with key := some ⟨s.tokens.size, c.offset, c.line, c.column, required⟩ }
  else some s

/-- Opens a flow collection. -/
def openFlow? (t : Token) (s : Scanner) : Option Scanner := do
  let s ← s.startKey?
  return { s.take 1 t with key := none, outer := s.key :: s.outer, keyAllowed := true }

/-- Closes a flow collection. -/
def closeFlow? (t : Token) (s : Scanner) : Option Scanner := do
  let s ← s.dropKey?
  return { s.take 1 t with
           key := s.outer.head?.join, outer := s.outer.tail, keyAllowed := false }

/-- Reads a comma. -/
def comma? (s : Scanner) : Option Scanner := do
  let s ← s.dropKey?
  return { s.take 1 .comma with keyAllowed := true }

/-- Reads a mark of an item or a key, which outside flow collections opens a block collection. -/
def mark? (t block : Token) (keyAllowed : Bool) (s : Scanner) : Option Scanner :=
  if !s.inFlow && !s.keyAllowed then none
  else do
    let s ← (s.openBlock s.cursor.column s.tokens.size block).dropKey?
    return { s.take 1 t with keyAllowed }

/-- Whether a key that began at a place may end here. -/
def endsKey (s : Scanner) (k : KeyStart) : Bool :=
  k.line == s.cursor.line && s.cursor.offset ≤ k.offset + maxKeyBytes

/-- Reads a colon. The key before it began where it was remembered, or is one that was marked. -/
def value? (s : Scanner) : Option Scanner :=
  match s.key.filter s.endsKey with
  | some k =>
    let s := { s with tokens := s.tokens.insertIdxIfInBounds k.index .key }
    let s := s.openBlock k.column k.index .blockMapping
    some { s.take 1 .value with key := none, keyAllowed := false }
  | none => do
    let s ← s.dropKey?
    if !s.inFlow && !s.keyAllowed then none
    let s := s.openBlock s.cursor.column s.tokens.size .blockMapping
    return { s.take 1 .value with keyAllowed := !s.inFlow }

/-- Reads a mark between documents. -/
def document? (t : Token) (s : Scanner) : Option Scanner := do
  let s ← (s.close 0).dropKey?
  return { s.take 3 t with keyAllowed := false }

/-- Reads a quoted scalar. -/
def quoted? (read : Cursor → Option (List Char × Cursor)) (s : Scanner) : Option Scanner := do
  let s ← s.startKey?
  let (text, cursor) ← read s.cursor.next
  return { s.emit (.scalar (.quoted (String.ofList text))) with cursor, keyAllowed := false }

/-- Reads a plain scalar. -/
def plain? (s : Scanner) : Option Scanner := do
  let s ← s.startKey?
  let (text, keyAllowed, cursor) ← Scalar.plain s.inFlow s.margin [] s.cursor
  return { s.emit (.scalar (.plain (String.ofList text))) with cursor, keyAllowed }

/-- The characters with which no plain scalar begins. -/
def marks : List Char :=
  ['-', '?', ':', ',', '[', ']', '{', '}', '#', '&', '*', '!', '|', '>', '\'', '"', '%', '@',
    '\x60']

/-- Whether a plain scalar begins with a character before a text. -/
def startsPlain (flow : Bool) (c : Char) (rest : List Char) : Bool :=
  if c == '-' then !beginsGap rest
  else if c == '?' || c == ':' then !flow && !beginsGap rest
  else !isGap c && !marks.contains c

/-- Reads a token that begins with a character before a text. -/
def token? (c : Char) (rest : List Char) (s : Scanner) : Option Scanner :=
  if s.cursor.column == 0 && c == '%' then none
  else if s.cursor.startsWithMark '-' then s.document? .documentStart
  else if s.cursor.startsWithMark '.' then s.document? .documentEnd
  else match c with
    | '[' => s.openFlow? .openSequence
    | ']' => s.closeFlow? .closeSequence
    | '{' => s.openFlow? .openMapping
    | '}' => s.closeFlow? .closeMapping
    | ',' => s.comma?
    | '"' => s.quoted? Scalar.double
    | '\'' => s.quoted? Scalar.single
    | _ =>
      let marked := s.inFlow || beginsGap rest
      if c == '-' && beginsGap rest then s.mark? .dash .blockSequence true
      else if c == '?' && marked then s.mark? .key .blockMapping (!s.inFlow)
      else if c == ':' && marked then s.value?
      else if startsPlain s.inFlow c rest then s.plain?
      else none

/-- Reads all tokens; `fuel` bounds their number. -/
def run (fuel : Nat) (s : Scanner) : Option (List Token) :=
  match fuel with
  | 0 => none
  | fuel + 1 =>
    let (keyAllowed, cursor) := blanks s.inFlow s.keyAllowed false s.cursor
    let s := { s with keyAllowed, cursor }
    match cursor.rest with
    | [] => (s.close 0).dropKey?.map (·.tokens.toList)
    | c :: rest => do
      let s := if s.inFlow then s else s.close (cursor.column + 1)
      let s ← s.token? c rest
      run fuel s

end Scanner

/-- Whether a character may stand in a text. -/
def isPrintable (c : Char) : Bool :=
  c == '\t' || c == '\n' || c == '\r' || (' ' ≤ c && c ≤ '~') || c == '\u0085' ||
    ('\u00a0' ≤ c && c != '\ufffe' && c != '\uffff')

/-- The tokens of a text. Each takes at least one character. -/
def tokens? (text : String) : Option (List Token) :=
  let cs := text.toList
  if cs.all isPrintable then Scanner.run (cs.length + 1) { cursor := { rest := cs } } else none

end Conduit.Yaml
