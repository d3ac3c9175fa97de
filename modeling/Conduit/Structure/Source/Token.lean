import Conduit.Text.Blank
import Conduit.Json.Parser
import Conduit.Json.Printer

/-!
# Tokens of structure sources

The source of a structure is made of words, string literals and punctuation marks, with white space
between them. Each token knows its place: lines and columns are counted from one, columns in
characters, and the end is the last character of the token. `SourceToken.scan` gives the tokens of
a source, or the first fault and its place.
-/

namespace Conduit

open Text

/-- A stretch of a source, from its first to its last character. -/
structure Location where
  line : Nat
  column : Nat
  endLine : Nat
  endColumn : Nat
  deriving DecidableEq, Repr

/-- A place in words. -/
def Location.describe (l : Location) : String :=
  if l.line == l.endLine then s!"line {l.line}, columns {l.column}-{l.endColumn}"
  else s!"line {l.line} column {l.column} to line {l.endLine} column {l.endColumn}"

/-- The line and column of a character. -/
structure Position where
  line : Nat
  column : Nat
  deriving DecidableEq, Repr

namespace Position

/-- The place of the first character of a source. -/
def start : Position := ⟨1, 1⟩

/-- The place after a character. -/
def after (p : Position) (c : Char) : Position :=
  if c = '\n' then ⟨p.line + 1, 1⟩ else ⟨p.line, p.column + 1⟩

/-- The place after several characters. -/
def afterAll (p : Position) (cs : List Char) : Position :=
  cs.foldl after p

/-- The stretch from one place to the last character before another. A stretch that ends with a
line break ends in the first column of the next line. -/
def upTo (p stop : Position) : Location :=
  ⟨p.line, p.column, stop.line, max (stop.column - 1) 1⟩

end Position

/-- What a token is. -/
inductive Lexeme where
  | word (text : String)
  | literal (text : String)
  | mark (c : Char)
  deriving DecidableEq, Repr

/-- A token as messages name it. -/
def Lexeme.describe : Lexeme → String
  | word text => s!"'{text}'"
  | literal text => "string " ++ Json.quoted text
  | mark c => s!"'{c}'"

/-- A token and its place. -/
structure SourceToken where
  lexeme : Lexeme
  location : Location
  deriving DecidableEq, Repr

/-- What is wrong with the text of a source. -/
inductive SourceFault where
  | unterminated
  | invalidLiteral
  | unexpectedCharacter (c : Char)
  | endOfInput (expected : String)
  | unexpected (expected : String) (found : Lexeme)
  | duplicateField (name : String)
  | invalidDefault
  deriving DecidableEq, Repr

/-- A fault in words. -/
def SourceFault.message : SourceFault → String
  | unterminated => "unterminated string literal"
  | invalidLiteral => "invalid string literal: <json error>"
  | unexpectedCharacter c => s!"unexpected character '{c}'"
  | endOfInput expected => s!"unexpected end of input, expected {expected}"
  | unexpected expected found => s!"expected {expected}, found {found.describe}"
  | duplicateField name => s!"duplicate field '{name}'"
  | invalidDefault => "default is not valid JSON: <json error>"

namespace SourceToken

/-- Whether a character starts a word. -/
def startsWord (c : Char) : Bool :=
  c.isAlpha || c == '_'

/-- Whether a character continues a word. -/
def isWordChar (c : Char) : Bool :=
  c.isAlphanum || c == '_'

/-- The punctuation marks. -/
def marks : List Char := ['{', '}', ':', '?', '<', '>', ',', '[', ']']

/-- What a string literal takes of a text after its opening quotation mark. -/
structure Span where
  taken : List Char
  rest : List Char
  closed : Bool

/-- The span of a string literal. It goes to the closing quotation mark, or, where there is none, to
the first line break that no backslash precedes. -/
def span (escaped : Bool) : List Char → Span
  | [] => ⟨[], [], false⟩
  | c :: cs =>
    if !escaped && c == '"' then ⟨[c], cs, true⟩
    else if !escaped && c == '\n' then ⟨[c], cs, false⟩
    else
      let s := span (!escaped && c == '\\') cs
      ⟨c :: s.taken, s.rest, s.closed⟩

/-- A span and what follows it are the text. -/
theorem taken_append_rest (escaped : Bool) (cs : List Char) :
    (span escaped cs).taken ++ (span escaped cs).rest = cs := by
  induction cs generalizing escaped with
  | nil => rfl
  | cons c cs ih =>
    rw [span]
    split
    · rfl
    · split
      · rfl
      · simp [ih]

/-- What follows a span is no longer than the text. -/
theorem length_rest_le (escaped : Bool) (cs : List Char) :
    (span escaped cs).rest.length ≤ cs.length := by
  have h := congrArg List.length (taken_append_rest escaped cs)
  rw [List.length_append] at h
  omega

/-- The tokens of a text that starts at a place. -/
def scanFrom (p : Position) (cs : List Char) :
    Except (SourceFault × Location) (List SourceToken) :=
  match cs with
  | [] => .ok []
  | c :: cs =>
    let next := p.after c
    if isBlank c then scanFrom next cs
    else if startsWord c then do
      let more := cs.takeWhile isWordChar
      have : (cs.dropWhile isWordChar).length ≤ cs.length :=
        (List.dropWhile_suffix isWordChar).length_le
      let stop := next.afterAll more
      let tokens ← scanFrom stop (cs.dropWhile isWordChar)
      return ⟨.word (String.ofList (c :: more)), p.upTo stop⟩ :: tokens
    else if c = '"' then
      let s := span false cs
      have : (span false cs).rest.length ≤ cs.length := length_rest_le false cs
      let stop := next.afterAll s.taken
      if !s.closed then .error (.unterminated, p.upTo stop)
      else match Json.parse? (String.ofList (c :: s.taken)) with
        | some (.string text) => do
          let tokens ← scanFrom stop s.rest
          return ⟨.literal text, p.upTo stop⟩ :: tokens
        | _ => .error (.invalidLiteral, p.upTo stop)
    else if marks.contains c then do
      let tokens ← scanFrom next cs
      return ⟨.mark c, p.upTo next⟩ :: tokens
    else .error (.unexpectedCharacter c, p.upTo next)
  termination_by cs.length
  decreasing_by all_goals simp only [List.length_cons] at *; omega

/-- The tokens of a source. -/
def scan (source : String) : Except (SourceFault × Location) (List SourceToken) :=
  scanFrom .start source.toList

end SourceToken

end Conduit
