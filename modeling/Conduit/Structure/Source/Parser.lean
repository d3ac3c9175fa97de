import Conduit.Text.Search
import Conduit.Structure.Basic
import Conduit.Structure.Source.Token

/-!
# Reading structure sources

A source is a sequence of structures of the form

    structure Verdict extends StructuredContent {
        summary: text doc "Short summary"
        score?: integer default "0"
        label: text in ["good", "bad"]
        tags?: list<text>
    }

Each reader takes tokens from the front of a list and gives what it has read and the tokens that are
left. A fault comes with its place; one at the end of the input has none of its own.
-/

namespace Conduit.SourceParser

/-- A fault and its place, if it is not at the end of the input. -/
structure Failure where
  fault : SourceFault
  location : Option Location

/-- Reads a token that `accept` knows, which is called `expected` in messages. -/
def token {α : Type} (expected : String) (accept : Lexeme → Option α) (ts : List SourceToken) :
    Except Failure ((α × Location) × List SourceToken) :=
  match ts with
  | [] => .error ⟨.endOfInput expected, none⟩
  | t :: ts =>
    match accept t.lexeme with
    | some a => .ok ((a, t.location), ts)
    | none => .error ⟨.unexpected expected t.lexeme, some t.location⟩

/-- Reads any word. -/
def word (expected : String) (ts : List SourceToken) :
    Except Failure ((String × Location) × List SourceToken) :=
  token expected (fun | .word text => some text | _ => none) ts

/-- Reads any string literal. -/
def literal (expected : String) (ts : List SourceToken) :
    Except Failure ((String × Location) × List SourceToken) :=
  token expected (fun | .literal text => some text | _ => none) ts

/-- Reads one token. -/
def exactly (l : Lexeme) (ts : List SourceToken) : Except Failure (List SourceToken) :=
  (token l.describe (fun m => if m = l then some () else none) ts).map (·.2)

/-- Skips a token if it comes next, and says whether it did. -/
def skip (l : Lexeme) : List SourceToken → Bool × List SourceToken
  | [] => (false, [])
  | t :: ts => if t.lexeme = l then (true, ts) else (false, t :: ts)

/-- Reads a field type in which at most `n` types are nested. -/
def fieldType : Nat → List SourceToken → Except Failure (FieldType × List SourceToken)
  | 0, _ => .error ⟨.endOfInput "field type", none⟩
  | n + 1, ts => do
    let ((keyword, _), ts) ← word "field type" ts
    match keyword with
    | "text" => return (.text, ts)
    | "integer" => return (.integer, ts)
    | "boolean" => return (.boolean, ts)
    | "number" => return (.number, ts)
    | "date" => return (.date, ts)
    | "list" =>
      match skip (.mark '<') ts with
      | (false, ts) => return (.anyList, ts)
      | (true, ts) =>
        let (item, ts) ← fieldType n ts
        let ts ← exactly (.mark '>') ts
        return (.listOf item, ts)
    | "dict" =>
      match skip (.mark '<') ts with
      | (false, ts) => return (.anyDict .text, ts)
      | (true, ts) =>
        let (key, ts) ← fieldType n ts
        match skip (.mark ',') ts with
        | (true, ts) =>
          let (value, ts) ← fieldType n ts
          let ts ← exactly (.mark '>') ts
          return (.dictOf key value, ts)
        | (false, ts) =>
          let ts ← exactly (.mark '>') ts
          return (.anyDict key, ts)
    | name => return (.nested name, ts)

/-- Reads string literals with commas between them, at most `n`. -/
def choices : Nat → List SourceToken → Except Failure (List String × List SourceToken)
  | 0, _ => .error ⟨.endOfInput "choice", none⟩
  | n + 1, ts => do
    let ((choice, _), ts) ← literal "choice" ts
    match skip (.mark ',') ts with
    | (true, ts) =>
      let (more, ts) ← choices n ts
      return (choice :: more, ts)
    | (false, ts) => return ([choice], ts)

/-- Reads the choices of a field, if it has any. -/
def fieldChoices (ts : List SourceToken) : Except Failure (List String × List SourceToken) :=
  match skip (.word "in") ts with
  | (false, ts) => .ok ([], ts)
  | (true, ts) => do
    let ts ← exactly (.mark '[') ts
    let (choices, ts) ← choices (ts.length + 1) ts
    let ts ← exactly (.mark ']') ts
    return (choices, ts)

/-- Reads the default of a field, if it has one: JSON text in a string literal. -/
def fieldDefault (ts : List SourceToken) : Except Failure (Option Json × List SourceToken) :=
  match skip (.word "default") ts with
  | (false, ts) => .ok (none, ts)
  | (true, ts) => do
    let ((text, location), ts) ← literal "default value" ts
    match Json.parse? text with
    | some v => return (some v, ts)
    | none => throw ⟨.invalidDefault, some location⟩

/-- Reads the description of a field, if it has one. -/
def fieldDescription (ts : List SourceToken) : Except Failure (Option String × List SourceToken) :=
  match skip (.word "doc") ts with
  | (false, ts) => .ok (none, ts)
  | (true, ts) => do
    let ((text, _), ts) ← literal "description" ts
    return (some text, ts)

/-- Reads what follows the name of a field. -/
def field (name : String) (ts : List SourceToken) : Except Failure (Field × List SourceToken) := do
  let (optional, ts) := skip (.mark '?') ts
  let ts ← exactly (.mark ':') ts
  let (type, ts) ← fieldType (ts.length + 1) ts
  let (choices, ts) ← fieldChoices ts
  let (default, ts) ← fieldDefault ts
  let (description, ts) ← fieldDescription ts
  return (⟨name, type, !optional, default, choices, description⟩, ts)

/-- Reads fields up to the closing brace, at most `n`, and adds them to those before. -/
def fields : Nat → Dict Field → List SourceToken → Except Failure (Dict Field × List SourceToken)
  | 0, _, _ => .error ⟨.endOfInput "field name", none⟩
  | n + 1, known, ts =>
    match skip (.mark '}') ts with
    | (true, ts) => .ok (known, ts)
    | (false, ts) => do
      let ((name, location), ts) ← word "field name" ts
      let (f, ts) ← field name ts
      if known.contains name then throw ⟨.duplicateField name, some location⟩
      fields n (known.insert name f) ts

/-- Reads the parent of a structure, if it has one. -/
def parent (ts : List SourceToken) : Except Failure (Option String × List SourceToken) :=
  match skip (.word "extends") ts with
  | (false, ts) => .ok (none, ts)
  | (true, ts) => do
    let ((name, _), ts) ← word "parent structure name" ts
    return (some name, ts)

/-- Reads one structure. -/
def one (ts : List SourceToken) : Except Failure (Structure × List SourceToken) := do
  let ts ← exactly (.word "structure") ts
  let ((name, _), ts) ← word "structure name" ts
  let (parent, ts) ← parent ts
  let ts ← exactly (.mark '{') ts
  let (fields, ts) ← fields (ts.length + 1) .empty ts
  return (⟨name, parent, fields, false⟩, ts)

/-- Reads at most `n` structures up to the end of the input. -/
def all : Nat → List SourceToken → Except Failure (List Structure)
  | _, [] => .ok []
  | 0, _ :: _ => .error ⟨.endOfInput "'structure'", none⟩
  | n + 1, ts => do
    let (s, ts) ← one ts
    let more ← all n ts
    return s :: more

/-- The lines of a text that is cut at its line breaks, each without the carriage return before its
line break; a line break at the end starts no further line. -/
def linesOf : List (List Char) → List (List Char)
  | [] => []
  | [last] => if last.isEmpty then [] else [last]
  | line :: rest => (Text.before? ['\r'] line).getD line :: linesOf rest

/-- The place after the last line of a source. -/
def stop (source : String) : Location :=
  let lines := linesOf (Text.splitOn '\n' source.toList)
  let line := max lines.length 1
  let column := (lines.getLast?.elim 0 List.length) + 1
  ⟨line, column, line, column⟩

/-- The structures of a source, or the first fault and its place. -/
def parse? (source : String) : Except (SourceFault × Location) (List Structure) := do
  let tokens ← SourceToken.scan source
  (all tokens.length tokens).mapError fun e => (e.fault, e.location.getD (stop source))

end Conduit.SourceParser
