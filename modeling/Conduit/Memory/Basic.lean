import Conduit.Concept.Basic
import Conduit.Content.Basic
import Conduit.Memory.Error

/-!
# Working memory

A memory holds values under names, in insertion order, and aliases, each of which stands for one
name. The alias `main` stands for the latest result. An operation that can fail gives its result
together with the memory that it leaves, for a failure need not undo what came before it.

Every value has a code of its own. A new one takes the first code, in a fixed enumeration of texts,
that is neither a code nor a name in the memory.
-/

namespace Conduit

/-- A value with its concept, its name and its code. The concept of a list is that of its items. -/
structure Stuff where
  code : String
  name : String
  concept : Concept
  content : Content

/-- Values and aliases under names. -/
structure Memory where
  entries : Dict Stuff
  aliases : Dict String

namespace Memory

/-- The alias of the latest result. -/
def mainAlias : String := "main"

/-- The memory that holds nothing. -/
def empty : Memory := ⟨.empty, .empty⟩

instance : Inhabited Memory := ⟨empty⟩

/-- The name that a name stands for: the target of an alias, else itself. -/
def target (m : Memory) (name : String) : String :=
  (m.aliases.get? name).getD name

/-- Every name that can be looked up: those of the entries, then the aliases. -/
def names (m : Memory) : List String :=
  m.entries.keys ++ m.aliases.keys

/-- The value of a name or alias. -/
def find? (m : Memory) (name : String) : Option Stuff :=
  m.entries.get? (m.target name)

/-- Whether a name or alias has a value. -/
def contains (m : Memory) (name : String) : Bool :=
  (m.find? name).isSome

/-- The value of a name or alias, or the error that there is none. -/
def get (m : Memory) (name : String) : Except MemoryError Stuff :=
  match m.find? name with
  | some s => .ok s
  | none => .error (.notFound name m.names)

/-- The latest result. -/
def main (m : Memory) : Except MemoryError Stuff :=
  match m.find? mainAlias with
  | some s => .ok s
  | none => .error .noMain

/-- The name under which the latest result is stored. -/
def mainName? (m : Memory) : Option String :=
  m.aliases.get? mainAlias

/-! ## Codes -/

/-- A number in hexadecimal, with zeros before it up to a width. -/
def hexText (width n : Nat) : String :=
  let digits := Nat.toDigits 16 n
  String.ofList (List.replicate (width - digits.length) '0' ++ digits)

/-- What every code starts with. -/
def codeStart : String := "00000000-0000-4000-8000-"

/-- The number of characters of a code after its start. -/
def codeWidth : Nat := 12

/-- The code number `n`. -/
def codeText (n : Nat) : String :=
  codeStart ++ hexText codeWidth n

/-- The codes and names in a memory. -/
def taken (m : Memory) : List String :=
  m.entries.values.map Stuff.code ++ m.names ++ m.aliases.values

/-- A code that is neither a code nor a name in the memory. -/
def freshCode (m : Memory) : String :=
  let taken := m.taken
  (((List.range (taken.length + 1)).map codeText).find? fun c => !taken.contains c).getD ""

/-- A new value, with a code of its own. -/
def fresh (m : Memory) (name : String) (concept : Concept) (content : Content) : Stuff :=
  ⟨m.freshCode, name, concept, content⟩

/-! ## Writing -/

/-- Stores a value under a name, in place of an earlier value or of an alias of that name. -/
def set (m : Memory) (name : String) (s : Stuff) : Memory :=
  ⟨m.entries.insert name { s with name }, m.aliases.erase name⟩

/-- Makes a name stand for an entry of another name. -/
def setAlias (m : Memory) (name target : String) : Except MemoryError Memory :=
  if name = target then .error (.selfAlias name)
  else if m.entries.contains target then .ok ⟨m.entries, m.aliases.insert name target⟩
  else .error (.aliasTargetMissing name target)

/-- Makes names stand for an entry, up to the first that cannot. -/
def setAliases (m : Memory) (target : String) : List String → Except MemoryError Unit × Memory
  | [] => (.ok (), m)
  | name :: rest =>
    match m.setAlias name target with
    | .ok m => m.setAliases target rest
    | .error e => (.error e, m)

/-- The name of another entry that holds a value of the same code. -/
def holder? (m : Memory) (name code : String) : Option String :=
  (m.entries.entries.find? fun (k, s) => s.code == code && k != name).map (·.1)

/-- Stores a value that no other entry holds, and makes names stand for it. -/
def add (m : Memory) (name : String) (s : Stuff) (aliases : List String) :
    Except MemoryError Unit × Memory :=
  match m.holder? name s.code with
  | some existing => (.error (.duplicateCode s.code name existing), m)
  | none => (m.set name s).setAliases name aliases

/-- The name under which a result is stored: the one that is asked for, else its own, else its
code. -/
def resultName (s : Stuff) : Option String → String
  | some name => name
  | none => if s.name != "" && s.name != mainAlias then s.name else s.code

/-- Stores a value as the latest result, and gives the name under which it is stored. -/
def setMain (m : Memory) (s : Stuff) (name : Option String) : Except MemoryError String × Memory :=
  let name := resultName s name
  let m := m.set name s
  match m.setAlias mainAlias name with
  | .ok m => (.ok name, m)
  | .error e => (.error e, m)

/-- Stores the latest result under another name as well, which then is its name. -/
def storeMain (m : Memory) (name : String) : Except MemoryError Unit × Memory :=
  match m.main with
  | .error e => (.error e, m)
  | .ok s =>
    if m.mainName? = some name then (.ok (), m)
    else
      let m := m.set name s
      match m.setAlias mainAlias name with
      | .ok m => (.ok (), m)
      | .error e => (.error e, m)

/-! ## Values of one form -/

/-- The error that a variable holds content of another form. -/
def mismatch (name expected : String) (c : Content) : MemoryError :=
  .typeMismatch name expected c.kind

/-- The text that a variable holds. -/
def text (m : Memory) (name : String) : Except MemoryError String := do
  match (← m.get name).content with
  | .text s => return s
  | c => throw (mismatch name "text" c)

/-- The number that a variable holds. -/
def number (m : Memory) (name : String) : Except MemoryError Double := do
  match (← m.get name).content with
  | .number x => return x
  | c => throw (mismatch name "number" c)

/-- The image that a variable holds. -/
def image (m : Memory) (name : String) : Except MemoryError Image := do
  match (← m.get name).content with
  | .image i => return i
  | c => throw (mismatch name "image" c)

/-- The list that a variable holds. -/
def list (m : Memory) (name : String) : Except MemoryError (List Content) := do
  match (← m.get name).content with
  | .list items => return items
  | c => throw (mismatch name "list" c)

/-- The record that a variable holds. -/
def record (m : Memory) (name : String) : Except MemoryError (Dict Json) := do
  match (← m.get name).content with
  | .record _ fields => return fields
  | c => throw (mismatch name "structured" c)

/-- A memory in words: a line for each entry, then one for each alias. -/
def describe (m : Memory) : String :=
  String.join (m.entries.entries.map fun (k, s) => s!"{k}: {s.concept.name} ({s.content.kind})\n")
    ++ String.join (m.aliases.entries.map fun (k, t) => s!"{k} -> {t}\n")

end Memory

end Conduit
