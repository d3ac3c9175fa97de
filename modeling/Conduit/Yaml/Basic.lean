/-!
# Values as files write them

Files are written in YAML, of which JSON is a part. A `Yaml` is the value of a file before anything
is read into it. A plain scalar is written without quotation marks, and its text says what it
stands for: `3` is a number and `"3"` a text. A mapping keeps its entries in their order, and a key
may come twice.
-/

namespace Conduit

/-- A value as a file writes it. -/
inductive Yaml where
  | plain (text : String)
  | quoted (text : String)
  | sequence (items : List Yaml)
  | mapping (entries : List (Yaml × Yaml))
  deriving Inhabited

namespace Yaml

/-- A value that is left out. -/
def absent : Yaml := .plain ""

/-- The text of a scalar, whatever it stands for. -/
def text? : Yaml → Option String
  | plain text | quoted text => some text
  | sequence _ | mapping _ => none

end Yaml

end Conduit
