/-!
# Names

Variables, concepts and pipes have names of three shapes: `_aName1`, `AName1` and `a_name1`. A
variable may use capitals and start with an underscore; a pipe may not, and its underscores stand
between letters or digits.
-/

namespace Conduit.Text

/-- Whether a text is the name of a variable: letters, digits and underscores, no digit first. -/
def isVariable (name : String) : Bool :=
  match name.toList with
  | [] => false
  | c :: cs => (c.isAlpha || c == '_') && cs.all fun c => c.isAlphanum || c == '_'

/-- Whether a text is the name of a concept: letters and digits, a capital first. -/
def isConceptCode (name : String) : Bool :=
  match name.toList with
  | [] => false
  | c :: cs => c.isUpper && cs.all Char.isAlphanum

/-- Whether a text continues a pipe's name: small letters and digits, and underscores of which each
is followed by one of these. -/
def continuesPipeCode : List Char → Bool
  | [] => true
  | '_' :: c :: cs => (c.isLower || c.isDigit) && continuesPipeCode cs
  | c :: cs => (c.isLower || c.isDigit) && continuesPipeCode cs

/-- Whether a text is the name of a pipe: a small letter, then small letters, digits and single
underscores, the last character no underscore. -/
def isPipeCode (name : String) : Bool :=
  match name.toList with
  | [] => false
  | c :: cs => c.isLower && continuesPipeCode cs

end Conduit.Text
