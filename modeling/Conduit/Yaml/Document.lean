import Conduit.Yaml.Token

/-!
# Documents

A text holds at most one document, and a text without one leaves its value out. `Yaml.ofTokens?`
makes a value of the tokens of a document, and `Yaml.parse?` of a text. Keys and values of mappings
and items of block sequences may be left out; so may the colon and the value after a key of a flow
mapping. A flow collection may end with a comma, and an item of a flow sequence may be one entry of
a mapping.
-/

namespace Conduit.Yaml

/-- A value with the tokens that follow it. -/
abbrev Reader := List Token → Option (Yaml × List Token)

/-- Whether a token ends an entry of a flow mapping. -/
def Token.endsFlowEntry : Token → Bool
  | .comma | .closeMapping | .closeSequence => true
  | _ => false

/-- Whether a token ends an entry of a block mapping. -/
def Token.endsBlockEntry : Token → Bool
  | .key | .value | .blockEnd => true
  | _ => false

/-- A value that is left out where the next token ends its entry. -/
def orAbsent (node : Reader) (ends : Token → Bool) (ts : List Token) : Option (Yaml × List Token) :=
  if ts.head?.any ends then some (absent, ts) else node ts

/-- The value after a colon; without a colon it is left out. -/
def afterColon (node : Reader) (ends : Token → Bool) : Reader
  | .value :: ts => orAbsent node ends ts
  | ts => some (absent, ts)

/-- An entry of a flow mapping. -/
def flowEntry (node : Reader) : List Token → Option ((Yaml × Yaml) × List Token)
  | .key :: ts => do
    let (k, ts) ← orAbsent node (fun t => t.endsFlowEntry || t matches .value) ts
    let (v, ts) ← afterColon node Token.endsFlowEntry ts
    return ((k, v), ts)
  | ts => do
    let (k, ts) ← node ts
    return ((k, absent), ts)

/-- The key of an entry that is an item of a flow sequence. One that is left out takes the mark that
follows along. -/
def flowItemKey (node : Reader) : Reader
  | .value :: ts | .comma :: ts | .closeSequence :: ts => some (absent, ts)
  | ts => node ts

/-- An item of a flow sequence. -/
def flowItem (node : Reader) : Reader
  | .key :: ts => do
    let (k, ts) ← flowItemKey node ts
    let (v, ts) ← afterColon node Token.endsFlowEntry ts
    return (mapping [(k, v)], ts)
  | ts => node ts

/-- The items of a flow sequence up to its end; `fuel` bounds their number. -/
def flowItems (node : Reader) : Nat → List Token → Option (List Yaml × List Token)
  | 0, _ => none
  | _ + 1, .closeSequence :: ts => some ([], ts)
  | fuel + 1, ts => do
    let (v, ts) ← flowItem node ts
    match ts with
    | .comma :: ts =>
      let (vs, ts) ← flowItems node fuel ts
      return (v :: vs, ts)
    | .closeSequence :: ts => return ([v], ts)
    | _ => none

/-- The entries of a flow mapping up to its end; `fuel` bounds their number. -/
def flowEntries (node : Reader) : Nat → List Token → Option (List (Yaml × Yaml) × List Token)
  | 0, _ => none
  | _ + 1, .closeMapping :: ts => some ([], ts)
  | fuel + 1, ts => do
    let (e, ts) ← flowEntry node ts
    match ts with
    | .comma :: ts =>
      let (es, ts) ← flowEntries node fuel ts
      return (e :: es, ts)
    | .closeMapping :: ts => return ([e], ts)
    | _ => none

/-- The items of a block sequence, each after its dash; `fuel` bounds their number. What `ends` an
item leaves it out. -/
def blockItems (node : Reader) (ends : Token → Bool) :
    Nat → List Token → Option (List Yaml × List Token)
  | fuel + 1, .dash :: ts => do
    let (v, ts) ← orAbsent node (fun t => ends t || t matches .dash) ts
    let (vs, ts) ← blockItems node ends fuel ts
    return (v :: vs, ts)
  | _, ts => some ([], ts)

/-- The entries of a block mapping; `fuel` bounds their number. -/
def blockEntries (node : Reader) : Nat → List Token → Option (List (Yaml × Yaml) × List Token)
  | fuel + 1, .key :: ts => do
    let (k, ts) ← orAbsent node Token.endsBlockEntry ts
    let (v, ts) ← afterColon node Token.endsBlockEntry ts
    let (es, ts) ← blockEntries node fuel ts
    return ((k, v) :: es, ts)
  | _, ts => some ([], ts)

/-- The tokens after the end of a block collection. -/
def afterBlock? : List Token → Option (List Token)
  | .blockEnd :: ts => some ts
  | _ => none

/-- The value with which tokens begin, and the tokens after it, with at most `nesting` collections
in one another. A block sequence that is the key or the value of an entry need not be indented. -/
def node (nesting : Nat) (inEntry : Bool) (ts : List Token) : Option (Yaml × List Token) :=
  match nesting, ts with
  | _, .scalar v :: ts => some (v, ts)
  | nesting + 1, .openSequence :: ts => do
    let (vs, ts) ← flowItems (node nesting false) (ts.length + 1) ts
    return (sequence vs, ts)
  | nesting + 1, .openMapping :: ts => do
    let (es, ts) ← flowEntries (node nesting false) (ts.length + 1) ts
    return (mapping es, ts)
  | nesting + 1, .blockSequence :: ts => do
    let (vs, ts) ← blockItems (node nesting false) (· matches .blockEnd) ts.length ts
    return (sequence vs, ← afterBlock? ts)
  | nesting + 1, .blockMapping :: ts => do
    let (es, ts) ← blockEntries (node nesting true) ts.length ts
    return (mapping es, ← afterBlock? ts)
  | nesting + 1, .dash :: ts =>
    if inEntry then do
      let (vs, ts) ← blockItems (node nesting false) Token.endsBlockEntry (ts.length + 1)
        (.dash :: ts)
      return (sequence vs, ts)
    else none
  | _, _ => none
  termination_by structural nesting

/-- The value of a document. One that is begun by its mark may be empty. -/
def document : Reader
  | [] | [.documentStart] => some (absent, [])
  | .documentStart :: ts =>
    orAbsent (node ts.length false) (· matches .documentStart | .documentEnd) ts
  | ts => node ts.length false ts

/-- The value of the only document among tokens. -/
def ofTokens? (ts : List Token) : Option Yaml := do
  let (v, ts) ← document ts
  if ts.all (· matches .documentEnd) then some v else none

/-- The value that a text writes. -/
def parse? (text : String) : Option Yaml :=
  (tokens? text).bind ofTokens?

end Conduit.Yaml
