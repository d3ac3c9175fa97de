import Conduit.Text.Blank
import Conduit.Json.Parser
import Conduit.Expression.Basic
import Conduit.Expression.Scan

/-!
# Reading expressions

From the loosest to the tightest, an expression is a disjunction, a conjunction, a negation, an
expression in parentheses, an inequality, an equality or an operand. An operand is a text in single
quotation marks, a JSON literal or an attribute path. Orderings and strict equalities are refused
where they stand at the top level. `Expression.parse?` reads a text; `SyntaxFault` lists what can be
wrong with one, also with a template.
-/

namespace Conduit

open Text

/-- What is wrong with the text of an expression or a template. -/
inductive SyntaxFault where
  | emptyExpression
  | strictEquality
  | ordering
  | missingNegated
  | missingOperand
  | invalidLiteral (text : String)
  | unsupported (text : String)
  | unclosed
  | emptyInterpolation
  deriving DecidableEq, Repr

/-- A fault in words. -/
def SyntaxFault.message : SyntaxFault → String
  | emptyExpression => "expression cannot be empty"
  | strictEquality => "strict equality operators are unsupported; use '==' or '!='"
  | ordering =>
    "unsupported comparison operator; only '==', '!=', '&&', '||' and '!' are supported"
  | missingNegated => "expression cannot end with negation operator"
  | missingOperand => "comparison expression must include both left and right operands"
  | invalidLiteral text => s!"invalid literal '{text}': <json error>"
  | unsupported text => s!"unsupported expression '{text}'"
  | unclosed => "unclosed '$\x7b\x7b' delimiter"
  | emptyInterpolation => "empty '$\x7b\x7b \x7d\x7d' expression"

namespace Expression

/-- A part of a text that is no longer than `n` characters. -/
abbrev Part (n : Nat) := { p : List Char // p.length ≤ n }

/-- The trimmed pieces of a text between the occurrences of a symbol at the top level; a piece that
would come after a last symbol and is empty does not count. -/
def pieces (symbol : List Char) (h : symbol ≠ []) (cs : List Char) : List (Part cs.length) :=
  if cs.isEmpty then []
  else match hc : cutTop? symbol .start cs with
    | none => [⟨trim cs, length_trim_le cs⟩]
    | some (left, right) =>
      have hl := length_cutTop? hc
      have hs : 0 < symbol.length := List.length_pos_iff.2 h
      ⟨trim left, Nat.le_trans (length_trim_le left) (by omega)⟩ ::
        (pieces symbol h right).map fun ⟨p, hp⟩ => ⟨p, by omega⟩
  termination_by cs.length

/-- The pieces of a text that a symbol divides into two or more, each shorter than the text. -/
def divided? (symbol : List Char) (h : symbol ≠ []) (cs : List Char) :
    Option (List { p : List Char // p.length < cs.length }) :=
  match hc : cutTop? symbol .start cs with
  | none => none
  | some (left, right) =>
    have hl := length_cutTop? hc
    have hs : 0 < symbol.length := List.length_pos_iff.2 h
    if right.isEmpty then none
    else
      some (⟨trim left, Nat.lt_of_le_of_lt (length_trim_le left) (by omega)⟩ ::
        (pieces symbol h right).map fun ⟨p, hp⟩ => ⟨p, by omega⟩)

/-- The number of negations at the start of a text and what follows them. The `!` of an inequality
is no negation. -/
def negations : List Char → Nat × List Char
  | [] => (0, [])
  | '!' :: '=' :: rest => (0, '!' :: '=' :: rest)
  | '!' :: rest =>
    let (n, inner) := negations rest
    (n + 1, inner)
  | c :: rest => if isBlank c then negations rest else (0, c :: rest)

/-- What follows the negations of a text is no longer than the text. -/
theorem length_negations_le (cs : List Char) : (negations cs).2.length ≤ cs.length := by
  fun_induction negations cs <;> simp_all <;> omega

/-- What follows at least one negation is shorter than the text. -/
theorem length_negations_lt {cs : List Char} (h : 0 < (negations cs).1) :
    (negations cs).2.length < cs.length := by
  fun_induction negations cs with
  | case1 => simp at h
  | case2 => simp at h
  | case3 rest _ n inner hn ih =>
    have h := length_negations_le rest
    rw [hn] at h
    exact Nat.lt_succ_of_le h
  | case4 c rest _ _ hb ih => simp_all; omega
  | case5 => simp at h

/-- Whether every closing parenthesis of a text has a partner before it, with `depth` open at the
start. -/
def neverCloses : Nat → List Char → Bool
  | _, [] => true
  | depth, '(' :: cs => neverCloses (depth + 1) cs
  | 0, ')' :: _ => false
  | depth + 1, ')' :: cs => neverCloses depth cs
  | depth, _ :: cs => neverCloses depth cs

/-- The text between a pair of parentheses that encloses all of it. -/
def enclosed? (cs : List Char) : Option (List Char) := do
  let rest ← after? ['('] cs
  let inner ← before? [')'] rest
  if neverCloses 0 inner then some inner else none

/-- What an enclosing pair of parentheses leaves is shorter. -/
theorem length_enclosed? {cs inner : List Char} (h : enclosed? cs = some inner) :
    inner.length < cs.length := by
  simp only [enclosed?, Option.bind_eq_bind, Option.bind_eq_some_iff] at h
  obtain ⟨rest, hr, inner', hi, hif⟩ := h
  split at hif
  · cases hif
    rw [after?_eq_some_iff] at hr
    obtain ⟨r, hb, rfl⟩ := Option.map_eq_some_iff.1 hi
    have := congrArg List.length (after?_eq_some_iff.1 hb)
    simp [hr] at this ⊢
    omega
  · cases hif

/-- Whether an operand is meant as a JSON literal. -/
def looksLiteral (cs : List Char) : Bool :=
  match cs with
  | [] => false
  | c :: _ =>
    c == '[' || c == '{' || c == '"' || c == '-' || c.isDigit ||
      cs == "null".toList || cs == "true".toList || cs == "false".toList

/-- The text between single quotation marks at the two ends. -/
def singleQuoted? (cs : List Char) : Option (List Char) :=
  (after? ['\''] cs).bind (before? ['\''])

/-- The operand that a text without operators writes. -/
def operand (cs : List Char) : Except SyntaxFault Expression :=
  match singleQuoted? cs with
  | some text => .ok (.literal (.string (String.ofList text)))
  | none =>
    let text := String.ofList cs
    if looksLiteral cs then
      match Json.parse? text with
      | some v => .ok (.literal v)
      | none => .error (.invalidLiteral text)
    else if Path.isValid text then .ok (.path text)
    else .error (.unsupported text)

/-- The expression under a number of negations. -/
def negated : Nat → Expression → Expression
  | 0, e => e
  | n + 1, e => .not (negated n e)

/-- The expression that a text writes, once orderings and strict equalities are excluded. -/
def node (cs : List Char) : Except SyntaxFault Expression :=
  have ht : (trim cs).length ≤ cs.length := length_trim_le cs
  match divided? ['|', '|'] nofun (trim cs) with
  | some parts => do
    let es ← parts.mapM fun ⟨p, _⟩ => node p
    return .or es
  | none =>
    match divided? ['&', '&'] nofun (trim cs) with
    | some parts => do
      let es ← parts.mapM fun ⟨p, _⟩ => node p
      return .and es
    | none =>
      let count := (negations (trim cs)).1
      let inner := trim (negations (trim cs)).2
      have : inner.length ≤ (trim cs).length :=
        Nat.le_trans (length_trim_le _) (length_negations_le _)
      if inner.isEmpty then .error .missingNegated
      else if hn : 0 < count then do
        have : inner.length < cs.length :=
          Nat.lt_of_lt_of_le (Nat.lt_of_le_of_lt (length_trim_le _) (length_negations_lt hn)) ht
        let e ← node inner
        return negated count e
      else match he : enclosed? inner with
        | some e =>
          have := length_enclosed? he
          node e
        | none =>
          match hne : cutTop? ['!', '='] .start inner with
          | some (left, right) => do
            have : inner.length = left.length + 2 + right.length := length_cutTop? hne
            have := length_trim_le left
            have := length_trim_le right
            if (trim left).isEmpty || (trim right).isEmpty then .error .missingOperand
            let l ← node (trim left)
            let r ← node (trim right)
            return .notEquals l r
          | none =>
            match heq : cutTop? ['=', '='] .start inner with
            | some (left, right) => do
              have : inner.length = left.length + 2 + right.length := length_cutTop? heq
              have := length_trim_le left
              have := length_trim_le right
              if (trim left).isEmpty || (trim right).isEmpty then .error .missingOperand
              let l ← node (trim left)
              let r ← node (trim right)
              return .equals l r
            | none => operand inner
  termination_by cs.length
  decreasing_by all_goals omega

/-- The orderings, which expressions do not have. -/
def orderings : List (List Char) :=
  [['>', '='], ['<', '='], ['>'], ['<']]

/-- The strict equalities, which expressions do not have. -/
def strictEqualities : List (List Char) :=
  [['=', '=', '='], ['!', '=', '=']]

/-- The expression that a text writes. -/
def parse? (source : String) : Except SyntaxFault Expression :=
  let cs := trim source.toList
  if cs.isEmpty then .error .emptyExpression
  else if strictEqualities.any (hasTop · cs) then .error .strictEquality
  else if orderings.any (hasTop · cs) then .error .ordering
  else node cs

/-- A bare expression: the text between interpolation marks, where they are written around it. -/
def normalize (source : String) : String :=
  let cs := trim source.toList
  match after? ['$', '{', '{'] cs with
  | none => String.ofList cs
  | some rest =>
    let inner := trim rest
    String.ofList (trim ((before? ['}', '}'] inner).getD inner))

end Expression

end Conduit
