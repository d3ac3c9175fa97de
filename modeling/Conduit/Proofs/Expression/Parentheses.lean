import Conduit.Proofs.Expression.RoundTrip

/-!
# Parentheses around an expression

An expression in parentheses is read as it is without them (`Expression.parse?_parenthesized`),
unless a closing parenthesis of the expression is taken for the one that closes them. The test for
enclosing parentheses counts those in quotation marks as well, which the search for symbols passes
over: the text `')'` is an expression and `(')')` is none
(`Expression.not_forall_parse?_parenthesized`).
-/

namespace Conduit.Expression

open Text

variable {cs : List Char} {source : String} {e : Expression}

/-- A text in parentheses. -/
def parenthesized (source : String) : String :=
  "(" ++ source ++ ")"

theorem toList_parenthesized (source : String) :
    (parenthesized source).toList = parens source.toList := by
  simp [parenthesized, parens]

theorem trim_parens (cs : List Char) : trim (parens cs) = parens cs :=
  trim_eq_self (trimmed_parens cs)

/-- What is found outside the parentheses around a text is found in the text. -/
theorem cutTop?_parens {symbol : List Char} (hsymbol : symbol ∈ symbols)
    (h : cutTop? symbol ⟨none, 1⟩ cs = none) : cutTop? symbol .start (parens cs) = none := by
  obtain ⟨c, more, rfl, hc, hmore⟩ := exists_of_mem_symbols hsymbol
  have hclose : ∀ d ∈ [')'], d ∉ c :: more := by
    have hmarks : ')' ∉ marks := by decide
    rw [List.forall_mem_singleton, List.mem_cons, not_or]
    exact ⟨fun heq => hmarks (heq ▸ hc), fun hmem => hmarks (hmore _ hmem)⟩
  have happend := cutTop?_append_none (List.cons_ne_nil c more) hclose h
  rw [parens, List.cons_append, cutTop?_cons_eq_none_iff]
  exact ⟨fun hnone => absurd hnone (Option.some_ne_none _), happend⟩

/-- White space around a text has no part in a symbol. -/
theorem cutTop?_trim {symbol : List Char} (hsymbol : symbol ∈ symbols)
    (h : cutTop? symbol .start (trim cs) = none) : cutTop? symbol .start cs = none := by
  obtain ⟨c, more, rfl, hc, hmore⟩ := exists_of_mem_symbols hsymbol
  obtain ⟨before, after, hcs, hbefore, hafter⟩ := exists_eq_trim cs
  have hblank : ∀ d ∈ after, d ∉ c :: more := by
    intro d hd hmem
    have hnone := not_mem_marks_of_isBlank (hafter d hd)
    rcases List.mem_cons.1 hmem with rfl | hmem
    · exact hnone hc
    · exact hnone (hmore d hmem)
  rw [hcs, List.append_assoc, (Passes.of_blank hbefore).cutTop?_append_eq_none_iff hc]
  exact cutTop?_append_none (List.cons_ne_nil c more) hblank h

/-- A text in parentheses is no operand. -/
theorem operand_parens (cs : List Char) :
    operand (parens cs) = .error (.unsupported (String.ofList (parens cs))) := by
  have hinvalid : ¬ Path.isValid (String.ofList (parens cs)) = true := by
    intro hvalid
    have hclean : Path.IsClean (String.ofList (parens cs)) := by
      refine ⟨hvalid, ?_⟩
      rw [String.toList_ofList, trim_parens]
    obtain ⟨_, c, rest, hstart, hkey, _⟩ := Path.isPathChar_of_isClean hclean
    rw [String.toList_ofList] at hstart
    cases hstart
    cases hkey
  have hliteral : looksLiteral (parens cs) = false := by
    simp [looksLiteral, parens]
  rw [operand, singleQuoted?_eq_none (by simp [parens])]
  simp only [hliteral, hinvalid, Bool.false_eq_true, if_false]

/-- A text in parentheses that no `||` and no `&&` divides is read as what they enclose, if they
do. -/
theorem node_parens (hor : cutTop? ['|', '|'] ⟨none, 1⟩ cs = none)
    (hand : cutTop? ['&', '&'] ⟨none, 1⟩ cs = none) (hcloses : neverCloses 0 cs = true) :
    node (parens cs) = node cs := by
  have hundivided : Undivided (parens cs) :=
    undivided_of_cutTop? (cutTop?_parens (by decide) hor) (cutTop?_parens (by decide) hand)
  have henc : enclosed? (parens cs) = some cs := by rw [enclosed?_parens, if_pos hcloses]
  exact node_enclosed hundivided (trimmed_parens cs) nofun henc

/-- A text in parentheses outside which there is no symbol is refused, if they do not enclose it. -/
theorem node_parens_of_closes (hinside : Unbroken ⟨none, 1⟩ cs)
    (hcloses : neverCloses 0 cs = false) : node (parens cs) =
      .error (.unsupported (String.ofList (parens cs))) := by
  have hun : Unbroken .start (parens cs) :=
    fun symbol hsymbol => cutTop?_parens hsymbol (hinside symbol hsymbol)
  have henc : enclosed? (parens cs) = none := by
    rw [enclosed?_parens, hcloses]
    rfl
  rw [node_unbroken (trimmed_parens cs) nofun hun, henc]
  exact operand_parens cs

/-- A text in parentheses is read if no refused symbol stands in it. -/
theorem parse?_parenthesized_eq_node
    (hallowed : ∀ symbol ∈ refused, cutTop? symbol ⟨none, 1⟩ source.toList = none) :
    parse? (parenthesized source) = node (parens source.toList) := by
  rw [parse?_eq_node, toList_parenthesized]
  · rw [toList_parenthesized, trim_parens]
    exact (trimmed_parens _).ne_nil
  · intro symbol hsymbol
    rw [toList_parenthesized, trim_parens]
    exact cutTop?_parens (List.mem_append_left _ hsymbol) (hallowed symbol hsymbol)

theorem refused_deeper (h : parse? source = .ok e) :
    ∀ symbol ∈ refused, cutTop? symbol ⟨none, 1⟩ source.toList = none := by
  intro symbol hsymbol
  have hnone := (parse?_eq_ok_iff.1 h).2.1 symbol hsymbol
  have htop := cutTop?_trim (List.mem_append_left _ hsymbol) hnone
  exact cutTop?_deeper (Nat.zero_le 1) htop

/-- A comparison of two parts in parentheses. -/
theorem parse?_comparison :
    parse? "(x) == ('y')" = .ok (.equals (.path "x") (.literal (.string "y"))) := by
  have hpath : Written "x".toList (.path "x") := written_path ⟨by decide, by decide⟩ (by decide)
  have hstring : Written (singleQuoted "y".toList) (.literal (.string "y")) :=
    written_string (by decide)
  exact (Written.compared (.inr ⟨rfl, rfl⟩) hpath hstring).parse?_eq_ok

/-- Parentheses around an expression are neutral if none of its closing parentheses, in quotation
marks or not, is without a partner in it, and no `||` or `&&` stands outside them. If one is without
a partner, and nothing stands outside, the text in parentheses is refused. -/
theorem parse?_parenthesized (h : parse? source = .ok e) :
    (neverCloses 0 source.toList = true → cutTop? ['|', '|'] ⟨none, 1⟩ source.toList = none →
      cutTop? ['&', '&'] ⟨none, 1⟩ source.toList = none →
      parse? (parenthesized source) = .ok e) ∧
    (neverCloses 0 source.toList = false → Unbroken ⟨none, 1⟩ source.toList →
      parse? (parenthesized source) = .error (.unsupported (parenthesized source))) := by
  have hread := parse?_parenthesized_eq_node (refused_deeper h)
  constructor
  · intro hcloses hor hand
    rw [hread, node_parens hor hand hcloses]
    exact (parse?_eq_ok_iff.1 h).2.2
  · intro hcloses hinside
    rw [hread, node_parens_of_closes hinside hcloses, ← toList_parenthesized, String.ofList_toList]

/-- A comparison is read in parentheses. -/
theorem parse?_parenthesized_comparison :
    parse? "(x) == ('y')" = .ok (.equals (.path "x") (.literal (.string "y"))) ∧
      parse? "((x) == ('y'))" = .ok (.equals (.path "x") (.literal (.string "y"))) :=
  ⟨parse?_comparison,
    (parse?_parenthesized parse?_comparison).1 (by decide) (by decide) (by decide)⟩

/-- A text in single quotation marks without one in it is read as that text. -/
theorem parse?_singleQuoted (h : '\'' ∉ cs) :
    parse? (String.ofList (singleQuoted cs)) = .ok (.literal (.string (String.ofList cs))) := by
  have hself := trim_eq_self (trimmed_singleQuoted cs)
  have hun : Unbroken .start (singleQuoted cs) := (passes_singleQuoted h marks).unbroken
  rw [parse?_eq_ok_iff, String.toList_ofList, hself]
  refine ⟨(trimmed_singleQuoted cs).ne_nil,
    fun symbol hsymbol => hun symbol (List.mem_append_left _ hsymbol), ?_⟩
  rw [node_of_operand hun (trimmed_singleQuoted cs) nofun nofun, operand_singleQuoted]

/-- A string with a closing parenthesis is an expression, and in parentheses it is none. -/
theorem not_forall_parse?_parenthesized :
    ¬ ∀ source e, parse? source = .ok e → parse? (parenthesized source) = .ok e := by
  intro h
  have hsource : String.ofList (singleQuoted ")".toList) = "')'" := by decide
  have hread : parse? "')'" = .ok (.literal (.string ")")) := by
    rw [← hsource, parse?_singleQuoted (by decide), String.ofList_toList]
  have hrefused := parse?_parenthesized_eq_node (refused_deeper hread)
  have hinside : Unbroken ⟨none, 1⟩ "')'".toList := by
    unfold Unbroken
    decide
  rw [node_parens_of_closes hinside (by decide)] at hrefused
  cases (h _ _ hread).symm.trans hrefused

end Conduit.Expression
