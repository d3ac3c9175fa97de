import Conduit.Proofs.Expression.RoundTrip

/-!
# JSON strings in expressions

The search for symbols reads a JSON string up to the next quotation mark, escaped or not. A string
is an operand in its JSON text exactly if no symbol of it stands after an odd number of its
quotation marks, outside what the search takes for quoted (`Expression.parse?_quoted_iff`); strings
without quotation marks always are (`Expression.unbroken_of_not_mem`). Escapes have no part in a
symbol, so that the text and the string have their symbols at the same places
(`Expression.unbroken_quoted_iff`).
-/

namespace Conduit.Expression

open Text

variable {cs rest symbol : List Char} {s : Scan} {e : Expression} {v : Json} {text : String}

/-! ## Symbols after a text -/

/-- A symbol that is found in a text is found whatever follows. -/
theorem cutTop?_none_left (h : cutTop? symbol s (cs ++ rest) = none) :
    cutTop? symbol s cs = none := by
  induction cs generalizing s with
  | nil => rfl
  | cons c cs ih =>
    rw [List.cons_append, cutTop?_cons_eq_none_iff] at h
    rw [cutTop?_cons_eq_none_iff]
    exact ⟨fun hstep htop => after?_none_left (h.1 hstep htop), ih h.2⟩

/-! ## Quotation marks -/

/-- What is open is a quotation mark or nothing. -/
def Scan.Sound (s : Scan) : Prop :=
  ∀ q ∈ s.quote, q = '\'' ∨ q = '"'

namespace Scan

theorem Sound.step (hs : s.Sound) (c : Char) : ((s.step? c).getD s).Sound := by
  obtain ⟨quote, depth⟩ := s
  cases quote with
  | some q =>
    rw [step?_quoted]
    split
    · exact nofun
    · exact hs
  | none =>
    unfold step?
    dsimp only
    split
    · next hc =>
      intro q hq
      cases hq
      simpa using hc
    · split
      · exact nofun
      · split <;> exact nofun

/-- A plain character opens and closes nothing. -/
theorem Sound.step?_plain (hs : s.Sound) {c : Char} (hc : isPlain c = true) : s.step? c = none := by
  obtain ⟨hdelimiter, _⟩ := isPlain_iff.1 hc
  obtain ⟨quote, depth⟩ := s
  cases quote with
  | none => exact step?_bare hdelimiter depth
  | some q =>
    refine if_neg ?_
    rintro rfl
    rcases hs c rfl with rfl | rfl <;> exact hdelimiter (by decide)

end Scan

/-- The search for a symbol passes over plain characters, in quotation marks or not. -/
theorem cutTop?_plain (hsymbol : symbol ∈ symbols) (hs : s.Sound) (h : ∀ c ∈ cs, isPlain c = true)
    (rest : List Char) : cutTop? symbol s (cs ++ rest) = none ↔ cutTop? symbol s rest = none := by
  obtain ⟨d, more, rfl, hd, _⟩ := exists_of_mem_symbols hsymbol
  induction cs with
  | nil => rfl
  | cons c cs ih =>
    rw [List.forall_mem_cons] at h
    have hne : d ≠ c := fun heq => (isPlain_iff.1 h.1).2 (heq ▸ hd)
    rw [List.cons_append, cutTop?_cons_eq_none_iff, hs.step?_plain h.1, Option.getD_none, ih h.2]
    exact and_iff_right fun _ _ => after?_eq_none_of_ne hne

/-! ## Escapes -/

theorem isPlain_of_control {c : Char} (h : c.toNat < 0x20) : isPlain c = true :=
  isPlain_of_forall (p := (·.toNat < 0x20)) (by decide) h

/-- A character is written as it is, or as a backslash and what has no part in a symbol. -/
theorem escaped_cases (c : Char) : Json.escaped c = [c] ∨ c = '"' ∧ Json.escaped c = ['\\', '"'] ∨
    isPlain c = true ∧ ∃ more, Json.escaped c = '\\' :: more ∧ ∀ d ∈ more, isPlain d = true := by
  unfold Json.escaped
  split
  case h_1 => exact .inr (.inl ⟨rfl, rfl⟩)
  case h_8 =>
    split
    · next h =>
      have hdigit : ∀ n < 16, isPlain (hexDigit n) = true := by decide
      refine .inr (.inr ⟨isPlain_of_control h, _, rfl, ?_⟩)
      simp only [List.forall_mem_cons]
      exact ⟨by decide, by decide, by decide, hdigit _ (by omega), hdigit _ (by omega), nofun⟩
    · exact .inl rfl
  all_goals exact .inr (.inr ⟨by decide, _, rfl, by decide⟩)

/-- A text starts with a symbol exactly if its escaped text does. -/
theorem after?_escaped (hsymbol : ∀ c ∈ symbol, c ∈ marks) (cs : List Char) :
    after? symbol (cs.flatMap Json.escaped) = none ↔ after? symbol cs = none := by
  induction symbol generalizing cs with
  | nil => simp [after?]
  | cons d symbol ih =>
    rw [List.forall_mem_cons] at hsymbol
    cases cs with
    | nil => rfl
    | cons c cs =>
      rw [List.flatMap_cons]
      have hne : ∀ c, c ∉ marks → d ≠ c := fun c hc heq => hc (heq ▸ hsymbol.1)
      rcases escaped_cases c with heq | ⟨rfl, heq⟩ | ⟨hplain, more, heq, _⟩
      · rw [heq, List.cons_append, List.nil_append, after?, after?]
        split
        · exact ih hsymbol.2 cs
        · rfl
      · rw [heq]
        exact iff_of_true (after?_eq_none_of_ne (hne _ (by decide)))
          (after?_eq_none_of_ne (hne _ (by decide)))
      · rw [heq]
        exact iff_of_true (after?_eq_none_of_ne (hne _ (by decide)))
          (after?_eq_none_of_ne (hne _ (isPlain_iff.1 hplain).2))

/-- A symbol is found in a text exactly if it is found in its escaped text. -/
theorem cutTop?_escaped (hsymbol : symbol ∈ symbols) (hs : s.Sound) (cs : List Char) :
    cutTop? symbol s (cs.flatMap Json.escaped) = none ↔ cutTop? symbol s cs = none := by
  induction cs generalizing s with
  | nil => rfl
  | cons c cs ih =>
    obtain ⟨d, symbol, rfl, hd, hmore⟩ := exists_of_mem_symbols hsymbol
    rw [List.flatMap_cons]
    -- a backslash opens and closes nothing, and the mark after it does what it does alone
    rcases escaped_cases c with heq | ⟨rfl, heq⟩ | ⟨hplain, more, heq, hescaped⟩
    · have hhere := after?_escaped (List.forall_mem_cons.2 ⟨hd, hmore⟩) (c :: cs)
      rw [List.flatMap_cons, heq] at hhere
      rw [heq, List.cons_append, List.nil_append] at *
      rw [cutTop?_cons_eq_none_iff, cutTop?_cons_eq_none_iff, hhere, ih (hs.step c)]
    · have hmark : d ≠ '"' := fun heq => absurd (heq ▸ hd) (by decide)
      have hslash : ∀ d ∈ ['\\'], isPlain d = true := by decide
      have hnone : ∀ cs, after? (d :: symbol) ('"' :: cs) = none :=
        fun _ => after?_eq_none_of_ne hmark
      rw [heq]
      refine (cutTop?_plain hsymbol hs hslash ('"' :: cs.flatMap Json.escaped)).trans ?_
      rw [cutTop?_cons_eq_none_iff, cutTop?_cons_eq_none_iff, ih (hs.step '"'), hnone, hnone]
    · have hall : ∀ d ∈ Json.escaped c, isPlain d = true := by
        rw [heq]
        exact List.forall_mem_cons.2 ⟨by decide, hescaped⟩
      have hc : ∀ d ∈ [c], isPlain d = true := List.forall_mem_singleton.2 hplain
      rw [cutTop?_plain hsymbol hs hall, ih hs]
      exact (cutTop?_plain hsymbol hs hc cs).symm

/-! ## Quoted strings -/

theorem toList_quoted (text : String) :
    (Json.quoted text).toList = '"' :: (text.toList.flatMap Json.escaped ++ ['"']) := by
  simp [Json.quoted]

/-- The symbols at the top level of a quoted string are those of the string that stand after a
quotation mark of it. -/
theorem unbroken_quoted_iff (text : String) :
    Unbroken .start (Json.quoted text).toList ↔ Unbroken ⟨some '"', 0⟩ text.toList := by
  have hsound : Scan.Sound ⟨some '"', 0⟩ := by
    intro q hq
    cases hq
    exact .inr rfl
  refine forall₂_congr fun symbol hsymbol => ?_
  obtain ⟨d, more, rfl, hd, hmore⟩ := exists_of_mem_symbols hsymbol
  have hmark : ∀ c ∈ ['"'], c ∉ d :: more := by
    have hnone : '"' ∉ marks := by decide
    rw [List.forall_mem_singleton, List.mem_cons, not_or]
    exact ⟨fun heq => hnone (heq ▸ hd), fun hmem => hnone (hmore _ hmem)⟩
  rw [toList_quoted, cutTop?_cons_eq_none_iff, ← cutTop?_escaped hsymbol hsound]
  exact ⟨fun h => cutTop?_none_left h.2,
    fun h => ⟨nofun, cutTop?_append_none (List.cons_ne_nil d more) hmark h⟩⟩

/-- A string without quotation marks has no symbols there. -/
theorem unbroken_of_not_mem (h : '"' ∉ cs) : Unbroken ⟨some '"', 0⟩ cs :=
  ((inside_quotation h 0).2 marks).unbroken

theorem trimmed_quoted (text : String) : Trimmed (Json.quoted text).toList := by
  rw [toList_quoted]
  exact ⟨⟨'"', _, rfl, by decide⟩, ⟨'"' :: text.toList.flatMap Json.escaped, '"', rfl, by decide⟩⟩

theorem getLast?_quoted (text : String) : (Json.quoted text).toList.getLast? = some '"' := by
  rw [toList_quoted, ← List.cons_append, List.getLast?_concat]

theorem head?_quoted (text : String) : (Json.quoted text).toList.head? = some '"' := by
  rw [toList_quoted]
  rfl

/-- The operand that a quoted string is. -/
theorem operand_quoted (text : String) :
    operand (Json.quoted text).toList = .ok (.literal (.string text)) := by
  have hliteral : looksLiteral (Json.quoted text).toList = true := by
    rw [toList_quoted]
    rfl
  have hquoted : singleQuoted? (Json.quoted text).toList = none := by
    refine singleQuoted?_eq_none ?_
    rw [head?_quoted]
    nofun
  rw [operand, hquoted]
  simp only [hliteral, String.ofList_toList, Json.parse?_quoted, if_true]

/-- A text that ends in no mark is cut at a symbol that divides it into no parts. -/
theorem cutTop?_of_undivided (hundivided : Undivided cs) (hlast : ∀ c ∈ cs.getLast?, c ∉ marks) :
    cutTop? ['|', '|'] .start cs = none ∧ cutTop? ['&', '&'] .start cs = none := by
  have hnone : ∀ c ∈ marks, ∀ left right, cutTop? [c, c] .start cs = some (left, right) →
      right ≠ [] := by
    rintro c hc left right hcut rfl
    refine hlast c ?_ hc
    rw [eq_append_of_cutTop? hcut]
    simp
  constructor
  · refine Option.eq_none_iff_forall_ne_some.2 fun ⟨left, right⟩ hcut => ?_
    exact hnone '|' (by decide) left right hcut (cutTop?_of_parts?_eq_none hundivided.or hcut)
  · refine Option.eq_none_iff_forall_ne_some.2 fun ⟨left, right⟩ hcut => ?_
    exact hnone '&' (by decide) left right hcut (cutTop?_of_parts?_eq_none hundivided.and hcut)

/-- A quoted string is read as a literal exactly if no connective stands in it at the top level. -/
theorem node_quoted_iff (text : String) :
    node (Json.quoted text).toList = .ok (.literal (.string text)) ↔
      ∀ symbol ∈ connectives, cutTop? symbol .start (Json.quoted text).toList = none := by
  have htrim := trimmed_quoted text
  have hself := trim_eq_self htrim
  have henc : enclosed? (Json.quoted text).toList = none := by
    refine enclosed?_eq_none ?_
    rw [head?_quoted]
    nofun
  constructor
  · intro h
    have hlast : ∀ c ∈ (Json.quoted text).toList.getLast?, c ∉ marks := by
      rw [getLast?_quoted]
      rintro c ⟨⟩
      decide
    -- the other forms are no literals, or have parentheses around them
    generalize he : literal (.string text) = e at h
    cases form_of_node h with
    | or => cases he
    | and => cases he
    | not => cases he
    | enclosed _ hinner =>
      rw [hself, henc] at hinner
      cases hinner
    | notEquals => cases he
    | equals => cases he
    | operand hundivided _ _ hnotEquals hequals =>
      rw [hself] at hundivided hnotEquals hequals
      obtain ⟨hor, hand⟩ := cutTop?_of_undivided hundivided hlast
      simp only [connectives, List.forall_mem_cons]
      exact ⟨hor, hand, hnotEquals, hequals, nofun⟩
  · intro h
    have hundivided : Undivided (Json.quoted text).toList :=
      undivided_of_cutTop? (h _ (by decide)) (h _ (by decide))
    have hbang : (Json.quoted text).toList.head? ≠ some '!' := by
      rw [head?_quoted]
      nofun
    rw [node_operand hundivided htrim hbang henc (h _ (by decide)) (h _ (by decide))]
    exact operand_quoted text

/-- A quoted string is a literal exactly if no symbol stands in it at the top level. -/
theorem parse?_quoted_iff_unbroken (text : String) :
    parse? (Json.quoted text) = .ok (.literal (.string text)) ↔
      Unbroken .start (Json.quoted text).toList := by
  rw [parse?_eq_ok_iff, trim_eq_self (trimmed_quoted text), node_quoted_iff,
    ← List.forall_mem_append]
  exact and_iff_right (trimmed_quoted text).ne_nil

/-! ## Comparisons with a string -/

/-- A text that is equal to another. -/
def equated (left right : List Char) : List Char :=
  (left ++ [' ']) ++ (['=', '='] ++ (' ' :: right))

section

variable {left right : List Char} (hleft : ∀ c ∈ left, isPlain c = true)
include hleft

/-- A comparison is cut at its symbol if nothing on the left is part of one. -/
theorem cutTop?_equated (right : List Char) :
    cutTop? ['=', '='] .start (equated left right) = some (left ++ [' '], ' ' :: right) :=
  ((Passes.of_plain hleft).append (.of_plain (by decide))).cutTop?_eq (by decide) (by decide)

/-- The other symbols of a comparison are those on the right. -/
theorem cutTop?_equated_iff (hsymbol : symbol ∈ symbols) (hne : symbol ≠ ['=', '=']) :
    cutTop? symbol .start (equated left right) = none ↔ cutTop? symbol .start right = none := by
  have hpasses : Passes marks (left ++ [' ']) :=
    (Passes.of_plain hleft).append (.of_plain (by decide))
  obtain ⟨c, more, rfl, hc, hmore⟩ := exists_of_mem_symbols hsymbol
  have htail : cutTop? (c :: more) .start (['=', '='] ++ (' ' :: right)) = none ↔
      cutTop? (c :: more) .start right = none := by
    have hcases : ∀ symbol ∈ symbols,
        symbol = ['=', '='] ∨ symbol = ['=', '=', '='] ∨ symbol.head? ≠ some '=' := by decide
    rcases hcases _ hsymbol with heq | heq | hhead
    · exact absurd heq hne
    · rw [heq]
      exact cutTop?_strict_iff (.inl rfl) (.inl rfl)
    · have hequals : '=' ∉ [c] := fun heq => hhead (congrArg some (List.mem_singleton.1 heq).symm)
      have hspace : ' ' ∉ [c] := fun heq => absurd (List.mem_singleton.1 heq ▸ hc) (by decide)
      have hequality : Passes [c] ['=', '=', ' '] := by
        refine .of_bare (by decide) ?_
        simp only [List.forall_mem_cons]
        exact ⟨hequals, hequals, hspace, nofun⟩
      exact hequality.cutTop?_append_eq_none_iff List.mem_cons_self
  rw [equated, hpasses.cutTop?_append_eq_none_iff hc, htail]

end

section

variable {p : String} {right : List Char} {l r : Expression} (hclean : Path.IsClean p)
  (hword : p ∉ ["null", "true", "false"]) (hright : Trimmed right)
include hclean hword hright

/-- A comparison of a path has no white space at its ends, is not negated and not in parentheses. -/
theorem equated_plain : Trimmed (equated p.toList right) ∧
    (equated p.toList right).head? ≠ some '!' ∧ enclosed? (equated p.toList right) = none := by
  have hpath := (written_path hclean hword).trimmed
  have hhead : ∀ d, isPlain d = false → (equated p.toList right).head? ≠ some d := by
    intro d hd
    rw [equated, List.append_assoc, List.head?_append_of_ne_nil _ hpath.ne_nil]
    exact head?_ne_of_plain (Path.isPlain_of_isClean hclean) hd
  refine ⟨?_, hhead '!' (by decide), enclosed?_eq_none (hhead '(' (by decide))⟩
  have haround := hpath.around [' ', '=', '=', ' '] hright
  simpa [equated] using haround

/-- The two sides of a comparison without the white space around its symbol. -/
theorem trim_equated : trim (p.toList ++ [' ']) = p.toList ∧ trim (' ' :: right) = right := by
  have hblank : Blank [' '] := by decide
  have hspace := trim_pad hblank hright blank_nil
  rw [List.append_nil] at hspace
  exact ⟨trim_pad blank_nil (written_path hclean hword).trimmed hblank, hspace⟩

/-- What a path is compared with is read on its own. -/
theorem node_of_node_equated (h : node (equated p.toList right) = .ok (.equals l r)) :
    node right = .ok r := by
  obtain ⟨htrim, _, henc⟩ := equated_plain hclean hword hright
  have hself := trim_eq_self htrim
  have hcut := cutTop?_equated (Path.isPlain_of_isClean hclean) right
  generalize he : equals l r = e at h
  cases form_of_node h with
  | or => cases he
  | and => cases he
  | not => cases he
  | enclosed _ hinner =>
    rw [hself, henc] at hinner
    cases hinner
  | notEquals => cases he
  | equals _ _ _ hsplit _ _ _ hr =>
    cases he
    rw [hself, hcut] at hsplit
    cases hsplit
    rwa [(trim_equated hclean hword hright).2] at hr
  | operand _ _ _ _ hequals =>
    rw [hself, hcut] at hequals
    cases hequals

/-- A path is compared with a text that is read, if no symbol stands in it at the top level. -/
theorem node_equated (hun : Unbroken .start right) (h : node right = .ok r) :
    node (equated p.toList right) = .ok (.equals (.path p) r) := by
  obtain ⟨htrim, hbang, henc⟩ := equated_plain hclean hword hright
  obtain ⟨htrimLeft, htrimRight⟩ := trim_equated hclean hword hright
  have hpath := written_path hclean hword
  have hplain := Path.isPlain_of_isClean hclean
  have hnone : ∀ symbol ∈ symbols, symbol ≠ ['=', '='] →
      cutTop? symbol .start (equated p.toList right) = none :=
    fun symbol hsymbol hne => (cutTop?_equated_iff hplain hsymbol hne).2 (hun symbol hsymbol)
  have hundivided : Undivided (equated p.toList right) :=
    undivided_of_cutTop? (hnone _ (by decide) (by decide)) (hnone _ (by decide) (by decide))
  have hne : cutTop? ['!', '='] .start (equated p.toList right) = none :=
    hnone _ (by decide) (by decide)
  rw [node_equals hundivided htrim hbang henc hne (cutTop?_equated hplain right)
    (by rw [htrimLeft]; exact hpath.trimmed.ne_nil) (by rw [htrimRight]; exact hright.ne_nil),
    htrimLeft, htrimRight, hpath.reads, h]
  rfl

end

/-- A comparison of a path with a quoted string is read as such exactly if no symbol stands in the
string at the top level. -/
theorem parse?_equals_quoted_iff {p : String} (hclean : Path.IsClean p)
    (hword : p ∉ ["null", "true", "false"]) (text : String) :
    parse? (p ++ " == " ++ Json.quoted text) = .ok (.equals (.path p) (.literal (.string text))) ↔
      Unbroken .start (Json.quoted text).toList := by
  have htext : (p ++ " == " ++ Json.quoted text).toList =
      equated p.toList (Json.quoted text).toList := by
    simp [equated]
  have hquoted := trimmed_quoted text
  have htrim := (equated_plain hclean hword hquoted).1
  have hrefused : ∀ symbol ∈ refused, symbol ∈ symbols ∧ symbol ≠ ['=', '='] := by decide
  have hallowed : ∀ symbol ∈ refused,
      (cutTop? symbol .start (equated p.toList (Json.quoted text).toList) = none ↔
        cutTop? symbol .start (Json.quoted text).toList = none) :=
    fun symbol h => cutTop?_equated_iff (Path.isPlain_of_isClean hclean) (hrefused symbol h).1
      (hrefused symbol h).2
  rw [parse?_eq_ok_iff, htext, trim_eq_self htrim]
  constructor
  · rintro ⟨_, hnone, hread⟩
    have hliteral := node_of_node_equated hclean hword hquoted hread
    refine List.forall_mem_append.2 ⟨fun symbol h => (hallowed symbol h).1 (hnone symbol h), ?_⟩
    exact (node_quoted_iff text).1 hliteral
  · intro hun
    obtain ⟨hnone, hconnectives⟩ := List.forall_mem_append.1 hun
    exact ⟨htrim.ne_nil, fun symbol h => (hallowed symbol h).2 (hnone symbol h),
      node_equated hclean hword hquoted hun ((node_quoted_iff text).2 hconnectives)⟩

/-- A JSON string is an operand, on its own and in a comparison, exactly if no symbol of it stands
where its quotation marks would have closed it. -/
theorem parse?_quoted_iff (text : String) :
    (parse? (Json.quoted text) = .ok (.literal (.string text)) ↔
      Unbroken ⟨some '"', 0⟩ text.toList) ∧
    (parse? ("x == " ++ Json.quoted text) = .ok (.equals (.path "x") (.literal (.string text))) ↔
      Unbroken ⟨some '"', 0⟩ text.toList) := by
  constructor
  · rw [← unbroken_quoted_iff]
    exact parse?_quoted_iff_unbroken text
  · have hleft : "x" ++ " == " = "x == " := by decide
    have hclean : Path.IsClean "x" := ⟨by decide, by decide⟩
    rw [← unbroken_quoted_iff, ← parse?_equals_quoted_iff hclean (by decide), hleft]

/-- A string in which `||` stands between quotation marks is no operand. -/
theorem not_forall_parse?_quoted :
    (¬ ∀ text, parse? (Json.quoted text) = .ok (.literal (.string text))) ∧
      ¬ ∀ text, parse? ("x == " ++ Json.quoted text) =
        .ok (.equals (.path "x") (.literal (.string text))) := by
  have hbroken : ¬ Unbroken .start (Json.quoted "\" || \"").toList := by
    unfold Unbroken
    decide
  constructor
  · intro h
    exact hbroken ((parse?_quoted_iff_unbroken _).1 (h _))
  · intro h
    have hleft : "x" ++ " == " = "x == " := by decide
    have hclean : Path.IsClean "x" := ⟨by decide, by decide⟩
    refine hbroken ((parse?_equals_quoted_iff hclean (by decide) _).1 ?_)
    rw [hleft, h]

end Conduit.Expression
