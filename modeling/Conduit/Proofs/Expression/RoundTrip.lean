import Conduit.Json.Printer
import Conduit.Proofs.Expression.Operand

/-!
# Expressions are read back

The text of an expression puts every part in parentheses (`Expression.text`): a negation is written
`!(x)`, a comparison `(l) == (r)`, and a conjunction or disjunction as its parts with `&&` or `||`
between them. Such a text is read as the expression it was written for (`Expression.parse?_text`). A
literal is a scalar that JSON writes without escapes; parentheses inside a string are left out,
since they count for the parentheses around it.

The text of a part is `Written`: no matter what is put around its parentheses, both searches pass
over it. That is kept by every form of expression, and each form is cut where its own symbol stands.
-/

namespace Conduit.Expression

open Text

variable {cs t u before after symbol starts : List Char} {ts : List (List Char)}
  {e l r : Expression} {es : List Expression}

/-! ## Texts of expressions -/

/-- Parts in parentheses, with a separator between them. -/
def joined (separator : List Char) (parts : List (List Char)) : List Char :=
  separator.intercalate (parts.map parens)

mutual

/-- The characters of an expression, with a gap around `&&` and `||`. -/
def chars (gap : List Char) : Expression → List Char
  | literal (.string s) => singleQuoted s.toList
  | literal v => (Json.scalarText v).toList
  | path p => p.toList
  | not e => '!' :: parens (chars gap e)
  | equals l r => joined [' ', '=', '=', ' '] [chars gap l, chars gap r]
  | notEquals l r => joined [' ', '!', '=', ' '] [chars gap l, chars gap r]
  | and parts => joined (gap ++ ['&', '&'] ++ gap) (charsOf gap parts)
  | or parts => joined (gap ++ ['|', '|'] ++ gap) (charsOf gap parts)

/-- The characters of each of several expressions. -/
def charsOf (gap : List Char) : List Expression → List (List Char)
  | [] => []
  | e :: es => chars gap e :: charsOf gap es

end

/-- The text of an expression, with a gap around `&&` and `||`. -/
def text (gap : List Char) (e : Expression) : String :=
  String.ofList (chars gap e)

/-- An expression that has a text: its literals are scalars, integers and strings without quotation
marks and parentheses among them, and a conjunction or disjunction has two parts or more. -/
inductive Printable : Expression → Prop
  | null : Printable (.literal .null)
  | bool (b : Bool) : Printable (.literal (.bool b))
  | integer (i : JsonInteger) : Printable (.literal (.number (.integer i)))
  | string {s : String} (h : ∀ c ∈ s.toList, c ≠ '\'' ∧ c ≠ '(' ∧ c ≠ ')') :
    Printable (.literal (.string s))
  | path {p : String} (h : Path.IsClean p) (hword : p ∉ ["null", "true", "false"]) :
    Printable (.path p)
  | not {e : Expression} (h : Printable e) : Printable (.not e)
  | equals {l r : Expression} (hl : Printable l) (hr : Printable r) : Printable (.equals l r)
  | notEquals {l r : Expression} (hl : Printable l) (hr : Printable r) : Printable (.notEquals l r)
  | and {parts : List Expression} (hlength : 2 ≤ parts.length) (h : ∀ e ∈ parts, Printable e) :
    Printable (.and parts)
  | or {parts : List Expression} (hlength : 2 ≤ parts.length) (h : ∀ e ∈ parts, Printable e) :
    Printable (.or parts)

/-! ## Parts between separators -/

theorem joined_singleton (separator t : List Char) : joined separator [t] = parens t := by
  simp [joined]

theorem joined_cons_cons (separator t u : List Char) (ts : List (List Char)) :
    joined separator (t :: u :: ts) = parens t ++ separator ++ joined separator (u :: ts) := by
  simp [joined, List.intercalate]

/-- There is a part at each end of the text. -/
theorem exists_joined (separator t : List Char) (ts : List (List Char)) :
    ∃ cs, joined separator (t :: ts) = parens cs := by
  induction ts generalizing t with
  | nil => exact ⟨t, joined_singleton separator t⟩
  | cons u ts ih =>
    obtain ⟨cs, hcs⟩ := ih u
    rw [joined_cons_cons, hcs]
    exact ⟨t ++ [')'] ++ separator ++ ['('] ++ cs, by simp [parens]⟩

theorem trimmed_joined (separator t : List Char) (ts : List (List Char)) :
    Trimmed (joined separator (t :: ts)) := by
  obtain ⟨cs, hcs⟩ := exists_joined separator t ts
  rw [hcs]
  exact trimmed_parens cs

theorem head?_joined (separator t : List Char) (ts : List (List Char)) :
    (joined separator (t :: ts)).head? = some '(' := by
  obtain ⟨cs, hcs⟩ := exists_joined separator t ts
  rw [hcs]
  rfl

/-- What is joined is not enclosed in one pair of parentheses. -/
theorem enclosed?_joined (h : Grouped t) (separator u : List Char) (ts : List (List Char)) :
    enclosed? (joined separator (t :: u :: ts)) = none := by
  obtain ⟨cs, hcs⟩ := exists_joined separator u ts
  have hshape : joined separator (t :: u :: ts) =
      parens (t ++ (')' :: separator ++ '(' :: cs)) := by
    rw [joined_cons_cons, hcs]
    simp [parens]
  rw [hshape, enclosed?_parens, h.closes, List.cons_append]
  rfl

/-- A symbol of expressions with white space around it. -/
structure Separates (before symbol after : List Char) : Prop where
  before : Blank before
  symbol : symbol ∈ connectives
  after : Blank after

namespace Separates

variable (hsep : Separates before symbol after)
include hsep

theorem bare : ∀ c ∈ before ++ symbol ++ after, c ∉ delimiters := by
  have hblank : ∀ {cs : List Char}, Blank cs → ∀ c ∈ cs, c ∉ delimiters :=
    fun h c hc => (isPlain_iff.1 (isPlain_of_isBlank (h c hc))).1
  rw [List.forall_mem_append, List.forall_mem_append]
  exact ⟨⟨hblank hsep.before, bare_of_mem_connectives hsep.symbol⟩, hblank hsep.after⟩

/-- No symbol but that of the separator stands in it. -/
theorem passes (hmarks : starts ⊆ marks) (hstarts : ∀ c ∈ symbol, c ∉ starts) :
    Passes starts (before ++ symbol ++ after) := by
  have hbefore := (Passes.of_blank hsep.before).imp hmarks
  have hafter := (Passes.of_blank hsep.after).imp hmarks
  exact (hbefore.append (.of_bare (bare_of_mem_connectives hsep.symbol) hstarts)).append hafter

theorem grouped_joined (h : ∀ t ∈ ts, Grouped t) :
    Grouped (joined (before ++ symbol ++ after) ts) := by
  induction ts with
  | nil => exact .of_bare nofun
  | cons t ts ih =>
    obtain ⟨ht, hts⟩ := List.forall_mem_cons.1 h
    cases ts with
    | nil =>
      rw [joined_singleton]
      exact ht.parens
    | cons u ts =>
      rw [joined_cons_cons]
      exact (ht.parens.append (.of_bare hsep.bare)).append (ih hts)

/-- No symbol but that of the separator stands at the top level. -/
theorem passes_joined (h : ∀ t ∈ ts, Grouped t) (hmarks : starts ⊆ marks)
    (hstarts : ∀ c ∈ symbol, c ∉ starts) :
    Passes starts (joined (before ++ symbol ++ after) ts) := by
  induction ts with
  | nil => exact .of_bare nofun nofun
  | cons t ts ih =>
    obtain ⟨ht, hts⟩ := List.forall_mem_cons.1 h
    cases ts with
    | nil =>
      rw [joined_singleton]
      exact ht.passes_parens starts
    | cons u ts =>
      rw [joined_cons_cons]
      exact ((ht.passes_parens starts).append (hsep.passes hmarks hstarts)).append (ih hts)

/-- The text is cut after its first part. -/
theorem cutTop?_joined {lead : List Char} (hlead : Blank lead) (h : Grouped t) :
    cutTop? symbol .start (lead ++ joined (before ++ symbol ++ after) (t :: u :: ts)) =
      some (lead ++ parens t ++ before, after ++ joined (before ++ symbol ++ after) (u :: ts)) := by
  obtain ⟨c, more, rfl, hc, _⟩ := exists_of_mem_symbols (List.mem_append_right _ hsep.symbol)
  have hpasses : Passes marks (lead ++ parens t ++ before) :=
    ((Passes.of_blank hlead).append (h.passes_parens marks)).append (Passes.of_blank hsep.before)
  have hshape : lead ++ joined (before ++ c :: more ++ after) (t :: u :: ts) =
      (lead ++ parens t ++ before) ++
        (c :: more ++ (after ++ joined (before ++ c :: more ++ after) (u :: ts))) := by
    rw [joined_cons_cons]
    simp only [List.append_assoc]
  rw [hshape]
  exact hpasses.cutTop?_eq hc hc

/-- The pieces of the text are its parts in parentheses. -/
theorem pieceTexts_joined (hne : symbol ≠ []) {lead : List Char} (hlead : Blank lead)
    (h : ∀ u ∈ t :: ts, Grouped u) :
    pieceTexts symbol hne (lead ++ joined (before ++ symbol ++ after) (t :: ts)) =
      (t :: ts).map parens := by
  induction ts generalizing lead t with
  | nil =>
    obtain ⟨c, more, rfl, hc, _⟩ := exists_of_mem_symbols (List.mem_append_right _ hsep.symbol)
    have hpasses : Passes marks (lead ++ parens t) :=
      (Passes.of_blank hlead).append ((h t List.mem_cons_self).passes_parens marks)
    have htrim : trim (lead ++ parens t) = parens t := by
      rw [← List.append_nil (lead ++ parens t)]
      exact trim_pad hlead (trimmed_parens t) nofun
    rw [joined_singleton, pieceTexts_last hne (by simp [parens])
      (cutTop?_eq_none (hpasses.quiet 0) hc), htrim]
    rfl
  | cons u ts ih =>
    obtain ⟨ht, hts⟩ := List.forall_mem_cons.1 h
    rw [pieceTexts_cut hne (hsep.cutTop?_joined hlead ht), ih hsep.after hts,
      trim_pad hlead (trimmed_parens t) hsep.before]
    rfl

end Separates

/-! ## Written expressions -/

/-- A text is read as an expression, on its own and between parentheses. -/
structure Written (t : List Char) (e : Expression) : Prop where
  trimmed : Trimmed t
  grouped : Grouped t
  reads : node t = .ok e
  allowed : ∀ symbol ∈ refused, cutTop? symbol .start t = none

/-- Parentheses around a text do not change what it is read as. -/
theorem Written.node_parens (h : Written t e) : node (parens t) = .ok e := by
  have hun : Unbroken .start (parens t) := (h.grouped.passes_parens marks).unbroken
  have hcloses : neverCloses 0 t = true := by
    have hcloses := h.grouped.closes 0 []
    rwa [List.append_nil] at hcloses
  have henc : enclosed? (parens t) = some t := by rw [enclosed?_parens, if_pos hcloses]
  rw [node_enclosed hun.undivided (trimmed_parens t) nofun henc]
  exact h.reads

theorem written_operand (htrim : Trimmed t) (hgroup : Grouped t) (hpasses : Passes marks t)
    (hbang : t.head? ≠ some '!') (hparen : t.head? ≠ some '(') (h : operand t = .ok e) :
    Written t e where
  trimmed := htrim
  grouped := hgroup
  reads := by rw [node_of_operand hpasses.unbroken htrim hbang hparen, h]
  allowed symbol hsymbol := hpasses.unbroken symbol (List.mem_append_left _ hsymbol)

/-- A negation in front of parentheses. -/
theorem Written.not (h : Written t e) : Written ('!' :: parens t) (.not e) := by
  have hpasses : ∀ starts, '!' ∉ starts → Passes starts ('!' :: parens t) := by
    intro starts hbang
    have hmark : Passes starts ['!'] := .of_bare (by decide) (by simpa using hbang)
    exact hmark.append (h.grouped.passes_parens starts)
  have htrim : Trimmed ('!' :: parens t) :=
    ⟨⟨'!', parens t, rfl, by decide⟩, ⟨'!' :: '(' :: t, ')', rfl, by decide⟩⟩
  have hundivided : Undivided (trim ('!' :: parens t)) := by
    rw [trim_eq_self htrim]
    exact undivided_of_cutTop? ((hpasses ['|'] (by decide)).cutTop?_none (by decide) _)
      ((hpasses ['&'] (by decide)).cutTop?_none (by decide) _)
  have hneg : negations (trim ('!' :: parens t)) = (0 + 1, parens t) := by
    have hinner : negations (parens t) = (0, parens t) :=
      negations_eq_zero (trimmed_parens t) nofun
    rw [trim_eq_self htrim]
    show ((negations (parens t)).1 + 1, (negations (parens t)).2) = (0 + 1, parens t)
    rw [hinner]
  refine ⟨htrim, ?_, ?_, ?_⟩
  · have hmark : Grouped ['!'] := .of_bare (by decide)
    exact hmark.append h.grouped.parens
  · rw [node_not hundivided hneg ?_, h.node_parens]
    · rfl
    · rw [trim_eq_self (trimmed_parens t)]
      exact (trimmed_parens t).ne_nil
  · intro symbol hsymbol
    rcases refused_cases hsymbol with rfl | rfl | ⟨c, more, rfl, hc⟩
    · exact (hpasses ['='] (by decide)).cutTop?_none (by decide) _
    · have hrest : cutTop? ['!', '=', '='] .start (parens t) = none :=
        (h.grouped.passes_parens ['!']).cutTop?_none (by decide) _
      rw [cutTop?_skip, hrest]
      · rfl
      · decide
      · intro _
        rfl
    · exact (hpasses ['<', '>'] (by decide)).cutTop?_none hc _

theorem separates_compared {m : Char} (hm : m = '!' ∨ m = '=') :
    Separates [' '] [m, '='] [' '] := by
  have hblank : Blank [' '] := by decide
  refine ⟨hblank, ?_, hblank⟩
  rcases hm with rfl | rfl <;> decide

section

variable {m : Char} (hm : m = '!' ∨ m = '=') (ht : Grouped t) (hu : Grouped u)
include hm ht hu

/-- No symbol but its own stands at the top level of a comparison. -/
theorem passes_compared (hmarks : starts ⊆ marks) (hown : m ∉ starts) (hequals : '=' ∉ starts) :
    Passes starts (joined [' ', m, '=', ' '] [t, u]) := by
  have hgroup : ∀ p ∈ [t, u], Grouped p :=
    List.forall_mem_cons.2 ⟨ht, List.forall_mem_singleton.2 hu⟩
  exact (separates_compared hm).passes_joined hgroup hmarks (by simp [hown, hequals])

theorem undivided_compared : Undivided (joined [' ', m, '=', ' '] [t, u]) := by
  have hpasses : Passes ['|', '&'] (joined [' ', m, '=', ' '] [t, u]) := by
    refine passes_compared hm ht hu (by decide) ?_ (by decide)
    rcases hm with rfl | rfl <;> decide
  exact undivided_of_cutTop? (hpasses.cutTop?_none (by decide) _)
    (hpasses.cutTop?_none (by decide) _)

/-- The symbol of a comparison is no strict one, since white space follows it. -/
theorem allowed_compared : ∀ symbol ∈ refused,
    cutTop? symbol .start (joined [' ', m, '=', ' '] [t, u]) = none := by
  have hstrict : ∀ c, c = '=' ∨ c = '!' →
      cutTop? [c, '=', '='] .start (joined [' ', m, '=', ' '] [t, u]) = none := by
    intro c hc
    have hmarks : c ∈ marks := by rcases hc with rfl | rfl <;> decide
    have hlead : Passes marks (parens t ++ [' ']) :=
      (ht.passes_parens marks).append (.of_plain (by decide))
    have hshape : joined [' ', m, '=', ' '] [t, u] =
        (parens t ++ [' ']) ++ m :: '=' :: ' ' :: parens u := by
      rw [joined_cons_cons, joined_singleton]
      simp
    rw [hshape, hlead.cutTop?_append_eq_none_iff hmarks, cutTop?_strict_iff hc hm.symm]
    exact (hu.passes_parens marks).cutTop?_none hmarks _
  intro symbol hsymbol
  rcases refused_cases hsymbol with rfl | rfl | ⟨c, more, rfl, hc⟩
  · exact hstrict '=' (.inl rfl)
  · exact hstrict '!' (.inr rfl)
  · have hpasses : Passes ['<', '>'] (joined [' ', m, '=', ' '] [t, u]) := by
      refine passes_compared hm ht hu (by decide) ?_ (by decide)
      rcases hm with rfl | rfl <;> decide
    exact hpasses.cutTop?_none hc _

end

/-- A comparison of two parts. -/
theorem Written.compared {m : Char} {f : Expression → Expression → Expression}
    (hm : m = '!' ∧ f = .notEquals ∨ m = '=' ∧ f = .equals) (hl : Written t l) (hr : Written u r) :
    Written (joined [' ', m, '=', ' '] [t, u]) (f l r) := by
  have hmark : m = '!' ∨ m = '=' := hm.imp And.left And.left
  have hsep := separates_compared hmark
  have hgroup : ∀ p ∈ [t, u], Grouped p :=
    List.forall_mem_cons.2 ⟨hl.grouped, List.forall_mem_singleton.2 hr.grouped⟩
  have htrim : Trimmed (joined [' ', m, '=', ' '] [t, u]) := trimmed_joined _ t [u]
  have hhead : (joined [' ', m, '=', ' '] [t, u]).head? ≠ some '!' := by
    rw [head?_joined]
    decide
  have henc : enclosed? (joined [' ', m, '=', ' '] [t, u]) = none :=
    enclosed?_joined hl.grouped _ u []
  have hcut : cutTop? [m, '='] .start (joined [' ', m, '=', ' '] [t, u]) =
      some (parens t ++ [' '], ' ' :: parens u) := by
    rw [← joined_singleton [' ', m, '=', ' '] u]
    exact hsep.cutTop?_joined blank_nil hl.grouped
  have hleft : trim (parens t ++ [' ']) = parens t :=
    trim_pad blank_nil (trimmed_parens t) hsep.after
  have hright : trim (' ' :: parens u) = parens u := by
    rw [← List.append_nil (' ' :: parens u)]
    exact trim_pad hsep.before (trimmed_parens u) blank_nil
  have hleftne : trim (parens t ++ [' ']) ≠ [] := by
    rw [hleft]
    exact (trimmed_parens t).ne_nil
  have hrightne : trim (' ' :: parens u) ≠ [] := by
    rw [hright]
    exact (trimmed_parens u).ne_nil
  have hundivided := undivided_compared hmark hl.grouped hr.grouped
  refine ⟨htrim, hsep.grouped_joined hgroup, ?_, allowed_compared hmark hl.grouped hr.grouped⟩
  rcases hm with ⟨rfl, rfl⟩ | ⟨rfl, rfl⟩
  · rw [node_notEquals hundivided htrim hhead henc hcut hleftne hrightne, hleft, hright,
      hl.node_parens, hr.node_parens]
    rfl
  · have hpasses : Passes ['!'] (joined [' ', '=', '=', ' '] [t, u]) :=
      hsep.passes_joined hgroup (by decide) (by decide)
    have hne := hpasses.cutTop?_none List.mem_cons_self ['=']
    rw [node_equals hundivided htrim hhead henc hne hcut hleftne hrightne, hleft, hright,
      hl.node_parens, hr.node_parens]
    rfl

theorem mapM_parens (h : List.Forall₂ Written ts es) : (ts.map parens).mapM node = .ok es := by
  induction h with
  | nil => rfl
  | cons hwritten _ ih =>
    rw [List.map_cons, List.mapM_cons, hwritten.node_parens, ok_bind, ih, ok_bind]
    rfl

/-- A separator of a conjunction or disjunction. -/
theorem separates_chained {gap : List Char} (hgap : Blank gap)
    (hsymbol : symbol = ['&', '&'] ∨ symbol = ['|', '|']) : Separates gap symbol gap := by
  refine ⟨hgap, ?_, hgap⟩
  rcases hsymbol with rfl | rfl <;> decide

/-- No refused symbol stands at the top level of a conjunction or disjunction. -/
theorem allowed_chained {gap : List Char} (hgap : Blank gap)
    (hsymbol : symbol = ['&', '&'] ∨ symbol = ['|', '|']) (h : ∀ t ∈ ts, Grouped t) :
    ∀ other ∈ refused, cutTop? other .start (joined (gap ++ symbol ++ gap) ts) = none := by
  have hpasses : Passes ['=', '!', '<', '>'] (joined (gap ++ symbol ++ gap) ts) := by
    refine (separates_chained hgap hsymbol).passes_joined h (by decide) ?_
    rcases hsymbol with rfl | rfl <;> decide
  intro other hother
  rcases refused_cases hother with rfl | rfl | ⟨c, more, rfl, hc⟩
  · exact hpasses.cutTop?_none (by decide) _
  · exact hpasses.cutTop?_none (by decide) _
  · have hsub : ['<', '>'] ⊆ ['=', '!', '<', '>'] := by decide
    exact hpasses.cutTop?_none (hsub hc) _

/-- A conjunction or disjunction of two or more parts. -/
theorem Written.chained {gap : List Char} {f : List Expression → Expression}
    (hgap : Blank gap) (hsymbol : symbol = ['&', '&'] ∧ f = .and ∨ symbol = ['|', '|'] ∧ f = .or)
    (hlength : 2 ≤ es.length) (h : List.Forall₂ Written ts es) :
    Written (joined (gap ++ symbol ++ gap) ts) (f es) := by
  have hcases : symbol = ['&', '&'] ∨ symbol = ['|', '|'] := hsymbol.imp And.left And.left
  have hsep := separates_chained hgap hcases
  have hgroup : ∀ p ∈ ts, Grouped p :=
    ((List.forall₂_and_left ts es).1 (h.imp fun _ _ hwritten => ⟨hwritten.grouped, hwritten⟩)).1
  have hread := mapM_parens h
  have hlong : 2 ≤ ts.length := h.length_eq ▸ hlength
  obtain _ | ⟨t, _ | ⟨u, ts⟩⟩ := ts
  · simp at hlong
  · simp at hlong
  have htrim := trimmed_joined (gap ++ symbol ++ gap) t (u :: ts)
  have hself := trim_eq_self htrim
  have hfirst : trim (parens t ++ gap) = parens t :=
    trim_pad blank_nil (trimmed_parens t) hgap
  have hcut : cutTop? symbol .start (joined (gap ++ symbol ++ gap) (t :: u :: ts)) =
      some (parens t ++ gap, gap ++ joined (gap ++ symbol ++ gap) (u :: ts)) :=
    hsep.cutTop?_joined blank_nil (hgroup t List.mem_cons_self)
  have hne : gap ++ joined (gap ++ symbol ++ gap) (u :: ts) ≠ [] :=
    List.append_ne_nil_of_right_ne_nil gap (trimmed_joined _ u ts).ne_nil
  have hpieces : ∀ hs : symbol ≠ [], trim (parens t ++ gap) ::
      pieceTexts symbol hs (gap ++ joined (gap ++ symbol ++ gap) (u :: ts)) =
        (t :: u :: ts).map parens := by
    intro hs
    rw [hsep.pieceTexts_joined hs hgap fun v hv => hgroup v (List.mem_cons_of_mem t hv), hfirst]
    rfl
  refine ⟨htrim, hsep.grouped_joined hgroup, ?_, allowed_chained hgap hcases hgroup⟩
  rcases hsymbol with ⟨rfl, rfl⟩ | ⟨rfl, rfl⟩
  · have hpasses : Passes ['|'] (joined (gap ++ ['&', '&'] ++ gap) (t :: u :: ts)) :=
      hsep.passes_joined hgroup (by decide) (by decide)
    have hor : parts? ['|', '|'] (List.cons_ne_nil _ _)
        (joined (gap ++ ['&', '&'] ++ gap) (t :: u :: ts)) = none :=
      parts?_eq_none _ (hpasses.cutTop?_none List.mem_cons_self ['|'])
    rw [node_and (by rw [hself, hor]) (by rw [hself, hcut]) hne, hpieces, hread]
    rfl
  · rw [node_or (by rw [hself, hcut]) hne, hpieces, hread]
    rfl

/-- A written expression is read. -/
theorem Written.parse?_eq_ok (h : Written t e) : parse? (String.ofList t) = .ok e := by
  rw [parse?_eq_ok_iff, String.toList_ofList, trim_eq_self h.trimmed]
  exact ⟨h.trimmed.ne_nil, h.allowed, h.reads⟩

/-! ## Operands -/

theorem written_path {p : String} (h : Path.IsClean p) (hword : p ∉ ["null", "true", "false"]) :
    Written p.toList (.path p) := by
  obtain ⟨_, c, rest, hstart, _⟩ := Path.isPathChar_of_isClean h
  have hplain := Path.isPlain_of_isClean h
  have htrim : Trimmed p.toList := by
    have hne : trim p.toList ≠ [] := by
      rw [h.2, hstart]
      exact List.cons_ne_nil c rest
    rw [← h.2]
    exact trimmed_trim hne
  have hgroup : Grouped p.toList := .of_bare fun c hc => (isPlain_iff.1 (hplain c hc)).1
  exact written_operand htrim hgroup (.of_plain hplain) (head?_ne_of_plain hplain (by decide))
    (head?_ne_of_plain hplain (by decide)) (operand_path h hword)

theorem written_string {s : String} (h : ∀ c ∈ s.toList, c ≠ '\'' ∧ c ≠ '(' ∧ c ≠ ')') :
    Written (singleQuoted s.toList) (.literal (.string s)) := by
  have hquotation : '\'' ∉ s.toList := fun hmem => (h _ hmem).1 rfl
  refine written_operand (trimmed_singleQuoted s.toList) (grouped_singleQuoted h)
    (passes_singleQuoted hquotation marks) nofun nofun ?_
  rw [operand_singleQuoted, String.ofList_toList]

/-- A value whose text has no quotation mark in it. -/
theorem written_scalar {v : Json}
    (hchars : ∀ c ∈ (Json.scalarText v).toList, isPlain c = true ∧ isBlank c = false)
    (hliteral : looksLiteral (Json.scalarText v).toList = true)
    (hread : Json.parse? (Json.scalarText v) = some v) :
    Written (Json.scalarText v).toList (.literal v) := by
  have hne : (Json.scalarText v).toList ≠ [] := by
    intro hnil
    rw [hnil] at hliteral
    cases hliteral
  have hplain : ∀ c ∈ (Json.scalarText v).toList, isPlain c = true := fun c hc => (hchars c hc).1
  have hgroup : Grouped (Json.scalarText v).toList :=
    .of_bare fun c hc => (isPlain_iff.1 (hplain c hc)).1
  refine written_operand (.of_forall hne fun c hc => (hchars c hc).2) hgroup (.of_plain hplain)
    (head?_ne_of_plain hplain (by decide)) (head?_ne_of_plain hplain (by decide)) ?_
  rw [operand, singleQuoted?_eq_none (head?_ne_of_plain hplain (by decide))]
  simp only [hliteral, String.ofList_toList, hread, if_true]

theorem written_integer (i : JsonInteger) :
    Written (Json.scalarText (.number (.integer i))).toList (.literal (.number (.integer i))) := by
  have htext : (Json.scalarText (.number (.integer i))).toList =
      if i.val < 0 then '-' :: digitsOf i.val.natAbs else digitsOf i.val.natAbs :=
    Json.Parser.toList_integerText i
  have hchar : ∀ c ∈ digitsOf i.val.natAbs, isPlain c = true ∧ isBlank c = false := by
    intro c hc
    have hdigit : c.isDigit = true := Json.Parser.isDigit_of_mem_digitsOf hc
    have hword : SourceToken.isWordChar c = true := by
      simp [SourceToken.isWordChar, Char.isAlphanum, hdigit]
    exact ⟨Path.isPlain_of_isPathChar (Path.isPathChar_of_isDigit hdigit),
      SourceToken.isBlank_of_isWordChar hword⟩
  have hread : Json.parse? (Json.number (.integer i)).compact = some (.number (.integer i)) :=
    Json.parse?_compact rfl (Nat.zero_le _)
  refine written_scalar ?_ ?_ hread
  · rw [htext]
    split
    · rw [List.forall_mem_cons]
      exact ⟨by decide, hchar⟩
    · exact hchar
  · rw [htext]
    split
    · rfl
    · have hne : digitsOf i.val.natAbs ≠ [] := Nat.toDigits_ne_nil
      obtain ⟨c, rest, hcs⟩ := List.exists_cons_of_ne_nil hne
      have hdigit : c.isDigit = true :=
        Json.Parser.isDigit_of_mem_digitsOf (hcs ▸ List.mem_cons_self)
      rw [hcs]
      simp [looksLiteral, hdigit]

/-! ## Reading texts of expressions -/

theorem written_chars {gap : List Char} (hgap : Blank gap) (h : Printable e) :
    Written (chars gap e) e := by
  have hchars : ∀ {parts : List Expression}, (∀ e ∈ parts, Written (chars gap e) e) →
      List.Forall₂ Written (charsOf gap parts) parts := by
    intro parts hparts
    induction parts with
    | nil => exact .nil
    | cons e es ih =>
      rw [List.forall_mem_cons] at hparts
      exact .cons hparts.1 (ih hparts.2)
  induction h with
  | null =>
    have hread : Json.parse? (Json.compact .null) = some .null :=
      Json.parse?_compact rfl (by decide)
    exact written_scalar (by decide) (by decide) hread
  | bool b =>
    have hread : Json.parse? (Json.bool b).compact = some (.bool b) :=
      Json.parse?_compact rfl (Nat.zero_le _)
    cases b with
    | true => exact written_scalar (by decide) (by decide) hread
    | false => exact written_scalar (by decide) (by decide) hread
  | integer i => exact written_integer i
  | string h => exact written_string h
  | path h hword => exact written_path h hword
  | not _ ih => exact ih.not
  | equals _ _ ihl ihr => exact .compared (.inr ⟨rfl, rfl⟩) ihl ihr
  | notEquals _ _ ihl ihr => exact .compared (.inl ⟨rfl, rfl⟩) ihl ihr
  | and hlength _ ih => exact .chained hgap (.inl ⟨rfl, rfl⟩) hlength (hchars ih)
  | or hlength _ ih => exact .chained hgap (.inr ⟨rfl, rfl⟩) hlength (hchars ih)

/-- An expression is read back from its text. -/
theorem parse?_text {gap : List Char} (hgap : Blank gap) (h : Printable e) :
    parse? (text gap e) = .ok e :=
  (written_chars hgap h).parse?_eq_ok

/-- A disjunction, a negation and a comparison in one another, with an operator in a string. -/
theorem parse?_text_nested : Blank [' '] ∧ Printable (.or [.not (.equals (.path "a.b")
      (.literal (.string "x && y"))), .literal .null]) ∧
    text [' '] (.or [.not (.equals (.path "a.b") (.literal (.string "x && y"))), .literal .null]) =
      "(!((a.b) == ('x && y'))) || (null)" ∧
    parse? (text [' '] (.or [.not (.equals (.path "a.b") (.literal (.string "x && y"))),
      .literal .null])) =
      .ok (.or [.not (.equals (.path "a.b") (.literal (.string "x && y"))), .literal .null]) := by
  have hgap : Blank [' '] := by decide
  have hpath : Printable (.path "a.b") := .path ⟨by decide, by decide⟩ (by decide)
  have hstring : Printable (.literal (.string "x && y")) := .string (by decide)
  have hprintable : Printable (.or [.not (.equals (.path "a.b") (.literal (.string "x && y"))),
      .literal .null]) := by
    refine .or (by decide) ?_
    simp only [List.forall_mem_cons]
    exact ⟨.not (.equals hpath hstring), .null, nofun⟩
  refine ⟨hgap, hprintable, ?_, parse?_text hgap hprintable⟩
  decide

end Conduit.Expression
