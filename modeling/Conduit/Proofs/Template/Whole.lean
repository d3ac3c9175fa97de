import Conduit.Proofs.Structure.Tokens
import Conduit.Proofs.Template.Reads

/-!
# Templates of whole variables

The name of a variable is an expression on its own: none of the symbols of expressions occurs in
it, so that it is read as an operand, which is the path to the variable, or a literal if the name is
that of a JSON value (`Expression.parse?_variable`). A template whose expressions are all names of
variables (`Template.Whole`) therefore has a text wherever the variables that it reads have values
(`Template.Whole.exists_render`): it reaches for no place inside a value.
-/

namespace Conduit

open Text

variable {name : String} {cs : List Char} {m : Memory}

/-! ## Names -/

/-- A text is made of the characters of names, and starts with one that names start with. -/
structure IsName (cs : List Char) : Prop where
  chars : ∀ c ∈ cs, SourceToken.isWordChar c = true
  starts : ∃ c more, cs = c :: more ∧ SourceToken.startsWord c = true

theorem isName_of_isVariable (h : isVariable name = true) : IsName name.toList := by
  obtain ⟨c, more, hchars, hstart, hmore⟩ := SourceToken.exists_of_isVariable h
  refine ⟨?_, c, more, hchars, hstart⟩
  rw [hchars, List.forall_mem_cons]
  exact ⟨SourceToken.isWordChar_of_startsWord hstart, hmore⟩

namespace IsName

/-- There is no white space in a name. -/
theorem trimmed (h : IsName cs) : Trimmed cs := by
  obtain ⟨c, more, hchars, _⟩ := h.starts
  exact .of_forall (hchars ▸ List.cons_ne_nil c more)
    fun c hc => SourceToken.isBlank_of_isWordChar (h.chars c hc)

theorem trim_eq (h : IsName cs) : trim cs = cs :=
  trim_eq_self h.trimmed

theorem not_mem (h : IsName cs) {c : Char} (hc : SourceToken.isWordChar c = false) : c ∉ cs := by
  intro hmem
  rw [h.chars c hmem] at hc
  cases hc

theorem after?_eq_none (h : IsName cs) {c : Char} {start : List Char}
    (hc : SourceToken.isWordChar c = false) : after? (c :: start) cs = none := by
  obtain ⟨d, more, hchars, _⟩ := h.starts
  rw [hchars]
  refine Expression.after?_eq_none_of_ne ?_
  rintro rfl
  exact h.not_mem hc (by simp [hchars])

/-- No symbol stands in a name. -/
theorem unbroken (h : IsName cs) : Expression.Unbroken .start cs := by
  have hnone : ∀ c ∈ Expression.delimiters ++ Expression.marks,
      SourceToken.isWordChar c = false := by decide
  refine Expression.Quiet.unbroken ((Expression.Passes.of_plain fun c hc => ?_).quiet 0)
  rw [Expression.isPlain_iff, ← not_or, ← List.mem_append]
  exact fun hmem => h.not_mem (hnone c hmem) hc

end IsName

namespace Expression

/-- A name is an expression: an operand. -/
theorem parse?_name (h : IsName name.toList) {e : Expression} :
    parse? name = .ok e ↔ operand name.toList = .ok e := by
  have hbang : name.toList.head? ≠ some '!' := by
    intro hhead
    exact h.not_mem (by decide) (List.mem_of_mem_head? hhead)
  have henclosed : enclosed? name.toList = none := by
    rw [enclosed?, h.after?_eq_none (by decide)]
    rfl
  have hrefused : ∀ symbol ∈ refused, cutTop? symbol .start name.toList = none :=
    fun symbol hsymbol => h.unbroken symbol (List.mem_append_left _ hsymbol)
  rw [parse?_eq_ok_iff, h.trim_eq, node_unbroken h.trimmed hbang h.unbroken, henclosed]
  exact ⟨fun hname => hname.2.2, fun hname => ⟨h.trimmed.ne_nil, hrefused, hname⟩⟩

end Expression

/-! ## Variables -/

/-- The name of a variable is a path of one segment. -/
theorem Path.parse?_variable (h : isVariable name = true) : parse? name = some [.key name] := by
  have hname := isName_of_isVariable h
  obtain ⟨c, more, hchars, hstart⟩ := hname.starts
  have hroot : Segment.isRoot (.key name) = true := by
    simp [Segment.isRoot, hchars, SourceToken.isDigit_of_startsWord hstart]
  have hwritable : (Segment.key name).IsWritable := ⟨hchars ▸ List.cons_ne_nil c more, hname.chars⟩
  have htext : text [.key name] = name := String.append_empty
  have hpath : IsPath [.key name] := ⟨hroot, List.forall_mem_singleton.2 hwritable⟩
  have hread := parse?_of_isPath hpath
  rwa [htext] at hread

namespace Expression

/-- What the name of a variable is read as: a literal if it is a JSON value, else the path to the
variable. -/
theorem parse?_variable (h : isVariable name = true) :
    (∃ v, parse? name = .ok (.literal v)) ∨ parse? name = .ok (.path name) := by
  have hname := isName_of_isVariable h
  have hquoted : singleQuoted? name.toList = none := by
    rw [singleQuoted?, hname.after?_eq_none (by decide)]
    rfl
  simp only [parse?_name hname, operand, hquoted, String.ofList_toList]
  split
  · next hliteral =>
    left
    have hword : name = "null" ∨ name = "true" ∨ name = "false" := by
      obtain ⟨c, more, hchars, hstart⟩ := hname.starts
      have hmark : ∀ mark, SourceToken.startsWord mark = false → (c == mark) = false := by
        intro mark hmark
        rw [beq_eq_false_iff_ne]
        rintro rfl
        rw [hstart] at hmark
        cases hmark
      rw [← String.toList_inj, ← String.toList_inj, ← String.toList_inj]
      simpa [looksLiteral, hchars, hmark '[' (by decide), hmark '{' (by decide),
        hmark '"' (by decide), hmark '-' (by decide), SourceToken.isDigit_of_startsWord hstart,
        or_assoc] using hliteral
    rcases hword with rfl | rfl | rfl
    · exact ⟨.null, rfl⟩
    · exact ⟨.bool true, rfl⟩
    · exact ⟨.bool false, rfl⟩
  · right
    rw [Path.isValid, Path.parse?_variable h]
    rfl

/-- The name of a variable has a text inside a template if the variables that it reads have
values. -/
theorem exists_render_variable (h : isVariable name = true) {e : Expression}
    (he : parse? name = .ok e) (hm : ∀ root ∈ e.roots, m.contains root = true) :
    ∃ text, e.render m = .ok text := by
  rcases parse?_variable h with ⟨v, hparse⟩ | hparse
  · rw [hparse] at he
    cases he
    exact ⟨v.plain, rfl⟩
  · rw [hparse] at he
    cases he
    have hpath := Path.parse?_variable h
    have hroot := Path.root_of_parse? hpath (isName_of_isVariable h).trim_eq
    obtain ⟨s, hs⟩ := Memory.exists_get (hm name (by simp [roots, hroot]))
    refine ⟨s.content.rendered, ?_⟩
    simp only [render, whole?, hpath, hs]
    rfl

end Expression

/-- A piece interpolates nothing, or a whole variable. -/
def Piece.Whole : Piece → Prop
  | .literal _ => True
  | .expression text => isVariable text = true

instance : DecidablePred Piece.Whole
  | .literal _ => .isTrue trivial
  | .expression text => inferInstanceAs (Decidable (isVariable text = true))

namespace Template

variable {source : String}

/-- Every expression of a template is the name of a variable. -/
def Whole (source : String) : Prop :=
  ∀ pieces, parse? source = .ok pieces → ∀ p ∈ pieces, p.Whole

instance : DecidablePred Whole := fun source =>
  decidable_of_iff (∀ pieces ∈ (parse? source).toOption, ∀ p ∈ pieces, p.Whole)
    ⟨fun h pieces hp => h pieces (congrArg Except.toOption hp),
      fun h pieces hp => h pieces (eq_ok_of_toOption hp)⟩

/-- Pieces whose expressions are names of variables have a text if the variables have values. -/
theorem exists_renderPieces (source : String) {ps : List Piece} {names : List String}
    (hps : roots? ps = .ok names) (hwhole : ∀ p ∈ ps, p.Whole)
    (hm : ∀ name ∈ names, m.contains name = true) :
    ∃ text, renderPieces m source ps = .ok text := by
  induction ps generalizing names with
  | nil => exact ⟨"", rfl⟩
  | cons p ps ih =>
    simp only [roots?, bind_eq_ok_iff] at hps
    obtain ⟨e, he, more, hmore, hnames⟩ := hps
    cases hnames
    rw [List.forall_mem_append] at hm
    rw [List.forall_mem_cons] at hwhole
    obtain ⟨rest, hrest⟩ := ih hmore hwhole.2 hm.2
    have hpiece : ∃ text, renderPiece m source p = .ok text := by
      cases p with
      | literal text => exact ⟨text, rfl⟩
      | expression text =>
        simp only [Piece.expression?, mapError_eq_ok_iff, map_eq_ok_iff] at he
        obtain ⟨e, he, rfl⟩ := he
        obtain ⟨s, hs⟩ := Expression.exists_render_variable hwhole.1 he hm.1
        exact ⟨s, by simp only [renderPiece, he, hs, Except.mapError, ok_bind]⟩
    obtain ⟨text, htext⟩ := hpiece
    exact ⟨text ++ rest, by simp only [renderPieces, htext, hrest, ok_bind]; rfl⟩

/-- A template of whole variables has a text in every memory in which the variables that it reads
have values. -/
theorem Whole.exists_render (h : Whole source) {names : List String}
    (hnames : freeNames? source = .ok names) (hm : ∀ name ∈ names, m.contains name = true) :
    ∃ text, render m source = .ok text := by
  simp only [freeNames?, bind_eq_ok_iff] at hnames
  obtain ⟨pieces, hpieces, roots, hroots, hnames⟩ := hnames
  cases hnames
  obtain ⟨text, htext⟩ := exists_renderPieces source hroots (h pieces hpieces)
    fun name hname => hm name (mem_distinct.2 hname)
  exact ⟨text, by simp only [render, hpieces, Except.mapError, ok_bind, htext]⟩

end Template

end Conduit
