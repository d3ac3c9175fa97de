import Conduit.Proofs.Content.Texts
import Conduit.Proofs.Template.Whole

/-!
# Bare expressions and their templates

An expression can stand bare or between interpolation marks (`Expression.wrapped`). Marks around an
expression that has none in it are taken off again, so that the template is read as one piece, the
expression without the white space around it (`Template.parse?_wrapped`). The bare expression and
its template agree on what they read and on when they fail, but not always on the text: a whole
variable gives its content's text to the template and the text of the content's value to the bare
expression. `Expression.evaluate_eq_render_iff` says for which memories the two texts are the same.
-/

namespace Conduit

open Text

variable {m : Memory} {e : Expression} {source : String} {part cs : List Char}

/-! ## Parts of a text -/

namespace Text

/-- A part of a text can be cut out. -/
theorem contains_of_append (part before after : List Char) :
    contains part (before ++ part ++ after) = true := by
  induction before with
  | nil =>
    have hstart : after? part (part ++ after) = some after := after?_eq_some_iff.2 rfl
    cases hcs : part ++ after with
    | nil =>
      rw [hcs] at hstart
      simp [contains, cutAt?, hcs, hstart]
    | cons c cs =>
      rw [hcs] at hstart
      simp [contains, cutAt?, hcs, hstart]
  | cons c before ih =>
    unfold contains at ih ⊢
    rw [List.append_assoc, List.cons_append, ← List.append_assoc, cutAt?]
    split
    · rfl
    · rw [Option.isSome_map, ih]

/-- What is not in a text is not in a text inside it. -/
theorem contains_eq_false_of_append {before after : List Char}
    (h : contains part (before ++ cs ++ after) = false) : contains part cs = false := by
  rw [Bool.eq_false_iff]
  intro hcs
  obtain ⟨⟨left, right⟩, hcut⟩ := Option.isSome_iff_exists.1 hcs
  have hmore := contains_of_append part (before ++ left) (right ++ after)
  rw [eq_append_of_cutAt? hcut] at h
  simp only [List.append_assoc] at h hmore
  rw [hmore] at h
  cases h

/-- What is not in a text is not in the text without the white space around it. -/
theorem contains_trim_eq_false (h : contains part cs = false) : contains part (trim cs) = false := by
  obtain ⟨before, after, hcs, _⟩ := exists_eq_trim cs
  rw [hcs] at h
  exact contains_eq_false_of_append h

/-- A text does not start with what is not in it. -/
theorem after?_eq_none_of_contains (h : contains part cs = false) : after? part cs = none := by
  rw [Option.eq_none_iff_forall_ne_some]
  intro rest hrest
  have hcontains := contains_of_append part [] rest
  rw [List.nil_append, ← after?_eq_some_iff.1 hrest, h] at hcontains
  cases hcontains

/-- White space more or less around a text makes no difference to what trimming leaves. -/
theorem trim_around {before after : List Char} (hbefore : Blank before) (hafter : Blank after)
    (h : trim cs ≠ []) : trim (before ++ cs ++ after) = trim cs := by
  obtain ⟨left, right, hcs, hleft, hright⟩ := exists_eq_trim cs
  have hpad := trim_pad (List.forall_mem_append.2 ⟨hbefore, hleft⟩) (trimmed_trim h)
    (List.forall_mem_append.2 ⟨hright, hafter⟩)
  rw [← hpad]
  nth_rewrite 1 [hcs]
  simp only [List.append_assoc]

end Text

/-! ## Marks around an expression -/

/-- An expression between interpolation marks. -/
def Expression.wrapped (source : String) : String :=
  "$\x7b\x7b " ++ source ++ " \x7d\x7d"

namespace Template

/-- The end of an interpolated expression is found behind the expression, if there is no such mark
in it; the space before the mark keeps a brace at the end of the expression apart from it. -/
theorem cutAt?_closing (h : contains closing cs = false) :
    cutAt? closing (cs ++ ' ' :: closing) = some (cs ++ [' '], []) := by
  induction cs with
  | nil => decide
  | cons c cs ih =>
    have hcs : contains closing cs = false := by
      rw [← List.append_nil (c :: cs), ← List.singleton_append] at h
      exact contains_eq_false_of_append h
    have hstart : after? closing (c :: cs ++ ' ' :: closing) = none := by
      have hnone := after?_eq_none_of_contains h
      cases cs with
      | nil => simp [closing, after?]
      | cons d cs => simpa [closing, after?] using hnone
    rw [List.cons_append] at hstart ⊢
    simp only [cutAt?, hstart, ih hcs, Option.map_some, List.cons_append]

/-- An expression between interpolation marks is a template of one piece. -/
theorem parse?_wrapped (hne : trim source.toList ≠ [])
    (hclosing : contains closing source.toList = false) :
    parse? (Expression.wrapped source) =
      .ok [.expression (String.ofList (trim source.toList))] := by
  have hchars : (Expression.wrapped source).toList =
      opening ++ (' ' :: source.toList ++ ' ' :: closing) := by
    simp [Expression.wrapped, opening, closing]
  have hopen : cutAt? opening (opening ++ (' ' :: source.toList ++ ' ' :: closing)) =
      some ([], ' ' :: source.toList ++ ' ' :: closing) := by
    simp [opening, cutAt?, after?]
  have hspace : contains closing (' ' :: source.toList) = false := by
    have hspace : after? closing (' ' :: source.toList) = none := rfl
    unfold contains at hclosing ⊢
    rw [cutAt?, hspace, Option.isSome_map]
    exact hclosing
  have hclose := cutAt?_closing hspace
  have htrim : trim (' ' :: source.toList ++ [' ']) = trim source.toList := by
    rw [← List.singleton_append]
    exact trim_around (by decide) (by decide) hne
  have hnonempty : (trim source.toList).isEmpty = false := by
    rw [Bool.eq_false_iff, Ne, List.isEmpty_iff]
    exact hne
  have hpieces : pieces (opening ++ (' ' :: source.toList ++ ' ' :: closing)) =
      .ok [.expression (String.ofList (trim source.toList))] := by
    unfold pieces
    split
    · next hnone => rw [hopen] at hnone; cases hnone
    · next before rest hsome =>
      rw [hopen] at hsome
      cases hsome
      split
      · next hnone => rw [hclose] at hnone; cases hnone
      · next inner rest' hsome =>
        rw [hclose] at hsome
        cases hsome
        simp only [htrim, hnonempty, Bool.false_eq_true, if_false]
        rw [pieces]
        rfl
  rw [parse?, hchars, hpieces]
  rfl

end Template

namespace Expression

/-- A text without interpolation marks is taken as it is, without the white space around it. -/
theorem normalize_eq_trim (hopening : contains Template.opening source.toList = false) :
    normalize source = String.ofList (trim source.toList) := by
  have hnone := after?_eq_none_of_contains (contains_trim_eq_false hopening)
  simp only [normalize]
  rw [show ['$', '\x7b', '\x7b'] = Template.opening from rfl, hnone]

/-- White space around an expression makes no difference. -/
theorem parse?_trim (source : String) :
    parse? (String.ofList (trim source.toList)) = parse? source := by
  simp only [parse?, String.toList_ofList, trim_trim]

/-- The text of a bare expression is that of its value. -/
theorem evaluate_toOption (he : parse? source = .ok e)
    (hopening : contains Template.opening source.toList = false) :
    (evaluate m source).toOption = (e.eval m).toOption.map Json.plain := by
  simp only [evaluate, normalize_eq_trim hopening, parse?_trim, he, Except.mapError, ok_bind]
  cases e.eval m <;> rfl

/-- The text of an expression between interpolation marks. -/
theorem render_wrapped_toOption (he : parse? source = .ok e)
    (hclosing : contains Template.closing source.toList = false) :
    (Template.render m (wrapped source)).toOption = (e.render m).toOption := by
  have hne : trim source.toList ≠ [] := (parse?_eq_ok_iff.1 he).1
  simp only [Template.render, Template.parse?_wrapped hne hclosing, Template.renderPieces,
    Template.renderPiece, parse?_trim, he, Except.mapError, ok_bind]
  cases e.render m with
  | error u => rfl
  | ok text => exact congrArg some String.append_empty

/-- The value of a whole variable is that of its content. -/
theorem eval_toOption_of_whole? {name : String} (hc : e.IsClean) (h : e.whole? = some name) :
    (e.eval m).toOption = (m.get name).toOption.map (·.content.value) := by
  have hroots := roots_of_whole? hc h
  unfold whole? at h
  split at h
  · next p =>
    split at h
    · next s hs =>
      cases h
      have hroot : Path.root name = name := List.cons.inj hroots |>.1
      simp only [eval, Memory.resolve, hs, hroot]
      cases m.get name <;> rfl
    · cases h
  · cases h

/-- The text of a whole variable inside a template is that of its content. -/
theorem render_toOption_of_whole? {name : String} (h : e.whole? = some name) :
    (e.render m).toOption = (m.get name).toOption.map (·.content.rendered) := by
  simp only [render, h]
  cases m.get name <;> rfl

/-- The text of another expression inside a template is that of its value. -/
theorem render_toOption_of_not_whole (h : e.whole? = none) :
    (e.render m).toOption = (e.eval m).toOption.map Json.plain := by
  simp only [render, h]
  cases e.eval m <;> rfl

/-- A bare expression and its template both have the same text or both have none, if and only if the
expression is not a whole variable whose content's text differs from that of the content's value. -/
theorem evaluate_eq_render_iff (he : parse? source = .ok e)
    (hopening : contains Template.opening source.toList = false)
    (hclosing : contains Template.closing source.toList = false) (m : Memory) :
    (evaluate m source).toOption = (Template.render m (wrapped source)).toOption ↔
      ∀ name s, e.whole? = some name → m.get name = .ok s → s.content.Uniform := by
  rw [evaluate_toOption he hopening, render_wrapped_toOption he hclosing]
  cases hwhole : e.whole? with
  | none => exact iff_of_true (render_toOption_of_not_whole hwhole).symm nofun
  | some name =>
    rw [eval_toOption_of_whole? (isClean_of_parse? he) hwhole, render_toOption_of_whole? hwhole]
    cases hget : m.get name with
    | error cause =>
      refine iff_of_true rfl fun name' s hname hs => ?_
      cases hname
      rw [hget] at hs
      cases hs
    | ok s =>
      have huniform := s.content.rendered_eq_plain_iff
      constructor
      · intro htext name' s' hname hs
        cases hname
        rw [hget] at hs
        cases hs
        exact huniform.1 (Option.some.inj htext).symm
      · intro h
        exact congrArg some (huniform.2 (h name s rfl hget)).symm

/-! ## A count -/

/-- A memory that holds a number. -/
def countMemory (x : Double) : Memory :=
  Memory.empty.set "count" (Memory.empty.fresh "count" NativeConcept.number.concept (.number x))

theorem parse?_count : parse? "count" = .ok (.path "count") :=
  (parse?_name (isName_of_isVariable (by decide))).2 rfl

/-- Two and a half. -/
def half : Double :=
  (Double.ofRatio? false 5 2).getD .zero

/-- Two and a half is written alike by the bare variable and by its template. -/
theorem evaluate_eq_render_half :
    (parse? "count" = .ok (.path "count") ∧
      contains Template.opening "count".toList = false ∧
      contains Template.closing "count".toList = false) ∧
    (evaluate (countMemory half) "count").toOption =
      (Template.render (countMemory half) (wrapped "count")).toOption := by
  refine ⟨⟨parse?_count, by decide, by decide⟩,
    (evaluate_eq_render_iff parse?_count (by decide) (by decide) (countMemory half)).2 ?_⟩
  intro name s hname hs
  cases hname
  cases hs
  decide +kernel

/-- Three is written "3.0" by the bare variable and "3" by its template, so that an expression and
its template can have different texts. -/
theorem not_forall_evaluate_eq_render :
    ¬ ∀ (source : String) (e : Expression) (m : Memory), parse? source = .ok e →
      contains Template.opening source.toList = false →
      contains Template.closing source.toList = false →
      (evaluate m source).toOption = (Template.render m (wrapped source)).toOption := by
  intro h
  have htext := h "count" (.path "count") (countMemory (.ofNat 3)) parse?_count (by decide)
    (by decide)
  have hbare : (evaluate (countMemory (.ofNat 3)) "count").toOption = some "3.0" := by
    decide +kernel
  have htemplate : (Template.render (countMemory (.ofNat 3)) (wrapped "count")).toOption =
      some "3" := by
    decide +kernel
  rw [hbare, htemplate] at htext
  exact absurd htext (by decide)

end Expression

end Conduit
