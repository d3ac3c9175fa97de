import Conduit.Proofs.Template.Reads

/-!
# What templates depend on

The text of a template or of a bare expression depends on the memory only through the values of its
free names: two memories that agree on these give the same text, or fail for the same variable and
in the same way (`Template.render_agree`, `Expression.evaluate_agree`). A memory that is asked for a
name that it lacks offers those that it has, so failures are compared but for the names that are
offered. What has free names can be read, and so no failure is about the syntax.
-/

namespace Conduit

/-! ## Failures but for the names on offer -/

/-- Two errors of memories are the same, but for the names that are offered in place of one that has
no value. -/
inductive MemoryError.Similar : MemoryError → MemoryError → Prop
  | refl (e : MemoryError) : Similar e e
  | notFound (name : String) (available available' : List String) :
    Similar (.notFound name available) (.notFound name available')

/-- Two paths lead nowhere for the same variable and in the same way. -/
structure Undefined.Similar (u u' : Undefined) : Prop where
  name : u.name = u'.name
  cause : u.cause.Similar u'.cause

/-- Two computations have the same value, or they fail alike. -/
inductive SameUpTo {ε α : Type} (R : ε → ε → Prop) : Except ε α → Except ε α → Prop
  | ok (a : α) : SameUpTo R (.ok a) (.ok a)
  | error {e e' : ε} (h : R e e') : SameUpTo R (.error e) (.error e')

namespace SameUpTo

variable {ε ε' α β : Type} {R : ε → ε → Prop} {R' : ε' → ε' → Prop} {x y : Except ε α}

/-- Computations in two parts are the same if both parts are. -/
theorem bind {f g : α → Except ε β} (h : SameUpTo R x y) (hfg : ∀ a, SameUpTo R (f a) (g a)) :
    SameUpTo R (x >>= f) (y >>= g) := by
  cases h with
  | ok a => exact hfg a
  | error he => exact .error he

/-- Computations stay the same under other errors. -/
theorem mapError {f g : ε → ε'} (h : SameUpTo R x y) (hfg : ∀ e e', R e e' → R' (f e) (g e')) :
    SameUpTo R' (x.mapError f) (y.mapError g) := by
  cases h with
  | ok a => exact .ok a
  | error he => exact .error (hfg _ _ he)

end SameUpTo

/-! ## Lookups -/

namespace Memory

variable {m m' : Memory}

/-- Two memories have the same values under some names. -/
def AgreeOn (names : List String) (m m' : Memory) : Prop :=
  ∀ name ∈ names, m.find? name = m'.find? name

theorem AgreeOn.imp {names names' : List String} (h : AgreeOn names' m m')
    (hsub : ∀ name ∈ names, name ∈ names') : AgreeOn names m m' :=
  fun name hname => h name (hsub name hname)

theorem AgreeOn.left {names names' : List String} (h : AgreeOn (names ++ names') m m') :
    AgreeOn names m m' :=
  h.imp fun _ => List.mem_append_left _

theorem AgreeOn.right {names names' : List String} (h : AgreeOn (names ++ names') m m') :
    AgreeOn names' m m' :=
  h.imp fun _ => List.mem_append_right _

/-- A name is looked up alike. -/
theorem get_agree {name : String} (h : m.find? name = m'.find? name) :
    SameUpTo MemoryError.Similar (m.get name) (m'.get name) := by
  unfold get
  rw [h]
  cases m'.find? name with
  | some s => exact .ok s
  | none => exact .error (.notFound name _ _)

/-- A path is followed alike if its root is looked up alike. -/
theorem resolve_agree {path : String} (h : m.find? (Path.root path) = m'.find? (Path.root path)) :
    SameUpTo MemoryError.Similar (m.resolve path) (m'.resolve path) := by
  unfold resolve
  cases Path.parse? path with
  | none => exact .error (.refl _)
  | some segments =>
    refine (get_agree h).bind fun s => ?_
    cases segments.tail with
    | nil => exact .ok _
    | cons first rest =>
      cases hvalue : s.content.follow? first rest with
      | some v =>
        simp only [hvalue]
        exact .ok v
      | none =>
        simp only [hvalue]
        exact .error (.refl _)

end Memory

/-! ## Expressions -/

namespace Expression

variable {m m' : Memory}

mutual

/-- The value of an expression depends on its roots. -/
theorem eval_agree : (e : Expression) → Memory.AgreeOn e.roots m m' →
    SameUpTo Undefined.Similar (e.eval m) (e.eval m')
  | literal v, _ => .ok v
  | path p, h => by
      unfold eval
      refine (Memory.resolve_agree (h _ (List.mem_singleton.2 rfl))).mapError fun _ _ he => ?_
      exact ⟨rfl, he⟩
  | not e, h => (eval_agree e h).bind fun _ => .ok _
  | equals l r, h =>
      (eval_agree l h.left).bind fun _ => (eval_agree r h.right).bind fun _ => .ok _
  | notEquals l r, h =>
      (eval_agree l h.left).bind fun _ => (eval_agree r h.right).bind fun _ => .ok _
  | and parts, h => (evalAll_agree parts h).bind fun _ => .ok _
  | or parts, h => (evalAny_agree parts h).bind fun _ => .ok _

theorem evalAll_agree : (es : List Expression) → Memory.AgreeOn (rootsOf es) m m' →
    SameUpTo Undefined.Similar (evalAll m es) (evalAll m' es)
  | [], _ => .ok true
  | e :: es, h => by
      refine (eval_agree e h.left).bind fun v => ?_
      split
      · exact evalAll_agree es h.right
      · exact .ok false

theorem evalAny_agree : (es : List Expression) → Memory.AgreeOn (rootsOf es) m m' →
    SameUpTo Undefined.Similar (evalAny m es) (evalAny m' es)
  | [], _ => .ok false
  | e :: es, h => by
      refine (eval_agree e h.left).bind fun v => ?_
      split
      · exact .ok true
      · exact evalAny_agree es h.right

end

/-- The text of a clean expression inside a template depends on its roots. -/
theorem render_agree {e : Expression} (hc : e.IsClean) (h : Memory.AgreeOn e.roots m m') :
    SameUpTo Undefined.Similar (e.render m) (e.render m') := by
  unfold render
  cases hwhole : e.whole? with
  | none => exact (eval_agree e h).bind fun _ => .ok _
  | some name =>
    -- a whole variable is looked up by its path, which is its root only because it is clean
    rw [roots_of_whole? hc hwhole] at h
    refine SameUpTo.bind ?_ fun _ => .ok _
    refine (Memory.get_agree (h name (List.mem_singleton.2 rfl))).mapError fun _ _ he => ?_
    exact ⟨rfl, he⟩

end Expression

/-! ## Templates -/

/-- Two texts of the template `source` are undefined alike; a template that cannot be read is not
among those. -/
inductive TemplateError.Similar (source : String) : TemplateError → TemplateError → Prop
  | undefined {u u' : Undefined} (h : u.Similar u') :
    Similar source (.undefined source u) (.undefined source u')

namespace Template

variable {m m' : Memory} {source : String}

/-- The text of a piece that can be read depends on the roots of its expression. -/
theorem renderPiece_agree {p : Piece} {e : Option Expression} (hp : p.expression? = .ok e)
    (h : Memory.AgreeOn (e.elim [] Expression.roots) m m') :
    SameUpTo (TemplateError.Similar source) (renderPiece m source p) (renderPiece m' source p) := by
  cases p with
  | literal text => exact .ok text
  | expression text =>
    simp only [Piece.expression?, mapError_eq_ok_iff, map_eq_ok_iff] at hp
    obtain ⟨e, he, rfl⟩ := hp
    simp only [renderPiece, he]
    refine (Expression.render_agree (Expression.isClean_of_parse? he) h).mapError fun _ _ hu => ?_
    exact .undefined hu

/-- The text of pieces that can be read depends on the roots of their expressions. -/
theorem renderPieces_agree {ps : List Piece} {names : List String} (hps : roots? ps = .ok names)
    (h : Memory.AgreeOn names m m') :
    SameUpTo (TemplateError.Similar source) (renderPieces m source ps)
      (renderPieces m' source ps) := by
  induction ps generalizing names with
  | nil => exact .ok ""
  | cons p ps ih =>
    simp only [roots?, bind_eq_ok_iff] at hps
    obtain ⟨e, he, more, hmore, hnames⟩ := hps
    cases hnames
    exact (renderPiece_agree he h.left).bind fun _ => (ih hmore h.right).bind fun _ => .ok _

theorem render_agree {names : List String} (hnames : freeNames? source = .ok names)
    (h : Memory.AgreeOn names m m') :
    SameUpTo (TemplateError.Similar source) (render m source) (render m' source) := by
  simp only [freeNames?, bind_eq_ok_iff] at hnames
  obtain ⟨ps, hps, roots, hroots, hnames⟩ := hnames
  cases hnames
  simp only [render, hps]
  exact renderPieces_agree hroots (h.imp fun _ => mem_distinct.2)

end Template

/-- The text of a bare expression that can be read depends on its free names. -/
theorem Expression.evaluate_agree {m m' : Memory} {source : String} {names : List String}
    (hnames : freeNames? source = .ok names) (h : Memory.AgreeOn names m m') :
    SameUpTo (TemplateError.Similar source) (evaluate m source) (evaluate m' source) := by
  simp only [freeNames?, mapError_eq_ok_iff, map_eq_ok_iff] at hnames
  obtain ⟨e, he, rfl⟩ := hnames
  have heval : SameUpTo (TemplateError.Similar source) ((e.eval m).mapError (.undefined source))
      ((e.eval m').mapError (.undefined source)) :=
    (eval_agree e (h.imp fun _ => mem_distinct.2)).mapError fun _ _ hu => .undefined hu
  simp only [evaluate, he]
  exact heval.bind fun v => .ok v.plain

/-- The texts of templates and of bare expressions are determined by the values of their free names:
in two memories that agree on these, such a source has the same text, or it is undefined in both
alike. -/
theorem texts_determined (source : String) {m m' : Memory} {names : List String}
    (h : Memory.AgreeOn names m m') :
    (Template.freeNames? source = .ok names →
      SameUpTo (TemplateError.Similar source) (Template.render m source)
        (Template.render m' source)) ∧
    (Expression.freeNames? source = .ok names →
      SameUpTo (TemplateError.Similar source) (Expression.evaluate m source)
        (Expression.evaluate m' source)) :=
  ⟨fun hnames => Template.render_agree hnames h, fun hnames => Expression.evaluate_agree hnames h⟩

/-! ## A draft that is not read -/

/-- A memory that holds a topic. -/
def topicMemory : Memory :=
  Memory.empty.set "topic" (Memory.empty.fresh "topic" NativeConcept.text.concept (.text "rain"))

/-- The same memory with a draft. -/
def draftMemory : Memory :=
  topicMemory.set "draft" (topicMemory.fresh "draft" NativeConcept.text.concept (.text "It rains."))

theorem topicMemory_agreeOn : Memory.AgreeOn ["topic", "wanted"] topicMemory draftMemory := by
  intro name hname
  simp only [List.mem_cons, List.not_mem_nil, or_false] at hname
  rcases hname with rfl | rfl <;> rfl

/-- The draft makes no difference to a template about the topic, nor to a comparison of the topic
with a text that is in neither memory. -/
theorem texts_determined_topic :
    (Template.freeNames? "No ${{ topic }}." = .ok ["topic"] ∧
      Memory.AgreeOn ["topic"] topicMemory draftMemory ∧
      SameUpTo (TemplateError.Similar "No ${{ topic }}.")
        (Template.render topicMemory "No ${{ topic }}.")
        (Template.render draftMemory "No ${{ topic }}.")) ∧
    (Expression.freeNames? "topic == wanted" = .ok ["topic", "wanted"] ∧
      Memory.AgreeOn ["topic", "wanted"] topicMemory draftMemory ∧
      SameUpTo (TemplateError.Similar "topic == wanted")
        (Expression.evaluate topicMemory "topic == wanted")
        (Expression.evaluate draftMemory "topic == wanted")) := by
  have htemplate : Template.freeNames? "No ${{ topic }}." = .ok ["topic"] :=
    eq_ok_of_toOption (by decide +kernel)
  have hexpression : Expression.freeNames? "topic == wanted" = .ok ["topic", "wanted"] :=
    eq_ok_of_toOption (by decide +kernel)
  have htopic : Memory.AgreeOn ["topic"] topicMemory draftMemory :=
    topicMemory_agreeOn.imp (by simp)
  exact ⟨⟨htemplate, htopic, (texts_determined _ htopic).1 htemplate⟩,
    hexpression, topicMemory_agreeOn, (texts_determined _ topicMemory_agreeOn).2 hexpression⟩

end Conduit
