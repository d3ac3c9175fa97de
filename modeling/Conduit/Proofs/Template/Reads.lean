import Conduit.Proofs.Expression.Node
import Conduit.Proofs.Path
import Conduit.Template.Render

/-!
# What templates read

An expression or a template has no value only because it cannot be read, or because a path in it
leads nowhere. `Template.render_undefined` and `Expression.evaluate_undefined` say more of the
latter case: the variable is one of the free names, and the cause is that there is no such variable
exactly if the name has no value in the memory. So what reads only names that have values fails, if
at all, for a place inside a value.

The free names are computed from the roots of the paths. That a path in a text that has been read is
a path, with no white space around it, makes them the names that are looked up (`Path.IsClean`).
-/

namespace Conduit

open Text

/-! ## Paths -/

namespace Path

/-- A path with no white space around it. -/
def IsClean (path : String) : Prop :=
  isValid path = true ∧ trim path.toList = path.toList

/-- A text that is cut into one piece is that piece. -/
theorem eq_of_splitOn {sep : Char} {cs piece : List Char} (h : splitOn sep cs = [piece]) :
    piece = cs := by
  induction cs generalizing piece with
  | nil => simpa [splitOn] using h.symm
  | cons c cs ih =>
    rw [splitOn] at h
    split at h
    · exact absurd (List.cons.inj h).2 (splitOn_ne_nil sep cs)
    · split at h
      · next hnil => exact absurd hnil (splitOn_ne_nil sep cs)
      · next first rest hsplit =>
        obtain ⟨rfl, rfl⟩ := List.cons.inj h
        rw [ih hsplit]

/-- A part of a path that is one key is made of the characters of keys. -/
theorem all_isKeyChar_of_part? {cs : List Char} {name : String} (h : part? cs = some [.key name]) :
    cs.all isKeyChar = true := by
  obtain ⟨indices, hindices, hall, _, heq⟩ := part?_eq_some h
  split at heq
  · cases indices with
    | nil => cases heq
    | cons i is => cases heq
  · have hnil : indices = [] := by
      cases indices with
      | nil => rfl
      | cons i is => cases heq
    rw [hnil] at hindices
    have hdrop := eq_nil_of_indices? hindices
    have happ := List.takeWhile_append_dropWhile (p := (· != '[')) (l := cs)
    rw [hdrop, List.append_nil] at happ
    rw [happ] at hall
    exact hall

/-- The parts of a path have at least as many segments as there are parts. -/
theorem length_parts? {parts : List (List Char)} {segments : List Segment}
    (h : parts? parts = some segments) : parts.length ≤ segments.length := by
  induction parts generalizing segments with
  | nil => exact Nat.zero_le _
  | cons part rest ih =>
    simp only [parts?, Option.bind_eq_bind, Option.bind_eq_some_iff] at h
    obtain ⟨first, hfirst, more, hmore, h⟩ := h
    rw [← Option.some.inj h, List.length_append, List.length_cons]
    have hpos := List.length_pos_iff.2 (part?_ne_nil hfirst)
    have hle := ih hmore
    omega

/-- A path of one segment is a name. -/
theorem isKeyChar_of_parse? {path : String} {s : Segment} (h : parse? path = some [s])
    (ht : trim path.toList = path.toList) : path.toList.all isKeyChar = true := by
  obtain ⟨hparts, first, rest, heq, hroot⟩ := parse?_eq_some h
  obtain ⟨rfl, rfl⟩ := List.cons.inj heq
  rw [ht] at hparts
  have hlen := length_parts? hparts
  cases hsplit : splitOn '.' path.toList with
  | nil => exact absurd hsplit (splitOn_ne_nil _ _)
  | cons part more =>
    cases more with
    | cons _ _ =>
      rw [hsplit] at hlen
      simp at hlen
    | nil =>
      rw [hsplit] at hparts
      simp only [parts?, Option.bind_eq_bind, Option.bind_eq_some_iff] at hparts
      obtain ⟨segments, hpart, more, hmore, hs⟩ := hparts
      cases hmore
      rw [Option.pure_def, Option.some.injEq, List.append_nil] at hs
      rw [hs] at hpart
      cases s with
      | index i => cases hroot
      | key name =>
        rw [← eq_of_splitOn hsplit]
        exact all_isKeyChar_of_part? hpart

/-- A path of one segment is its own root. -/
theorem root_of_parse? {path : String} {s : Segment} (h : parse? path = some [s])
    (ht : trim path.toList = path.toList) : root path = path := by
  have hall := isKeyChar_of_parse? h ht
  unfold root
  rw [ht, List.takeWhile_eq_self_iff.2, String.ofList_toList]
  intro c hc
  have hkey := List.all_eq_true.1 hall c hc
  have hdot : c ≠ '.' := by
    rintro rfl
    cases hkey
  have hbracket : c ≠ '[' := by
    rintro rfl
    cases hkey
  simp [hdot, hbracket]

end Path

/-! ## Expressions that have been read -/

namespace Expression

mutual

/-- The paths of an expression, from left to right. -/
def paths : Expression → List String
  | literal _ => []
  | path p => [p]
  | not e => paths e
  | equals l r | notEquals l r => paths l ++ paths r
  | and parts | or parts => pathsOf parts

/-- The paths of several expressions. -/
def pathsOf : List Expression → List String
  | [] => []
  | e :: es => paths e ++ pathsOf es

end

mutual

/-- The roots of an expression are those of its paths. -/
theorem roots_eq : (e : Expression) → e.roots = e.paths.map Path.root
  | literal _ => by simp [roots, paths]
  | path p => by simp [roots, paths]
  | not e => by simp [roots, paths, roots_eq e]
  | equals l r => by simp [roots, paths, roots_eq l, roots_eq r]
  | notEquals l r => by simp [roots, paths, roots_eq l, roots_eq r]
  | and parts => by simp [roots, paths, rootsOf_eq parts]
  | or parts => by simp [roots, paths, rootsOf_eq parts]

theorem rootsOf_eq : (es : List Expression) → rootsOf es = (pathsOf es).map Path.root
  | [] => rfl
  | e :: es => by simp [rootsOf, pathsOf, roots_eq e, rootsOf_eq es]

end

/-- An expression whose paths are paths, with no white space around them. -/
def IsClean (e : Expression) : Prop :=
  ∀ p ∈ e.paths, Path.IsClean p

theorem mem_pathsOf {path : String} {es : List Expression} :
    path ∈ pathsOf es ↔ ∃ e ∈ es, path ∈ e.paths := by
  induction es with
  | nil => simp [pathsOf]
  | cons e es ih => simp [pathsOf, ih]

theorem isClean_negated {e : Expression} (h : e.IsClean) (n : Nat) : (negated n e).IsClean := by
  induction n with
  | zero => exact h
  | succ n ih =>
    intro p hp
    unfold negated paths at hp
    exact ih p hp

/-- An operand is clean. -/
theorem isClean_operand {cs : List Char} {e : Expression} (hcs : trim cs = cs)
    (h : operand cs = .ok e) : e.IsClean := by
  unfold operand at h
  split at h
  · cases h
    exact nofun
  · dsimp only at h
    split at h
    · split at h
      · cases h
        exact nofun
      · cases h
    · split at h
      · next hvalid =>
        cases h
        intro p hp
        rw [List.mem_singleton.1 hp]
        exact ⟨hvalid, by rw [String.toList_ofList, hcs]⟩
      · cases h

/-- The paths of clean expressions are clean. -/
theorem isClean_of_forall₂ {ps : List (List Char)} {es : List Expression}
    (h : List.Forall₂ (fun _ e => IsClean e) ps es) : ∀ p ∈ pathsOf es, Path.IsClean p := by
  intro p hp
  obtain ⟨e, he, hp⟩ := mem_pathsOf.1 hp
  obtain ⟨_, _, hclean⟩ := exists_of_forall₂ h he
  exact hclean p hp

/-- What a text is read as is clean. -/
theorem isClean_node {cs : List Char} {e : Expression} (h : node cs = .ok e) : e.IsClean := by
  refine node_induct (motive := fun _ e => e.IsClean) ?or ?and ?not ?enclosed ?notEquals ?equals
    ?operand h
  case or => exact fun _ _ hparts => isClean_of_forall₂ (hparts.imp fun _ _ hpart => hpart.2)
  case and => exact fun _ _ _ hparts => isClean_of_forall₂ (hparts.imp fun _ _ hpart => hpart.2)
  case not => exact fun _ _ _ _ he => isClean_negated he _
  case enclosed => exact fun _ _ _ he => he
  case notEquals =>
    intro cs left right l r _ _ _ _ _ _ hl _ hr p hp
    exact (List.mem_append.1 hp).elim (hl p) (hr p)
  case equals =>
    intro cs left right l r _ _ _ _ _ _ _ hl _ hr p hp
    exact (List.mem_append.1 hp).elim (hl p) (hr p)
  case operand => exact fun _ _ _ _ _ he => isClean_operand (trim_trim _) he

/-- What a text is read as is clean. -/
theorem isClean_of_parse? {source : String} {e : Expression} (h : parse? source = .ok e) :
    e.IsClean :=
  isClean_node (parse?_eq_ok_iff.1 h).2.2

end Expression

/-! ## Lookups -/

/-- Whether the error is that a name has no value. -/
def MemoryError.isNotFound : MemoryError → Bool
  | notFound _ _ => true
  | _ => false

namespace Memory

variable {m : Memory} {name path : String}

/-- A name that has a value is looked up. -/
theorem exists_get (h : m.contains name = true) : ∃ s, m.get name = .ok s := by
  obtain ⟨s, hs⟩ := Option.isSome_iff_exists.1 h
  exact ⟨s, by simp [get, hs]⟩

/-- A name that is not looked up has no value. -/
theorem get_error {e : MemoryError} (h : m.get name = .error e) :
    e.isNotFound = true ∧ m.contains name = false := by
  unfold get at h
  cases hf : m.find? name with
  | some s => simp [hf] at h
  | none =>
    rw [hf] at h
    cases h
    exact ⟨rfl, by simp [contains, hf]⟩

/-- A path leads nowhere because its root has no value, or because the value has no such place. -/
theorem resolve_error {e : MemoryError} (hp : Path.isValid path = true)
    (h : m.resolve path = .error e) :
    e.isNotFound = true ↔ m.contains (Path.root path) = false := by
  unfold resolve at h
  obtain ⟨segments, hsegments⟩ := Option.isSome_iff_exists.1 hp
  simp only [hsegments, bind_eq_error_iff] at h
  rcases h with h | ⟨s, hs, h⟩
  · exact ⟨fun _ => (get_error h).2, fun _ => (get_error h).1⟩
  · have hcontains : m.contains (Path.root path) = true := by
      unfold get at hs
      unfold contains
      cases hf : m.find? (Path.root path) with
      | some s => rfl
      | none => simp [hf] at hs
    rw [hcontains]
    split at h
    · cases h
    · split at h
      · cases h
      · cases h
        exact ⟨nofun, nofun⟩

end Memory

/-- A variable without a value for which something failed: it is one of some names, and the cause is
that it has no value exactly if that is so. -/
structure Undefined.Among (u : Undefined) (m : Memory) (names : List String) : Prop where
  mem : u.name ∈ names
  iff : u.cause.isNotFound = true ↔ m.contains u.name = false

theorem Undefined.Among.imp {u : Undefined} {m : Memory} {names names' : List String}
    (h : u.Among m names) (hsub : ∀ name ∈ names, name ∈ names') : u.Among m names' :=
  ⟨hsub _ h.mem, h.iff⟩

namespace Expression

variable {m : Memory} {u : Undefined}

mutual

/-- A clean expression has no value because of one of its roots. -/
theorem eval_error : (e : Expression) → e.IsClean → e.eval m = .error u → u.Among m e.roots
  | literal _, _, h => by cases h
  | path p, hc, h => by
      simp only [eval, mapError_eq_error_iff] at h
      obtain ⟨cause, hcause, rfl⟩ := h
      exact ⟨List.mem_singleton.2 rfl,
        Memory.resolve_error (hc p (List.mem_singleton.2 rfl)).1 hcause⟩
  | not e, hc, h => by
      simp only [eval, bind_eq_error_iff] at h
      rcases h with h | ⟨v, _, h⟩
      · exact eval_error e hc h
      · cases h
  | equals l r, hc, h => by
      simp only [eval, bind_eq_error_iff] at h
      rcases h with h | ⟨v, _, h | ⟨w, _, h⟩⟩
      · exact (eval_error l (fun p hp => hc p (List.mem_append_left _ hp)) h).imp
          fun _ => List.mem_append_left _
      · exact (eval_error r (fun p hp => hc p (List.mem_append_right _ hp)) h).imp
          fun _ => List.mem_append_right _
      · cases h
  | notEquals l r, hc, h => by
      simp only [eval, bind_eq_error_iff] at h
      rcases h with h | ⟨v, _, h | ⟨w, _, h⟩⟩
      · exact (eval_error l (fun p hp => hc p (List.mem_append_left _ hp)) h).imp
          fun _ => List.mem_append_left _
      · exact (eval_error r (fun p hp => hc p (List.mem_append_right _ hp)) h).imp
          fun _ => List.mem_append_right _
      · cases h
  | and parts, hc, h => by
      simp only [eval, bind_eq_error_iff] at h
      rcases h with h | ⟨v, _, h⟩
      · exact evalAll_error parts hc h
      · cases h
  | or parts, hc, h => by
      simp only [eval, bind_eq_error_iff] at h
      rcases h with h | ⟨v, _, h⟩
      · exact evalAny_error parts hc h
      · cases h

theorem evalAll_error : (es : List Expression) → (∀ p ∈ pathsOf es, Path.IsClean p) →
    evalAll m es = .error u → u.Among m (rootsOf es)
  | [], _, h => by cases h
  | e :: es, hc, h => by
      simp only [evalAll, bind_eq_error_iff] at h
      rcases h with h | ⟨v, _, h⟩
      · exact (eval_error e (fun p hp => hc p (List.mem_append_left _ hp)) h).imp
          fun _ => List.mem_append_left _
      · split at h
        · exact (evalAll_error es (fun p hp => hc p (List.mem_append_right _ hp)) h).imp
            fun _ => List.mem_append_right _
        · cases h

theorem evalAny_error : (es : List Expression) → (∀ p ∈ pathsOf es, Path.IsClean p) →
    evalAny m es = .error u → u.Among m (rootsOf es)
  | [], _, h => by cases h
  | e :: es, hc, h => by
      simp only [evalAny, bind_eq_error_iff] at h
      rcases h with h | ⟨v, _, h⟩
      · exact (eval_error e (fun p hp => hc p (List.mem_append_left _ hp)) h).imp
          fun _ => List.mem_append_left _
      · split at h
        · cases h
        · exact (evalAny_error es (fun p hp => hc p (List.mem_append_right _ hp)) h).imp
            fun _ => List.mem_append_right _

end

/-- A clean expression that is nothing but a variable is that variable. -/
theorem roots_of_whole? {e : Expression} {name : String} (hc : e.IsClean)
    (h : e.whole? = some name) : e.roots = [name] := by
  unfold whole? at h
  split at h
  · next p =>
    split at h
    · next s hs =>
      cases h
      rw [roots, Path.root_of_parse? hs (hc _ (List.mem_singleton.2 rfl)).2]
    · cases h
  · cases h

/-- A clean expression has no text because of one of its roots. -/
theorem render_error {e : Expression} (hc : e.IsClean) (h : e.render m = .error u) :
    u.Among m e.roots := by
  unfold render at h
  split at h
  · next name hwhole =>
    simp only [bind_eq_error_iff, mapError_eq_error_iff] at h
    rw [roots_of_whole? hc hwhole]
    rcases h with ⟨cause, hget, rfl⟩ | ⟨s, _, h⟩
    · have herr := Memory.get_error hget
      exact ⟨List.mem_singleton.2 rfl, fun _ => herr.2, fun _ => herr.1⟩
    · cases h
  · simp only [bind_eq_error_iff] at h
    rcases h with h | ⟨v, _, h⟩
    · exact eval_error e hc h
    · cases h

/-- A bare expression has no text because of one of its free names. -/
theorem evaluate_undefined {source s : String} (h : evaluate m source = .error (.undefined s u)) :
    (u.cause.isNotFound = true ↔ m.contains u.name = false) ∧
      ∀ names, freeNames? source = .ok names → u.name ∈ names := by
  simp only [evaluate, bind_eq_error_iff, mapError_eq_error_iff, mapError_eq_ok_iff] at h
  rcases h with ⟨_, _, h⟩ | ⟨e, he, ⟨v, hv, h⟩ | ⟨v, _, h⟩⟩
  · cases h
  · cases h
    have hamong := eval_error e (isClean_of_parse? he) hv
    refine ⟨hamong.iff, ?_⟩
    intro names hnames
    simp only [freeNames?, he, Except.map, Except.mapError, Except.ok.injEq] at hnames
    rw [← hnames, freeNames, mem_distinct]
    exact hamong.mem
  · cases h

end Expression

namespace Template

variable {m : Memory} {u : Undefined} {source s : String}

/-- A piece of a template has no text because of one of the roots of its expression. -/
theorem renderPiece_undefined {p : Piece} (h : renderPiece m source p = .error (.undefined s u)) :
    ∃ e, p.expression? = .ok (some e) ∧ u.Among m e.roots := by
  unfold renderPiece at h
  cases p with
  | literal text => cases h
  | expression text =>
    simp only [bind_eq_error_iff, mapError_eq_error_iff, mapError_eq_ok_iff] at h
    rcases h with ⟨_, _, h⟩ | ⟨e, he, v, hv, h⟩
    · cases h
    · cases h
      exact ⟨e, by simp [Piece.expression?, he, Except.map, Except.mapError],
        Expression.render_error (Expression.isClean_of_parse? he) hv⟩

/-- Pieces of a template have no text because of one of the roots of their expressions. -/
theorem renderPieces_undefined {ps : List Piece}
    (h : renderPieces m source ps = .error (.undefined s u)) :
    (u.cause.isNotFound = true ↔ m.contains u.name = false) ∧
      ∀ names, roots? ps = .ok names → u.name ∈ names := by
  induction ps with
  | nil => cases h
  | cons p ps ih =>
    simp only [renderPieces, bind_eq_error_iff] at h
    rcases h with h | ⟨text, _, h | ⟨more, _, h⟩⟩
    · obtain ⟨e, he, hamong⟩ := renderPiece_undefined h
      refine ⟨hamong.iff, ?_⟩
      intro names hnames
      simp only [roots?, he, bind_eq_ok_iff, Except.ok.injEq, exists_eq_left'] at hnames
      obtain ⟨more, _, hnames⟩ := hnames
      cases hnames
      exact List.mem_append_left _ hamong.mem
    · obtain ⟨hiff, hmem⟩ := ih h
      refine ⟨hiff, ?_⟩
      intro names hnames
      simp only [roots?, bind_eq_ok_iff] at hnames
      obtain ⟨_, _, more, hmore, hnames⟩ := hnames
      cases hnames
      exact List.mem_append_right _ (hmem more hmore)
    · cases h

/-- A template has no text because of one of its free names. -/
theorem render_undefined (h : render m source = .error (.undefined s u)) :
    (u.cause.isNotFound = true ↔ m.contains u.name = false) ∧
      ∀ names, freeNames? source = .ok names → u.name ∈ names := by
  simp only [render, bind_eq_error_iff, mapError_eq_error_iff, mapError_eq_ok_iff] at h
  rcases h with ⟨_, _, h⟩ | ⟨ps, hps, h⟩
  · cases h
  · obtain ⟨hiff, hmem⟩ := renderPieces_undefined h
    refine ⟨hiff, ?_⟩
    intro names hnames
    simp only [freeNames?, hps, bind_eq_ok_iff, Except.ok.injEq, exists_eq_left'] at hnames
    obtain ⟨roots, hroots, hnames⟩ := hnames
    cases hnames
    rw [mem_distinct]
    exact hmem roots hroots

end Template

end Conduit
