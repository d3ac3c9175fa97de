import Mathlib.Data.List.Perm.Subperm
import Conduit.Proofs.Library.Admitted

/-!
# Declared inputs and the pipes that ask for them

A parallel and a condition declare what the pipes ask for that they run (`Loaded.declares_call`).
Their needs hold one requirement on each variable, the first that any of those pipes puts on it, and
the declaration is compared with that one. So a declared input agrees with what an operator asks for
if no earlier branch or outcome asks for anything else; a later requirement that differs is not
compared at all, and neither is one on a variable that the text of a condition reads, for there the
declaration itself comes first (`not_forall_declares_call`).
-/

namespace Conduit

/-- The step that runs a pipe once and asks nothing of it. -/
def Step.once (code : String) : Step :=
  ⟨code, none, none, none⟩

/-- The pipes that a parallel or a condition may run itself, as steps, in their order. -/
def Pipe.calls (p : Pipe) : List Step :=
  match p.kind with
  | .parallel q => q.branches
  | .condition c => c.pipes.map .once
  | .sequence _ | .batch _ _ | .operator _ => []

namespace Library

variable {l l₀ : Library} {p q : Pipe} {name : String} {needed : Requirement}
  {visit : Pipe → Except NeedsError Requirements} {owner : String} {known needs : Requirements}

/-- What a pipe takes over into its needs from a call. -/
def asked (l : Library) (p : Pipe) (s : Step) : Except NeedsError Requirements := do
  let target ← (l.pipe s.pipe p.code).mapError .missingPipes
  let needs ← l.needsWithin (l.pipes.size + 1) [p.code] target
  stepNeeds p.code target s needs

/-- A call of a pipe puts no other requirement on a variable than a given one. -/
def Agrees (l : Library) (p : Pipe) (name : String) (needed : Requirement) (s : Step) : Prop :=
  ∀ own, l.asked p s = .ok own → own.get? name = none ∨ own.get? name = some needed

/-- The text that a condition evaluates reads the variable, or the condition makes an alias of
it. -/
def OwnVariable (p : Pipe) (name : String) : Prop :=
  ∃ c names, p.kind = .condition c ∧ conditionVariables c = .ok names ∧ name ∈ names

/-! ## The first requirement -/

/-- The needs of outcomes are those of branches that run the same pipes once. -/
theorem outcomeNeeds_eq_branchNeeds (codes : List String) :
    l.outcomeNeeds visit owner known codes =
      l.branchNeeds visit owner known (codes.map .once) := by
  induction codes generalizing known with
  | nil => rfl
  | cons code rest ih =>
    simp only [outcomeNeeds, List.map_cons, branchNeeds, ih]
    rfl

/-- The needs of branches, one part of them after the other. -/
theorem branchNeeds_append (before after : List Step) :
    l.branchNeeds visit owner known (before ++ after) =
      l.branchNeeds visit owner known before >>= fun known =>
        l.branchNeeds visit owner known after := by
  induction before generalizing known with
  | nil => rfl
  | cons s rest ih => simp only [List.cons_append, branchNeeds, ih, bind_assoc]

/-- A requirement that is known stays. -/
theorem branchNeeds_keeps {steps : List Step} (hknown : known.get? name = some needed)
    (h : l.branchNeeds visit owner known steps = .ok needs) : needs.get? name = some needed := by
  induction steps generalizing known with
  | nil =>
    cases h
    exact hknown
  | cons s rest ih =>
    simp only [branchNeeds, bind_eq_ok_iff] at h
    obtain ⟨target, _, _, _, own, _, h⟩ := h
    refine ih ?_ h
    rw [Dict.get?_merge, hknown]
    rfl

/-- Calls put no other requirement on a variable than a given one if none of them does. -/
theorem branchNeeds_agrees {steps : List Step} (hsteps : ∀ s ∈ steps, l.Agrees p name needed s)
    (hknown : known.get? name = none ∨ known.get? name = some needed)
    (h : l.branchNeeds (l.needsWithin (l.pipes.size + 1) [p.code]) p.code known steps =
      .ok needs) : needs.get? name = none ∨ needs.get? name = some needed := by
  induction steps generalizing known with
  | nil =>
    cases h
    exact hknown
  | cons s rest ih =>
    rw [List.forall_mem_cons] at hsteps
    simp only [branchNeeds, bind_eq_ok_iff] at h
    obtain ⟨target, ht, first, hfirst, own, hown, h⟩ := h
    refine ih hsteps.2 ?_ h
    have hasked : l.asked p s = .ok own :=
      bind_eq_ok_iff.2 ⟨target, ht, bind_eq_ok_iff.2 ⟨first, hfirst, hown⟩⟩
    rw [Dict.get?_merge]
    rcases hknown with hnone | hsome
    · rw [hnone]
      exact hsteps.1 own hasked
    · rw [hsome]
      exact .inr rfl

/-! ## Needs in later libraries -/

section Within

variable {steps : List Step}

theorem sequenceNeeds_within (hw : l₀.Within l) (hl : ∀ s ∈ steps, l₀.StepLinked s)
    (produced : List String) : l.sequenceNeeds visit owner known produced steps =
      l₀.sequenceNeeds visit owner known produced steps := by
  induction steps generalizing known produced with
  | nil => rfl
  | cons s rest ih =>
    rw [List.forall_mem_cons] at hl
    obtain ⟨target, ht, _⟩ := hl.1
    simp only [sequenceNeeds, pipe_of_get? ht, pipe_of_get? (hw _ _ ht), ih hl.2]

theorem branchNeeds_within (hw : l₀.Within l) (hl : ∀ s ∈ steps, l₀.StepLinked s) :
    l.branchNeeds visit owner known steps = l₀.branchNeeds visit owner known steps := by
  induction steps generalizing known with
  | nil => rfl
  | cons s rest ih =>
    rw [List.forall_mem_cons] at hl
    obtain ⟨target, ht, _⟩ := hl.1
    simp only [branchNeeds, pipe_of_get? ht, pipe_of_get? (hw _ _ ht), ih hl.2]

/-- What a pipe calls is there. -/
theorem stepLinked_of_call (h : l.PipeLinked p) : ∀ s ∈ p.calls, l.StepLinked s := by
  intro s hs
  unfold PipeLinked at h
  unfold Pipe.calls at hs
  cases hkind : p.kind with
  | parallel par =>
    simp only [hkind] at h hs
    exact h s hs
  | condition c =>
    simp only [hkind] at h hs
    obtain ⟨code, hcode, rfl⟩ := List.mem_map.1 hs
    obtain ⟨q, hq⟩ := Dict.exists_of_contains (h.2 code hcode)
    exact ⟨q, hq, nofun⟩
  | sequence _ | batch _ _ | operator _ => simp [hkind] at hs

/-- What a pipe needs is computed alike in later libraries. -/
theorem needsOf_within (hw : l₀.Within l)
    (hnative : l.concepts.native .anything = l₀.concepts.native .anything)
    (hp : l₀.PipeLinked p) : l.needsOf visit p = l₀.needsOf visit p := by
  have hcalls := stepLinked_of_call hp
  unfold PipeLinked at hp
  unfold needsOf
  unfold Pipe.calls at hcalls
  cases hkind : p.kind with
  | operator op => rfl
  | sequence steps =>
    simp only [hkind] at hp ⊢
    exact sequenceNeeds_within hw hp []
  | parallel par =>
    simp only [hkind] at hcalls ⊢
    exact branchNeeds_within hw hcalls
  | condition c =>
    simp only [hkind] at hcalls ⊢
    simp only [outcomeNeeds_eq_branchNeeds, branchNeeds_within hw hcalls, declaredOrAnything,
      hnative]
  | batch branch b =>
    simp only [hkind] at hp ⊢
    obtain ⟨target, ht, _⟩ := hp
    simp only [pipe_of_get? ht, pipe_of_get? (hw _ _ ht)]

theorem needsWithin_within (h : l₀.Linked) (hw : l₀.Within l)
    (hnative : l.concepts.native .anything = l₀.concepts.native .anything) (n : Nat)
    {path : List String} (hp : l₀.Registered p) :
    l.needsWithin n path p = l₀.needsWithin n path p := by
  induction n generalizing path p with
  | zero => rfl
  | succ n ih =>
    rw [needsWithin, needsWithin, needsOf_within hw hnative (h.pipes p hp),
      needsOf_congr (fun q hq => ih hq) h.keyed]

/-- What a pipe produces is the same in later libraries. -/
theorem produced?_within (hw : l₀.Within l) (hp : l₀.PipeLinked p) :
    l.produced? p = l₀.produced? p := by
  unfold PipeLinked at hp
  unfold produced?
  cases hkind : p.kind with
  | operator _ | condition _ | parallel _ => rfl
  | sequence steps =>
    simp only [hkind] at hp
    dsimp only
    cases hlast : steps.getLast? with
    | none => rfl
    | some s =>
      obtain ⟨target, ht, _⟩ := hp s (List.mem_of_getLast? hlast)
      simp only [Option.bind_eq_bind, Option.bind_some, ht, hw _ _ ht]
  | batch branch b =>
    simp only [hkind] at hp
    obtain ⟨target, ht, _⟩ := hp
    simp only [Option.bind_eq_bind, Option.bind_some, ht, hw _ _ ht]

/-- A later library has no fewer pipes. -/
theorem Within.size_le (hw : l₀.Within l) : l₀.pipes.size ≤ l.pipes.size := by
  have hkeys : l₀.pipes.keys ⊆ l.pipes.keys := by
    intro code hcode
    obtain ⟨q, hq⟩ := Dict.exists_of_contains (Dict.mem_keys_iff.1 hcode)
    exact Dict.mem_keys_iff.2 (Dict.contains_of_get? (hw _ _ hq))
  have hlen := (List.Nodup.subperm l₀.pipes.nodup hkeys).length_le
  simpa [Dict.keys, Dict.size] using hlen

/-- What a pipe takes over from a call is the same in later libraries. -/
theorem asked_within (h₀ : l₀.Linked) (hw : l₀.Within l)
    (hnative : l.concepts.native .anything = l₀.concepts.native .anything) {s : Step}
    (hs : l₀.StepLinked s) : l.asked p s = l₀.asked p s := by
  obtain ⟨target, ht, _⟩ := hs
  have hregistered := h₀.keyed.registered ht
  have hneeds : l.needsWithin (l.pipes.size + 1) [p.code] target =
      l₀.needsWithin (l₀.pipes.size + 1) [p.code] target := by
    have hremaining := l₀.remaining_le_size [p.code]
    have hsize := hw.size_le
    rw [needsWithin_within h₀ hw hnative _ hregistered]
    exact needsWithin_eq h₀.keyed _ _ hregistered (by omega) (by omega)
  unfold asked
  rw [pipe_of_get? ht, pipe_of_get? (hw _ _ ht)]
  exact congrArg (· >>= stepNeeds p.code target s) hneeds

end Within

/-! ## The comparison -/

/-- What the calls of a parallel or a condition need, after the variables of its own. -/
theorem branchNeeds_of_needs (hcalls : p.calls ≠ []) (h : l.needs p = .ok needs) :
    ∃ known, (∀ name, ¬ OwnVariable p name → known.get? name = none) ∧
      l.branchNeeds (l.needsWithin (l.pipes.size + 1) [p.code]) p.code known p.calls =
        .ok needs := by
  unfold Library.needs at h
  rw [needsWithin, if_neg List.not_mem_nil, needsOf] at h
  unfold Pipe.calls at hcalls ⊢
  cases hkind : p.kind with
  | parallel q =>
    simp only [hkind] at h
    exact ⟨.empty, fun _ _ => rfl, h⟩
  | condition c =>
    simp only [hkind, bind_eq_ok_iff, outcomeNeeds_eq_branchNeeds] at h
    obtain ⟨names, hnames, h⟩ := h
    refine ⟨_, fun name hown => ?_, h⟩
    have hnot : name ∉ names := fun hmem => hown ⟨c, names, hkind, hnames, hmem⟩
    cases hget : (names.foldl (fun known name =>
        known.insertNew name (l.declaredOrAnything p name)) Dict.empty).get? name with
    | none => rfl
    | some r =>
      have hcontains := (contains_foldl_insertNew (l.declaredOrAnything p) names .empty).1
        (Dict.contains_of_get? hget)
      simp [hnot] at hcontains
  | sequence _ | batch _ _ | operator _ => simp [hkind] at hcalls

/-- A pipe that calls others is no operator. -/
theorem not_operator_of_calls (hcalls : p.calls ≠ []) : ∀ op, p.kind ≠ .operator op := by
  intro op hkind
  unfold Pipe.calls at hcalls
  rw [hkind] at hcalls
  exact hcalls rfl

/-- An operator asks for its inputs, wherever it is met the first time. -/
theorem needsWithin_operator {op : Operator} (hop : q.kind = .operator op) {path : List String}
    (hpath : q.code ∉ path) (n : Nat) : l.needsWithin (n + 1) path q = .ok q.inputs := by
  rw [needsWithin, if_neg hpath, needsOf, hop]

/-- The needs of a parallel or a condition hold a requirement on every input of an operator that it
calls, and it is the operator's own if no earlier one is another. -/
theorem needs_call (h : l.Linked) (hp : l.Registered p) {before after : List Step} {s : Step}
    (hcalls : p.calls = before ++ s :: after) (hs : s.batching = none)
    (hq : l.pipes.get? s.pipe = some q) {op : Operator} (hop : q.kind = .operator op)
    (hv : q.inputs.get? name = some needed) (hneeds : l.needs p = .ok needs) :
    needs.contains name = true ∧ (¬ OwnVariable p name → (∀ t ∈ before, l.Agrees p name needed t) →
      needs.get? name = some needed) := by
  have hne : p.calls ≠ [] := by simp [hcalls]
  obtain ⟨known, hknown, hbranches⟩ := branchNeeds_of_needs hne hneeds
  rw [hcalls, branchNeeds_append, bind_eq_ok_iff] at hbranches
  obtain ⟨earlier, hbefore, hrest⟩ := hbranches
  simp only [branchNeeds, bind_eq_ok_iff, mapError_eq_ok_iff, pipe_eq_ok_iff] at hrest
  obtain ⟨target, ht, first, hfirst, own, hown, hafter⟩ := hrest
  rw [hq] at ht
  cases ht
  have hcode : q.code ∉ [p.code] := by
    intro hmem
    have heq := (h.keyed.registered hq).eq_of_code hp (List.mem_singleton.1 hmem)
    exact not_operator_of_calls hne op (heq ▸ hop)
  rw [needsWithin_operator hop hcode] at hfirst
  cases hfirst
  unfold stepNeeds at hown
  rw [hs] at hown
  cases hown
  have hmerged : (earlier.merge q.inputs).get? name = (earlier.get? name).or (some needed) := by
    rw [Dict.get?_merge, hv]
  constructor
  · cases hearlier : earlier.get? name with
    | none =>
      rw [hearlier] at hmerged
      exact Dict.contains_of_get? (branchNeeds_keeps hmerged hafter)
    | some r =>
      rw [hearlier] at hmerged
      exact Dict.contains_of_get? (branchNeeds_keeps hmerged hafter)
  · intro hown hagree
    have hfirst := branchNeeds_agrees hagree (.inl (hknown name hown)) hbefore
    refine branchNeeds_keeps ?_ hafter
    rcases hfirst with hnone | hsome
    · rw [hmerged, hnone]
      rfl
    · rw [hmerged, hsome]
      rfl

/-- What a controller without findings declares agrees with what it needs. -/
theorem needMistakes_of_findings (hkind : ∀ op, p.kind ≠ .operator op)
    (h : l.findings p = .ok []) : ∃ needs, l.needs p = .ok needs ∧
      ∀ name needed, needs.get? name = some needed → ∃ declared,
        p.inputs.get? name = some declared ∧
        l.concepts.isCompatible declared.concept needed.concept false = true ∧
        declared.multiplicity.isMultiple = needed.multiplicity.isMultiple := by
  obtain ⟨needs, hneeds, hnil⟩ := controllerMistakes_of_findings hkind h
  refine ⟨needs, hneeds, fun name needed hget => ?_⟩
  simp only [controllerMistakes, List.append_eq_nil_iff, List.flatMap_eq_nil_iff] at hnil
  have hmistakes := hnil.1.1 (name, needed) (Dict.mem_entries_of_get? hget)
  unfold needMistakes at hmistakes
  dsimp only at hmistakes
  split at hmistakes
  · cases hmistakes
  · next declared hdeclared =>
    rw [List.append_eq_nil_iff] at hmistakes
    refine ⟨declared, hdeclared, ?_, ?_⟩
    · by_contra hnot
      simp [hnot] at hmistakes
    · by_contra hnot
      simp [hnot] at hmistakes

/-- Every input of an operator that a parallel or a condition of a loaded library runs itself,
without batching, is declared by the parallel or the condition. The declared concept is compatible
with the one that the operator declares, and both are lists or neither is, if no earlier branch or
outcome puts another requirement on the variable, and the condition does not read or alias it. -/
theorem Loaded.declares_call (hl : l.Loaded) (hp : l.Registered p) {before after : List Step}
    {s : Step} (hcalls : p.calls = before ++ s :: after) (hs : s.batching = none)
    (hq : l.pipes.get? s.pipe = some q) {op : Operator} (hop : q.kind = .operator op)
    (hv : q.inputs.get? name = some needed) :
    ∃ declared, p.inputs.get? name = some declared ∧
      (¬ OwnVariable p name → (∀ t ∈ before, l.Agrees p name needed t) →
        l.concepts.isCompatible declared.concept needed.concept false = true ∧
        declared.multiplicity.isMultiple = needed.multiplicity.isMultiple) := by
  obtain ⟨l₀, h₀⟩ := hl.exists_admission hp
  have hlinked := hl.settled.linked
  have hlinked₀ := h₀.loaded.settled.linked
  have hmem : s ∈ p.calls := by simp [hcalls]
  have hcalled := stepLinked_of_call (hlinked₀.pipes p h₀.registered)
  obtain ⟨q₀, hq₀, _⟩ := hcalled s hmem
  obtain rfl : q₀ = q := Option.some.inj ((h₀.pipes _ _ hq₀).symm.trans hq)
  obtain ⟨needs, hneeds, hdeclares⟩ := needMistakes_of_findings
    (not_operator_of_calls (List.ne_nil_of_mem hmem)) h₀.findings
  obtain ⟨hcontains, hfirst⟩ := needs_call hlinked₀ h₀.registered hcalls hs hq₀ hop hv hneeds
  obtain ⟨first, hget⟩ := Dict.exists_of_contains hcontains
  obtain ⟨declared, hdeclared, hcompatible, hmultiple⟩ := hdeclares name first hget
  refine ⟨declared, hdeclared, fun hown hagree => ?_⟩
  have hneeded := hfirst hown fun t ht own hasked => by
    refine hagree t ht own ?_
    rw [asked_within hlinked₀ h₀.pipes (h₀.native_eq hl _) (hcalled t (by simp [hcalls, ht]))]
    exact hasked
  rw [hget] at hneeded
  cases hneeded
  have hhas := (h₀.loaded.covers h₀.registered).inputs name declared hdeclared
  have hhasq := (h₀.loaded.covers (hlinked₀.keyed.registered hq₀)).inputs name needed hv
  rw [h₀.isCompatible_eq hhas hhasq]
  exact ⟨hcompatible, hmultiple⟩

/-! ## Two pipes that ask for different things -/

/-- A pipe of a text, which may be made from a text or from an image. -/
def deskPipe (code : String) (input : NativeConcept) (kind : PipeKind) : Pipe where
  code
  domain := "desk"
  description := ""
  inputs := .ofList [("letter", ⟨input.concept, .single⟩)]
  output := NativeConcept.text.concept
  multiplicity := .single
  kind

/-- What a letter says. -/
def readLetter : Pipe := deskPipe "read" .text (.operator (.compose "${{ letter }}"))

/-- What a letter looks like. -/
def lookAt : Pipe := deskPipe "look" .image (.operator (.compose "${{ letter }}"))

/-- Both at once. The letter is declared as the text that the first branch asks for. -/
def inspect : Pipe :=
  deskPipe "inspect" .text (.parallel
    ⟨[⟨"read", some "words", none, none⟩, ⟨"look", some "sight", none, none⟩], true, none⟩)

/-- A look at every letter. The letter is declared as the text that the condition reads. -/
def sort : Pipe :=
  deskPipe "sort" .text (.condition ⟨.expression "letter", .empty, .run "look", none⟩)

/-- A library in which pipes ask for different things under one name. -/
def desk : Library where
  domains := .ofList [("desk", ⟨"desk", none, none⟩)]
  concepts := .initial
  pipes := .ofList [("read", readLetter), ("look", lookAt), ("inspect", inspect), ("sort", sort)]

/-- The declaration of a pipe that makes a text of a letter. -/
def deskDeclaration (input : String) (body : PipeBody) : PipeBlueprint :=
  ⟨⟨"", .ofList [("letter", input)], "Text"⟩, body⟩

/-- The bundle that makes `desk`. -/
def deskBundle : Bundle where
  domain := ⟨"desk", none, none⟩
  concepts := .empty
  pipes := .ofList [
    ("read", deskDeclaration "Text" (.compose "${{ letter }}")),
    ("look", deskDeclaration "Image" (.compose "${{ letter }}")),
    ("inspect", deskDeclaration "Text" (.parallel
      [⟨"read", some "words", none, none, none, none⟩,
        ⟨"look", some "sight", none, none, none, none⟩] true none)),
    ("sort", deskDeclaration "Text" (.condition ⟨some "letter", none, .empty, "look", none⟩))]
  mainPipe := none

theorem desk_loaded : desk.Loaded := by
  refine .load .initial (b := deskBundle) (eq_ok_of_toOption ?_)
  decide +kernel

/-- Both pipes look at a letter, which must be an image, and both declare it as a text. -/
theorem desk_conflict : ∀ p ∈ [inspect, sort], desk.Registered p ∧
    (∃ s ∈ p.calls, s.batching = none ∧ desk.pipes.get? s.pipe = some lookAt) ∧
    p.inputs.get? "letter" = some ⟨NativeConcept.text.concept, .single⟩ ∧
    lookAt.inputs.get? "letter" = some ⟨NativeConcept.image.concept, .single⟩ ∧
    desk.concepts.isCompatible NativeConcept.text.concept NativeConcept.image.concept false =
      false := by
  unfold Registered
  decide

/-- What a parallel or a condition declares need not agree with what the operators that it runs ask
for. -/
theorem not_forall_declares_call : ¬ ∀ (l : Library) (p q : Pipe) (s : Step) (op : Operator)
      (name : String) (needed : Requirement), l.Loaded → l.Registered p → s ∈ p.calls →
    s.batching = none → l.pipes.get? s.pipe = some q → q.kind = .operator op →
    q.inputs.get? name = some needed →
      ∃ declared, p.inputs.get? name = some declared ∧
        l.concepts.isCompatible declared.concept needed.concept false = true ∧
        declared.multiplicity.isMultiple = needed.multiplicity.isMultiple := by
  intro hall
  obtain ⟨hp, ⟨s, hs, hbatching, hlook⟩, hdeclared, hneeded, hconflict⟩ :=
    desk_conflict inspect List.mem_cons_self
  obtain ⟨declared, hinput, hcompatible, _⟩ :=
    hall desk inspect lookAt s _ "letter" _ desk_loaded hp hs hbatching hlook rfl hneeded
  rw [hdeclared] at hinput
  cases hinput
  rw [hconflict] at hcompatible
  cases hcompatible

/-- The letter is declared as the first branch asks for it. -/
theorem declares_call_inspect : desk.Loaded ∧ desk.Registered inspect ∧
    inspect.calls = [] ++ ⟨"read", some "words", none, none⟩ ::
      [⟨"look", some "sight", none, none⟩] ∧
    desk.pipes.get? "read" = some readLetter ∧
    readLetter.inputs.get? "letter" = some ⟨NativeConcept.text.concept, .single⟩ ∧
    ∃ declared, inspect.inputs.get? "letter" = some declared ∧
      desk.concepts.isCompatible declared.concept NativeConcept.text.concept false = true ∧
      declared.multiplicity.isMultiple = Multiplicity.single.isMultiple := by
  have hp : desk.Registered inspect := by
    unfold Registered
    decide
  have hread : desk.pipes.get? "read" = some readLetter := by decide
  have hletter : readLetter.inputs.get? "letter" = some ⟨NativeConcept.text.concept, .single⟩ := by
    decide
  have hown : ¬ OwnVariable inspect "letter" := by
    rintro ⟨c, names, hkind, _⟩
    cases hkind
  obtain ⟨declared, hdeclared, hagrees⟩ :=
    Loaded.declares_call desk_loaded hp (show inspect.calls = [] ++ _ from rfl) rfl hread rfl
      hletter
  exact ⟨desk_loaded, hp, rfl, hread, hletter, declared, hdeclared, hagrees hown nofun⟩

end Library

end Conduit
