import Conduit.Proofs.Dict
import Conduit.Proofs.Library.Signature

/-!
# Loading is conservative

A library may also be assembled by loads that let some findings through (`Library.Assembled`). What
its pipes name is there all the same, for the findings of a pipe could be computed before any of
them was let through; and the concepts that its pipes ask for are concepts of the library, wherever
they come from (`needs_asks`). So everything that is computed of a pipe looks only at what was there
when the pipe came, and a further load changes none of it (`Assembled.load_conservative`).
-/

namespace Conduit

/-- The concepts that requirements ask for satisfy a condition. -/
def Asks (P : Concept → Prop) (needs : Requirements) : Prop :=
  ∀ name r, needs.get? name = some r → P r.concept

section Asks

variable {P : Concept → Prop} {needs known : Requirements} {r : Requirement} {key : String}

theorem asks_empty : Asks P .empty := nofun

theorem Asks.merge (h : Asks P known) (h' : Asks P needs) : Asks P (known.merge needs) := by
  intro name r hr
  rw [Dict.get?_merge, Option.or_eq_some_iff] at hr
  exact hr.elim (h name r) fun hr => h' name r hr.2

theorem Asks.filter (h : Asks P needs) (p : String → Requirement → Bool) :
    Asks P (needs.filter p) := by
  intro name r hr
  rw [Dict.get?_filter, Option.filter_eq_some_iff] at hr
  exact h name r hr.1

theorem Asks.insert (h : Asks P needs) (hr : P r.concept) : Asks P (needs.insert key r) := by
  intro name s hs
  rcases Dict.get?_or_eq_of_get?_insert hs with hs | ⟨_, rfl⟩
  · exact h name s hs
  · exact hr

theorem Asks.insertNew (h : Asks P needs) (hr : P r.concept) : Asks P (needs.insertNew key r) := by
  unfold Dict.insertNew
  split
  · exact h
  · exact h.insert hr

theorem absorb_asks {owner : String} {branch : Pipe} {b : Batching} {own : Requirements}
    (hinputs : Asks P branch.inputs) (hneeds : Asks P needs)
    (h : Library.absorb owner branch needs b = .ok own) : Asks P own := by
  unfold Library.absorb at h
  split at h
  · cases h
  · next item hitem =>
    cases h
    have hlist : Asks P (Dict.empty.insert b.list ⟨item.concept, .list⟩) :=
      asks_empty.insert (hinputs b.item item hitem)
    exact hlist.merge (hneeds.filter _)

theorem stepNeeds_asks {owner : String} {target : Pipe} {s : Step} {own : Requirements}
    (hinputs : Asks P target.inputs) (hneeds : Asks P needs)
    (h : Library.stepNeeds owner target s needs = .ok own) : Asks P own := by
  unfold Library.stepNeeds at h
  split at h
  · exact absorb_asks hinputs hneeds h
  · cases h
    exact hneeds

end Asks

namespace Library

variable {l l' : Library} {p : Pipe} {b : Bundle} {policy : ReactionPolicy}

/-! ## The concepts of needs -/

section Needs

variable {P : Concept → Prop} {visit : Pipe → Except NeedsError Requirements} {owner : String}
  {known needs : Requirements}

/-- What is computed for pipes of the library asks for concepts of a kind, and so do the pipes
themselves. -/
structure VisitAsks (l : Library) (P : Concept → Prop)
    (visit : Pipe → Except NeedsError Requirements) : Prop where
  keyed : l.Keyed
  inputs : ∀ q, l.Registered q → Asks P q.inputs
  visits : ∀ q needs, l.Registered q → visit q = .ok needs → Asks P needs

theorem VisitAsks.sequenceNeeds (hv : l.VisitAsks P visit) {steps : List Step}
    {produced : List String} (hknown : Asks P known)
    (h : l.sequenceNeeds visit owner known produced steps = .ok needs) : Asks P needs := by
  induction steps generalizing known produced with
  | nil =>
    cases h
    exact hknown
  | cons s rest ih =>
    simp only [Library.sequenceNeeds, bind_eq_ok_iff] at h
    obtain ⟨target, ht, first, hfirst, own, hown, h⟩ := h
    have hq := hv.keyed.registered_of_pipe ht
    have hasks := stepNeeds_asks (hv.inputs _ hq) (hv.visits _ _ hq hfirst) hown
    exact ih (hknown.merge (hasks.filter _)) h

theorem VisitAsks.branchNeeds (hv : l.VisitAsks P visit) {steps : List Step}
    (hknown : Asks P known) (h : l.branchNeeds visit owner known steps = .ok needs) :
    Asks P needs := by
  induction steps generalizing known with
  | nil =>
    cases h
    exact hknown
  | cons s rest ih =>
    simp only [Library.branchNeeds, bind_eq_ok_iff] at h
    obtain ⟨target, ht, first, hfirst, own, hown, h⟩ := h
    have hq := hv.keyed.registered_of_pipe ht
    exact ih (hknown.merge (stepNeeds_asks (hv.inputs _ hq) (hv.visits _ _ hq hfirst) hown)) h

theorem asks_foldl_insertNew {f : String → Requirement} (hf : ∀ name, P (f name).concept)
    (names : List String) (hknown : Asks P known) :
    Asks P (names.foldl (fun known name => known.insertNew name (f name)) known) := by
  induction names generalizing known with
  | nil => exact hknown
  | cons name names ih => exact ih (hknown.insertNew (hf name))

theorem VisitAsks.needsOf (hv : l.VisitAsks P visit) (hp : l.Registered p)
    (hany : P (l.concepts.native .anything)) (h : l.needsOf visit p = .ok needs) :
    Asks P needs := by
  unfold Library.needsOf at h
  cases hkind : p.kind with
  | operator op =>
    simp only [hkind] at h
    cases h
    exact hv.inputs p hp
  | sequence steps =>
    simp only [hkind] at h
    exact hv.sequenceNeeds asks_empty h
  | parallel q =>
    simp only [hkind] at h
    exact hv.branchNeeds asks_empty h
  | condition c =>
    simp only [hkind, bind_eq_ok_iff, outcomeNeeds_eq_branchNeeds] at h
    obtain ⟨names, _, h⟩ := h
    refine hv.branchNeeds (asks_foldl_insertNew (fun name => ?_) names asks_empty) h
    unfold declaredOrAnything
    cases hr : p.inputs.get? name with
    | none => exact hany
    | some r => exact hv.inputs p hp name r hr
  | batch branch b =>
    simp only [hkind, bind_eq_ok_iff] at h
    obtain ⟨target, ht, first, hfirst, h⟩ := h
    have hq := hv.keyed.registered_of_pipe ht
    exact absorb_asks (hv.inputs _ hq) (hv.visits _ _ hq hfirst) h

/-- The needs of a pipe ask for concepts of a kind if the inputs of all pipes do, and `Anything` is
one of them. -/
theorem needsWithin_asks (hk : l.Keyed) (hinputs : ∀ q, l.Registered q → Asks P q.inputs)
    (hany : P (l.concepts.native .anything)) (n : Nat) {path : List String}
    (hp : l.Registered p) (h : l.needsWithin n path p = .ok needs) : Asks P needs := by
  induction n generalizing path p needs with
  | zero =>
    cases h
    exact asks_empty
  | succ n ih =>
    rw [needsWithin] at h
    split at h
    · cases h
      exact asks_empty
    · exact VisitAsks.needsOf ⟨hk, hinputs, fun _ _ hq hneeds => ih hq hneeds⟩ hp hany h

end Needs

/-! ## Assembled libraries -/

/-- A library that comes from the initial one by loading bundles under any policies. -/
inductive Assembled : Library → Prop where
  | initial : Assembled .initial
  | load {l l' : Library} {b : Bundle} {policy : ReactionPolicy} (hl : Assembled l)
      (h : l.load b policy = .ok l') : Assembled l'

/-- A loaded library is assembled. -/
theorem Loaded.assembled (h : l.Loaded) : l.Assembled := by
  induction h with
  | initial => exact .initial
  | load _ hload ih => exact .load ih hload

/-- The findings of a pipe that was checked could be computed, whether or not they were let
through. -/
theorem pipeLinked_of_checkSignature (h : l.checkSignature policy p = .ok ()) :
    l.PipeLinked p := by
  simp only [checkSignature, bind_eq_ok_iff, mapError_eq_ok_iff] at h
  obtain ⟨found, hfound, _⟩ := h
  unfold findings at hfound
  cases hkind : p.kind with
  | operator op =>
    unfold PipeLinked
    rw [hkind]
    trivial
  | sequence _ | parallel _ | condition _ | batch _ _ =>
    simp only [hkind, bind_eq_ok_iff] at hfound
    obtain ⟨needs, hneeds, _⟩ := hfound
    exact pipeLinked_of_needs hneeds

theorem Assembled.concepts_built (h : l.Assembled) : l.concepts.Built := by
  induction h with
  | initial => exact .initial
  | load _ hload ih => exact (load_built ih hload).1

/-- In an assembled library the pipes that a pipe names are there, and so are the concepts. -/
theorem Assembled.linked_covers (h : l.Assembled) :
    l.Linked ∧ ∀ p, l.Registered p → l.concepts.Covers p := by
  induction h with
  | initial => exact ⟨settled_initial.linked, nofun⟩
  | @load l l' b policy hl hload ih =>
    obtain ⟨_, hw, hnew⟩ := load_ok hload
    obtain ⟨hlinked, hcovers⟩ := ih
    have hconcepts := load_built hl.concepts_built hload
    refine ⟨⟨hlinked.keyed.load hload, fun p hp => ?_⟩, fun p hp => ?_⟩
    · rcases hnew p.code p hp with hold | ⟨_, hadmitted⟩
      · exact (hlinked.pipes p hold).within hw
      · exact pipeLinked_of_checkSignature hadmitted.signature
    · rcases hnew p.code p hp with hold | ⟨_, hadmitted⟩
      · exact (hcovers p hold).within hconcepts.2
      · obtain ⟨d, hmade⟩ := hadmitted.made
        exact hconcepts.1.sound.covers hmade

/-! ## What is computed in later libraries -/

/-- A library and a later one. -/
structure Extends (l l' : Library) : Prop where
  linked : l.Linked
  covers : ∀ p, l.Registered p → l.concepts.Covers p
  sound : l.concepts.Sound
  pipes : l.Within l'
  concepts : l.concepts.Within l'.concepts
  native : ∀ n, l'.concepts.native n = l.concepts.native n
  hasNative : ∀ n, l.concepts.Has (l.concepts.native n)

theorem Assembled.extends (hl : l.Assembled) (h : l.load b policy = .ok l') : l.Extends l' := by
  obtain ⟨hlinked, hcovers⟩ := hl.linked_covers
  have hbuilt := hl.concepts_built
  obtain ⟨hbuilt', hconcepts⟩ := load_built hbuilt h
  exact
    { linked := hlinked
      covers := hcovers
      sound := hbuilt.sound
      pipes := (load_ok h).2.1
      concepts := hconcepts
      native := fun n => (hbuilt'.native_eq n).trans (hbuilt.native_eq n).symm
      hasNative := fun n => by
        rw [hbuilt.native_eq]
        exact hbuilt.has_native n }

namespace Extends

variable {needs : Requirements}

theorem isCompatible_eq (h : l.Extends l') {c d : Concept} (hc : l.concepts.Has c)
    (hd : l.concepts.Has d) (strict : Bool) :
    l'.concepts.isCompatible c d strict = l.concepts.isCompatible c d strict :=
  ConceptLibrary.isCompatible_within h.sound h.concepts hc hd strict

/-- A pipe needs the same in the later library. -/
theorem needs_eq (h : l.Extends l') (hp : l.Registered p) : l'.needs p = l.needs p := by
  unfold needs
  rw [needsWithin_within h.linked h.pipes (h.native _) _ hp]
  have hremaining := l.remaining_le_size []
  have hsize := h.pipes.size_le
  exact needsWithin_eq h.linked.keyed _ _ hp (by omega) (by omega)

/-- What a pipe needs is of concepts of the library. -/
theorem needs_asks (h : l.Extends l') (hp : l.Registered p) (hneeds : l.needs p = .ok needs) :
    Asks l.concepts.Has needs :=
  needsWithin_asks h.linked.keyed (fun q hq => (h.covers q hq).inputs) (h.hasNative _) _ hp hneeds

/-- The inputs that go into a prompt as images are the same in the later library. -/
theorem imageInputs_eq (h : l.Extends l') (hp : l.Registered p) :
    l'.imageInputs p = l.imageInputs p := by
  unfold imageInputs
  congr 1
  refine List.filter_congr fun (name, r) he => ?_
  have hconcept := (h.covers p hp).inputs name r (Dict.get?_of_mem_entries he)
  simp only [h.native, h.isCompatible_eq hconcept (h.hasNative _)]

/-- A pipe reads the same in the later library. -/
theorem required_eq (h : l.Extends l') (hp : l.Registered p) : l'.required p = l.required p := by
  unfold required
  rw [h.needs_eq hp, h.imageInputs_eq hp]

/-- A pipe produces the same in the later library, which is of a concept of the library. -/
theorem produced?_eq (h : l.Extends l') (hp : l.Registered p) :
    l'.produced? p = l.produced? p ∧
      ∀ origin c, l.produced? p = some (origin, c) → l.concepts.Has c := by
  refine ⟨produced?_within h.pipes (h.linked.pipes p hp), fun origin c hc => ?_⟩
  have hregistered {code : String} {target : Pipe} (ht : l.pipes.get? code = some target) :=
    h.linked.keyed.registered ht
  unfold produced? at hc
  cases hkind : p.kind with
  | operator _ | condition _ => simp [hkind] at hc
  | parallel q =>
    simp only [hkind, Option.map_eq_some_iff, Prod.mk.injEq] at hc
    obtain ⟨d, hd, _, rfl⟩ := hc
    exact (h.covers p hp).combined q hkind d hd
  | sequence steps =>
    simp only [hkind, Option.bind_eq_bind, Option.bind_eq_some_iff] at hc
    obtain ⟨s, _, target, ht, hc⟩ := hc
    cases hc
    exact (h.covers target (hregistered ht)).output
  | batch branch b =>
    simp only [hkind, Option.bind_eq_bind, Option.bind_eq_some_iff] at hc
    obtain ⟨target, ht, hc⟩ := hc
    cases hc
    exact (h.covers target (hregistered ht)).output

/-- The declaration of a controller compares with what it needs and produces as it did. -/
theorem controllerMistakes_eq (h : l.Extends l') (hp : l.Registered p)
    (hneeds : l.needs p = .ok needs) :
    l'.controllerMistakes p needs = l.controllerMistakes p needs := by
  have hcovers := h.covers p hp
  have hneed : ∀ e ∈ needs.entries, l'.needMistakes p e.1 e.2 = l.needMistakes p e.1 e.2 := by
    intro e he
    unfold needMistakes
    split
    · rfl
    · next declared hdeclared =>
      have hasked := h.needs_asks hp hneeds e.1 e.2 (Dict.get?_of_mem_entries he)
      rw [h.isCompatible_eq (hcovers.inputs _ _ hdeclared) hasked]
  have houtput : l'.outputMistakes p = l.outputMistakes p := by
    obtain ⟨hproduced, hhas⟩ := h.produced?_eq hp
    unfold outputMistakes
    rw [hproduced]
    split
    · rfl
    · next origin c hc => rw [h.isCompatible_eq (hhas origin c hc) hcovers.output]
  unfold controllerMistakes
  rw [houtput, List.flatMap_congr hneed]

/-- The same is found of a pipe in the later library. -/
theorem findings_eq (h : l.Extends l') (hp : l.Registered p) : l'.findings p = l.findings p :=
  findings_congr (h.required_eq hp) (h.needs_eq hp)
    fun _ hneeds => h.controllerMistakes_eq hp hneeds

end Extends

/-- A further load keeps every pipe of an assembled library, whatever the policies, and for each of
them the same variables are needed and read and the same is found wrong as before. Concepts of the
library compare as they did, in both modes. -/
theorem Assembled.load_conservative (hl : l.Assembled) (h : l.load b policy = .ok l') :
    (∀ code p, l.pipes.get? code = some p → l'.pipes.get? code = some p ∧
      l'.needs p = l.needs p ∧ l'.required p = l.required p ∧ l'.findings p = l.findings p) ∧
    ∀ name name' c d, l.concepts.get? name = some c → l.concepts.get? name' = some d →
      ∀ strict, l'.concepts.isCompatible c d strict = l.concepts.isCompatible c d strict := by
  have hextends := hl.extends h
  refine ⟨fun code p hp => ?_, fun name name' c d hc hd => ?_⟩
  · have hregistered := hextends.linked.keyed.registered hp
    exact ⟨hextends.pipes code p hp, hextends.needs_eq hregistered,
      hextends.required_eq hregistered, hextends.findings_eq hregistered⟩
  · have hkeyed := hextends.sound.keyed
    refine hextends.isCompatible_eq ?_ ?_
    · rw [ConceptLibrary.Has, hkeyed name c hc]
      exact hc
    · rw [ConceptLibrary.Has, hkeyed name' d hd]
      exact hd

/-! ## A load that lets findings through -/

/-- A pipe of a library that sends letters. -/
def mailPipe (code : String) (inputs : List String) (kind : PipeKind) : Pipe :=
  { textPipe code inputs kind with domain := "mail" }

/-- A letter of a word, with a title that it does not use. -/
def letter : Pipe :=
  mailPipe "letter" ["word", "title"] (.operator (.compose "${{ word }}"))

/-- A letter that is written without the title that it declares. -/
def post : Pipe :=
  mailPipe "post" ["word"] (.sequence [⟨"letter", none, none, none⟩])

/-- A library that sends letters. -/
def mail : Library where
  domains := .ofList [("mail", ⟨"mail", none, none⟩)]
  concepts := .initial
  pipes := .ofList [("letter", letter), ("post", post)]

/-- The bundle that makes `mail`. -/
def mailBundle : Bundle where
  domain := ⟨"mail", none, none⟩
  concepts := .empty
  pipes := .ofList [
    ("letter", textDeclaration ["word", "title"] (.compose "${{ word }}")),
    ("post", textDeclaration ["word"] (.sequence [⟨"letter", none, none, none, none, none⟩]))]
  mainPipe := none

theorem mail_assembled : mail.Assembled := by
  have hload : initial.load mailBundle { default := .log } = .ok mail := by
    refine eq_ok_of_toOption ?_
    decide +kernel
  exact .load .initial hload

/-- Loading another bundle mends nothing of what was let through. -/
theorem load_conservative_mail : mail.Assembled ∧
    mail.findings post = .ok [⟨"post", .undeclaredNeed "title"⟩] ∧
    ∃ l', mail.load relayBundle {} = .ok l' ∧ l'.pipes.get? "post" = some post ∧
      l'.needs post = mail.needs post ∧ l'.required post = mail.required post ∧
      l'.findings post = mail.findings post := by
  have hfound : mail.findings post = .ok [⟨"post", .undeclaredNeed "title"⟩] := by
    refine eq_ok_of_toOption ?_
    decide +kernel
  obtain ⟨l', hload⟩ := exists_of_isOk (show (mail.load relayBundle {}).isOk = true by
    decide +kernel)
  have hpost : mail.pipes.get? "post" = some post := by decide
  exact ⟨mail_assembled, hfound, l', hload,
    (Assembled.load_conservative mail_assembled hload).1 "post" post hpost⟩

end Library

end Conduit
