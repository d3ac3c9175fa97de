import Conduit.Proofs.Except
import Conduit.Run.Pipeline

/-!
# What pipes do themselves misses no pipe

Besides running other pipes, a pipe reads and writes the memory, renders templates, reads records
and asks the generator. None of this fails because a pipe is not there (`Engine.Finds`); only
looking up the pipe of a name does.
-/

namespace Conduit

/-- Whether a run fails because a pipe is not there. -/
def RunCause.missesPipe : RunCause → Bool
  | missingPipes _ => true
  | _ => false

namespace Engine

variable {α β ε : Type} {e : Engine} {p : Pipe} {m : Memory} {name : Option String}

/-- A computation that does not fail because a pipe is not there. -/
def Finds (x : Except RunCause α) : Prop :=
  ∀ c, x = .error c → c.missesPipe = false

theorem finds_ok (a : α) : Finds (.ok a) :=
  nofun

theorem finds_error {c : RunCause} (h : c.missesPipe = false) : Finds (.error c : Except _ α) := by
  intro c' hc
  cases hc
  exact h

theorem finds_mapError {x : Except ε α} {f : ε → RunCause}
    (h : ∀ err, (f err).missesPipe = false) : Finds (x.mapError f) := by
  intro c hc
  obtain ⟨err, _, rfl⟩ := mapError_eq_error_iff.1 hc
  exact h err

theorem Finds.bind {x : Except RunCause α} {f : α → Except RunCause β} (hx : Finds x)
    (hf : ∀ a, Finds (f a)) : Finds (x >>= f) := by
  intro c hc
  rcases bind_eq_error_iff.1 hc with hc | ⟨a, _, hc⟩
  · exact hx c hc
  · exact hf a c hc

theorem Finds.map {x : Except RunCause α} {f : α → β} (hx : Finds x) : Finds (x.map f) :=
  fun c hc => hx c (map_eq_error_iff.1 hc)

theorem finds_forM {f : α → Except RunCause Unit} {as : List α} (h : ∀ a ∈ as, Finds (f a)) :
    Finds (as.forM f) := by
  intro c hc
  obtain ⟨a, ha, hfails⟩ := exists_of_forM_error hc
  exact h a ha c hfails

/-! ## Memory -/

theorem get_finds {name : String} : Finds ((m.get name).mapError .memory) :=
  finds_mapError fun _ => rfl

theorem stored_finds {x : Except MemoryError α × Memory} : Finds (stored x) := by
  obtain ⟨a | err, m⟩ := x
  · exact finds_error rfl
  · exact finds_ok _

theorem storeAs_finds : Finds (storeAs m name) := by
  cases name with
  | none => exact finds_ok m
  | some name => exact stored_finds.map

theorem batchItems_finds {list : String} : Finds (batchItems m list) := by
  refine get_finds.bind fun s => ?_
  split
  · exact finds_ok _
  · exact finds_error rfl

theorem storeResults_finds {results : List (String × Stuff)} : Finds (storeResults m results) := by
  unfold storeResults
  split
  · exact finds_ok m
  · exact finds_mapError fun _ => rfl

theorem aliased_finds {text : String} {target : Option String} : Finds (aliased m text target) := by
  cases target with
  | none => exact finds_ok m
  | some target => exact finds_mapError fun _ => rfl

/-! ## Inputs and outputs -/

theorem checkInput_finds {name : String} {r : Requirement} : Finds (e.checkInput p m name r) := by
  refine get_finds.bind fun s => ?_
  dsimp only
  split
  · exact finds_error rfl
  · split
    · exact finds_error rfl
    · exact finds_ok ()

theorem checkInputs_finds : Finds (e.checkInputs p m) := by
  simp only [checkInputs]
  split
  · exact finds_forM fun _ _ => checkInput_finds
  · exact finds_error rfl

theorem checkOutput_finds : Finds (e.checkOutput p m) := by
  refine Finds.bind (finds_mapError fun _ => rfl) fun produced => ?_
  split
  · exact finds_error rfl
  · exact finds_ok ()

theorem outputConcept_finds {params : RunParams} : Finds (e.outputConcept p params) := by
  unfold outputConcept
  split
  · split
    · exact finds_ok _
    · exact finds_error rfl
  · exact finds_ok _

/-! ## Operators -/

theorem promptImages_finds {names : List String} : Finds (promptImages m names) := by
  induction names with
  | nil => exact finds_ok []
  | cons name rest ih => exact get_finds.bind fun _ => ih.bind fun _ => finds_ok _

theorem rendered_finds {source : String} : Finds (rendered m source) :=
  finds_mapError fun _ => rfl

theorem prompt_finds {user : String} {system : Option String} :
    Finds (e.prompt p m user system) := by
  refine rendered_finds.bind fun _ => ?_
  cases system with
  | none =>
    exact (finds_ok _).bind fun _ => promptImages_finds.bind fun _ => finds_ok _
  | some source =>
    refine rendered_finds.map.bind fun _ => ?_
    exact promptImages_finds.bind fun _ => finds_ok _

theorem singleInput_finds : Finds (singleInput p) := by
  unfold singleInput
  split
  · exact finds_ok _
  · exact finds_error rfl

theorem imagePrompt_finds {source : Option String} : Finds (imagePrompt p m source) := by
  cases source with
  | some source => exact rendered_finds
  | none => exact singleInput_finds.bind fun _ => get_finds.bind fun _ => finds_ok _

theorem documentOf_finds {name : String} : Finds (documentOf m name) := by
  refine get_finds.bind fun s => ?_
  split
  · exact finds_ok _
  · exact finds_ok _
  · exact finds_error rfl

theorem checkCount_finds {pipe operation : String} {multiplicity : Multiplicity} {received : Nat} :
    Finds (checkCount pipe operation multiplicity received) := by
  unfold checkCount
  split
  · split
    · exact finds_ok ()
    · exact finds_error rfl
  · exact finds_ok ()
  · exact finds_ok ()

theorem first_finds {pipe operation reason : String} {as : List α} :
    Finds (first pipe operation reason as) := by
  cases as with
  | nil => exact finds_error rfl
  | cons a as => exact finds_ok a

end Engine

end Conduit
