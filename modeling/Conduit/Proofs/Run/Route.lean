import Conduit.Proofs.Run.Bounded
import Mathlib.Data.List.Chain

/-!
# Failures tell their route

An error carries the pipe in which it arose and the pipes that were running. The innermost pipe adds
them, and every pipe around it leaves them as they are, whether the error comes through a sequence,
a batch or branches side by side. So what an error carries is a route of calls from the pipe that
was started (`Engine.RoutedFrom`), each to a pipe that the one before it names (`Library.Calls`).
The route ends in the pipe that failed, which is the last one on the stack unless it could not be
entered at all (`Engine.Refuses`).

The route is built from its end: what one pipe adds to the errors of the pipes that it runs is
`Engine.RoutedFrom.cons`, and the induction over the levels of a run is `Engine.runWithin_routed`.
-/

namespace Conduit

/-- The pipe of one code may run the pipe of another: it names it. -/
def Library.Calls (l : Library) (caller code : String) : Prop :=
  ∃ p, l.pipes.get? caller = some p ∧ code ∈ p.subPipes

/-- In a library whose pipes have their own codes, a pipe runs only pipes that it names. -/
theorem Library.Runs.calls {l : Library} {p : Pipe} {code : String} (hk : l.Keyed)
    (hp : l.Registered p) (h : l.Runs p code) : l.Calls p.code code := by
  obtain ⟨named, hnamed, rfl | ⟨target, htarget, rfl⟩⟩ := h
  · exact ⟨p, hp, hnamed⟩
  · rw [hk named target htarget]
    exact ⟨p, hp, hnamed⟩

namespace Engine

variable {e : Engine} {code pipe : String} {p : Pipe} {m : Memory} {params : RunParams}
  {name : Option String} {stack before : List String} {err : RunError} {cause : RunCause}

/-- A pipe cannot be entered: there is none of its code, or the stack has no room for it. -/
def Refuses (e : Engine) (place : Place) (cause : RunCause) : Prop :=
  e.library.pipes.get? place.pipe = none ∧
      cause = .missingPipes ⟨place.stack.getLast?.getD place.pipe, [place.pipe]⟩ ∨
    e.config.maxDepth ≤ place.stack.length ∧ cause = .stackOverflow place.pipe e.config.maxDepth

/-- An error of a pipe, in a run that has a stack when it is started and has entered some pipes
before this one. The pipe was running, or it could not be entered. -/
inductive Routed (e : Engine) (stack before : List String) (pipe : String) : RunError → Prop
  | running (cause : RunCause) :
      Routed e stack before pipe ⟨cause, some ⟨pipe, stack ++ before ++ [pipe]⟩⟩
  | refused {cause : RunCause} (h : e.Refuses ⟨pipe, stack ++ before⟩ cause) :
      Routed e stack before pipe ⟨cause, some ⟨pipe, stack ++ before⟩⟩

/-- An error arose at the end of a route of calls that starts with a code. -/
def RoutedFrom (e : Engine) (stack : List String) (code : String) (err : RunError) : Prop :=
  ∃ before pipe, (before ++ [pipe]).head? = some code ∧
    (before ++ [pipe]).IsChain e.library.Calls ∧ e.Routed stack before pipe err

/-- The pipe that an error of a running pipe was started with. -/
theorem routedFrom_self (cause : RunCause) :
    e.RoutedFrom stack code ⟨cause, some ⟨code, stack ++ [code]⟩⟩ := by
  have hrouted : e.Routed stack [] code ⟨cause, some ⟨code, stack ++ [] ++ [code]⟩⟩ :=
    .running cause
  rw [List.append_nil] at hrouted
  exact ⟨[], code, rfl, .singleton code, hrouted⟩

/-- A pipe that could not be entered ends a route of its own. -/
theorem routedFrom_refused (h : e.Refuses ⟨code, stack⟩ cause) :
    e.RoutedFrom stack code ⟨cause, some ⟨code, stack⟩⟩ := by
  have hrouted : e.Routed stack [] code ⟨cause, some ⟨code, stack ++ []⟩⟩ :=
    .refused (by rwa [List.append_nil])
  rw [List.append_nil] at hrouted
  exact ⟨[], code, rfl, .singleton code, hrouted⟩

/-- A pipe that runs another one is the start of a longer route. -/
theorem RoutedFrom.cons (h : e.RoutedFrom (stack ++ [pipe]) code err)
    (hcalls : e.library.Calls pipe code) : e.RoutedFrom stack pipe err := by
  obtain ⟨before, last, hhead, hchain, hrouted⟩ := h
  refine ⟨pipe :: before, last, rfl, ?_, ?_⟩
  · refine hchain.cons ?_
    intro next hnext
    rw [hhead, Option.mem_some_iff] at hnext
    exact hnext ▸ hcalls
  · cases hrouted with
    | running cause =>
      rw [List.append_assoc stack]
      exact .running cause
    | refused hrefused =>
      rw [List.append_assoc] at hrefused ⊢
      exact .refused hrefused

/-! ## Runs -/

/-- What one pipe does itself fails without a place, and what the pipes do that it runs fails on a
route from one of these. -/
theorem routed_admits (stack : List String) (codes : String → Prop) :
    Admits (e.Own p) (fun params => params.stack = stack) (fun _ => True) fun err =>
      err.place = none ∨ ∃ code, codes code ∧ e.RoutedFrom stack code err where
  toHandedOn := stack_handedOn stack
  entered _ _ _ := trivial
  event _ _ _ _ := trivial
  request _ _ _ _ := trivial
  call _ _ _ _ := trivial
  cause _ _ := .inl rfl

/-- An error that has no place takes the place where the pipe is running, and another one keeps its
own. -/
theorem routedFrom_locate (hk : e.library.Keyed) (hp : e.library.Registered p)
    (h : err.place = none ∨ ∃ code, e.library.Runs p code ∧
      e.RoutedFrom (stack ++ [p.code]) code err) :
    e.RoutedFrom stack p.code (err.locate ⟨p.code, stack ++ [p.code]⟩) := by
  obtain ⟨cause, place⟩ := err
  rcases h with rfl | ⟨code, hruns, hroute⟩
  · exact routedFrom_self cause
  · have hkeeps : RunError.locate ⟨p.code, stack ++ [p.code]⟩ ⟨cause, place⟩ = ⟨cause, place⟩ := by
      obtain ⟨_, _, _, _, hrouted⟩ := hroute
      cases hrouted with
      | running | refused _ => rfl
    rw [hkeeps]
    exact hroute.cons (hruns.calls hk hp)

/-- A pipe that is not there is refused. -/
theorem refuses_of_lookup (h : e.lookup code params = .error cause) :
    e.Refuses ⟨code, params.stack⟩ cause := by
  obtain ⟨err, herr, rfl⟩ := mapError_eq_error_iff.1 h
  obtain ⟨hnone, rfl⟩ := Library.pipe_eq_error_iff.1 herr
  exact .inl ⟨hnone, rfl⟩

theorem get?_of_lookup (h : e.lookup code params = .ok p) : e.library.pipes.get? code = some p :=
  Library.pipe_eq_ok_iff.1 (mapError_eq_ok_iff.1 h)

theorem fail_routed (h : e.Refuses ⟨code, params.stack⟩ cause) :
    ((Run.fail cause : Run Memory).located ⟨code, params.stack⟩).Obeys (fun _ => True)
      (e.RoutedFrom params.stack code) := by
  have hfail : (Run.fail cause : Run Memory).Obeys (fun _ => True) (· = { cause }) :=
    Run.obeys_fail rfl
  refine hfail.located ?_
  rintro _ rfl
  exact routedFrom_refused h

/-- A run fails on a route from its pipe, if it has as many levels as the stack has room for. -/
theorem runWithin_routed (hk : e.library.Keyed) (levels : Nat) (code : String) (m : Memory)
    (params : RunParams) (name : Option String)
    (hroom : e.config.maxDepth ≤ params.layer + levels) :
    (e.runWithin levels code m params name).Obeys (fun _ => True)
      (e.RoutedFrom params.stack code) := by
  induction levels generalizing code m params name with
  | zero =>
    unfold runWithin
    cases hp : e.lookup code params with
    | error cause => exact fail_routed (refuses_of_lookup hp)
    | ok p =>
      obtain rfl := hk code p (get?_of_lookup hp)
      exact fail_routed (.inr ⟨hroom, rfl⟩)
  | succ levels ih =>
    unfold runWithin
    cases hp : e.lookup code params with
    | error cause => exact fail_routed (refuses_of_lookup hp)
    | ok p =>
      have hregistered := hk.registered (get?_of_lookup hp)
      obtain rfl := hk code p (get?_of_lookup hp)
      refine Run.Obeys.located (dispatch_obeys (routed_admits (onStack params p).stack _) ?_ rfl)
        fun _ h => routedFrom_locate hk hregistered h
      -- the pipes below start with this one on their stack, so their routes go on from it
      intro code m inner name hruns hinner
      have hroom' : e.config.maxDepth ≤ inner.layer + levels := by
        rw [RunParams.layer, hinner, ← RunParams.layer, layer_onStack]
        omega
      refine (ih code m inner name hroom').imp (fun _ h => h) fun err herr => ?_
      rw [hinner] at herr
      exact .inr ⟨code, hruns, herr⟩

/-- A run that starts with nothing on the stack and fails tells where: its error has a place, which
the pipes around the innermost one have left as it was. The pipes on the stack of the place were
running: the first is the one that the run was started with, and each names the next. The pipe that
failed is the last of them. Only if it could not be entered, because it is not there or because the
stack was full, it comes after the last: that one names it, or it is the pipe that the run was
started with. -/
theorem run_error_route (e : Engine) (code : String) (m : Memory) (params : RunParams)
    (name : Option String) (err : RunError) (hk : e.library.Keyed) (hempty : params.stack = [])
    (h : (e.run code m params name).result = .error err) :
    ∃ place, err.place = some place ∧
      (place.stack = [] ∨ place.stack.head? = some code) ∧
      place.stack.IsChain e.library.Calls ∧
      (place.stack.getLast? = some place.pipe ∨
        e.Refuses place err.cause ∧
          (place.stack = [] → place.pipe = code) ∧
          ∀ caller, place.stack.getLast? = some caller → e.library.Calls caller place.pipe) := by
  have hroom : e.config.maxDepth ≤ params.layer + (e.config.maxDepth - params.layer) := by omega
  have hroute := (runWithin_routed hk _ code m params name hroom).fails err h
  rw [hempty] at hroute
  obtain ⟨before, pipe, hhead, hchain, hrouted⟩ := hroute
  cases hrouted with
  | running cause => exact ⟨_, rfl, .inr hhead, hchain, .inl List.getLast?_concat⟩
  | refused hrefused =>
    obtain ⟨hbefore, _, hlast⟩ := List.isChain_append.1 hchain
    refine ⟨_, rfl, ?_, hbefore, .inr ⟨hrefused, ?_, ?_⟩⟩
    · cases before with
      | nil => exact .inl rfl
      | cons first rest => exact .inr hhead
    · intro hnil
      obtain rfl : before = [] := hnil
      exact Option.some.inj hhead
    · intro caller hcaller
      exact hlast caller hcaller pipe rfl

/-- An attempt and a judgement that run each other fill the stack, and the next attempt is refused.
It is the judgement that calls for it. -/
theorem run_attempt_route : Library.relay.Keyed ∧
    ∃ err, (shallowRelay.run "attempt" wantedMemory {} none).result = .error err ∧
      err.place = some ⟨"attempt", ["attempt", "judge", "attempt", "judge"]⟩ ∧
      ["attempt", "judge", "attempt", "judge"].IsChain Library.relay.Calls ∧
      Library.relay.Calls "judge" "attempt" := by
  have hplace : ((shallowRelay.run "attempt" wantedMemory {} none).result.map fun _ => ()).mapError
      RunError.place = .error (some ⟨"attempt", ["attempt", "judge", "attempt", "judge"]⟩) := by
    decide +kernel
  refine ⟨Library.relay_linked.keyed, ?_⟩
  obtain ⟨err, hresult, hplace⟩ := mapError_eq_error_iff.1 hplace
  rw [map_eq_error_iff] at hresult
  obtain ⟨place, hplace', _, hchain, hend⟩ := run_error_route shallowRelay "attempt" wantedMemory {}
    none err Library.relay_linked.keyed rfl hresult
  rw [hplace, Option.some.injEq] at hplace'
  subst hplace'
  refine ⟨err, hresult, hplace, hchain, ?_⟩
  rcases hend with hlast | ⟨_, _, hcalls⟩
  · exact absurd hlast (by decide)
  · exact hcalls "judge" rfl

end Engine

end Conduit
