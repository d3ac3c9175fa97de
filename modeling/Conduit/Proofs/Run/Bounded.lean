import Conduit.Proofs.Run.Obeys
import Conduit.Proofs.Run.Sufficient

/-!
# The stack bounds runs

Pipes may run each other in circles, and what ends their runs is the limit of the stack, which is
checked when a pipe is entered (`RunParams.enter`). `Engine.enterPipe` is that one step, with the
runner of the pipes below left open, and `Engine.unrolled` iterates it. Whatever stands below, it is
never asked: after as many levels as the stack has room for, and one more, the iteration is
`Engine.run` (`Engine.unrolled_eq_run`). So the levels over which `Engine.runWithin` recurs are no
limit of their own, and no chain of calls is longer than the stack allows.

The marks and errors of a run are bounded by an induction over the same levels
(`Engine.runWithin_between`): a pipe runs with itself on the stack, so each level adds one to what
`Engine.dispatch_obeys` says of the pipes below.
-/

namespace Conduit

/-- A mark that is made while more than `lower` and at most `upper` pipes are running. -/
def Mark.Between (lower upper : Nat) : Mark → Prop
  | .entered _ params => lower < params.layer ∧ params.layer ≤ upper
  | .event told => lower < told.layer ∧ told.layer ≤ upper
  | .request _ | .call _ => True

theorem Mark.Between.imp {lower lower' upper : Nat} {x : Mark} (h : x.Between lower upper)
    (hle : lower' ≤ lower) : x.Between lower' upper := by
  cases x with
  | entered _ _ | event _ => exact ⟨Nat.lt_of_le_of_lt hle h.1, h.2⟩
  | request _ | call _ => trivial

namespace Engine

variable {e : Engine} {code : String} {p : Pipe} {m : Memory} {params : RunParams}
  {name : Option String}

/-- A pipe that is put on the stack runs one layer further in. -/
@[simp] theorem layer_onStack (params : RunParams) (p : Pipe) :
    (onStack params p).layer = params.layer + 1 := by
  simp [onStack, RunParams.layer]

/-- The stack is handed on. -/
theorem stack_handedOn (stack : List String) : HandedOn fun params => params.stack = stack where
  nested _ hp := hp
  forStep _ _ hp := hp

/-! ## Levels -/

/-- Enters a pipe, if it is there and the stack has room for it; `run` runs the pipes that it
runs. -/
def enterPipe (e : Engine) (run : Runner) : Runner := fun code m params name =>
  match e.lookup code params with
  | .error cause => (Run.fail cause).located ⟨code, params.stack⟩
  | .ok p =>
    match params.enter e.config.maxDepth p.code with
    | .error cause => (Run.fail cause).located ⟨code, params.stack⟩
    | .ok inner => (e.dispatch run p m inner name).located ⟨p.code, inner.stack⟩

/-- Runs pipes through a number of levels, with the runner `below` under them. -/
def unrolled (e : Engine) (below : Runner) : Nat → Runner
  | 0 => below
  | levels + 1 => e.enterPipe (e.unrolled below levels)

/-- A pipe that is entered runs others only where the stack has room, one layer further in. -/
theorem enterPipe_congr {run run' : Runner} (hrun : params.layer < e.config.maxDepth →
      SameOn (fun inner => inner.layer = params.layer + 1) run run') :
    e.enterPipe run code m params name = e.enterPipe run' code m params name := by
  unfold enterPipe
  cases e.lookup code params with
  | error cause => rfl
  | ok p =>
    by_cases hroom : params.layer < e.config.maxDepth
    · have hhanded : HandedOn fun inner => inner.layer = params.layer + 1 :=
        ⟨fun _ h => h, fun _ _ h => h⟩
      simp only [RunParams.enter, hroom, if_true]
      exact congrArg (Run.located _) (dispatch_congr hhanded (hrun hroom) (layer_onStack params p))
    · simp only [RunParams.enter, hroom, if_false]

/-- The levels of a run are those that the stack has room for. -/
theorem run_eq_runWithin {levels : Nat} (h : e.config.maxDepth - params.layer = levels) :
    e.run code m params name = e.runWithin levels code m params name := by
  rw [← h]
  rfl

/-- A run enters its pipe, and the pipes below are run in the same way: the levels that bound the
recursion decide nothing. -/
theorem run_eq_enterPipe : e.run code m params name = e.enterPipe e.run code m params name := by
  cases hleft : e.config.maxDepth - params.layer with
  | zero =>
    have hroom : ¬ params.layer < e.config.maxDepth := by omega
    rw [run_eq_runWithin hleft]
    unfold enterPipe runWithin
    cases e.lookup code params with
    | error cause => rfl
    | ok p => simp only [RunParams.enter, hroom, if_false]
  | succ left =>
    have hroom : params.layer < e.config.maxDepth := by omega
    have hbelow : e.enterPipe e.run code m params name =
        e.enterPipe (e.runWithin left) code m params name :=
      enterPipe_congr fun _ code m inner name hinner => run_eq_runWithin (by omega)
    rw [run_eq_runWithin hleft, hbelow]
    conv_lhs => unfold runWithin
    unfold enterPipe
    cases e.lookup code params with
    | error cause => rfl
    | ok p => simp only [RunParams.enter, hroom, if_true]

/-- More levels than the stack has room for make a run, whatever stands below them. -/
theorem unrolled_eq_run (below : Runner) (levels : Nat)
    (h : e.config.maxDepth - params.layer < levels) :
    e.unrolled below levels code m params name = e.run code m params name := by
  induction levels generalizing code m params name with
  | zero => exact absurd h (Nat.not_lt_zero _)
  | succ levels ih =>
    rw [unrolled, run_eq_enterPipe]
    exact enterPipe_congr fun hroom code m inner name hinner => ih (by omega)

/-! ## Marks and errors -/

/-- What a pipe does itself is bounded by the stack on which it is. -/
theorem stack_admits {stack : List String} {lower upper : Nat} (hlower : lower < stack.length)
    (hupper : stack.length ≤ upper) :
    Admits (e.Own p) (fun params => params.stack = stack) (Mark.Between lower upper)
      fun err => err.stack.length ≤ upper where
  toHandedOn := stack_handedOn stack
  entered params _ hp := by
    subst hp
    exact ⟨hlower, hupper⟩
  event params event hp hlayer := by
    subst hp
    change lower < event.layer ∧ event.layer ≤ upper
    rw [hlayer]
    exact ⟨hlower, hupper⟩
  request _ _ _ _ := trivial
  call _ _ _ _ := trivial
  cause _ _ := Nat.zero_le _

/-- An error has a bounded stack if it has a place, and if it takes a place, with such a stack. -/
theorem length_stack_locate {place : Place} {err : RunError} {upper : Nat}
    (h : err.stack.length ≤ upper) (hplace : place.stack.length ≤ upper) :
    (err.locate place).stack.length ≤ upper := by
  obtain ⟨cause, _ | inner⟩ := err
  · exact hplace
  · exact h

/-- A run that enters no pipe fails with the stack that it has. -/
theorem fail_between (cause : RunCause) (levels : Nat) :
    ((Run.fail cause : Run Memory).located ⟨code, params.stack⟩).Obeys
      (Mark.Between params.layer (params.layer + levels))
      fun err => err.stack.length ≤ params.layer + levels :=
  (Run.obeys_fail (Nat.zero_le _)).located fun _ h =>
    length_stack_locate h (Nat.le_add_right params.layer levels)

/-- A run leaves marks of layers above that in which it is started, and at most as many above it as
it has levels left; its error has no longer stack. -/
theorem runWithin_between (levels : Nat) (code : String) (m : Memory) (params : RunParams)
    (name : Option String) : (e.runWithin levels code m params name).Obeys
      (Mark.Between params.layer (params.layer + levels))
      fun err => err.stack.length ≤ params.layer + levels := by
  induction levels generalizing code m params name with
  | zero =>
    unfold runWithin
    cases e.lookup code params with
    | error cause => exact fail_between cause 0
    | ok p => exact fail_between _ 0
  | succ levels ih =>
    unfold runWithin
    cases e.lookup code params with
    | error cause => exact fail_between cause _
    | ok p =>
      have hlayer := layer_onStack params p
      have hlower : params.layer < (onStack params p).stack.length := by
        rw [← RunParams.layer]
        omega
      have hupper : (onStack params p).stack.length ≤ params.layer + (levels + 1) := by
        rw [← RunParams.layer]
        omega
      refine Run.Obeys.located (dispatch_obeys (stack_admits hlower hupper) ?_ rfl) fun _ h =>
        length_stack_locate h hupper
      intro code m inner name _ hinner
      have hinner' : inner.layer = params.layer + 1 := by
        rw [← hlayer, RunParams.layer, hinner, RunParams.layer]
      have hrun := ih code m inner name
      rw [hinner', Nat.add_assoc, Nat.add_comm 1] at hrun
      exact hrun.imp (fun x hx => hx.imp (Nat.le_succ _)) fun _ h => h

/-- A run that starts with nothing on the stack is bounded by the limit of the stack, also where
pipes run each other in circles. It comes to an end: one level more than the stack has room for
suffices to unroll it, whatever would stand below. Every pipe that it enters has from one to as many
pipes on its stack as the limit allows, itself among them, observers are told layers of that range,
and the stack of an error is no longer than the limit. -/
theorem run_bounded (e : Engine) (code : String) (m : Memory) (params : RunParams)
    (name : Option String) (hempty : params.stack = []) :
    (∀ below : Runner, e.unrolled below (e.config.maxDepth + 1) code m params name =
        e.run code m params name) ∧
      (∀ pipe entered, .entered pipe entered ∈ (e.run code m params name).trace →
        1 ≤ entered.stack.length ∧ entered.stack.length ≤ e.config.maxDepth) ∧
      (∀ event ∈ (e.run code m params name).events,
        1 ≤ event.layer ∧ event.layer ≤ e.config.maxDepth) ∧
      ∀ err, (e.run code m params name).result = .error err →
        err.stack.length ≤ e.config.maxDepth := by
  have hlayer : params.layer = 0 := by simp [RunParams.layer, hempty]
  have hobeys := runWithin_between (e := e) e.config.maxDepth code m params name
  have hrun : e.run code m params name = e.runWithin e.config.maxDepth code m params name :=
    run_eq_runWithin (by omega)
  rw [← hrun, hlayer, Nat.zero_add] at hobeys
  refine ⟨fun below => unrolled_eq_run below _ (by omega), ?_, ?_, hobeys.fails⟩
  · intro pipe entered hmem
    exact hobeys.leaves _ hmem
  · intro event hmem
    obtain ⟨x, hx, hevent⟩ := List.mem_filterMap.1 hmem
    cases x with
    | event told =>
      cases hevent
      exact hobeys.leaves _ hx
    | entered _ _ | request _ | call _ => cases hevent

/-- An engine whose stack has room for four pipes of the relay. -/
def shallowRelay : Engine where
  library := Library.relay
  config := { maxDepth := 4 }

/-- An attempt and a judgement that run each other fill the stack, and no more than the stack. -/
theorem run_attempt_bounded :
    (∀ below : Runner, shallowRelay.unrolled below 5 "attempt" wantedMemory {} none =
        shallowRelay.run "attempt" wantedMemory {} none) ∧
      ∃ err, (shallowRelay.run "attempt" wantedMemory {} none).result = .error err ∧
        err.stack = ["attempt", "judge", "attempt", "judge"] ∧ err.stack.length ≤ 4 := by
  obtain ⟨hunrolled, _, _, herror⟩ := run_bounded shallowRelay "attempt" wantedMemory {} none rfl
  have hstack : ((shallowRelay.run "attempt" wantedMemory {} none).result.map fun _ => ()).mapError
      RunError.stack = .error ["attempt", "judge", "attempt", "judge"] := by
    decide +kernel
  refine ⟨hunrolled, ?_⟩
  cases hresult : (shallowRelay.run "attempt" wantedMemory {} none).result with
  | ok m =>
    rw [hresult] at hstack
    cases hstack
  | error err =>
    rw [hresult] at hstack
    exact ⟨err, rfl, Except.error.inj hstack, herror err hresult⟩

end Engine

end Conduit
