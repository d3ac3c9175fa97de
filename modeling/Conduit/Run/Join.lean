import Conduit.Run.Basic

/-!
# Runs side by side

Branches that run side by side end in some order. `Join.collect` takes their results in that order
and gives them in the order of the branches: each is put into the slot of its branch as it arrives
(`Join.fill`), the first failure to arrive decides, and an empty slot in the end is a branch that is
lost. A `Schedule` says in which order the branches of `Run.join` end. Where nothing else is said it
is the order of the time that they take (`Schedule.byTime`).
-/

namespace Conduit

namespace Join

variable {α ε : Type}

/-- Puts the results of branches into their slots as they arrive, until one is a failure. -/
def fill (slots : List (Option α)) : List (Nat × Except ε α) → Except ε (List (Option α))
  | [] => .ok slots
  | (_, .error e) :: _ => .error e
  | (i, .ok a) :: rest => fill (slots.set i (some a)) rest

/-- The results of `count` branches in the order of the branches, from those in the order of their
ends. `lost` is the error for a branch that has not ended. -/
def collect (lost : Nat → ε) (count : Nat) (done : List (Nat × Except ε α)) :
    Except ε (List α) := do
  let slots ← fill (List.replicate count none) done
  slots.zipIdx.mapM fun (slot, i) => slot.elim (.error (lost i)) .ok

end Join

/-- The order in which branches that run side by side end. -/
structure Schedule where
  order : List (Run Memory × Nat) → List (Run Memory × Nat)
  perm : ∀ branches, (order branches).Perm branches

/-- Branches end in the order of the time that they take, and those that take the same time in their
own order. -/
def Schedule.byTime : Schedule where
  order branches := branches.mergeSort fun a b => a.1.elapsed.atMost b.1.elapsed
  perm branches := List.mergeSort_perm branches _

namespace Run

variable {α : Type}

/-- The end of a branch, from when its pipe has started it. -/
def ended (r : Run α) : Time :=
  (Time.atOnce 1).followedBy r.elapsed

/-- The time for which a pipe waits for its branches, in the order in which they end: until it has
seen the first that fails, else the last. It goes on a turn after a branch has ended, and then it
sees all that have ended by its turn. `woken` is the turn for which it is woken already. -/
def wait (woken : Option Time) : List (Run α) → Time
  | [] => woken.getD .zero
  | r :: rest =>
    let turn := (woken.filter r.ended.atMost).getD (r.ended.later 1)
    if r.failed then turn else wait turn rest

/-- Runs the branches of a pipe side by side. -/
def join (s : Schedule) (pipe : String) (branches : List (Run Memory)) : Run (List Memory) :=
  let done := s.order branches.zipIdx
  { result := Join.collect (fun i => { cause := .branchLost pipe i }) branches.length
      (done.map fun (r, i) => (i, r.result))
    trace := branches.flatMap Run.trace
    elapsed := wait none (done.map Prod.fst) }

end Run

end Conduit
