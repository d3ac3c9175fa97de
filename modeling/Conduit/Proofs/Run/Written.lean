import Conduit.Proofs.Run.Calls
import Conduit.Proofs.Run.Sufficient

/-!
# What a run writes

A run works by calls on the memory that it is given, and calls are writes: what it leaves is reached
from that memory by writes (`Engine.runWithin_written`). So a run loses no name, and aliases stand
for entries after it as they did before (`Engine.run_keeps_names`).
-/

namespace Conduit.Engine

variable {e : Engine}

/-- Every run of a runner writes to the memory that it is given. -/
def Writes (run : Runner) : Prop :=
  ∀ code m params name, (run code m params name).Gives m.Written

/-- A run writes to the memory that it is given. -/
theorem runWithin_written (levels : Nat) : Writes (e.runWithin levels) := by
  intro code m params name
  have hreaches := runWithin_reaches (e := e) (fun _ => trivial) levels code m params name
    fun _ _ _ _ _ => trivial
  exact hreaches.imp fun _ ⟨calls, hm', _⟩ => hm' ▸ m.after_written calls

/-- A name that has a value before a run has one after it, and aliases that stand for entries of
other names before it stand for entries of other names after it, in live and in dry runs. -/
theorem run_keeps_names (e : Engine) (code : String) {m m' : Memory} (params : RunParams)
    (name : Option String) (hm : m.Anchored) (hrun : (e.run code m params name).result = .ok m') :
    (∀ n, m.contains n = true → m'.contains n = true) ∧ m'.Anchored := by
  have hwritten : m.Written m' :=
    (runWithin_written (e.config.maxDepth - params.layer) code m params name).post_of_ok hrun
  exact ⟨fun n hn => hwritten.contains hn, hwritten.anchored hm⟩

/-! ## Names of a relay -/

/-- A memory in which the draft of the relay is an alias as yet, and the topic has another name. -/
def aliasedMemory : Memory :=
  { wantedMemory with aliases := .ofList [("draft", "wanted"), ("subject", "topic")] }

theorem aliasedMemory_anchored : aliasedMemory.Anchored := by
  have hall : ∀ pair ∈ aliasedMemory.aliases.entries,
      pair.1 ≠ pair.2 ∧ aliasedMemory.entries.contains pair.2 = true := by
    decide +kernel
  exact fun name target htarget => hall (name, target) (Dict.mem_entries_of_get? htarget)

/-- An attempt that is run dry writes a draft in place of the alias and goes on with one of the
judgements that it explores. -/
theorem run_attempt_keeps_names :
    aliasedMemory.Anchored ∧ ∃ m',
      (Engine.run { library := Library.relay } "attempt" aliasedMemory { dry := true }
        none).result = .ok m' ∧
      m'.names = ["topic", "wanted", "draft", "write", "subject", "main"] ∧
      (∀ n, aliasedMemory.contains n = true → m'.contains n = true) ∧ m'.Anchored := by
  have hnames : (Engine.run { library := Library.relay } "attempt" aliasedMemory { dry := true }
      none).result.toOption.map Memory.names =
        some ["topic", "wanted", "draft", "write", "subject", "main"] := by
    decide +kernel
  obtain ⟨m', hm', hnames⟩ := Option.map_eq_some_iff.1 hnames
  have hrun := eq_ok_of_toOption hm'
  exact ⟨aliasedMemory_anchored, m', hrun, hnames,
    run_keeps_names _ "attempt" { dry := true } none aliasedMemory_anchored hrun⟩

end Conduit.Engine
