import Conduit.Proofs.Memory.Writes

/-!
# Calls one after another

A memory changes through calls of its operations only (`Memory.Call`). A call that fails leaves what
it wrote before it failed (`Memory.perform`), so a memory may be left in the middle of an operation.
Copies of a memory are made before branches go on with it: what calls work on are several memories,
of which the first was empty at the start (`Memory.worked`).

In each of these memories, at any time, every alias stands for an entry of another name, every value
has the name of its entry and the names that are listed are those that have values; and a name that
has a value keeps one in every call (`Memory.worked_intact`). All of this holds because a call is a
chain of writes, however far it gets.
-/

namespace Conduit

namespace Memory

variable {m m' : Memory} {ms : List Memory} {name : String} {i : Nat}

/-- A call of an operation that changes a memory. -/
inductive Call where
  | set (name : String) (s : Stuff)
  | add (name : String) (s : Stuff) (aliases : List String)
  | setAlias (name target : String)
  | setMain (s : Stuff) (name : Option String)
  | storeMain (name : String)

/-- Whether a call succeeds, and the memory that it leaves in either case. -/
def perform (m : Memory) : Call → Except MemoryError Unit × Memory
  | .set name s => (.ok (), m.set name s)
  | .add name s aliases => m.add name s aliases
  | .setAlias name target =>
    match m.setAlias name target with
    | .ok m => (.ok (), m)
    | .error e => (.error e, m)
  | .setMain s name => ((m.setMain s name).1.map fun _ => (), (m.setMain s name).2)
  | .storeMain name => m.storeMain name

/-- A memory after calls, whether they succeed or fail. -/
def after (m : Memory) (calls : List Call) : Memory :=
  calls.foldl (fun m c => (m.perform c).2) m

@[simp] theorem after_nil (m : Memory) : m.after [] = m := rfl

@[simp] theorem after_cons (m : Memory) (c : Call) (calls : List Call) :
    m.after (c :: calls) = (m.perform c).2.after calls := rfl

theorem after_append (m : Memory) (calls later : List Call) :
    m.after (calls ++ later) = (m.after calls).after later :=
  List.foldl_append

/-- A call on one of several memories, or a copy of one of them. -/
inductive Act where
  | call (i : Nat) (c : Call)
  | copy (i : Nat)

/-- Several memories after a call or a copy, which comes last. -/
def act (ms : List Memory) : Act → List Memory
  | .call i c => ms.modify i fun m => (m.perform c).2
  | .copy i => ms ++ ms[i]?.toList

/-- The memories that calls and copies have made of one that was empty. -/
def worked (acts : List Act) : List Memory :=
  acts.foldl act [empty]

/-! ## Calls as writes -/

theorem perform_written (m : Memory) (c : Call) : m.Written (m.perform c).2 := by
  cases c with
  | set name s => exact .single (.stored m name s)
  | add name s aliases => exact m.add_written name s aliases
  | setAlias name target =>
    unfold perform
    dsimp only
    split
    · next halias => exact .single (.aliased halias)
    · exact .refl
  | setMain s name => exact m.setMain_written s name
  | storeMain name => exact m.storeMain_written name

theorem after_written (m : Memory) (calls : List Call) : m.Written (m.after calls) := by
  induction calls generalizing m with
  | nil => exact .refl
  | cons c calls ih => exact (m.perform_written c).trans (ih _)

/-- A memory stays in its place, and is reached from what it was by writes. -/
theorem act_keeps (a : Act) (h : ms[i]? = some m) :
    ∃ m', (act ms a)[i]? = some m' ∧ m.Written m' := by
  obtain ⟨hi, rfl⟩ := List.getElem?_eq_some_iff.1 h
  cases a with
  | call j c =>
    rw [act, List.getElem?_modify, h]
    by_cases hj : j = i
    · exact ⟨(ms[i].perform c).2, by simp [hj], perform_written _ c⟩
    · exact ⟨ms[i], by simp [hj], .refl⟩
  | copy j =>
    refine ⟨ms[i], ?_, .refl⟩
    rw [act, List.getElem?_append_left hi]
    exact h

/-- Every memory is reached by writes from one that was there before. -/
theorem exists_written_of_mem_act {a : Act} (h : m' ∈ act ms a) : ∃ m ∈ ms, m.Written m' := by
  cases a with
  | call j c =>
    obtain ⟨i, hi⟩ := List.mem_iff_getElem?.1 h
    rw [act, List.getElem?_modify, Option.map_eq_map, Option.map_eq_some_iff] at hi
    obtain ⟨m, hm, rfl⟩ := hi
    refine ⟨m, List.mem_of_getElem? hm, ?_⟩
    split
    · exact perform_written m c
    · exact .refl
  | copy j =>
    rcases List.mem_append.1 h with hold | hcopy
    · exact ⟨m', hold, .refl⟩
    · exact ⟨m', List.mem_of_getElem? (Option.mem_toList.1 hcopy), .refl⟩

/-- Every memory that is worked on is reached from the empty one by writes. -/
theorem written_of_mem_worked {acts : List Act} (h : m ∈ worked acts) : empty.Written m := by
  induction acts using List.reverseRecOn generalizing m with
  | nil => rw [List.mem_singleton.1 h]
  | append_singleton acts a ih =>
    rw [worked, List.foldl_concat] at h
    obtain ⟨m₀, hm₀, hwritten⟩ := exists_written_of_mem_act h
    exact (ih hm₀).trans hwritten

/-! ## What is always so -/

/-- The names that are listed are those that have values. -/
theorem Anchored.mem_names_iff (hm : m.Anchored) : name ∈ m.names ↔ m.contains name = true := by
  rw [names, List.mem_append, Dict.mem_keys_iff, Dict.mem_keys_iff]
  cases halias : m.aliases.get? name with
  | none => simp [contains, find?, Memory.target, Dict.contains, halias]
  | some target =>
    have hentry := (hm name target halias).2
    rw [Dict.contains] at hentry
    simp [contains, find?, Memory.target, Dict.contains, halias, hentry]

/-- After any calls and copies, whether the calls have succeeded or failed: in each memory every
alias stands for an entry of another name, every value has the name of its entry, and the names that
are listed are those that have values. Whatever is called next, the memory stays there and each of
its names that had a value has one; a copy is the memory that is copied. -/
theorem worked_intact (acts : List Act) (i : Nat) (m : Memory) (h : (worked acts)[i]? = some m) :
    (∀ name target, m.aliases.get? name = some target →
      name ≠ target ∧ m.entries.contains target = true) ∧
    (∀ name s, m.entries.get? name = some s → s.name = name) ∧
    (∀ name, name ∈ m.names ↔ m.contains name = true) ∧
    (∀ a, ∃ m', (worked (acts ++ [a]))[i]? = some m' ∧
      ∀ name, m.contains name = true → m'.contains name = true) ∧
    (worked (acts ++ [.copy i])).getLast? = some m := by
  have hwritten := written_of_mem_worked (List.mem_of_getElem? h)
  have hanchored := hwritten.anchored anchored_empty
  refine ⟨hanchored, hwritten.named named_empty, fun _ => hanchored.mem_names_iff, ?_, ?_⟩
  · intro a
    obtain ⟨m', hm', hnext⟩ := act_keeps a h
    refine ⟨m', ?_, fun name hname => hnext.contains hname⟩
    rw [worked, List.foldl_concat]
    exact hm'
  · rw [worked, List.foldl_concat, ← worked, act, h]
    exact List.getLast?_concat

/-! ## Calls that fail halfway -/

/-- A text that has a code and no name yet. -/
def nameless (code text : String) : Stuff :=
  ⟨code, "", NativeConcept.text.concept, .text text⟩

/-- A text is added under a name with three aliases, of which the second is the name itself; a copy
is made, in which a text takes the place of the first alias; and in the memory a result is stored
under the name of the alias for results. -/
def halfDone : List Act := [
  .call 0 (.add "draft" (nameless "1" "red") ["first", "draft", "last"]),
  .copy 0,
  .call 1 (.set "first" (nameless "2" "blue")),
  .call 0 (.setMain (nameless "3" "green") (some mainAlias))]

/-- The first call stops before its last alias and the last one when it has stored the result. What
they have written stays, the alias that gave way in the copy is still there, and the memory is
intact. -/
theorem worked_halfDone :
    (empty.perform (.add "draft" (nameless "1" "red") ["first", "draft", "last"])).1 =
      .error (.selfAlias "draft") ∧
    (worked halfDone)[1]?.map (fun copied => copied.aliases.keys) = some [] ∧
    ∃ m, (worked halfDone)[0]? = some m ∧ m.names = ["draft", "main", "first"] ∧
      (∀ name target, m.aliases.get? name = some target →
        name ≠ target ∧ m.entries.contains target = true) ∧
      (∀ name s, m.entries.get? name = some s → s.name = name) ∧
      ∀ name, name ∈ m.names ↔ m.contains name = true := by
  have hnames : (worked halfDone)[0]?.map names = some ["draft", "main", "first"] := by
    decide
  obtain ⟨m, hm, hnames⟩ := Option.map_eq_some_iff.1 hnames
  obtain ⟨hanchored, hnamed, hlisted, _⟩ := worked_intact halfDone 0 m hm
  exact ⟨rfl, by decide, m, hm, hnames, hanchored, hnamed, hlisted⟩

end Memory

end Conduit
