import Conduit.Library.Needs
import Conduit.Proofs.Except

/-!
# Needs of pipes that run each other

`Library.needs` visits the pipes below a pipe and leaves out those that are on the way already. The
main statement, `needs_eq_needsOf_needs`, says that nothing is lost by this and nothing comes in:
the names that it gives for a pipe are those that the pipe's own rule makes of the names that it
gives for each pipe below, each computed from the start. The library is only asked to be linked
(`Linked`), so its pipes may run each other in any way.

A name is handed up unchanged from a pipe to the pipes that run it. So for one name the rule is a
relation between pipes (`Rule`), and what `needs` computes is whether a chain of such pipes ends in
one that reads the name (`NeededPast`). A chain that meets a pipe twice can be cut short there
(`NeededPast.cut`), which is why leaving out the pipes of the path is exact.
-/

namespace Conduit.Library

variable {l : Library} {p q : Pipe} {name : String}

/-! ## Linked libraries -/

/-- The pipe is in the library, under its code. -/
def Registered (l : Library) (p : Pipe) : Prop :=
  l.pipes.get? p.code = some p

/-- Every pipe of the library is under its own code. -/
def Keyed (l : Library) : Prop :=
  ∀ code p, l.pipes.get? code = some p → p.code = code

/-- The pipe of a step is there, and declares the item if the step runs for each item of a list. -/
def StepLinked (l : Library) (s : Step) : Prop :=
  ∃ target, l.pipes.get? s.pipe = some target ∧
    ∀ b ∈ s.batching, target.inputs.contains b.item = true

/-- What a pipe names is there: the pipes that it runs, and the items that these must declare. The
text that a condition evaluates can be read. -/
def PipeLinked (l : Library) (p : Pipe) : Prop :=
  match p.kind with
  | .operator _ => True
  | .sequence steps => ∀ s ∈ steps, l.StepLinked s
  | .parallel q => ∀ s ∈ q.branches, l.StepLinked s
  | .condition c =>
    (∃ names, conditionVariables c = .ok names) ∧
      ∀ code ∈ c.pipes, l.pipes.contains code = true
  | .batch branch b =>
    ∃ target, l.pipes.get? branch = some target ∧ target.inputs.contains b.item = true

/-- A library in which what the pipes name is there. The pipes may run each other in any way. -/
structure Linked (l : Library) : Prop where
  keyed : l.Keyed
  pipes : ∀ p, l.Registered p → l.PipeLinked p

/-- A pipe that is found is registered. -/
theorem Keyed.registered (h : l.Keyed) {code : String} (hp : l.pipes.get? code = some p) :
    l.Registered p := by
  unfold Registered
  rw [h code p hp]
  exact hp

/-- Registered pipes of one code are one pipe. -/
theorem Registered.eq_of_code (hp : l.Registered p) (hq : l.Registered q) (h : p.code = q.code) :
    p = q := by
  unfold Registered at hp hq
  rw [h, hq] at hp
  exact (Option.some.inj hp).symm

/-- What the library answers for a code under which a pipe is found. -/
theorem pipe_of_get? {code : String} (h : l.pipes.get? code = some p) (owner : String) :
    l.pipe code owner = .ok p :=
  pipe_eq_ok_iff.2 h

/-! ## The rule of a pipe for one name -/

/-- Whether running a pipe for each item of a list needs a name: the list takes the place of the
item. -/
def BatchRule (name : String) (b : Batching) (needed : Prop) : Prop :=
  name = b.list ∨ (needed ∧ name ≠ b.item)

/-- Whether a step needs a name, if its pipe does. -/
def StepRule (name : String) (s : Step) (needed : Prop) : Prop :=
  match s.batching with
  | none => needed
  | some b => BatchRule name b needed

/-- Whether steps that run one after another need a name, where `need` holds of the pipes that need
it and earlier steps have left the names `produced`. -/
def StepsRule (l : Library) (name : String) (need : Pipe → Prop) : List String → List Step → Prop
  | _, [] => False
  | produced, s :: rest =>
    ∃ target, l.pipes.get? s.pipe = some target ∧
      ((name ∉ produced ∧ StepRule name s (need target)) ∨
        l.StepsRule name need (produced ++ writtenNames target s) rest)

/-- Whether a pipe needs a name, where `need` holds of the pipes that need it. -/
def Rule (l : Library) (name : String) (need : Pipe → Prop) (p : Pipe) : Prop :=
  match p.kind with
  | .operator _ => p.inputs.contains name = true
  | .sequence steps => l.StepsRule name need [] steps
  | .parallel q =>
    ∃ s ∈ q.branches, ∃ target, l.pipes.get? s.pipe = some target ∧
      StepRule name s (need target)
  | .condition c =>
    (∃ names, conditionVariables c = .ok names ∧ name ∈ names) ∨
      ∃ code ∈ c.pipes, ∃ target, l.pipes.get? code = some target ∧ need target
  | .batch branch b =>
    ∃ target, l.pipes.get? branch = some target ∧ BatchRule name b (need target)

/-- Whether a pipe needs a name whatever the pipes that it runs need. -/
def Reads (l : Library) (name : String) (p : Pipe) : Prop :=
  l.Rule name (fun _ => False) p

/-- Whether a pipe needs a name if one pipe does that it runs. -/
def Passes (l : Library) (name : String) (p q : Pipe) : Prop :=
  l.Rule name (· = q) p

section Rule

variable {need need' : Pipe → Prop}

theorem BatchRule.imp {b : Batching} {P Q : Prop} (h : P → Q) :
    BatchRule name b P → BatchRule name b Q :=
  Or.imp_right (And.imp_left h)

theorem StepRule.imp {s : Step} {P Q : Prop} (h : P → Q) (hs : StepRule name s P) :
    StepRule name s Q := by
  unfold StepRule at hs ⊢
  split at hs
  · exact h hs
  · exact hs.imp h

/-- A step that needs a name does so anyway, or because its pipe does. -/
theorem StepRule.split {s : Step} {P : Prop} (hs : StepRule name s P) :
    StepRule name s False ∨ P := by
  unfold StepRule at hs ⊢
  split at hs
  · exact .inr hs
  · rcases hs with hl | ⟨hP, _⟩
    · exact .inl (.inl hl)
    · exact .inr hP

theorem StepsRule.imp (h : ∀ q, need q → need' q) {steps : List Step} {produced : List String}
    (hs : l.StepsRule name need produced steps) : l.StepsRule name need' produced steps := by
  induction steps generalizing produced with
  | nil => exact hs
  | cons s rest ih =>
    obtain ⟨target, ht, hs⟩ := hs
    refine ⟨target, ht, ?_⟩
    rcases hs with ⟨hn, hs⟩ | hs
    · exact .inl ⟨hn, hs.imp (h target)⟩
    · exact .inr (ih hs)

/-- Steps that need a name do so anyway, or because one of their pipes does. -/
theorem StepsRule.split {steps : List Step} {produced : List String}
    (hs : l.StepsRule name need produced steps) :
    l.StepsRule name (fun _ => False) produced steps ∨
      ∃ q code, l.pipes.get? code = some q ∧ need q ∧
        l.StepsRule name (· = q) produced steps := by
  induction steps generalizing produced with
  | nil => exact hs.elim
  | cons s rest ih =>
    obtain ⟨target, ht, hs⟩ := hs
    rcases hs with ⟨hn, hs⟩ | hs
    · rcases hs.split with hs' | hneed
      · exact .inl ⟨target, ht, .inl ⟨hn, hs'⟩⟩
      · exact .inr ⟨target, s.pipe, ht, hneed, target, ht,
          .inl ⟨hn, hs.imp fun _ => rfl⟩⟩
    · rcases ih hs with hs' | ⟨q, code, hq, hneed, hs'⟩
      · exact .inl ⟨target, ht, .inr hs'⟩
      · exact .inr ⟨q, code, hq, hneed, target, ht, .inr hs'⟩

/-- The rule is monotone. -/
theorem Rule.imp (h : ∀ q, need q → need' q) (hp : l.Rule name need p) :
    l.Rule name need' p := by
  unfold Rule at hp ⊢
  split at hp
  · exact hp
  · exact hp.imp h
  · obtain ⟨s, hs, target, ht, hr⟩ := hp
    exact ⟨s, hs, target, ht, hr.imp (h target)⟩
  · rcases hp with hread | ⟨code, hc, target, ht, hn⟩
    · exact .inl hread
    · exact .inr ⟨code, hc, target, ht, h target hn⟩
  · obtain ⟨target, ht, hr⟩ := hp
    exact ⟨target, ht, hr.imp (h target)⟩

/-- A pipe that needs a name reads it, or passes it on from a registered pipe that needs it. -/
theorem Rule.split (hk : l.Keyed) (hp : l.Rule name need p) :
    l.Reads name p ∨ ∃ q, l.Registered q ∧ need q ∧ l.Passes name p q := by
  unfold Reads Passes
  unfold Rule at hp ⊢
  cases hkind : p.kind with
  | operator op =>
    simp only [hkind] at hp ⊢
    exact .inl hp
  | sequence steps =>
    simp only [hkind] at hp ⊢
    exact hp.split.imp_right fun ⟨q, _, hq, hn, hs⟩ => ⟨q, hk.registered hq, hn, hs⟩
  | parallel par =>
    simp only [hkind] at hp ⊢
    obtain ⟨s, hs, target, ht, hr⟩ := hp
    rcases hr.split with hr' | hn
    · exact .inl ⟨s, hs, target, ht, hr'⟩
    · exact .inr ⟨target, hk.registered ht, hn, s, hs, target, ht, hr.imp fun _ => rfl⟩
  | condition c =>
    simp only [hkind] at hp ⊢
    rcases hp with hread | ⟨code, hc, target, ht, hn⟩
    · exact .inl (.inl hread)
    · exact .inr ⟨target, hk.registered ht, hn, .inr ⟨code, hc, target, ht, rfl⟩⟩
  | batch branch b =>
    simp only [hkind] at hp ⊢
    obtain ⟨target, ht, hl | ⟨hn, hi⟩⟩ := hp
    · exact .inl ⟨target, ht, .inl hl⟩
    · exact .inr ⟨target, hk.registered ht, hn, target, ht, .inr ⟨rfl, hi⟩⟩

/-- A pipe needs what it reads. -/
theorem Reads.rule (h : l.Reads name p) : l.Rule name need p :=
  Rule.imp (fun _ => False.elim) h

/-- A pipe needs what it passes on from a pipe that needs it. -/
theorem Passes.rule (h : l.Passes name p q) (hq : need q) : l.Rule name need p :=
  Rule.imp (fun r (he : r = q) => by rw [he]; exact hq) h

/-- The rule is monotone in what the registered pipes need. -/
theorem Rule.imp_registered (hk : l.Keyed) (h : ∀ q, l.Registered q → need q → need' q)
    (hp : l.Rule name need p) : l.Rule name need' p := by
  rcases hp.split hk with hr | ⟨q, hq, hn, hpass⟩
  · exact hr.rule
  · exact hpass.rule (h q hq hn)

end Rule

/-! ## What the rule computes -/

/-- A computation ends well, with requirements on exactly the names of which `need` holds. -/
def Yields (r : Except NeedsError Requirements) (need : String → Prop) : Prop :=
  ∃ needs, r = .ok needs ∧ ∀ name, needs.contains name = true ↔ need name

section Computed

variable {visit : Pipe → Except NeedsError Requirements} {need : Pipe → String → Prop}

theorem absorb_yields (owner : String) {branch : Pipe} (needs : Requirements) {b : Batching}
    (hi : branch.inputs.contains b.item = true) :
    Yields (absorb owner branch needs b)
      (fun name => BatchRule name b (needs.contains name = true)) := by
  obtain ⟨item, hitem⟩ := Dict.exists_of_contains hi
  refine ⟨_, by rw [absorb, hitem], ?_⟩
  intro name
  simp [BatchRule, @eq_comm _ b.list name, @eq_comm _ b.item name, and_comm]

theorem stepNeeds_yields (owner : String) {target : Pipe} {s : Step} (needs : Requirements)
    (hi : ∀ b ∈ s.batching, target.inputs.contains b.item = true) :
    Yields (stepNeeds owner target s needs)
      (fun name => StepRule name s (needs.contains name = true)) := by
  unfold stepNeeds StepRule
  cases hb : s.batching with
  | none => exact ⟨needs, rfl, fun _ => Iff.rfl⟩
  | some b => exact absorb_yields owner needs (hi b hb)

/-- What the needs of a step are, computed from the needs of its pipe. -/
theorem visit_step_yields (hv : ∀ q, l.Registered q → Yields (visit q) (need q)) (hk : l.Keyed)
    (owner : String) {s : Step} {target : Pipe} (ht : l.pipes.get? s.pipe = some target)
    (hi : ∀ b ∈ s.batching, target.inputs.contains b.item = true) :
    ∃ needs own, visit target = .ok needs ∧ stepNeeds owner target s needs = .ok own ∧
      ∀ name, own.contains name = true ↔ StepRule name s (need target name) := by
  obtain ⟨needs, hneeds, hiff⟩ := hv target (hk.registered ht)
  obtain ⟨own, hown, howniff⟩ := stepNeeds_yields owner needs hi
  refine ⟨needs, own, hneeds, hown, fun name => (howniff name).trans ?_⟩
  dsimp only
  rw [propext (hiff name)]

theorem sequenceNeeds_yields (hv : ∀ q, l.Registered q → Yields (visit q) (need q))
    (hk : l.Keyed) (owner : String) {steps : List Step} (hl : ∀ s ∈ steps, l.StepLinked s)
    (known : Requirements) (produced : List String) :
    Yields (l.sequenceNeeds visit owner known produced steps)
      (fun name => known.contains name = true ∨
        l.StepsRule name (fun q => need q name) produced steps) := by
  induction steps generalizing known produced with
  | nil => exact ⟨known, rfl, fun _ => by simp [StepsRule]⟩
  | cons s rest ih =>
    obtain ⟨target, ht, hi⟩ := hl s List.mem_cons_self
    obtain ⟨needs, own, hneeds, hown, hiff⟩ := visit_step_yields hv hk owner ht hi
    obtain ⟨all, hall, halliff⟩ := ih (fun t h => hl t (List.mem_cons_of_mem s h))
      (known.merge (own.filter fun name _ => !produced.contains name))
      (produced ++ writtenNames target s)
    refine ⟨all, ?_, fun name => (halliff name).trans ?_⟩
    · rw [sequenceNeeds, pipe_of_get? ht]
      simp only [Except.mapError, bind, Except.bind, hneeds, hown]
      exact hall
    · dsimp only
      rw [Dict.contains_merge, Dict.contains_filter own fun name => !produced.contains name]
      simp only [StepsRule, ht, Option.some.injEq, exists_eq_left', Bool.or_eq_true,
        Bool.and_eq_true, Bool.not_eq_true', List.contains_eq_mem, decide_eq_false_iff_not, hiff,
        or_assoc]

theorem branchNeeds_yields (hv : ∀ q, l.Registered q → Yields (visit q) (need q))
    (hk : l.Keyed) (owner : String) {steps : List Step} (hl : ∀ s ∈ steps, l.StepLinked s)
    (known : Requirements) :
    Yields (l.branchNeeds visit owner known steps)
      (fun name => known.contains name = true ∨
        ∃ s ∈ steps, ∃ target, l.pipes.get? s.pipe = some target ∧
          StepRule name s (need target name)) := by
  induction steps generalizing known with
  | nil => exact ⟨known, rfl, fun _ => by simp⟩
  | cons s rest ih =>
    obtain ⟨target, ht, hi⟩ := hl s List.mem_cons_self
    obtain ⟨needs, own, hneeds, hown, hiff⟩ := visit_step_yields hv hk owner ht hi
    obtain ⟨all, hall, halliff⟩ := ih (fun t h => hl t (List.mem_cons_of_mem s h))
      (known.merge own)
    refine ⟨all, ?_, fun name => (halliff name).trans ?_⟩
    · rw [branchNeeds, pipe_of_get? ht]
      simp only [Except.mapError, bind, Except.bind, hneeds, hown]
      exact hall
    · dsimp only
      rw [Dict.contains_merge, Bool.or_eq_true, hiff, or_assoc]
      simp [ht]

theorem outcomeNeeds_yields (hv : ∀ q, l.Registered q → Yields (visit q) (need q))
    (hk : l.Keyed) (owner : String) {codes : List String}
    (hl : ∀ code ∈ codes, l.pipes.contains code = true) (known : Requirements) :
    Yields (l.outcomeNeeds visit owner known codes)
      (fun name => known.contains name = true ∨
        ∃ code ∈ codes, ∃ target, l.pipes.get? code = some target ∧ need target name) := by
  induction codes generalizing known with
  | nil => exact ⟨known, rfl, fun _ => by simp⟩
  | cons code rest ih =>
    obtain ⟨target, ht⟩ := Dict.exists_of_contains (hl code List.mem_cons_self)
    obtain ⟨needs, hneeds, hiff⟩ := hv target (hk.registered ht)
    obtain ⟨all, hall, halliff⟩ := ih (fun t h => hl t (List.mem_cons_of_mem code h))
      (known.merge needs)
    refine ⟨all, ?_, fun name => (halliff name).trans ?_⟩
    · rw [outcomeNeeds, pipe_of_get? ht]
      simp only [Except.mapError, bind, Except.bind, hneeds]
      exact hall
    · dsimp only
      rw [Dict.contains_merge, Bool.or_eq_true, hiff, or_assoc]
      simp [ht]

/-- The names of a condition's own variables, under which requirements are put first. -/
theorem contains_foldl_insertNew (f : String → Requirement) (names : List String)
    (known : Requirements) :
    (names.foldl (fun known name => known.insertNew name (f name)) known).contains name = true ↔
      known.contains name = true ∨ name ∈ names := by
  induction names generalizing known with
  | nil => simp
  | cons n rest ih =>
    rw [List.foldl_cons, ih, Dict.contains_insertNew, Bool.or_eq_true, decide_eq_true_eq,
      List.mem_cons, @eq_comm _ n name, @or_comm (name = n), or_assoc]

/-- What `needsOf` computes for a pipe is its rule, on what is computed for the pipes below. -/
theorem needsOf_yields (h : l.Linked) (hp : l.Registered p)
    (hv : ∀ q, l.Registered q → Yields (visit q) (need q)) :
    Yields (l.needsOf visit p) (fun name => l.Rule name (fun q => need q name) p) := by
  have hl := h.pipes p hp
  unfold PipeLinked at hl
  unfold needsOf Rule
  cases hkind : p.kind with
  | operator op => exact ⟨p.inputs, rfl, fun _ => Iff.rfl⟩
  | sequence steps =>
    simp only [hkind] at hl ⊢
    simpa using sequenceNeeds_yields hv h.keyed p.code hl .empty []
  | parallel par =>
    simp only [hkind] at hl ⊢
    simpa using branchNeeds_yields hv h.keyed p.code hl .empty
  | condition c =>
    simp only [hkind] at hl ⊢
    obtain ⟨⟨names, hnames⟩, hcodes⟩ := hl
    obtain ⟨all, hall, halliff⟩ := outcomeNeeds_yields hv h.keyed p.code hcodes
      (names.foldl (fun known name =>
        known.insertNew name (l.declaredOrAnything p name)) .empty)
    refine ⟨all, by simpa only [hnames, bind, Except.bind] using hall,
      fun name => (halliff name).trans ?_⟩
    dsimp only
    rw [contains_foldl_insertNew]
    simp [hnames]
  | batch branch b =>
    simp only [hkind] at hl ⊢
    obtain ⟨target, ht, hi⟩ := hl
    obtain ⟨needs, hneeds, hiff⟩ := hv target (h.keyed.registered ht)
    obtain ⟨own, hown, howniff⟩ := absorb_yields p.code needs hi
    refine ⟨own, ?_, fun name => (howniff name).trans ?_⟩
    · simp only [pipe_of_get? ht, Except.mapError, bind, Except.bind, hneeds, hown]
    · dsimp only
      rw [propext (hiff name)]
      simp [ht]

end Computed

/-! ## Chains of pipes -/

/-- A name is needed past the pipes of a path: a chain of pipes outside the path, each of which
passes the name on to the one before, ends in a pipe that reads it. -/
inductive NeededPast (l : Library) (name : String) (path : List String) : Pipe → Prop where
  | reads {p : Pipe} (hp : p.code ∉ path) (h : l.Reads name p) : NeededPast l name path p
  | passes {p q : Pipe} (hp : p.code ∉ path) (hq : l.Registered q) (h : l.Passes name p q)
      (hn : NeededPast l name path q) : NeededPast l name path p

section Chains

variable {path : List String}

/-- A chain meets no pipe of the path. -/
theorem NeededPast.not_mem (h : l.NeededPast name path p) : p.code ∉ path := by
  cases h with
  | reads hp _ => exact hp
  | passes hp _ _ _ => exact hp

/-- A chain that avoids a longer path avoids a shorter one. -/
theorem NeededPast.tail {code : String} (h : l.NeededPast name (code :: path) p) :
    l.NeededPast name path p := by
  induction h with
  | reads hp hr => exact .reads (fun hm => hp (List.mem_cons_of_mem code hm)) hr
  | passes hp hq hpass _ ih =>
    exact .passes (fun hm => hp (List.mem_cons_of_mem code hm)) hq hpass ih

/-- A chain either avoids a pipe as well, or meets it; its part from the last meeting on then shows
that the pipe needs the name because of pipes whose chains avoid it. -/
theorem NeededPast.cut (hp : l.Registered p) (hq : l.Registered q)
    (h : l.NeededPast name path q) :
    l.NeededPast name (p.code :: path) q ∨
      l.Rule name (l.NeededPast name (p.code :: path)) p := by
  induction h with
  | @reads q hpath hr =>
    by_cases hc : q.code = p.code
    · rw [hq.eq_of_code hp hc] at hr
      exact .inr hr.rule
    · exact .inl (.reads (by simp [hc, hpath]) hr)
  | @passes q r hpath hr hpass _ ih =>
    rcases ih hr with hpast | hrule
    · by_cases hc : q.code = p.code
      · rw [hq.eq_of_code hp hc] at hpass
        exact .inr (hpass.rule hpast)
      · exact .inl (.passes (by simp [hc, hpath]) hr hpass hpast)
    · exact .inr hrule

/-- What the rule makes of chains is a chain. -/
theorem NeededPast.of_rule (hk : l.Keyed) (hp : p.code ∉ path)
    (h : l.Rule name (l.NeededPast name path) p) : l.NeededPast name path p := by
  rcases h.split hk with hr | ⟨q, hq, hn, hpass⟩
  · exact .reads hp hr
  · exact .passes hp hq hpass hn

/-- A pipe outside the path needs a name past it if its rule says so on the names that the pipes
below need past the path and the pipe itself. -/
theorem neededPast_iff_rule (hk : l.Keyed) (hp : l.Registered p) (hpath : p.code ∉ path) :
    l.NeededPast name path p ↔ l.Rule name (l.NeededPast name (p.code :: path)) p := by
  constructor
  · intro h
    cases h with
    | reads _ hr => exact hr.rule
    | passes _ hq hpass hn =>
      rcases hn.cut hp hq with hpast | hrule
      · exact hpass.rule hpast
      · exact hrule
  · intro h
    exact .of_rule hk hpath (h.imp fun _ => NeededPast.tail)

/-- With no path at all the rule is exact on what the pipes below need with no path. -/
theorem neededPast_nil_iff (hk : l.Keyed) (hp : l.Registered p) :
    l.NeededPast name [] p ↔ l.Rule name (l.NeededPast name []) p := by
  constructor
  · intro h
    exact ((neededPast_iff_rule hk hp List.not_mem_nil).1 h).imp fun _ => NeededPast.tail
  · intro h
    exact .of_rule hk List.not_mem_nil h

end Chains

/-! ## The visit -/

/-- How many pipes of the library are not on a path. -/
def remaining (l : Library) (path : List String) : Nat :=
  (l.pipes.keys.filter fun code => code ∉ path).length

/-- No more pipes remain than there are. -/
theorem remaining_le_size (path : List String) : l.remaining path ≤ l.pipes.size := by
  unfold remaining Dict.size
  have hlen : l.pipes.keys.length = l.pipes.entries.length := List.length_map _
  rw [← hlen]
  exact List.length_filter_le _ _

/-- A pipe that is put on the path remains no longer. -/
theorem remaining_cons_lt {path : List String} (hp : l.Registered p) (hpath : p.code ∉ path) :
    l.remaining (p.code :: path) < l.remaining path :=
  Dict.length_keys_filter_cons_lt (Dict.contains_of_get? hp) hpath

/-- The visit of a pipe ends well with the names that the pipe needs past the path, if it may go as
deep as there are pipes left. -/
theorem needsWithin_yields (h : l.Linked) (n : Nat) {path : List String} (hp : l.Registered p)
    (hn : l.remaining path < n) :
    Yields (l.needsWithin n path p) (fun name => l.NeededPast name path p) := by
  induction n generalizing path p with
  | zero => omega
  | succ n ih =>
    rw [needsWithin]
    by_cases hpath : p.code ∈ path
    · rw [if_pos hpath]
      exact ⟨.empty, rfl, fun _ => ⟨by simp, fun hn => absurd hpath hn.not_mem⟩⟩
    · rw [if_neg hpath]
      have hlt := remaining_cons_lt hp hpath
      have hbelow : ∀ q, l.Registered q → Yields (l.needsWithin n (p.code :: path) q)
          (fun name => l.NeededPast name (p.code :: path) q) := fun q hq => ih hq (by omega)
      obtain ⟨needs, hneeds, hiff⟩ := needsOf_yields h hp hbelow
      exact ⟨needs, hneeds, fun name =>
        (hiff name).trans (neededPast_iff_rule h.keyed hp hpath).symm⟩

/-! ### Depth

A visit that may go deep enough does not depend on how deep it may go.
-/

section Congruence

variable {visit visit' : Pipe → Except NeedsError Requirements}

/-- A pipe that another one names is registered. -/
theorem Keyed.registered_of_pipe (hk : l.Keyed) {code owner : String}
    (h : (l.pipe code owner).mapError NeedsError.missingPipes = .ok p) : l.Registered p :=
  hk.registered (pipe_eq_ok_iff.1 (mapError_eq_ok_iff.1 h))

theorem sequenceNeeds_congr (hv : ∀ q, l.Registered q → visit q = visit' q) (hk : l.Keyed)
    {owner : String} (steps : List Step) (known : Requirements) (produced : List String) :
    l.sequenceNeeds visit owner known produced steps =
      l.sequenceNeeds visit' owner known produced steps := by
  induction steps generalizing known produced with
  | nil => rfl
  | cons s rest ih =>
    rw [sequenceNeeds, sequenceNeeds]
    refine bind_congr_of_ok fun target ht => ?_
    rw [hv target (hk.registered_of_pipe ht)]
    simp only [ih]

theorem branchNeeds_congr (hv : ∀ q, l.Registered q → visit q = visit' q) (hk : l.Keyed)
    {owner : String} (steps : List Step) (known : Requirements) :
    l.branchNeeds visit owner known steps = l.branchNeeds visit' owner known steps := by
  induction steps generalizing known with
  | nil => rfl
  | cons s rest ih =>
    rw [branchNeeds, branchNeeds]
    refine bind_congr_of_ok fun target ht => ?_
    rw [hv target (hk.registered_of_pipe ht)]
    simp only [ih]

theorem outcomeNeeds_congr (hv : ∀ q, l.Registered q → visit q = visit' q) (hk : l.Keyed)
    {owner : String} (codes : List String) (known : Requirements) :
    l.outcomeNeeds visit owner known codes = l.outcomeNeeds visit' owner known codes := by
  induction codes generalizing known with
  | nil => rfl
  | cons code rest ih =>
    rw [outcomeNeeds, outcomeNeeds]
    refine bind_congr_of_ok fun target ht => ?_
    rw [hv target (hk.registered_of_pipe ht)]
    simp only [ih]

/-- What is computed for a pipe depends on what is computed for registered pipes only. -/
theorem needsOf_congr (hv : ∀ q, l.Registered q → visit q = visit' q) (hk : l.Keyed) (p : Pipe) :
    l.needsOf visit p = l.needsOf visit' p := by
  unfold needsOf
  cases p.kind with
  | operator op => rfl
  | sequence steps => exact sequenceNeeds_congr hv hk steps _ _
  | parallel q => exact branchNeeds_congr hv hk q.branches _
  | condition c => simp only [outcomeNeeds_congr hv hk]
  | batch branch b =>
    refine bind_congr_of_ok fun target ht => ?_
    rw [hv target (hk.registered_of_pipe ht)]

end Congruence

/-- Two visits that may both go as deep as there are pipes left are one. -/
theorem needsWithin_eq (hk : l.Keyed) (n m : Nat) {path : List String} (hp : l.Registered p)
    (hn : l.remaining path < n) (hm : l.remaining path < m) :
    l.needsWithin n path p = l.needsWithin m path p := by
  induction n generalizing m path p with
  | zero => omega
  | succ n ih =>
    obtain ⟨m, rfl⟩ : ∃ k, m = k + 1 := ⟨m - 1, by omega⟩
    rw [needsWithin, needsWithin]
    by_cases hpath : p.code ∈ path
    · rw [if_pos hpath, if_pos hpath]
    · rw [if_neg hpath, if_neg hpath]
      have hlt := remaining_cons_lt hp hpath
      exact needsOf_congr (fun q hq => ih m hq (by omega) (by omega)) hk p

/-- The needs of a pipe are the names that chains of pipes hand up to it. -/
theorem needs_yields (h : l.Linked) (hp : l.Registered p) :
    Yields (l.needs p) (fun name => l.NeededPast name [] p) :=
  needsWithin_yields h _ hp (by have := l.remaining_le_size []; omega)

/-- The needs of a pipe can be computed and hold the name. -/
def NeedsName (l : Library) (name : String) (p : Pipe) : Prop :=
  ∃ needs, l.needs p = .ok needs ∧ needs.contains name = true

/-- A pipe needs the names that chains of pipes hand up to it. -/
theorem needs_iff (h : l.Linked) (hp : l.Registered p) :
    l.NeedsName name p ↔ l.NeededPast name [] p := by
  obtain ⟨needs, hneeds, hiff⟩ := needs_yields h hp
  constructor
  · rintro ⟨needs', hneeds', hname⟩
    rw [hneeds] at hneeds'
    cases hneeds'
    exact (hiff name).1 hname
  · intro hname
    exact ⟨needs, hneeds, (hiff name).2 hname⟩

/-- A pipe needs the names that its rule makes of those that the pipes below need. -/
theorem needs_iff_rule (h : l.Linked) (hp : l.Registered p) :
    l.NeedsName name p ↔ l.Rule name (l.NeedsName name) p := by
  rw [needs_iff h hp, neededPast_nil_iff h.keyed hp]
  exact ⟨Rule.imp_registered h.keyed fun q hq => (needs_iff h hq).2,
    Rule.imp_registered h.keyed fun q hq => (needs_iff h hq).1⟩

/-- Needs are computed alike to every depth that is large enough, and they are what the pipe's own
rule makes of the needs of the pipes below, each computed from the start. -/
theorem needs_eq_needsOf_needs (h : l.Linked) (hp : l.Registered p) :
    (∀ n, l.pipes.size < n → l.needsWithin n [] p = l.needs p) ∧
    (∃ needs direct, l.needs p = .ok needs ∧ l.needsOf l.needs p = .ok direct ∧
      ∀ name, needs.contains name = direct.contains name) ∧
    ∀ name, l.NeedsName name p ↔ l.Rule name (l.NeedsName name) p := by
  refine ⟨fun n hn => ?_, ?_, fun name => needs_iff_rule h hp⟩
  · have hsize := l.remaining_le_size []
    exact needsWithin_eq h.keyed n _ hp (by omega) (by omega)
  · obtain ⟨needs, hneeds, hiff⟩ := needs_yields h hp
    obtain ⟨direct, hdirect, hdirectiff⟩ := needsOf_yields h hp fun q hq => needs_yields h hq
    refine ⟨needs, direct, hneeds, hdirect, ?_⟩
    intro name
    rw [Bool.eq_iff_iff, hiff, hdirectiff]
    exact neededPast_nil_iff h.keyed hp

/-! ## Two pipes that run each other -/

/-- A library is linked if its entries are. -/
theorem Linked.of_entries
    (h : ∀ e ∈ l.pipes.entries, e.2.code = e.1 ∧ l.PipeLinked e.2) : l.Linked where
  keyed code p hp := (h (code, p) (Dict.mem_entries_of_get? hp)).1
  pipes p hp := (h (p.code, p) (Dict.mem_entries_of_get? hp)).2

/-- Requirements on single texts. -/
def texts (names : List String) : Requirements :=
  .ofList (names.map fun name => (name, ⟨NativeConcept.text.concept, .single⟩))

/-- A pipe that makes a text from texts. -/
def textPipe (code : String) (inputs : List String) (kind : PipeKind) : Pipe where
  code
  domain := "relay"
  description := ""
  inputs := texts inputs
  output := NativeConcept.text.concept
  multiplicity := .single
  kind

/-- A text about a topic. -/
def write : Pipe :=
  textPipe "write" ["topic"] (.operator (.compose "${{ topic }}"))

/-- A text that is written and then judged. -/
def attempt : Pipe :=
  textPipe "attempt" ["topic", "wanted"]
    (.sequence [⟨"write", some "draft", none, none⟩, ⟨"judge", none, none, none⟩])

/-- A judgement after which there may be another attempt. -/
def judge : Pipe :=
  textPipe "judge" ["draft", "wanted", "topic"] (.condition
    ⟨.expression "draft == wanted", .ofList [("true", .run "write"), ("false", .run "attempt")],
      .fail, none⟩)

/-- A library in which an attempt leads to a judgement and a judgement to an attempt. -/
def relay : Library where
  domains := .ofList [("relay", ⟨"relay", none, none⟩)]
  concepts := .initial
  pipes := .ofList [("write", write), ("attempt", attempt), ("judge", judge)]

theorem relay_entries : relay.pipes.entries =
    [("write", write), ("attempt", attempt), ("judge", judge)] := by
  decide

/-- The pipes of that library. -/
theorem relay_registered (hp : relay.Registered p) : p = write ∨ p = attempt ∨ p = judge := by
  have hmem := Dict.mem_entries_of_get? hp
  rw [relay_entries] at hmem
  simp only [List.mem_cons, Prod.mk.injEq, List.not_mem_nil, or_false] at hmem
  exact hmem.imp And.right (Or.imp And.right And.right)

theorem relay_linked : relay.Linked := by
  refine .of_entries ?_
  intro e he
  rw [relay_entries] at he
  simp only [List.mem_cons, List.not_mem_nil, or_false] at he
  rcases he with rfl | rfl | rfl
  · exact ⟨rfl, trivial⟩
  · refine ⟨rfl, ?_⟩
    intro s hs
    simp only [List.mem_cons, List.not_mem_nil, or_false] at hs
    rcases hs with rfl | rfl
    · exact ⟨write, by decide, by simp⟩
    · exact ⟨judge, by decide, by simp⟩
  · refine ⟨rfl, exists_of_isOk ?_, by decide⟩
    decide +kernel

/-- The cycle of an attempt and a judgement hides no name. -/
theorem needs_eq_needsOf_needs_attempt :
    relay.Linked ∧ relay.Registered attempt ∧
    (∀ n, relay.pipes.size < n → relay.needsWithin n [] attempt = relay.needs attempt) ∧
    (∃ needs direct, relay.needs attempt = .ok needs ∧
      relay.needsOf relay.needs attempt = .ok direct ∧
      ∀ name, needs.contains name = direct.contains name) ∧
    ∀ name, relay.NeedsName name attempt ↔ relay.Rule name (relay.NeedsName name) attempt := by
  have hp : relay.Registered attempt := by unfold Registered; decide
  exact ⟨relay_linked, hp, needs_eq_needsOf_needs relay_linked hp⟩

end Conduit.Library
