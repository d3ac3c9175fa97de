import Conduit.Proofs.Library.Lost
import Conduit.Proofs.Run.Route

/-!
# Runs miss lost pipes only

Whatever has been loaded and unloaded, the needs and the runs of a registered pipe fail for a
missing pipe only if it, or a pipe that it reaches, has lost one (`Library.subPipes_after`). A pipe
does lose one when a domain is unloaded whose pipe it names (`Library.not_forall_subPipes_after`).
-/

namespace Conduit

namespace Library

variable {l : Library} {p q : Pipe}

/-- A pipe that a registered pipe reaches is registered. -/
theorem Keyed.registered_of_reaches (hk : l.Keyed) (hp : l.Registered p) (h : l.Reaches p q) :
    l.Registered q := by
  induction h with
  | refl => exact hp
  | tail _ hleads _ =>
    obtain ⟨code, _, hq⟩ := hleads
    exact hk.registered hq

/-- What a pipe names is there, and so is what every pipe names that it reaches. -/
def Closed (l : Library) (p : Pipe) : Prop :=
  ∀ q, l.Reaches p q → ∀ code ∈ q.subPipes, l.pipes.contains code = true

theorem Closed.leads (h : l.Closed p) (hleads : l.Leads p q) : l.Closed q :=
  fun a ha => h a (.head hleads ha)

theorem Closed.get?_ne_none (h : l.Closed p) (hq : l.Reaches p q) {code : String}
    (hcode : code ∈ q.subPipes) : l.pipes.get? code ≠ none := by
  obtain ⟨target, htarget⟩ := Dict.exists_of_contains (h q hq code hcode)
  rw [htarget]
  exact Option.some_ne_none target

theorem Closed.needs_not_missing (h : l.Closed p) (missing : MissingPipes) :
    l.needs p ≠ .error (.missingPipes missing) := by
  intro herr
  obtain ⟨q, hq, code, hcode, hnone⟩ := needs_missing herr
  exact h.get?_ne_none hq hcode hnone

end Library

namespace Engine

variable {e : Engine} {p : Pipe}

/-- The marks and errors of runs that find every pipe. -/
def FindsPipes (r : Run Memory) : Prop :=
  r.Obeys (fun _ => True) fun err => err.cause.missesPipe = false

/-- A pipe that names only pipes that are there misses none itself. -/
theorem closed_admits (h : e.library.Closed p) :
    Admits (e.Own p) (fun _ => True) (fun _ => True) fun err => err.cause.missesPipe = false where
  nested _ _ := trivial
  forStep _ _ _ := trivial
  entered _ _ _ := trivial
  event _ _ _ _ := trivial
  request _ _ _ _ := trivial
  call _ _ _ _ := trivial
  cause c hown := by
    by_contra hmisses
    obtain ⟨code, hcode, hnone⟩ := hown (by simpa using hmisses)
    exact h.get?_ne_none .refl hcode hnone

theorem lookup_of_registered (hp : e.library.Registered p) (params : RunParams) :
    e.lookup p.code params = .ok p := by
  rw [lookup, Library.pipe_of_get? hp]
  rfl

theorem fail_findsPipes {cause : RunCause} {place : Place} (h : cause.missesPipe = false) :
    FindsPipes ((Run.fail cause).located place) := by
  have hfail : FindsPipes (Run.fail cause) := Run.obeys_fail h
  exact hfail.located fun _ h => h

/-- The runs of a pipe find every pipe if what it reaches is there. -/
theorem runWithin_findsPipes (hk : e.library.Keyed) (levels : Nat) (hp : e.library.Registered p)
    (hclosed : e.library.Closed p) (m : Memory) (params : RunParams) (name : Option String) :
    FindsPipes (e.runWithin levels p.code m params name) := by
  induction levels generalizing p m params name with
  | zero =>
    unfold runWithin
    rw [lookup_of_registered hp]
    exact fail_findsPipes rfl
  | succ levels ih =>
    unfold runWithin
    rw [lookup_of_registered hp]
    refine Run.Obeys.located (dispatch_obeys (closed_admits hclosed) ?_ trivial) fun _ h => h
    -- a pipe that is run below is found under a name of this one
    intro code m inner name hruns _
    obtain ⟨named, hnamed, hcode⟩ := hruns
    obtain ⟨q, hq⟩ := Dict.exists_of_contains (hclosed p .refl named hnamed)
    have hcode : code = q.code := by
      rw [hk named q hq]
      rcases hcode with rfl | ⟨target, htarget, rfl⟩
      · rfl
      · exact hk named target htarget
    rw [hcode]
    exact ih (hk.registered hq) (hclosed.leads ⟨named, hnamed, hq⟩) m inner name

theorem withTimeout_findsPipes {code : String} {r : Run Memory} (h : FindsPipes r) :
    ∀ err, (e.withTimeout code r).result = .error err → err.cause.missesPipe = false := by
  intro err herr
  unfold withTimeout at herr
  split at herr
  · exact h.fails err herr
  · dsimp only at herr
    split at herr
    · exact h.fails err herr
    · cases herr
      rfl

/-- The needs of a pipe are computed, or that fails for another reason than a missing pipe. -/
theorem needs_finds (hclosed : e.library.Closed p) :
    Finds ((e.library.needs p).mapError NeedsError.toCause) := by
  intro c hc
  obtain ⟨err, herr, rfl⟩ := mapError_eq_error_iff.1 hc
  cases err with
  | missingPipes missing => exact absurd herr (hclosed.needs_not_missing missing)
  | templating _ => rfl
  | undeclaredItem _ => rfl

theorem dryMemory_finds (hp : e.library.Registered p) (hclosed : e.library.Closed p) :
    Finds (e.dryMemory p.code) := by
  unfold dryMemory
  rw [Library.pipe_of_get? hp]
  refine Finds.bind (x := (e.library.needs p).mapError NeedsError.toCause)
    (needs_finds hclosed) fun _ => finds_mapError fun err => ?_
  cases err <;> rfl

theorem execute_finds (hk : e.library.Keyed) (hp : e.library.Registered p)
    (hclosed : e.library.Closed p) (m : Memory) (params : RunParams) :
    ∀ err, (e.execute p.code m params).result = .error err → err.cause.missesPipe = false :=
  withTimeout_findsPipes (runWithin_findsPipes hk _ hp hclosed m params none)

theorem dryRun_finds (hk : e.library.Keyed) (hp : e.library.Registered p)
    (hclosed : e.library.Closed p) :
    ∀ err, (e.dryRun p.code).result = .error err → err.cause.missesPipe = false := by
  intro err herr
  have hends : (e.dryRun p.code).Ends (fun _ => True) fun c => c.missesPipe = false := by
    refine Run.ends_lift_bind (dryMemory_finds hp hclosed) fun m _ => ?_
    unfold Run.Ends
    cases h : (e.execute p.code m { dry := true }).result with
    | ok _ => trivial
    | error err => exact execute_finds hk hp hclosed m _ err h
  unfold Run.Ends at hends
  rw [herr] at hends
  exact hends

end Engine

/-! ## Histories -/

namespace Library

/-- After any changes, a registered pipe names a code without a pipe exactly if it has lost that
pipe: the domain of that pipe, which is another one, was unloaded while both were registered. If no
pipe that it reaches has lost one, neither its needs nor its runs fail for a missing pipe, with any
engine of the library, live or dry. -/
theorem subPipes_after (changes : List Change) (p : Pipe) (hp : (after changes).Registered p) :
    (∀ code ∈ p.subPipes,
      (after changes).pipes.contains code = false ↔ Lost changes p code) ∧
    ((∀ q, (after changes).Reaches p q → ∀ code ∈ q.subPipes, ¬ Lost changes q code) →
      (∀ missing, (after changes).needs p ≠ .error (.missingPipes missing)) ∧
      ∀ e : Engine, e.library = after changes →
        (∀ m params name err, (e.run p.code m params name).result = .error err →
          err.cause.missesPipe = false) ∧
        (∀ m params err, (e.execute p.code m params).result = .error err →
          err.cause.missesPipe = false) ∧
        ∀ err, (e.dryRun p.code).result = .error err → err.cause.missesPipe = false) := by
  have hk := keyed_after changes
  refine ⟨fun code hcode => not_contains_iff_lost hp hcode, fun hkept => ?_⟩
  have hclosed : (after changes).Closed p := by
    intro q hq code hcode
    by_contra hmissing
    have hq' := hk.registered_of_reaches hp hq
    exact hkept q hq code hcode (lost_of_not_contains hq' hcode (by simpa using hmissing))
  refine ⟨hclosed.needs_not_missing, ?_⟩
  rintro e he
  rw [← he] at hk hp hclosed
  exact ⟨fun m params name => (Engine.runWithin_findsPipes hk _ hp hclosed m params name).fails,
    Engine.execute_finds hk hp hclosed, Engine.dryRun_finds hk hp hclosed⟩

/-! ## Words and slogans -/

/-- A word about a topic. -/
def wordsBundle : Bundle where
  domain := ⟨"words", none, none⟩
  concepts := .empty
  pipes := .ofList [("word", textDeclaration ["topic"] (.compose "${{ topic }}"))]
  mainPipe := none

/-- A slogan that is made of a word of another domain. -/
def slogansBundle : Bundle where
  domain := ⟨"slogans", none, none⟩
  concepts := .empty
  pipes := .ofList [("slogan", textDeclaration ["topic"]
    (.sequence [⟨"word", none, none, none, none, none⟩]))]
  mainPipe := none

/-- Both are loaded. -/
def writtenChanges : List Change :=
  [.load wordsBundle {}, .load slogansBundle {}]

/-- The domain of the word is unloaded. -/
def lossChanges : List Change :=
  writtenChanges ++ [.unload "words"]

/-- The slogan, as it is made. -/
def slogan : Pipe where
  code := "slogan"
  domain := "slogans"
  description := ""
  inputs := .ofList [("topic", ⟨NativeConcept.text.concept, .single⟩)]
  output := NativeConcept.text.concept
  multiplicity := .single
  kind := .sequence [⟨"word", none, none, none⟩]

theorem slogan_registered :
    (after writtenChanges).Registered slogan ∧ (after lossChanges).Registered slogan := by
  unfold Registered
  decide +kernel

/-- Only unloading loses a pipe. -/
theorem Lost.exists_unload {changes : List Change} {p : Pipe} {code : String}
    (h : Lost changes p code) : ∃ domain, .unload domain ∈ changes := by
  obtain ⟨before, domain, later, rfl, _⟩ := h
  exact ⟨domain, List.mem_append_right _ List.mem_cons_self⟩

/-- When both domains are loaded the slogan has not lost its word, and it has when that of the word
is unloaded. -/
theorem subPipes_after_slogan :
    (after lossChanges).Registered slogan ∧ Lost lossChanges slogan "word" ∧
    (after writtenChanges).Registered slogan ∧
    (∀ q, (after writtenChanges).Reaches slogan q → ∀ code ∈ q.subPipes,
      ¬ Lost writtenChanges q code) ∧
    (∀ missing, (after writtenChanges).needs slogan ≠ .error (.missingPipes missing)) ∧
    ∀ err, (({ library := after writtenChanges } : Engine).dryRun slogan.code).result = .error err →
      err.cause.missesPipe = false := by
  obtain ⟨hwritten, hloss⟩ := slogan_registered
  have hmissing : (after lossChanges).pipes.contains "word" = false := by decide +kernel
  have hkept : ∀ q, (after writtenChanges).Reaches slogan q → ∀ code ∈ q.subPipes,
      ¬ Lost writtenChanges q code := by
    intro q _ code _ hlost
    obtain ⟨domain, hmem⟩ := hlost.exists_unload
    simp [writtenChanges] at hmem
  obtain ⟨hneeds, hruns⟩ := (subPipes_after writtenChanges slogan hwritten).2 hkept
  exact ⟨hloss, ((subPipes_after lossChanges slogan hloss).1 "word" List.mem_cons_self).1 hmissing,
    hwritten, hkept, hneeds, (hruns { library := after writtenChanges } rfl).2.2⟩

/-- The slogan names a pipe that is not there, and both its needs and its runs fail for that. -/
theorem slogan_misses_word : (after lossChanges).Registered slogan ∧ "word" ∈ slogan.subPipes ∧
    (after lossChanges).pipes.contains "word" = false ∧
    (after lossChanges).needs slogan = .error (.missingPipes ⟨"slogan", ["word"]⟩) ∧
    ((({ library := after lossChanges } : Engine).execute slogan.code Engine.wantedMemory
      {}).result.map fun _ => ()).mapError RunError.cause =
        .error (.missingPipes ⟨"slogan", ["word"]⟩) := by
  refine ⟨slogan_registered.2, ?_⟩
  decide +kernel

/-- Not every pipe that a registered pipe names is there, whatever has been loaded and unloaded. -/
theorem not_forall_subPipes_after : ¬ ∀ (changes : List Change) (p : Pipe),
    (after changes).Registered p →
      (∀ code ∈ p.subPipes, (after changes).pipes.contains code = true) ∧
      (∀ missing, (after changes).needs p ≠ .error (.missingPipes missing)) ∧
      ∀ (e : Engine) (m : Memory) (params : RunParams) (err : RunError), e.library = after changes →
        (e.execute p.code m params).result = .error err → err.cause.missesPipe = false := by
  intro hall
  obtain ⟨hslogan, hnames, hmissing, _⟩ := slogan_misses_word
  have hthere := (hall lossChanges slogan hslogan).1 "word" hnames
  rw [hmissing] at hthere
  cases hthere

end Library

end Conduit
