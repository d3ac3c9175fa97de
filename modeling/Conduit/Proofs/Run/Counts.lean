import Conduit.Proofs.Memory.Fresh
import Conduit.Proofs.Run.Merged

/-!
# Fixed numbers of results

A pipe whose multiplicity is fixed asks the generator for that many results, and a generator may
answer with any number. What an operator with a fixed number then does is told by what it asks for
and by how it ends together (`Run.Meets`): it asks once, and what it stores is the list of all that
the generator gave. A language model and an image generator compare the number of results with the
fixed one and fail with an error of the backend if it is another one. A page reader does not compare
them: whatever number of pages it is given, it stores as many (`Engine.runOperator_fixed`).
-/

namespace Conduit

variable {α β : Type}

/-- How many results a generator answers a request with. -/
def Generator.count? (g : Generator) : Request → Except BackendError Nat
  | .text prompt => (g.text prompt).answer.map fun _ => 1
  | .object prompt schema => (g.object prompt schema).answer.map fun _ => 1
  | .objects prompt schema count => (g.objects prompt schema count).answer.map List.length
  | .images prompt count => (g.images prompt count).answer.map List.length
  | .pages document views => (g.pages document views).answer.map List.length

namespace Operator

/-- Whether an operator asks a generator for its content. -/
def generates : Operator → Bool
  | .llm .. | .imgGen _ | .extract _ => true
  | .func _ | .compose _ => false

/-- The operation whose number of results an operator compares with a fixed one. -/
def compared? : Operator → Option String
  | .llm .. => some "structured generation"
  | .imgGen _ => some "image generation"
  | .extract _ | .func _ | .compose _ => none

end Operator

/-- The error that a generator gave another number of results than the fixed one. -/
def RunCause.miscounted (pipe operation : String) (expected received : Nat) : RunCause :=
  .backend pipe (.failed operation s!"expected {expected} results, got {received}")

/-! ## Requests and results -/

namespace Run

/-- What a run asks the generator for and how it ends satisfy a condition together. -/
def Meets (r : Run α) (post : List Request → Except RunError α → Prop) : Prop :=
  post r.requests r.result

section

variable {post : List Request → Except RunError β → Prop} {f : α → Run β}

/-- What two runs, one after the other, ask for, and how they end. -/
theorem meets_bind {r : Run α} (herr : ∀ e, r.result = .error e → post r.requests (.error e))
    (hok : ∀ a, r.result = .ok a → (f a).Meets fun requests => post (r.requests ++ requests)) :
    (r >>= f).Meets post := by
  change (Run.bind r f).Meets post
  unfold Run.bind
  cases hr : r.result with
  | error e => exact herr e hr
  | ok a =>
    have hnext := hok a hr
    unfold Meets requests at hnext ⊢
    simpa only [List.filterMap_append] using hnext

/-- A result that is known asks for nothing. -/
theorem meets_lift_bind {x : Except RunCause α}
    (herr : ∀ c, x = .error c → post [] (.error { cause := c }))
    (hok : ∀ a, x = .ok a → (f a).Meets post) : (liftM x >>= f).Meets post := by
  cases x with
  | error c => exact herr c rfl
  | ok a =>
    refine meets_bind (r := ofExcept (.ok a)) nofun fun b hb => ?_
    cases hb
    exact hok a rfl

/-- What is asked of a generator, and answered. -/
theorem meets_ask_bind {pipe : String} {dry : Bool} {request : Request} {reply : Reply α}
    (herr : ∀ err, reply.answer = .error err →
      post (if dry then [] else [request]) (.error { cause := .backend pipe err }))
    (hok : ∀ a, reply.answer = .ok a →
      (f a).Meets fun requests => post ((if dry then [] else [request]) ++ requests)) :
    (ask pipe dry request reply >>= f).Meets post := by
  have hrequests : (ask pipe dry request reply).requests = if dry then [] else [request] := by
    cases dry <;> rfl
  refine meets_bind (fun e he => ?_) fun a ha => ?_
  · obtain ⟨err, herr', rfl⟩ := mapError_eq_error_iff.1 he
    rw [hrequests]
    exact herr err herr'
  · rw [hrequests]
    exact hok a (mapError_eq_ok_iff.1 ha)

end

end Run

namespace Engine

variable {e : Engine} {p : Pipe} {op : Operator} {m m' : Memory} {params : RunParams}
  {name : Option String} {c : Concept} {n : Nat}

/-! ## What operators make of a fixed number -/

/-- What an operator with a fixed number `n` asks for, live or dry, and how it ends: `holds` tells
which items its result holds, and `free` that nothing but the generator can fail. -/
structure Counted (e : Engine) (p : Pipe) (op : Operator) (dry : Bool) (n : Nat) (free : Prop)
    (holds : α → List Content → Prop) (requests : List Request) (result : Except RunError α) :
    Prop where
  /-- The result holds the list of all that the generator gave when it was asked, once. -/
  made : ∀ a, result = .ok a → ∃ items, holds a items ∧
    (op.compared? ≠ none → items.length = n) ∧
    (dry = false → ∃ q, requests = [q] ∧ e.generator.count? q = .ok items.length)
  /-- Where the number of results is compared, no other number will do. -/
  compared : dry = false → ∀ q ∈ requests, ∀ k, e.generator.count? q = .ok k →
    ∀ operation, op.compared? = some operation → k ≠ n →
      result = .error { cause := .miscounted p.code operation n k }
  /-- Where it is not, any number will do. -/
  unchecked : dry = false → ∀ q ∈ requests, ∀ k, e.generator.count? q = .ok k →
    op.compared? = none → free → ∃ a, result = .ok a

/-- The items of content that is a list. -/
def Lists (content : Content) (items : List Content) : Prop :=
  content = .list items

/-- The items of the latest result, which is a list. -/
def LatestLists (m : Memory) (items : List Content) : Prop :=
  ∃ s, m.main = .ok s ∧ s.content = .list items

section

variable {free : Prop} {holds : α → List Content → Prop} {dry : Bool}

/-- An operator that fails before it asks for anything. -/
theorem counted_nothing {err : RunError} : e.Counted p op dry n free holds [] (.error err) :=
  ⟨nofun, fun _ _ hq => absurd hq List.not_mem_nil, fun _ _ hq => absurd hq List.not_mem_nil⟩

/-- An operator whose generator answers with an error. -/
theorem counted_refused {request : Request} {err : BackendError}
    (hanswer : params.dry = false → e.generator.count? request = .error err) :
    e.Counted p op params.dry n free holds (if params.dry then [] else [request])
      (.error { cause := .backend p.code err }) := by
  refine ⟨nofun, fun hdry q hq k hk => ?_, fun hdry q hq k hk => ?_⟩ <;>
  · rw [hdry] at hq
    rw [List.mem_singleton.1 hq, hanswer hdry] at hk
    cases hk

/-- What has failed where nothing but the generator can fail fails in whatever it is a part of. -/
theorem Counted.fails {holds' : β → List Content → Prop} {requests : List Request} {err : RunError}
    (h : e.Counted p op dry n True holds requests (.error err)) :
    e.Counted p op dry n free holds' requests (.error err) := by
  refine ⟨nofun, fun hdry q hq k hk operation hop hne => ?_, fun hdry q hq k hk hop _ => ?_⟩
  · cases h.compared hdry q hq k hk operation hop hne
    rfl
  · obtain ⟨_, hresult⟩ := h.unchecked hdry q hq k hk hop trivial
    cases hresult

end

/-- The number that is fixed is the number of results. -/
theorem checkCount_fixed {pipe operation : String} {received : Nat} :
    checkCount pipe operation (.fixed n) received =
      if n = received then .ok () else .error (.miscounted pipe operation n received) :=
  rfl

/-- A run that has compared the number of results with the fixed one goes on to a list of as many
items, or fails. -/
theorem counted_compared {operation : String} {request : Request} {received : Nat}
    {next : Unit → Run Content} (hop : op.compared? = some operation)
    (hanswer : params.dry = false → e.generator.count? request = .ok received)
    (hnext : (next ()).Meets fun requests result => requests = [] ∧
      ∀ content, result = .ok content → ∃ items, Lists content items ∧ items.length = received) :
    (liftM (checkCount p.code operation (.fixed n) received) >>= next).Meets fun requests =>
      e.Counted p op params.dry n True Lists ((if params.dry then [] else [request]) ++ requests) := by
  have hasked : ∀ q ∈ (if params.dry then [] else [request]), params.dry = false →
      ∀ k, e.generator.count? q = .ok k → k = received := by
    intro q hq hdry k hk
    rw [hdry] at hq
    rw [List.mem_singleton.1 hq, hanswer hdry] at hk
    exact (Except.ok.inj hk).symm
  rw [checkCount_fixed]
  split
  · next heq =>
    refine Run.meets_lift_bind nofun fun _ _ => ?_
    obtain ⟨hrequests, hlist⟩ := hnext
    unfold Run.Meets
    dsimp only
    rw [hrequests, List.append_nil]
    refine ⟨fun content hcontent => ?_, fun hdry q hq k hk _ _ hne => ?_, fun _ _ _ _ _ hnone _ => ?_⟩
    · obtain ⟨items, hitems, hlength⟩ := hlist content hcontent
      refine ⟨items, hitems, fun _ => hlength.trans heq.symm, fun hdry => ⟨request, ?_, ?_⟩⟩
      · rw [hdry]
        rfl
      · rw [hlength]
        exact hanswer hdry
    · exact absurd ((hasked q hq hdry k hk).trans heq.symm) hne
    · rw [hop] at hnone
      cases hnone
  · refine Run.meets_lift_bind (fun cause hcause => ?_) nofun
    cases hcause
    rw [List.append_nil]
    refine ⟨nofun, fun hdry q hq k hk operation' hop' _ => ?_, fun _ _ _ _ _ hnone _ => ?_⟩
    · rw [hasked q hq hdry k hk]
      rw [hop] at hop'
      cases hop'
      rfl
    · rw [hop] at hnone
      cases hnone

theorem runLlm_counted {user : String} {system : Option String}
    (hn : outputMultiplicity p params = .fixed n) :
    (e.runLlm p m params c user system).Meets (e.Counted p (.llm user system) params.dry n True Lists) := by
  unfold runLlm
  refine Run.meets_lift_bind (fun _ _ => counted_nothing) fun prompt _ => ?_
  simp only [hn]
  refine Run.meets_ask_bind (fun err herr => counted_refused fun hdry => ?_) fun vs hvs => ?_
  · rw [hdry] at herr
    exact map_eq_error_iff.2 herr
  · refine counted_compared rfl (fun hdry => ?_) ?_
    · rw [hdry] at hvs
      exact map_eq_ok_iff.2 ⟨vs, hvs, rfl⟩
    · refine Run.meets_lift_bind (fun _ _ => ⟨rfl, nofun⟩) fun items hitems => ⟨rfl, ?_⟩
      intro content hcontent
      cases hcontent
      have hread := forall₂_of_mapM (mapError_eq_ok_iff.1 hitems)
      exact ⟨items, rfl, hread.length_eq.symm⟩

theorem runImgGen_counted {source : Option String} (hn : outputMultiplicity p params = .fixed n) :
    (e.runImgGen p m params source).Meets (e.Counted p (.imgGen source) params.dry n True Lists) := by
  unfold runImgGen
  refine Run.meets_lift_bind (fun _ _ => counted_nothing) fun prompt _ => ?_
  simp only [hn]
  refine Run.meets_ask_bind (fun err herr => counted_refused fun hdry => ?_) fun images himages => ?_
  · rw [hdry] at herr
    exact map_eq_error_iff.2 herr
  · refine counted_compared rfl (fun hdry => ?_) ⟨rfl, ?_⟩
    · rw [hdry] at himages
      exact map_eq_ok_iff.2 ⟨images, himages, rfl⟩
    · intro content hcontent
      cases hcontent
      exact ⟨_, rfl, List.length_map _⟩

theorem runExtract_counted {views : Bool} (hn : outputMultiplicity p params = .fixed n) :
    (e.runExtract p m params views).Meets (e.Counted p (.extract views) params.dry n True Lists) := by
  unfold runExtract
  refine Run.meets_lift_bind (fun _ _ => counted_nothing) fun input _ => ?_
  refine Run.meets_lift_bind (fun _ _ => counted_nothing) fun document _ => ?_
  simp only [hn]
  refine Run.meets_ask_bind (fun err herr => counted_refused fun hdry => ?_) fun pages hpages => ?_
  · rw [hdry] at herr
    exact map_eq_error_iff.2 herr
  · refine ⟨fun content hcontent => ?_, fun _ _ _ _ _ _ => nofun, fun _ _ _ _ _ _ _ => ⟨_, rfl⟩⟩
    cases hcontent
    refine ⟨_, rfl, fun hop => absurd rfl hop, fun hdry => ⟨.pages document views, ?_, ?_⟩⟩
    · rw [hdry]
      rfl
    · rw [hdry] at hpages
      rw [List.length_map]
      exact map_eq_ok_iff.2 ⟨pages, hpages, rfl⟩

/-- What an operator that asks a generator makes of a fixed number. -/
theorem makeContent_counted (hop : op.generates = true)
    (hn : outputMultiplicity p params = .fixed n) :
    (e.makeContent p m params c op).Meets (e.Counted p op params.dry n True Lists) := by
  cases op with
  | llm user system => exact runLlm_counted hn
  | imgGen source => exact runImgGen_counted hn
  | extract views => exact runExtract_counted hn
  | func _ | compose _ => cases hop

/-! ## What is stored -/

/-- New content can be stored as the latest result under a name that is not reserved. -/
theorem exists_storeResult_of_ne (content : Content) (hname : name ≠ some Memory.mainAlias) :
    ∃ stored m', storeResult m p.code c content name = .ok (stored, m') := by
  cases name with
  | none => exact exists_storeResult m p.code c content
  | some key =>
    have hkey : key ≠ Memory.mainAlias := fun heq => hname (congrArg some heq)
    obtain ⟨m', hm'⟩ : ∃ m', m.setMain (m.fresh key c content) (some key) = (.ok key, m') :=
      Memory.exists_setMain hkey
    exact ⟨key, m', by rw [storeResult, Option.getD_some, hm']; rfl⟩

/-- An operator that asks a generator, with a fixed number of results, live or dry. If it succeeds,
its latest result is the list of all that the generator gave, and a language model or an image
generator has made as many as are fixed. Live, a language model or an image generator fails with an
error of the backend if it is given another number of results than the fixed one; but a page reader
that is given pages stores them, whatever their number, under any name that is not reserved. -/
theorem runOperator_fixed (e : Engine) (p : Pipe) (op : Operator) (m : Memory) (params : RunParams)
    (name : Option String) (n : Nat) (hop : op.generates = true)
    (hn : outputMultiplicity p params = .fixed n) :
    e.Counted p op params.dry n (name ≠ some Memory.mainAlias) LatestLists
      (e.runOperator p op m params name).requests (e.runOperator p op m params name).result := by
  unfold runOperator
  refine Run.meets_lift_bind (fun _ _ => counted_nothing) fun c _ => ?_
  have hcounted : (e.makeContent p m params c op).Meets
      (e.Counted p op params.dry n True Lists) := makeContent_counted hop hn
  unfold Run.Meets at hcounted
  refine Run.meets_bind (fun err herr => ?_) fun content hcontent => ?_
  · rw [herr] at hcounted
    exact hcounted.fails
  · rw [hcontent] at hcounted
    obtain ⟨items, rfl, hlength, hgave⟩ := hcounted.made content rfl
    -- content has been made, so the numbers are the same where they are compared
    have hsame : params.dry = false → ∀ q ∈ (e.makeContent p m params c op).requests, ∀ k,
        e.generator.count? q = .ok k → ∀ operation, op.compared? = some operation → ¬ k ≠ n := by
      intro hdry q hq k hk operation hoperation hne
      cases hcounted.compared hdry q hq k hk operation hoperation hne
    refine Run.meets_lift_bind (fun cause hcause => ?_) fun ⟨stored, m'⟩ hstored => ?_
    · rw [List.append_nil]
      refine ⟨nofun, fun hdry q hq k hk operation hoperation hne => ?_, fun _ _ _ _ _ _ hname => ?_⟩
      · exact absurd hne (hsame hdry q hq k hk operation hoperation)
      · obtain ⟨_, _, hstored⟩ := exists_storeResult_of_ne (m := m) (p := p) (c := c)
          (.list items) hname
        rw [hstored] at hcause
        cases hcause
    · refine Run.meets_bind (r := Run.emit _) nofun fun _ _ => ?_
      change e.Counted p op params.dry n _ LatestLists (_ ++ []) (.ok m')
      rw [List.append_nil]
      obtain ⟨s, hs, _, hmade, _⟩ := storeResult_latest hstored
      refine ⟨?_, fun hdry q hq k hk operation hoperation hne => ?_, fun _ _ _ _ _ _ _ => ⟨m', rfl⟩⟩
      · intro m'' hm''
        cases hm''
        exact ⟨items, ⟨s, hs, hmade⟩, hlength, hgave⟩
      · exact absurd hne (hsame hdry q hq k hk operation hoperation)

end Engine

/-! ## Two pages of a leaflet -/

namespace Library

/-- Two pages of a leaflet. -/
def scanLeaflet : Pipe where
  code := "scan"
  domain := "leaflets"
  description := ""
  inputs := .ofList [("leaflet", ⟨NativeConcept.pdf.concept, .single⟩)]
  output := NativeConcept.page.concept
  multiplicity := .fixed 2
  kind := .operator (.extract false)

/-- Two images for a leaflet. -/
def illustrateLeaflet : Pipe where
  code := "illustrate"
  domain := "leaflets"
  description := ""
  inputs := .empty
  output := NativeConcept.image.concept
  multiplicity := .fixed 2
  kind := .operator (.imgGen (some "a leaflet"))

/-- A library that reads and illustrates leaflets. -/
def leaflets : Library where
  domains := .ofList [("leaflets", ⟨"leaflets", none, none⟩)]
  concepts := .initial
  pipes := .ofList [("scan", scanLeaflet), ("illustrate", illustrateLeaflet)]

/-- The bundle that makes `leaflets`. -/
def leafletsBundle : Bundle where
  domain := ⟨"leaflets", none, none⟩
  concepts := .empty
  pipes := .ofList [
    ("scan", ⟨⟨"", .ofList [("leaflet", "PDF")], "Page[2]"⟩, .extract false⟩),
    ("illustrate", ⟨⟨"", .empty, "Image[2]"⟩, .imgGen (some "a leaflet") none⟩)]
  mainPipe := none

theorem leaflets_loaded : leaflets.Loaded := by
  refine .load .initial (b := leafletsBundle) (eq_ok_of_toOption ?_)
  decide +kernel

end Library

namespace Engine

/-- A generator that gives one image and one page, whatever it is asked for. -/
def singly : Generator :=
  { Generator.unavailable with
    images := fun _ _ => { answer := .ok [⟨"front.png", none⟩] }
    pages := fun _ _ => { answer := .ok [⟨⟨some "front", []⟩, none⟩] } }

/-- An engine for leaflets. -/
def leafletsEngine : Engine :=
  { library := Library.leaflets, generator := singly }

/-- A memory that holds a leaflet. -/
def leafletMemory : Memory :=
  Memory.empty.set "leaflet" (Memory.empty.fresh "leaflet" NativeConcept.pdf.concept
    (.pdf "leaflet.pdf"))

/-- Not every operator with a fixed number stores as many results: a page reader that is to make two
pages and is given one stores one. -/
theorem not_forall_runOperator_fixed : ¬ ∀ (e : Engine) (p : Pipe) (op : Operator) (m m' : Memory)
      (params : RunParams) (name : Option String) (n : Nat), e.library.Loaded →
    e.library.Registered p → p.kind = .operator op → op.generates = true →
    outputMultiplicity p params = .fixed n →
    (e.runOperator p op m params name).result = .ok m' →
      ∃ s items, m'.main = .ok s ∧ s.content = .list items ∧ items.length = n := by
  intro hall
  have hcount : ((leafletsEngine.runOperator Library.scanLeaflet (.extract false) leafletMemory {}
      none).result.toOption.bind fun m' =>
        m'.main.toOption.bind fun s => s.content.count?) = some 1 := by
    decide +kernel
  obtain ⟨m', hm', hcount⟩ := Option.bind_eq_some_iff.1 hcount
  obtain ⟨s, items, hs, hitems, hlength⟩ := hall leafletsEngine Library.scanLeaflet
    (.extract false) leafletMemory m' {} none 2 Library.leaflets_loaded
    (by unfold Library.Registered; decide) rfl rfl rfl (eq_ok_of_toOption hm')
  rw [hs] at hcount
  change s.content.count? = some 1 at hcount
  rw [hitems, Content.count?, hlength] at hcount
  cases hcount

/-- The image generator that is to make two images is given one, and fails. -/
theorem runOperator_fixed_illustrate :
    Operator.generates (.imgGen (some "a leaflet")) = true ∧
    outputMultiplicity Library.illustrateLeaflet {} = .fixed 2 ∧
    (leafletsEngine.runOperator Library.illustrateLeaflet (.imgGen (some "a leaflet")) .empty {}
      none).result = .error { cause := .miscounted "illustrate" "image generation" 2 1 } := by
  have hasked : .images "a leaflet" 2 ∈ (leafletsEngine.runOperator Library.illustrateLeaflet
      (.imgGen (some "a leaflet")) .empty {} none).requests := by
    decide +kernel
  have hcounted := runOperator_fixed leafletsEngine Library.illustrateLeaflet
    (.imgGen (some "a leaflet")) .empty {} none 2 rfl rfl
  exact ⟨rfl, rfl, hcounted.compared rfl _ hasked 1 rfl _ rfl (by decide)⟩

end Engine

end Conduit
