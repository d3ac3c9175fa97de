import Mathlib.Data.List.Chain
import Conduit.Proofs.Structure.Tokens
import Conduit.Structure.Source.Parser

/-!
# Reading what a structure is written with

The lexemes that write a field type, a field and the fields of a structure (`WritesType`,
`fieldLexemes`, `Writes`) are read as what they write, whatever the places of the tokens are. Every
reader is told in terms of the lexemes before and after it (`Reads`).

What is optional is read only if it comes next, so what follows a type must not be an opening `<`.
The clauses of a field start with words (`clauseWords`), and a field can go on with those that come
after its last one (`openWords`): what follows it must be none of these, or else it is not read
(`field_ok_written`). So a structure is read exactly if no field is called by a word with which the
field before it could go on, and if the texts of its defaults can be read
(`Writes.all_eq_ok_iff`).
-/

namespace Conduit.SourceParser

variable {α : Type} {ts : List SourceToken} {lexemes rest : List Lexeme}

/-- A reader gives a result and leaves tokens of certain lexemes. -/
def Reads (read : Except Failure (α × List SourceToken)) (a : α) (rest : List Lexeme) : Prop :=
  ∃ ts, read = .ok (a, ts) ∧ ts.map SourceToken.lexeme = rest

/-! ## Single tokens -/

theorem token_reads {expected : String} {accept : Lexeme → Option α} {l : Lexeme} {a : α}
    (hts : ts.map SourceToken.lexeme = l :: rest) (ha : accept l = some a) :
    ∃ location, Reads (token expected accept ts) (a, location) rest := by
  obtain ⟨t, ts, rfl, rfl, rfl⟩ := List.map_eq_cons_iff.1 hts
  exact ⟨t.location, ts, by simp only [token, ha], rfl⟩

theorem word_reads (expected : String) {name : String}
    (hts : ts.map SourceToken.lexeme = .word name :: rest) :
    ∃ location, Reads (word expected ts) (name, location) rest :=
  token_reads hts rfl

theorem literal_reads (expected : String) {text : String}
    (hts : ts.map SourceToken.lexeme = .literal text :: rest) :
    ∃ location, Reads (literal expected ts) (text, location) rest :=
  token_reads hts rfl

theorem exactly_reads {l : Lexeme} (hts : ts.map SourceToken.lexeme = l :: rest) :
    ∃ ts', exactly l ts = .ok ts' ∧ ts'.map SourceToken.lexeme = rest := by
  obtain ⟨t, ts, rfl, rfl, rfl⟩ := List.map_eq_cons_iff.1 hts
  exact ⟨ts, by simp [exactly, token, Except.map], rfl⟩

theorem skip_reads {l : Lexeme} (hts : ts.map SourceToken.lexeme = l :: rest) :
    ∃ ts', skip l ts = (true, ts') ∧ ts'.map SourceToken.lexeme = rest := by
  obtain ⟨t, ts, rfl, rfl, rfl⟩ := List.map_eq_cons_iff.1 hts
  exact ⟨ts, by simp [skip], rfl⟩

/-- A token that does not come next is not skipped. -/
theorem skip_passes {l : Lexeme} (hts : ts.map SourceToken.lexeme = rest)
    (h : rest.head? ≠ some l) : skip l ts = (false, ts) := by
  subst hts
  cases ts with
  | nil => rfl
  | cons t ts =>
    have hne : t.lexeme ≠ l := fun heq => h (congrArg some heq)
    simp [skip, hne]

/-! ## Types -/

/-- The words that do not name a structure where a type is read. -/
def typeWords : List String := ["text", "integer", "boolean", "number", "date", "list", "dict"]

/-- Lexemes write a field type. A dictionary without type arguments has texts as its keys. -/
inductive WritesType : List Lexeme → FieldType → Prop
  | text : WritesType [.word "text"] .text
  | integer : WritesType [.word "integer"] .integer
  | boolean : WritesType [.word "boolean"] .boolean
  | number : WritesType [.word "number"] .number
  | date : WritesType [.word "date"] .date
  | anyList : WritesType [.word "list"] .anyList
  | listOf {item : List Lexeme} {t : FieldType} (h : WritesType item t) :
    WritesType (.word "list" :: .mark '<' :: (item ++ [.mark '>'])) (.listOf t)
  | textDict : WritesType [.word "dict"] (.anyDict .text)
  | anyDict {key : List Lexeme} {t : FieldType} (h : WritesType key t) :
    WritesType (.word "dict" :: .mark '<' :: (key ++ [.mark '>'])) (.anyDict t)
  | dictOf {key value : List Lexeme} {t u : FieldType} (hkey : WritesType key t)
    (hvalue : WritesType value u) :
    WritesType (.word "dict" :: .mark '<' :: (key ++ .mark ',' :: (value ++ [.mark '>'])))
      (.dictOf t u)
  | nested {name : String} (h : name ∉ typeWords) : WritesType [.word name] (.nested name)

/-- A type is read, unless what follows goes on with it. -/
theorem fieldType_reads {t : FieldType} (h : WritesType lexemes t) {n : Nat}
    (hn : lexemes.length ≤ n + 1) (hts : ts.map SourceToken.lexeme = lexemes ++ rest)
    (hrest : rest.head? ≠ some (.mark '<')) : Reads (fieldType (n + 1) ts) t rest := by
  induction h generalizing n ts rest with
  | text | integer | boolean | number | date =>
    obtain ⟨_, ts₁, hword, hts₁⟩ := word_reads "field type" hts
    exact ⟨ts₁, by simp only [fieldType, hword]; rfl, hts₁⟩
  | nested hname =>
    obtain ⟨_, ts₁, hword, hts₁⟩ := word_reads "field type" hts
    refine ⟨ts₁, ?_, hts₁⟩
    simp only [fieldType, hword, ok_bind]
    split
    case h_8 => rfl
    all_goals exact absurd (by decide) hname
  | anyList | textDict =>
    obtain ⟨_, ts₁, hword, hts₁⟩ := word_reads "field type" hts
    refine ⟨ts₁, ?_, hts₁⟩
    simp only [fieldType, hword, ok_bind, skip_passes hts₁ hrest]
    rfl
  | @listOf item t h ih =>
    obtain ⟨n, rfl⟩ : ∃ m, n = m + 1 := ⟨n - 1, by simp at hn; omega⟩
    simp only [List.cons_append, List.append_assoc, List.nil_append] at hts
    obtain ⟨_, ts₁, hword, hts₁⟩ := word_reads "field type" hts
    obtain ⟨ts₂, hopen, hts₂⟩ := skip_reads hts₁
    obtain ⟨ts₃, hitem, hts₃⟩ := ih (n := n) (by simp at hn; omega) hts₂ (by simp)
    obtain ⟨ts₄, hclose, hts₄⟩ := exactly_reads hts₃
    refine ⟨ts₄, ?_, hts₄⟩
    rw [fieldType]
    simp only [hword, ok_bind, hopen, hitem, hclose]
    rfl
  | @anyDict key t h ih =>
    obtain ⟨n, rfl⟩ : ∃ m, n = m + 1 := ⟨n - 1, by simp at hn; omega⟩
    simp only [List.cons_append, List.append_assoc, List.nil_append] at hts
    obtain ⟨_, ts₁, hword, hts₁⟩ := word_reads "field type" hts
    obtain ⟨ts₂, hopen, hts₂⟩ := skip_reads hts₁
    obtain ⟨ts₃, hkey, hts₃⟩ := ih (n := n) (by simp at hn; omega) hts₂ (by simp)
    obtain ⟨ts₄, hclose, hts₄⟩ := exactly_reads hts₃
    refine ⟨ts₄, ?_, hts₄⟩
    rw [fieldType]
    simp only [hword, ok_bind, hopen, hkey, skip_passes hts₃ (l := .mark ',') (by simp), hclose]
    rfl
  | @dictOf key value t u hkey hvalue ihkey ihvalue =>
    obtain ⟨n, rfl⟩ : ∃ m, n = m + 1 := ⟨n - 1, by simp at hn; omega⟩
    simp only [List.cons_append, List.append_assoc, List.nil_append] at hts
    obtain ⟨_, ts₁, hword, hts₁⟩ := word_reads "field type" hts
    obtain ⟨ts₂, hopen, hts₂⟩ := skip_reads hts₁
    obtain ⟨ts₃, hkey, hts₃⟩ := ihkey (n := n) (by simp at hn; omega) hts₂ (by simp)
    obtain ⟨ts₄, hcomma, hts₄⟩ := skip_reads hts₃
    obtain ⟨ts₅, hvalue, hts₅⟩ := ihvalue (n := n) (by simp at hn; omega) hts₄ (by simp)
    obtain ⟨ts₆, hclose, hts₆⟩ := exactly_reads hts₅
    refine ⟨ts₆, ?_, hts₆⟩
    rw [fieldType]
    simp only [hword, ok_bind, hopen, hkey, hcomma, hvalue, hclose]
    rfl

/-! ## Clauses -/

/-- The words that start the clauses of a field. -/
def clauseWords : List String := ["in", "default", "doc"]

/-- The lexemes that write the choices of a field. -/
def choicesLexemes (choices : List String) : List Lexeme :=
  if choices.isEmpty then []
  else .word "in" :: .mark '[' ::
    ((choices.map Lexeme.literal).intersperse (.mark ',') ++ [.mark ']'])

/-- The lexemes that write the default of a field. -/
def defaultLexemes : Option Json → List Lexeme
  | none => []
  | some v => [.word "default", .literal v.compact]

/-- The lexemes that write the description of a field. -/
def descriptionLexemes : Option String → List Lexeme
  | none => []
  | some text => [.word "doc", .literal text]

theorem head?_choicesLexemes {choices : List String} :
    ∀ l ∈ (choicesLexemes choices).head?, l = .word "in" := by
  unfold choicesLexemes
  split <;> simp

theorem head?_defaultLexemes {default : Option Json} :
    ∀ l ∈ (defaultLexemes default).head?, l = .word "default" := by
  cases default <;> simp [defaultLexemes]

theorem head?_descriptionLexemes {description : Option String} :
    ∀ l ∈ (descriptionLexemes description).head?, l = .word "doc" := by
  cases description <;> simp [descriptionLexemes]

/-- What does not come after a clause does not come before it, if the clause starts otherwise. -/
theorem head?_append_ne {clause : List Lexeme} {start l : Lexeme}
    (hclause : ∀ l ∈ clause.head?, l = start) (hne : start ≠ l) (hrest : rest.head? ≠ some l) :
    (clause ++ rest).head? ≠ some l := by
  cases clause with
  | nil => exact hrest
  | cons first more =>
    intro h
    cases h
    exact hne (hclause l rfl).symm

/-- Choices are read up to the bracket that closes them. -/
theorem choices_reads {choice : String} {more : List String} {n : Nat} (hn : more.length < n)
    (hts : ts.map SourceToken.lexeme =
      ((choice :: more).map Lexeme.literal).intersperse (.mark ',') ++ .mark ']' :: rest) :
    Reads (choices n ts) (choice :: more) (.mark ']' :: rest) := by
  induction more generalizing choice n ts with
  | nil =>
    obtain ⟨n, rfl⟩ := Nat.exists_eq_succ_of_ne_zero (Nat.ne_zero_of_lt hn)
    obtain ⟨_, ts₁, hchoice, hts₁⟩ := literal_reads "choice" hts
    refine ⟨ts₁, ?_, hts₁⟩
    simp only [choices, hchoice, ok_bind, skip_passes hts₁ (l := .mark ',') (by simp)]
    rfl
  | cons next more ih =>
    obtain ⟨n, rfl⟩ := Nat.exists_eq_succ_of_ne_zero (Nat.ne_zero_of_lt hn)
    obtain ⟨_, ts₁, hchoice, hts₁⟩ := literal_reads "choice" hts
    obtain ⟨ts₂, hcomma, hts₂⟩ := skip_reads hts₁
    obtain ⟨ts₃, hmore, hts₃⟩ := ih (Nat.lt_of_succ_lt_succ hn) hts₂
    refine ⟨ts₃, ?_, hts₃⟩
    simp only [choices, hchoice, ok_bind, hcomma, hmore]
    rfl

theorem fieldChoices_reads {choices : List String}
    (hts : ts.map SourceToken.lexeme = choicesLexemes choices ++ rest)
    (hrest : choices = [] → rest.head? ≠ some (.word "in")) :
    Reads (fieldChoices ts) choices rest := by
  cases choices with
  | nil => exact ⟨ts, by rw [fieldChoices, skip_passes hts (hrest rfl)], hts⟩
  | cons choice more =>
    simp only [choicesLexemes, List.isEmpty_cons, Bool.false_eq_true, if_false, List.cons_append,
      List.append_assoc, List.nil_append] at hts
    obtain ⟨ts₁, hin, hts₁⟩ := skip_reads hts
    obtain ⟨ts₂, hopen, hts₂⟩ := exactly_reads hts₁
    have hlength := congrArg List.length hts₂
    simp only [List.length_map, List.length_append, List.length_intersperse, List.length_cons]
      at hlength
    obtain ⟨ts₃, hchoices, hts₃⟩ := choices_reads (n := ts₂.length + 1) (by omega) hts₂
    obtain ⟨ts₄, hclose, hts₄⟩ := exactly_reads hts₃
    refine ⟨ts₄, ?_, hts₄⟩
    simp only [fieldChoices, hin, hopen, ok_bind, hchoices, hclose]
    rfl

/-- A default is read as what its text is read as. -/
theorem fieldDefault_reads {default : Option Json}
    (hdefault : ∀ v ∈ default, (Json.parse? v.compact).isSome = true)
    (hts : ts.map SourceToken.lexeme = defaultLexemes default ++ rest)
    (hrest : default = none → rest.head? ≠ some (.word "default")) :
    Reads (fieldDefault ts) (default.bind fun v => Json.parse? v.compact) rest := by
  cases default with
  | none => exact ⟨ts, by rw [fieldDefault, skip_passes hts (hrest rfl)]; rfl, hts⟩
  | some v =>
    obtain ⟨w, hw⟩ := Option.isSome_iff_exists.1 (hdefault v rfl)
    obtain ⟨ts₁, hword, hts₁⟩ := skip_reads hts
    obtain ⟨_, ts₂, htext, hts₂⟩ := literal_reads "default value" hts₁
    refine ⟨ts₂, ?_, hts₂⟩
    simp only [fieldDefault, hword, htext, ok_bind, hw, Option.bind_some]
    rfl

theorem fieldDescription_reads {description : Option String}
    (hts : ts.map SourceToken.lexeme = descriptionLexemes description ++ rest)
    (hrest : description = none → rest.head? ≠ some (.word "doc")) :
    Reads (fieldDescription ts) description rest := by
  cases description with
  | none => exact ⟨ts, by rw [fieldDescription, skip_passes hts (hrest rfl)], hts⟩
  | some text =>
    obtain ⟨ts₁, hword, hts₁⟩ := skip_reads hts
    obtain ⟨_, ts₂, htext, hts₂⟩ := literal_reads "description" hts₁
    refine ⟨ts₂, ?_, hts₂⟩
    simp only [fieldDescription, hword, htext, ok_bind]
    rfl

/-! ## Clauses that are none -/

/-- A token that is not known is not read. -/
theorem token_refuses (expected : String) (accept : Lexeme → Option α) {l : Lexeme}
    (hts : ts.map SourceToken.lexeme = l :: rest) (hl : accept l = none) :
    ∃ e, token expected accept ts = .error e := by
  obtain ⟨t, ts, rfl, rfl, rfl⟩ := List.map_eq_cons_iff.1 hts
  exact ⟨_, by simp only [token, hl]; rfl⟩

/-- A mark is no literal. -/
theorem literal_refuses (expected : String) {c : Char}
    (hts : ts.map SourceToken.lexeme = .mark c :: rest) :
    ∃ e, literal expected ts = .error e :=
  token_refuses expected _ hts rfl

/-- A mark other than a bracket after the word of choices starts none. -/
theorem fieldChoices_refuses {c : Char}
    (hts : ts.map SourceToken.lexeme = .word "in" :: .mark c :: rest) (hc : c ≠ '[') :
    ∃ e, fieldChoices ts = .error e := by
  obtain ⟨ts₁, hin, hts₁⟩ := skip_reads hts
  obtain ⟨e, he⟩ := token_refuses (Lexeme.mark '[').describe
    (fun m => if m = .mark '[' then some () else none) hts₁ (by simp [hc])
  exact ⟨e, by simp only [fieldChoices, hin, exactly, he]; rfl⟩

/-- A mark after the word of a default is none. -/
theorem fieldDefault_refuses {c : Char}
    (hts : ts.map SourceToken.lexeme = .word "default" :: .mark c :: rest) :
    ∃ e, fieldDefault ts = .error e := by
  obtain ⟨ts₁, hword, hts₁⟩ := skip_reads hts
  obtain ⟨e, he⟩ := literal_refuses "default value" hts₁
  exact ⟨e, by simp only [fieldDefault, hword, he]; rfl⟩

/-- A default whose text cannot be read is none. -/
theorem fieldDefault_refuses_text {v : Json} (hv : Json.parse? v.compact = none)
    (hts : ts.map SourceToken.lexeme = defaultLexemes (some v) ++ rest) :
    ∃ e, fieldDefault ts = .error e := by
  obtain ⟨ts₁, hword, hts₁⟩ := skip_reads hts
  obtain ⟨_, ts₂, htext, _⟩ := literal_reads "default value" hts₁
  exact ⟨_, by simp only [fieldDefault, hword, htext, ok_bind, hv]; rfl⟩

/-- A mark after the word of a description is none. -/
theorem fieldDescription_refuses {c : Char}
    (hts : ts.map SourceToken.lexeme = .word "doc" :: .mark c :: rest) :
    ∃ e, fieldDescription ts = .error e := by
  obtain ⟨ts₁, hword, hts₁⟩ := skip_reads hts
  obtain ⟨e, he⟩ := literal_refuses "description" hts₁
  exact ⟨e, by simp only [fieldDescription, hword, he]; rfl⟩

/-! ## Fields -/

/-- The lexemes that write a field of which some lexemes write the type, after its name. -/
def fieldLexemes (type : List Lexeme) (f : Field) : List Lexeme :=
  (if f.required then [] else [.mark '?']) ++ .mark ':' :: (type ++ (choicesLexemes f.choices ++
    (defaultLexemes f.default ++ descriptionLexemes f.description)))

/-- The words with which a field could go on: those of the clauses that come after its last one. -/
def openWords (f : Field) : List String :=
  if f.description.isSome then []
  else if f.default.isSome then ["doc"]
  else if f.choices.isEmpty then clauseWords
  else ["default", "doc"]

theorem in_mem_openWords {f : Field} : "in" ∈ openWords f ↔
    f.choices = [] ∧ f.default = none ∧ f.description = none := by
  unfold openWords
  cases f.choices <;> cases f.default <;> cases f.description <;> simp [clauseWords]

theorem default_mem_openWords {f : Field} : "default" ∈ openWords f ↔
    f.default = none ∧ f.description = none := by
  unfold openWords
  cases f.choices <;> cases f.default <;> cases f.description <;> simp [clauseWords]

theorem doc_mem_openWords {f : Field} : "doc" ∈ openWords f ↔ f.description = none := by
  unfold openWords
  cases f.choices <;> cases f.default <;> cases f.description <;> simp [clauseWords]

theorem openWords_subset (f : Field) : openWords f ⊆ clauseWords := by
  unfold openWords
  cases f.choices <;> cases f.default <;> cases f.description <;> simp [clauseWords]

/-- A field as it is read: its default is what the text of the default is read as. -/
def reread (f : Field) : Field :=
  { f with default := f.default.bind fun v => Json.parse? v.compact }

/-- A field is read as it is if its default is. -/
theorem reread_eq_self_iff {f : Field} :
    reread f = f ↔ ∀ v ∈ f.default, Json.parse? v.compact = some v := by
  obtain ⟨name, type, required, default, choices, description⟩ := f
  cases default <;> simp [reread]

/-- The text of the default of a field can be read. -/
def Readable (f : Field) : Prop :=
  ∀ v ∈ f.default, (Json.parse? v.compact).isSome = true

instance : DecidablePred Readable := fun f =>
  inferInstanceAs (Decidable (∀ v ∈ f.default, (Json.parse? v.compact).isSome = true))

/-- Reads the clauses of a field. -/
def fieldClauses (name : String) (type : FieldType) (required : Bool) (ts : List SourceToken) :
    Except Failure (Field × List SourceToken) := do
  let (choices, ts) ← fieldChoices ts
  let (default, ts) ← fieldDefault ts
  let (description, ts) ← fieldDescription ts
  return (⟨name, type, required, default, choices, description⟩, ts)

/-- A field is read up to its clauses if what comes next does not go on with its type. -/
theorem field_eq_fieldClauses {f : Field} {type : List Lexeme} (htype : WritesType type f.type)
    (hts : ts.map SourceToken.lexeme = fieldLexemes type f ++ rest)
    (hrest : rest.head? ≠ some (.mark '<')) :
    ∃ ts', field f.name ts = fieldClauses f.name f.type f.required ts' ∧
      ts'.map SourceToken.lexeme = choicesLexemes f.choices ++
        (defaultLexemes f.default ++ (descriptionLexemes f.description ++ rest)) := by
  simp only [fieldLexemes, List.append_assoc, List.cons_append] at hts
  obtain ⟨ts₁, hoptional, hts₁⟩ : ∃ ts₁, skip (.mark '?') ts = (!f.required, ts₁) ∧
      ts₁.map SourceToken.lexeme = .mark ':' :: (type ++ (choicesLexemes f.choices ++
        (defaultLexemes f.default ++ (descriptionLexemes f.description ++ rest)))) := by
    cases hrequired : f.required with
    | true =>
      rw [hrequired] at hts
      exact ⟨ts, skip_passes hts (by simp), hts⟩
    | false =>
      rw [hrequired] at hts
      exact skip_reads hts
  obtain ⟨ts₂, hcolon, hts₂⟩ := exactly_reads hts₁
  have hlength := congrArg List.length hts₂
  simp only [List.length_map, List.length_append] at hlength
  obtain ⟨ts₃, htype, hts₃⟩ := fieldType_reads htype (n := ts₂.length) (by omega) hts₂
    (head?_append_ne head?_choicesLexemes (by decide) (head?_append_ne head?_defaultLexemes
      (by decide) (head?_append_ne head?_descriptionLexemes (by decide) hrest)))
  refine ⟨ts₃, ?_, hts₃⟩
  simp only [field, hoptional, hcolon, ok_bind, htype, Bool.not_not]
  rfl

variable {f g : Field} {type : List Lexeme} {ts' : List SourceToken}

/-- After the choices of a field no other choices come, if the field cannot go on with them. -/
theorem head?_ne_in (hopen : "in" ∈ openWords f → rest.head? ≠ some (.word "in"))
    (hnone : f.choices = []) : (defaultLexemes f.default ++
      (descriptionLexemes f.description ++ rest)).head? ≠ some (.word "in") := by
  cases hdefault : f.default with
  | some v => simp [defaultLexemes]
  | none =>
    cases hdescription : f.description with
    | some text => simp [defaultLexemes, descriptionLexemes]
    | none => exact hopen (in_mem_openWords.2 ⟨hnone, hdefault, hdescription⟩)

/-- After the default of a field no other default comes, if the field cannot go on with it. -/
theorem head?_ne_default (hopen : "default" ∈ openWords f → rest.head? ≠ some (.word "default"))
    (hnone : f.default = none) :
    (descriptionLexemes f.description ++ rest).head? ≠ some (.word "default") := by
  cases hdescription : f.description with
  | some text => simp [descriptionLexemes]
  | none => exact hopen (default_mem_openWords.2 ⟨hnone, hdescription⟩)

/-- A field is read if what comes next goes on neither with its type nor with one of its clauses. -/
theorem field_reads (htype : WritesType type f.type) (hreadable : Readable f)
    (hts : ts.map SourceToken.lexeme = fieldLexemes type f ++ rest)
    (hrest : rest.head? ≠ some (.mark '<'))
    (hopen : ∀ w ∈ openWords f, rest.head? ≠ some (.word w)) :
    Reads (field f.name ts) (reread f) rest := by
  obtain ⟨ts₁, hfield, hts₁⟩ := field_eq_fieldClauses htype hts hrest
  obtain ⟨ts₂, hchoices, hts₂⟩ := fieldChoices_reads hts₁ (head?_ne_in (hopen "in"))
  obtain ⟨ts₃, hdefault, hts₃⟩ :=
    fieldDefault_reads hreadable hts₂ (head?_ne_default (hopen "default"))
  obtain ⟨ts₄, hdescription, hts₄⟩ := fieldDescription_reads hts₃ fun hnone =>
    hopen "doc" (doc_mem_openWords.2 hnone)
  refine ⟨ts₄, ?_, hts₄⟩
  simp only [hfield, fieldClauses, hchoices, hdefault, hdescription, ok_bind]
  rfl

/-- What can come after a field: the closing brace, or the name of another field and a mark. -/
inductive Ends : List Lexeme → Prop
  | close (rest : List Lexeme) : Ends (.mark '\x7d' :: rest)
  | name (name : String) {c : Char} (hc : c ≠ '[') (rest : List Lexeme) :
    Ends (.word name :: .mark c :: rest)

theorem Ends.head?_ne (h : Ends rest) : rest.head? ≠ some (.mark '<') := by
  cases h <;> simp

/-- A word that comes after a field has a mark after it. -/
theorem Ends.exists_of_head? (h : Ends rest) {w : String} (hw : rest.head? = some (.word w)) :
    ∃ c more, rest = .word w :: .mark c :: more ∧ c ≠ '[' := by
  cases h with
  | close rest => cases hw
  | @name name c hc rest =>
    cases hw
    exact ⟨c, rest, rfl, hc⟩

/-- A field that is read has a default that can be read, and no word follows with which it could go
on: it would take the word for its own and then find a mark. -/
theorem field_ok_written (htype : WritesType type f.type) (hends : Ends rest)
    (hts : ts.map SourceToken.lexeme = fieldLexemes type f ++ rest)
    (h : field f.name ts = .ok (g, ts')) :
    Readable f ∧ ∀ w ∈ openWords f, rest.head? ≠ some (.word w) := by
  obtain ⟨ts₁, hfield, hts₁⟩ := field_eq_fieldClauses htype hts hends.head?_ne
  rw [hfield] at h
  simp only [fieldClauses, bind_eq_ok_iff] at h
  obtain ⟨x, hx, y, hy, z, hz, _⟩ := h
  have hin : "in" ∈ openWords f → rest.head? ≠ some (.word "in") := by
    intro hmem hhead
    obtain ⟨hnone, hnone', hnone''⟩ := in_mem_openWords.1 hmem
    obtain ⟨c, more, rfl, hc⟩ := hends.exists_of_head? hhead
    rw [hnone, hnone', hnone''] at hts₁
    obtain ⟨e, he⟩ := fieldChoices_refuses hts₁ hc
    rw [he] at hx
    cases hx
  obtain ⟨ts₂, hchoices, hts₂⟩ := fieldChoices_reads hts₁ (head?_ne_in hin)
  rw [hchoices] at hx
  cases hx
  have hreadable : Readable f := by
    intro v hv
    rw [Option.isSome_iff_ne_none]
    intro hnone
    rw [Option.mem_def.1 hv] at hts₂
    obtain ⟨e, he⟩ := fieldDefault_refuses_text hnone hts₂
    rw [he] at hy
    cases hy
  have hdefault : "default" ∈ openWords f → rest.head? ≠ some (.word "default") := by
    intro hmem hhead
    obtain ⟨hnone, hnone'⟩ := default_mem_openWords.1 hmem
    obtain ⟨c, more, rfl, _⟩ := hends.exists_of_head? hhead
    rw [hnone, hnone'] at hts₂
    obtain ⟨e, he⟩ := fieldDefault_refuses hts₂
    rw [he] at hy
    cases hy
  obtain ⟨ts₃, hvalue, hts₃⟩ := fieldDefault_reads hreadable hts₂ (head?_ne_default hdefault)
  rw [hvalue] at hy
  cases hy
  have hdoc : "doc" ∈ openWords f → rest.head? ≠ some (.word "doc") := by
    intro hmem hhead
    obtain ⟨c, more, rfl, _⟩ := hends.exists_of_head? hhead
    rw [doc_mem_openWords.1 hmem] at hts₃
    obtain ⟨e, he⟩ := fieldDescription_refuses hts₃
    rw [he] at hz
    cases hz
  refine ⟨hreadable, fun w hw => ?_⟩
  have hclause := openWords_subset f hw
  simp only [clauseWords, List.mem_cons, List.not_mem_nil, or_false] at hclause
  rcases hclause with rfl | rfl | rfl
  · exact hin hw
  · exact hdefault hw
  · exact hdoc hw

/-- Lexemes write fields, each under its own name. -/
inductive Writes : List Lexeme → List Field → Prop
  | nil : Writes [] []
  | cons {f : Field} {type lexemes : List Lexeme} {fs : List Field} (htype : WritesType type f.type)
    (h : Writes lexemes fs) : Writes (.word f.name :: (fieldLexemes type f ++ lexemes)) (f :: fs)

/-- No field is called by a word with which the field before it could go on. -/
def Separate (fs : List Field) : Prop :=
  fs.IsChain fun f g => g.name ∉ openWords f

namespace Writes

variable {fs : List Field}

theorem ends (h : Writes lexemes fs) (rest : List Lexeme) :
    Ends (lexemes ++ .mark '\x7d' :: rest) := by
  cases h with
  | nil => exact .close rest
  | @cons f type lexemes fs htype h =>
    simp only [fieldLexemes, List.cons_append, List.append_assoc]
    cases f.required with
    | true => exact .name f.name (by decide) _
    | false => exact .name f.name (by decide) _

/-- What comes after a field is a word with which it could go on exactly if the next field has that
name. -/
theorem head?_ne_iff (h : Writes lexemes fs) (f : Field) (rest : List Lexeme) :
    (∀ w ∈ openWords f, (lexemes ++ .mark '\x7d' :: rest).head? ≠ some (.word w)) ↔
      ∀ g ∈ fs.head?, g.name ∉ openWords f := by
  cases h with
  | nil => simp
  | @cons g type lexemes fs htype h =>
    simp only [List.cons_append, List.head?_cons, ne_eq, Option.some.injEq, Lexeme.word.injEq,
      Option.mem_some_iff, forall_eq']
    exact ⟨fun h hmem => h _ hmem rfl, fun h w hw heq => h (heq ▸ hw)⟩

theorem length_le (h : Writes lexemes fs) : fs.length ≤ lexemes.length := by
  induction h with
  | nil => exact Nat.le_refl 0
  | cons htype h ih =>
    simp only [List.length_cons, List.length_append]
    omega

/-- Fields are read up to the brace that closes them, and added to those before. -/
theorem fields_reads (h : Writes lexemes fs) (hseparate : Separate fs)
    (hreadable : ∀ f ∈ fs, Readable f) {n : Nat} {known : Dict Field} (hn : fs.length < n)
    (hnodup : (known.keys ++ fs.map Field.name).Nodup)
    (hts : ts.map SourceToken.lexeme = lexemes ++ .mark '\x7d' :: rest) :
    ∃ all : Dict Field, all.entries = known.entries ++ fs.map (fun f => (f.name, reread f)) ∧
      Reads (fields n known ts) all rest := by
  induction h generalizing n known ts with
  | nil =>
    obtain ⟨n, rfl⟩ := Nat.exists_eq_succ_of_ne_zero (Nat.ne_zero_of_lt hn)
    obtain ⟨ts₁, hclose, hts₁⟩ := skip_reads hts
    exact ⟨known, by simp, ts₁, by rw [fields, hclose], hts₁⟩
  | @cons f type lexemes fs htype h ih =>
    obtain ⟨n, rfl⟩ := Nat.exists_eq_succ_of_ne_zero (Nat.ne_zero_of_lt hn)
    rw [Separate, List.isChain_cons] at hseparate
    rw [List.forall_mem_cons] at hreadable
    simp only [List.cons_append, List.append_assoc] at hts
    obtain ⟨_, ts₁, hword, hts₁⟩ := word_reads "field name" hts
    obtain ⟨ts₂, hfield, hts₂⟩ := field_reads htype hreadable.1 hts₁ (h.ends rest).head?_ne
      ((h.head?_ne_iff f rest).2 hseparate.1)
    have hnew : f.name ∉ known.keys := fun hmem =>
      (List.nodup_append.1 hnodup).2.2 _ hmem _ List.mem_cons_self rfl
    have hentries := Dict.entries_insert_of_not_mem hnew (reread f)
    have hnodup' : ((known.insert f.name (reread f)).keys ++ fs.map Field.name).Nodup := by
      have hkeys : (known.insert f.name (reread f)).keys = known.keys ++ [f.name] := by
        simp [Dict.keys, hentries]
      rw [hkeys, List.append_assoc]
      exact hnodup
    obtain ⟨all, hall, ts₃, hmore, hts₃⟩ :=
      ih hseparate.2 hreadable.2 (Nat.lt_of_succ_lt_succ hn) hnodup' hts₂
    refine ⟨all, by rw [hall, hentries, List.append_assoc, List.singleton_append]; rfl, ts₃, ?_,
      hts₃⟩
    have hknown : known.contains f.name = false := by
      rw [← Bool.not_eq_true, ← Dict.mem_keys_iff]
      exact hnew
    rw [fields, skip_passes hts (by simp)]
    simp only [hword, ok_bind, hfield, hknown, Bool.false_eq_true, if_false]
    exact hmore

/-- Fields that are read are separate, and their defaults can be read. -/
theorem of_fields_ok (h : Writes lexemes fs) {n : Nat} {known all : Dict Field}
    (hts : ts.map SourceToken.lexeme = lexemes ++ .mark '\x7d' :: rest)
    (hfields : fields n known ts = .ok (all, ts')) :
    Separate fs ∧ ∀ f ∈ fs, Readable f := by
  induction h generalizing n known ts with
  | nil => exact ⟨.nil, List.forall_mem_nil _⟩
  | @cons f type lexemes fs htype h ih =>
    cases n with
    | zero => cases hfields
    | succ n =>
      simp only [List.cons_append, List.append_assoc] at hts
      obtain ⟨_, ts₁, hword, hts₁⟩ := word_reads "field name" hts
      rw [fields, skip_passes hts (by simp)] at hfields
      simp only [hword, ok_bind, bind_eq_ok_iff] at hfields
      obtain ⟨⟨g, ts₂⟩, hfield, hfields⟩ := hfields
      obtain ⟨hreadable, hopen⟩ := field_ok_written htype (h.ends rest) hts₁ hfield
      obtain ⟨ts₃, hread, hts₃⟩ := field_reads htype hreadable hts₁ (h.ends rest).head?_ne hopen
      rw [hread] at hfield
      cases hfield
      split at hfields
      · cases hfields
      · obtain ⟨hseparate, hmore⟩ := ih hts₃ hfields
        rw [Separate, List.isChain_cons, List.forall_mem_cons]
        exact ⟨⟨(h.head?_ne_iff f rest).1 hopen, hseparate⟩, hreadable, hmore⟩

end Writes

/-! ## Structures -/

/-- The lexemes that write a structure of which some lexemes write the fields. -/
def structureLexemes (name parent : String) (fields : List Lexeme) : List Lexeme :=
  .word "structure" :: .word name :: .word "extends" :: .word parent :: .mark '\x7b' ::
    (fields ++ [.mark '\x7d'])

theorem parent_reads {name : String}
    (hts : ts.map SourceToken.lexeme = .word "extends" :: .word name :: rest) :
    Reads (parent ts) (some name) rest := by
  obtain ⟨ts₁, hextends, hts₁⟩ := skip_reads hts
  obtain ⟨_, ts₂, hname, hts₂⟩ := word_reads "parent structure name" hts₁
  refine ⟨ts₂, ?_, hts₂⟩
  simp only [parent, hextends, hname, ok_bind]
  rfl

/-- A structure is read up to its fields. -/
theorem one_eq_fields {name parent : String}
    (hts : ts.map SourceToken.lexeme = structureLexemes name parent lexemes ++ rest) :
    ∃ ts', one ts = (fields (ts'.length + 1) .empty ts' >>= fun (fs, ts) =>
        pure (⟨name, some parent, fs, false⟩, ts)) ∧
      ts'.map SourceToken.lexeme = lexemes ++ .mark '\x7d' :: rest := by
  simp only [structureLexemes, List.cons_append, List.append_assoc, List.nil_append] at hts
  obtain ⟨ts₁, hstructure, hts₁⟩ := exactly_reads hts
  obtain ⟨_, ts₂, hname, hts₂⟩ := word_reads "structure name" hts₁
  obtain ⟨ts₃, hparent, hts₃⟩ := parent_reads hts₂
  obtain ⟨ts₄, hopen, hts₄⟩ := exactly_reads hts₃
  refine ⟨ts₄, ?_, hts₄⟩
  simp only [one, hstructure, hname, hparent, hopen, ok_bind]

/-- Fields of which some lexemes are written are read from a source that is nothing but a structure
with them, if they are separate and their defaults can be read, and else the source is not read. -/
theorem Writes.all_eq_ok_iff {fs : List Field} (h : Writes lexemes fs) {d : Dict Field}
    (hd : d.entries = fs.map fun f => (f.name, reread f)) {name parent : String}
    (hts : ts.map SourceToken.lexeme = structureLexemes name parent lexemes)
    {ss : List Structure} : all ts.length ts = .ok ss ↔
      (Separate fs ∧ ∀ f ∈ fs, Readable f) ∧ ss = [⟨name, some parent, d, false⟩] := by
  cases ts with
  | nil => cases hts
  | cons t ts =>
    rw [← List.append_nil (structureLexemes name parent lexemes)] at hts
    obtain ⟨ts₁, hone, hts₁⟩ := one_eq_fields hts
    have hread : (Separate fs ∧ ∀ f ∈ fs, Readable f) →
        all (t :: ts).length (t :: ts) = .ok [⟨name, some parent, d, false⟩] := by
      rintro ⟨hseparate, hreadable⟩
      have hlength := congrArg List.length hts₁
      simp only [List.length_map, List.length_append, List.length_cons] at hlength
      have hfew := h.length_le
      have hnodup : ((Dict.empty : Dict Field).keys ++ fs.map Field.name).Nodup := by
        have hkeys := d.nodup
        rw [hd, List.map_map] at hkeys
        exact hkeys
      obtain ⟨all, hall, ts₂, hfields, hts₂⟩ :=
        h.fields_reads hseparate hreadable (n := ts₁.length + 1) (by omega) hnodup hts₁
      obtain rfl : all = d := Dict.ext (hall.trans hd.symm)
      obtain rfl := List.map_eq_nil_iff.1 hts₂
      rw [List.length_cons, SourceParser.all, hone, hfields]
      · cases ts.length <;> rfl
      · nofun
    constructor
    · intro hall
      have hone' := hall
      simp only [List.length_cons, all, hone, bind_eq_ok_iff] at hone'
      obtain ⟨_, ⟨⟨fs', ts₃⟩, hfields, _⟩, _⟩ := hone'
      have hboth := h.of_fields_ok hts₁ hfields
      exact ⟨hboth, Except.ok.inj (hall.symm.trans (hread hboth))⟩
    · rintro ⟨hboth, rfl⟩
      exact hread hboth

/-! ## Fields that are read as they are -/

/-- Lexemes write fields, each under its own name; no name starts a clause of the field before. -/
inductive WritesFields : List Lexeme → List (String × Field) → Prop
  | nil : WritesFields [] []
  | cons {f : Field} {type lexemes : List Lexeme} {fs : List (String × Field)}
    (hname : f.name ∉ clauseWords) (htype : WritesType type f.type)
    (hdefault : ∀ v ∈ f.default, Json.parse? v.compact = some v) (h : WritesFields lexemes fs) :
    WritesFields (.word f.name :: (fieldLexemes type f ++ lexemes)) ((f.name, f) :: fs)

/-- Fields are written to be read as they are if they are under their own names, none of these
starts a clause, and the defaults are read as they are. -/
theorem writesFields_iff {es : List (String × Field)} : WritesFields lexemes es ↔
    Writes lexemes (es.map Prod.snd) ∧ ∀ e ∈ es, e.1 = e.2.name ∧ e.2.name ∉ clauseWords ∧
      ∀ v ∈ e.2.default, Json.parse? v.compact = some v := by
  constructor
  · intro h
    induction h with
    | nil => exact ⟨.nil, List.forall_mem_nil _⟩
    | cons hname htype hdefault h ih =>
      exact ⟨.cons htype ih.1, List.forall_mem_cons.2 ⟨⟨rfl, hname, hdefault⟩, ih.2⟩⟩
  · rintro ⟨h, hes⟩
    induction es generalizing lexemes with
    | nil =>
      cases h
      exact .nil
    | cons e es ih =>
      obtain ⟨key, f⟩ := e
      rw [List.forall_mem_cons] at hes
      obtain ⟨⟨hkey, hname, hdefault⟩, hes⟩ := hes
      obtain rfl : key = f.name := hkey
      cases h with
      | cons htype h => exact .cons hname htype hdefault (ih h hes)

/-- A structure that is written is read if it is all that is written. -/
theorem all_reads {name parent : String} {fs : Dict Field} (h : WritesFields lexemes fs.entries)
    (hts : ts.map SourceToken.lexeme = structureLexemes name parent lexemes) :
    all ts.length ts = .ok [⟨name, some parent, fs, false⟩] := by
  obtain ⟨hwrites, hes⟩ := writesFields_iff.1 h
  have hfs : ∀ f ∈ fs.entries.map Prod.snd, f.name ∉ clauseWords ∧ Readable f ∧ reread f = f := by
    rw [List.forall_mem_map]
    intro e he
    obtain ⟨_, hname, hdefault⟩ := hes e he
    exact ⟨hname, fun v hv => by rw [hdefault v hv]; rfl, reread_eq_self_iff.2 hdefault⟩
  have hentries : fs.entries =
      (fs.entries.map Prod.snd).map fun f => (f.name, reread f) := by
    rw [List.map_map]
    refine (List.map_id _).symm.trans (List.map_congr_left fun e he => ?_)
    exact Prod.ext (hes e he).1 (hfs _ (List.mem_map_of_mem he)).2.2.symm
  refine (hwrites.all_eq_ok_iff hentries hts).2 ⟨⟨?_, fun f hf => (hfs f hf).2.1⟩, rfl⟩
  refine (List.pairwise_iff_forall_sublist.2 fun hsub => ?_).isChain
  exact fun hmem => (hfs _ (hsub.subset (by simp))).1 (openWords_subset _ hmem)

end Conduit.SourceParser
