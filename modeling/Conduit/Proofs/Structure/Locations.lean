import Conduit.Proofs.Structure.Layout
import Conduit.Structure.Source.Compile

/-!
# Places in a source

Every place that this library gives for a structure source is in the source. The place of a token is
the stretch of one line that its text takes (`SourceToken.Exact`). A source that cannot be read is
blamed on the text at which scanning stops, on a token (`SourceParser.Blames`), or on the end of the
last line, all of which are places in the source (`Registry.compile_locations`).
-/

namespace Conduit

open Text

/-! ## Faults of readers -/

namespace SourceParser

variable {α β : Type} {ts ts' : List SourceToken} {read : Except Failure α} {n : Nat}

/-- A reader that fails does so at one of the tokens that it is given, or at the end of them. -/
def Blames (ts : List SourceToken) (read : Except Failure α) : Prop :=
  ∀ e, read = .error e → ∀ l ∈ e.location, ∃ t ∈ ts, t.location = l

theorem Blames.mono (h : Blames ts' read) (hts : ts' <:+ ts) : Blames ts read := by
  intro e he l hl
  obtain ⟨t, ht, hplace⟩ := h e he l hl
  exact ⟨t, hts.subset ht, hplace⟩

theorem blames_ok (ts : List SourceToken) (a : α) : Blames ts (.ok a : Except Failure α) :=
  nofun

theorem blames_end (ts : List SourceToken) (fault : SourceFault) :
    Blames ts (.error ⟨fault, none⟩ : Except Failure α) := by
  rintro _ ⟨⟩ l ⟨⟩

theorem blames_at {t : SourceToken} (ht : t ∈ ts) (fault : SourceFault) :
    Blames ts (.error ⟨fault, some t.location⟩ : Except Failure α) := by
  rintro _ ⟨⟩ _ ⟨⟩
  exact ⟨t, ht, rfl⟩

theorem Blames.bind {more : α → Except Failure β} (h : Blames ts read)
    (hmore : ∀ a, read = .ok a → Blames ts (more a)) : Blames ts (read >>= more) := by
  intro e he
  rcases bind_eq_error_iff.1 he with he | ⟨a, ha, he⟩
  · exact h e he
  · exact hmore a ha e he

theorem blames_token (expected : String) (accept : Lexeme → Option α) (ts : List SourceToken) :
    Blames ts (token expected accept ts) := by
  unfold token
  split
  · exact blames_end _ _
  · split
    · exact blames_ok _ _
    · exact blames_at List.mem_cons_self _

/-- The place that comes with what is read of a token is that of the token. -/
theorem exists_of_token {expected : String} {accept : Lexeme → Option α} {a : α} {l : Location}
    (h : token expected accept ts = .ok ((a, l), ts')) : ∃ t ∈ ts, t.location = l := by
  unfold token at h
  split at h
  · cases h
  · split at h
    · cases h
      exact ⟨_, List.mem_cons_self, rfl⟩
    · cases h

theorem blames_exactly (lexeme : Lexeme) (ts : List SourceToken) :
    Blames ts (exactly lexeme ts) := by
  intro e he
  exact blames_token _ _ ts e (map_eq_error_iff.1 he)

theorem blames_fieldType (n : Nat) (ts : List SourceToken) : Blames ts (fieldType n ts) := by
  induction n generalizing ts with
  | zero => exact blames_end _ _
  | succ n ih =>
    unfold fieldType
    refine (blames_token _ _ ts).bind ?_
    rintro ⟨⟨keyword, _⟩, ts₁⟩ hkeyword
    refine Blames.mono ?_ (leaves_token _ _ _ _ _ hkeyword)
    dsimp only
    split
    case h_6 =>
      split
      · exact blames_ok _ _
      · next ts₂ hskip =>
        refine Blames.mono ?_ (skip_suffix hskip)
        refine (ih ts₂).bind ?_
        rintro ⟨item, ts₃⟩ hitem
        refine Blames.mono ?_ (leaves_fieldType _ _ _ _ hitem)
        exact (blames_exactly _ _).bind fun _ _ => blames_ok _ _
    case h_7 =>
      split
      · exact blames_ok _ _
      · next ts₂ hskip =>
        refine Blames.mono ?_ (skip_suffix hskip)
        refine (ih ts₂).bind ?_
        rintro ⟨key, ts₃⟩ hkey
        refine Blames.mono ?_ (leaves_fieldType _ _ _ _ hkey)
        dsimp only
        split
        · next ts₄ hskip =>
          refine Blames.mono ?_ (skip_suffix hskip)
          refine (ih ts₄).bind ?_
          rintro ⟨value, ts₅⟩ hvalue
          refine Blames.mono ?_ (leaves_fieldType _ _ _ _ hvalue)
          exact (blames_exactly _ _).bind fun _ _ => blames_ok _ _
        · next ts₄ hskip =>
          refine Blames.mono ?_ (skip_suffix hskip)
          exact (blames_exactly _ _).bind fun _ _ => blames_ok _ _
    all_goals exact blames_ok _ _

theorem blames_choices (n : Nat) (ts : List SourceToken) : Blames ts (choices n ts) := by
  induction n generalizing ts with
  | zero => exact blames_end _ _
  | succ n ih =>
    unfold choices
    refine (blames_token _ _ ts).bind ?_
    rintro ⟨⟨choice, _⟩, ts₁⟩ hchoice
    refine Blames.mono ?_ (leaves_token _ _ _ _ _ hchoice)
    dsimp only
    split
    · next ts₂ hskip =>
      refine Blames.mono ?_ (skip_suffix hskip)
      exact (ih ts₂).bind fun _ _ => blames_ok _ _
    · exact blames_ok _ _

theorem blames_fieldChoices (ts : List SourceToken) : Blames ts (fieldChoices ts) := by
  unfold fieldChoices
  split
  · exact blames_ok _ _
  · next ts₁ hskip =>
    refine Blames.mono ?_ (skip_suffix hskip)
    refine (blames_exactly _ _).bind fun ts₂ hopen => ?_
    refine Blames.mono ?_ (exactly_suffix hopen)
    refine (blames_choices _ _).bind ?_
    rintro ⟨choices, ts₃⟩ hchoices
    refine Blames.mono ?_ (leaves_choices _ _ _ _ hchoices)
    exact (blames_exactly _ _).bind fun _ _ => blames_ok _ _

theorem blames_fieldDefault (ts : List SourceToken) : Blames ts (fieldDefault ts) := by
  unfold fieldDefault
  split
  · exact blames_ok _ _
  · next ts₁ hskip =>
    refine Blames.mono ?_ (skip_suffix hskip)
    refine (blames_token _ _ _).bind ?_
    rintro ⟨⟨text, location⟩, ts₂⟩ htext
    obtain ⟨t, ht, rfl⟩ := exists_of_token htext
    dsimp only
    split
    · exact blames_ok _ _
    · exact blames_at ht _

theorem blames_fieldDescription (ts : List SourceToken) : Blames ts (fieldDescription ts) := by
  unfold fieldDescription
  split
  · exact blames_ok _ _
  · next ts₁ hskip =>
    refine Blames.mono ?_ (skip_suffix hskip)
    exact (blames_token _ _ _).bind fun _ _ => blames_ok _ _

theorem blames_field (name : String) (ts : List SourceToken) : Blames ts (field name ts) := by
  unfold field
  split
  next optional ts₁ hskip =>
  refine Blames.mono ?_ (skip_suffix hskip)
  refine (blames_exactly _ _).bind fun ts₂ hcolon => ?_
  refine Blames.mono ?_ (exactly_suffix hcolon)
  refine (blames_fieldType _ _).bind ?_
  rintro ⟨type, ts₃⟩ htype
  refine Blames.mono ?_ (leaves_fieldType _ _ _ _ htype)
  refine (blames_fieldChoices _).bind ?_
  rintro ⟨choices, ts₄⟩ hchoices
  refine Blames.mono ?_ (leaves_fieldChoices _ _ _ hchoices)
  refine (blames_fieldDefault _).bind ?_
  rintro ⟨default, ts₅⟩ hdefault
  refine Blames.mono ?_ (leaves_fieldDefault _ _ _ hdefault)
  exact (blames_fieldDescription _).bind fun _ _ => blames_ok _ _

theorem blames_fields (n : Nat) (known : Dict Field) (ts : List SourceToken) :
    Blames ts (fields n known ts) := by
  induction n generalizing known ts with
  | zero => exact blames_end _ _
  | succ n ih =>
    unfold fields
    split
    · exact blames_ok _ _
    · next ts₁ hskip =>
      refine Blames.mono ?_ (skip_suffix hskip)
      refine (blames_token _ _ _).bind ?_
      rintro ⟨⟨name, location⟩, ts₂⟩ hname
      have hts₂ := leaves_token _ _ _ _ _ hname
      obtain ⟨t, ht, rfl⟩ := exists_of_token hname
      refine ((blames_field name ts₂).mono hts₂).bind ?_
      rintro ⟨f, ts₃⟩ hf
      have hts₃ := (leaves_field _ _ _ _ hf).trans hts₂
      dsimp only
      split
      · exact blames_at ht _
      · exact (ih _ ts₃).mono hts₃

theorem blames_parent (ts : List SourceToken) : Blames ts (parent ts) := by
  unfold parent
  split
  · exact blames_ok _ _
  · next ts₁ hskip =>
    refine Blames.mono ?_ (skip_suffix hskip)
    exact (blames_token _ _ _).bind fun _ _ => blames_ok _ _

theorem blames_one (ts : List SourceToken) : Blames ts (one ts) := by
  unfold one
  refine (blames_exactly _ _).bind fun ts₁ hstructure => ?_
  refine Blames.mono ?_ (exactly_suffix hstructure)
  refine (blames_token _ _ _).bind ?_
  rintro ⟨⟨name, _⟩, ts₂⟩ hname
  refine Blames.mono ?_ (leaves_token _ _ _ _ _ hname)
  refine (blames_parent _).bind ?_
  rintro ⟨parent, ts₃⟩ hparent
  refine Blames.mono ?_ (leaves_parent _ _ _ hparent)
  refine (blames_exactly _ _).bind fun ts₄ hopen => ?_
  refine Blames.mono ?_ (exactly_suffix hopen)
  exact (blames_fields _ _ _).bind fun _ _ => blames_ok _ _

theorem blames_all (n : Nat) (ts : List SourceToken) : Blames ts (all n ts) := by
  induction n generalizing ts with
  | zero =>
    cases ts with
    | nil => exact blames_ok _ _
    | cons t ts => exact blames_end _ _
  | succ n ih =>
    cases ts with
    | nil => exact blames_ok _ _
    | cons t ts =>
      refine (blames_one _).bind ?_
      rintro ⟨s, ts₁⟩ hs
      refine Blames.mono ?_ (leaves_one _ _ _ hs)
      exact (ih ts₁).bind fun _ _ => blames_ok _ _

/-- A fault of a source that is scanned is at one of its tokens, or at the end of the input. -/
theorem parse?_blames {source : String} {tokens : List SourceToken} {fault : SourceFault}
    {l : Location} (htokens : SourceToken.scan source = .ok tokens)
    (h : parse? source = .error (fault, l)) :
    (∃ t ∈ tokens, t.location = l) ∨ l = stop source := by
  rw [parse?, htokens, ok_bind, mapError_eq_error_iff] at h
  obtain ⟨⟨_, location⟩, he, heq⟩ := h
  obtain ⟨rfl, rfl⟩ := Prod.mk.inj heq
  cases location with
  | none => exact .inr rfl
  | some l => exact .inl (blames_all _ _ _ he l rfl)

end SourceParser

/-! ## Sources -/

namespace SourceToken

variable {source : String} {before cs : List Char} {tokens : List SourceToken} {t : SourceToken}

/-- A token is exactly where it says that it is: in one line of the source, in which it takes the
columns from its first to its last one. -/
structure Exact (t : SourceToken) (source : String) : Prop where
  oneLine : t.location.endLine = t.location.line
  within : t.location.Within source
  written : t.lexeme.WrittenAs (t.location.stretch source)

theorem LaidOut.exact (h : LaidOut before cs tokens) (hsource : source.toList = before ++ cs)
    (ht : t ∈ tokens) : t.Exact source := by
  induction h with
  | nil => cases ht
  | @cons t' before gap text cs tokens hgap hwritten hplace h ih =>
    have htext : source.toList = before ++ gap ++ text ++ cs := by
      rw [hsource, List.append_assoc, List.append_assoc]
    rcases List.mem_cons.1 ht with rfl | ht
    · refine ⟨hplace.endLine, hplace.within htext, ?_⟩
      rwa [hplace.stretch_eq htext]
    · exact ih htext ht

end SourceToken

namespace Registry

/-- A structure is unreadable where its source is. -/
theorem parse?_of_unreadable {r : Registry} {name name' source text : String} {fault : SourceFault}
    {l : Location} (h : r.compile name source = .error (.unreadable name' fault l text)) :
    SourceParser.parse? source = .error (fault, l) := by
  rcases bind_eq_error_iff.1 h with h | ⟨declared, _, h⟩
  · obtain ⟨⟨fault', l'⟩, hparse, heq⟩ := mapError_eq_error_iff.1 h
    cases heq
    exact hparse
  · obtain ⟨_, _, heq⟩ := mapError_eq_error_iff.1 h
    cases heq

/-- Places are exact: the tokens of a source stand where they say, and a source that cannot be read
is blamed on a place in it. -/
theorem compile_locations (source : String) :
    (∀ tokens, SourceToken.scan source = .ok tokens →
      SourceToken.LaidOut [] source.toList tokens ∧ ∀ t ∈ tokens, t.Exact source) ∧
    ∀ (r : Registry) (name name' text : String) (fault : SourceFault) (l : Location),
      r.compile name source = .error (.unreadable name' fault l text) → l.Within source := by
  have hplaced : SourceToken.Placed source [] source.toList (SourceToken.scan source) :=
    SourceToken.scanFrom_placed rfl rfl
  constructor
  · intro tokens htokens
    rw [htokens] at hplaced
    exact ⟨hplaced, fun t ht => hplaced.exact rfl ht⟩
  · intro r name name' text fault l h
    have hparse := parse?_of_unreadable h
    cases htokens : SourceToken.scan source with
    | error e =>
      rw [htokens] at hplaced
      rw [SourceParser.parse?, htokens] at hparse
      cases hparse
      exact hplaced
    | ok tokens =>
      rw [htokens] at hplaced
      rcases SourceParser.parse?_blames htokens hparse with ⟨t, ht, rfl⟩ | rfl
      · exact (hplaced.exact rfl ht).within
      · exact Location.within_stop source

/-- A source in which a field is missing, with a character of two bytes and an escape in it. -/
def unfinished : String :=
  "structure A extends StructuredContent \x7b\r\n  b: text doc \"\u00e9\\\"\" \n"

/-- The last token of that source takes five columns, and its end is in the line of that token. -/
theorem compile_unfinished_locations :
    (∃ tokens, SourceToken.scan unfinished = .ok tokens ∧
      SourceToken.LaidOut [] unfinished.toList tokens ∧
      tokens.getLast? = some ⟨.literal "\u00e9\"", ⟨2, 15, 2, 19⟩⟩ ∧
      (⟨.literal "\u00e9\"", ⟨2, 15, 2, 19⟩⟩ : SourceToken).Exact unfinished) ∧
    initial.compile "A" unfinished =
      .error (.unreadable "A" (.endOfInput "field name") ⟨2, 21, 2, 21⟩ unfinished) ∧
    (⟨2, 21, 2, 21⟩ : Location).Within unfinished := by
  have hscan : ((SourceToken.scan unfinished).toOption.bind List.getLast?) =
      some ⟨.literal "\u00e9\"", ⟨2, 15, 2, 19⟩⟩ := by decide +kernel
  obtain ⟨tokens, htokens, hlast⟩ := Option.bind_eq_some_iff.1 hscan
  have htokens := eq_ok_of_toOption htokens
  have herror : initial.compile "A" unfinished =
      .error (.unreadable "A" (.endOfInput "field name") ⟨2, 21, 2, 21⟩ unfinished) := by
    decide +kernel
  obtain ⟨hlaidOut, hexact⟩ := (compile_locations unfinished).1 tokens htokens
  exact ⟨⟨tokens, htokens, hlaidOut, hlast, hexact _ (List.mem_of_getLast? hlast)⟩, herror,
    (compile_locations unfinished).2 _ _ _ _ _ _ herror⟩

end Registry

end Conduit
