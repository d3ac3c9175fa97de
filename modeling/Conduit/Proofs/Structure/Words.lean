import Mathlib.Data.List.TakeWhile
import Conduit.Proofs.Except
import Conduit.Structure.Source.Parser
import Conduit.Text.Name

/-!
# The words of a source

The words of a source are names: letters, digits and underscores, no digit first
(`SourceToken.isVariable_of_mem_scanFrom`). A reader takes tokens from the front and leaves the
others (`SourceParser.Leaves`), so the names that a structure and its fields have been given are
words of the source from which it has been read (`SourceParser.one_words`).
-/

namespace Conduit

open Text

namespace SourceToken

/-- The words of a source are made of letters, digits and underscores, no digit first. -/
theorem isVariable_of_mem_scanFrom {p : Position} {cs : List Char} {tokens : List SourceToken}
    (h : scanFrom p cs = .ok tokens) {t : SourceToken} (ht : t ∈ tokens) {w : String}
    (hw : t.lexeme = .word w) : isVariable w = true := by
  fun_induction scanFrom p cs generalizing tokens
  case case1 =>
    cases h
    cases ht
  case case2 ih => exact ih h ht
  case case3 hstart more _ stop ih =>
    obtain ⟨rest, hrest, h⟩ := bind_eq_ok_iff.1 h
    cases h
    rcases List.mem_cons.1 ht with rfl | ht
    · cases hw
      simp only [isVariable, String.toList_ofList, Bool.and_eq_true, List.all_eq_true]
      have hmore : ∀ c ∈ more, isWordChar c = true := fun c hc => List.mem_takeWhile_imp hc
      exact ⟨hstart, hmore⟩
    · exact ih hrest ht
  case case5 ih | case7 ih =>
    obtain ⟨rest, hrest, h⟩ := bind_eq_ok_iff.1 h
    cases h
    rcases List.mem_cons.1 ht with rfl | ht
    · cases hw
    · exact ih hrest ht
  case case4 | case6 | case8 => cases h

end SourceToken

namespace SourceParser

variable {α β : Type} {ts ts' ts₁ : List SourceToken} {n : Nat} {s : Structure}

/-! ## What readers leave -/

/-- A reader leaves tokens from the end. -/
def Leaves (ts : List SourceToken) (read : Except Failure (α × List SourceToken)) : Prop :=
  ∀ a ts', read = .ok (a, ts') → ts' <:+ ts

theorem Leaves.mono {read : Except Failure (α × List SourceToken)} (h : Leaves ts' read)
    (hts : ts' <:+ ts) : Leaves ts read :=
  fun a ts₁ hread => (h a ts₁ hread).trans hts

theorem leaves_pure (a : α) (h : ts' <:+ ts) :
    Leaves ts (pure (a, ts') : Except Failure (α × List SourceToken)) := by
  intro a' ts₁ hread
  cases hread
  exact h

theorem leaves_error (e : Failure) :
    Leaves ts (.error e : Except Failure (α × List SourceToken)) :=
  fun _ _ hread => by cases hread

/-- A reader goes on with what another one has left. -/
theorem Leaves.bind {read : Except Failure (α × List SourceToken)}
    {more : α × List SourceToken → Except Failure (β × List SourceToken)} (h : Leaves ts read)
    (hmore : ∀ a ts', ts' <:+ ts → Leaves ts (more (a, ts'))) : Leaves ts (read >>= more) := by
  intro b ts' hread
  obtain ⟨⟨a, ts₁⟩, ha, hb⟩ := bind_eq_ok_iff.1 hread
  exact hmore a ts₁ (h a ts₁ ha) b ts' hb

theorem leaves_token (expected : String) (accept : Lexeme → Option α) (ts : List SourceToken) :
    Leaves ts (token expected accept ts) := by
  unfold token
  cases ts with
  | nil => exact leaves_error _
  | cons t ts =>
    dsimp only
    split
    · exact leaves_pure _ (List.suffix_cons t ts)
    · exact leaves_error _

theorem exactly_suffix {l : Lexeme} (h : exactly l ts = .ok ts') : ts' <:+ ts := by
  obtain ⟨⟨a, ts₁⟩, htoken, rfl⟩ := map_eq_ok_iff.1 h
  exact leaves_token _ _ ts a ts₁ htoken

/-- A reader goes on after one token. -/
theorem leaves_exactly {l : Lexeme}
    {more : List SourceToken → Except Failure (β × List SourceToken)}
    (hmore : ∀ ts', ts' <:+ ts → Leaves ts (more ts')) : Leaves ts (exactly l ts >>= more) := by
  intro b ts' hread
  obtain ⟨ts₁, hts₁, hb⟩ := bind_eq_ok_iff.1 hread
  exact hmore ts₁ (exactly_suffix hts₁) b ts' hb

theorem skip_suffix {l : Lexeme} {b : Bool} (h : skip l ts = (b, ts')) : ts' <:+ ts := by
  unfold skip at h
  split at h
  · cases h
    exact List.suffix_refl _
  · split at h
    · cases h
      exact List.suffix_cons _ _
    · cases h
      exact List.suffix_refl _

theorem leaves_fieldType (n : Nat) (ts : List SourceToken) : Leaves ts (fieldType n ts) := by
  induction n generalizing ts with
  | zero => exact leaves_error _
  | succ n ih =>
    have hmore : ∀ ts' {ts'' : List SourceToken}, ts'' <:+ ts' → Leaves ts' (fieldType n ts'') :=
      fun _ {ts''} hts => (ih ts'').mono hts
    unfold fieldType
    refine (leaves_token _ _ ts).bind fun (keyword, _) ts₁ hts₁ => ?_
    dsimp only
    split
    case h_6 =>
      split
      · next ts₂ hskip => exact leaves_pure _ ((skip_suffix hskip).trans hts₁)
      · next ts₂ hskip =>
        refine (hmore ts ((skip_suffix hskip).trans hts₁)).bind fun item ts₃ hts₃ => ?_
        exact (leaves_exactly fun ts₄ hts₄ => leaves_pure _ hts₄).mono hts₃
    case h_7 =>
      split
      · next ts₂ hskip => exact leaves_pure _ ((skip_suffix hskip).trans hts₁)
      · next ts₂ hskip =>
        refine (hmore ts ((skip_suffix hskip).trans hts₁)).bind fun key ts₃ hts₃ => ?_
        dsimp only
        split
        · next ts₄ hskip =>
          refine (hmore ts ((skip_suffix hskip).trans hts₃)).bind fun value ts₅ hts₅ => ?_
          exact (leaves_exactly fun ts₆ hts₆ => leaves_pure _ hts₆).mono hts₅
        · next ts₄ hskip =>
          refine (leaves_exactly fun ts₅ hts₅ => leaves_pure _ hts₅).mono ?_
          exact (skip_suffix hskip).trans hts₃
    all_goals exact leaves_pure _ hts₁

theorem leaves_choices (n : Nat) (ts : List SourceToken) : Leaves ts (choices n ts) := by
  induction n generalizing ts with
  | zero => exact leaves_error _
  | succ n ih =>
    unfold choices
    refine (leaves_token _ _ ts).bind fun (choice, _) ts₁ hts₁ => ?_
    dsimp only
    split
    · next ts₂ hskip =>
      refine ((ih ts₂).mono ((skip_suffix hskip).trans hts₁)).bind fun more ts₃ hts₃ => ?_
      exact leaves_pure _ hts₃
    · next ts₂ hskip => exact leaves_pure _ ((skip_suffix hskip).trans hts₁)

theorem leaves_fieldChoices (ts : List SourceToken) : Leaves ts (fieldChoices ts) := by
  unfold fieldChoices
  split
  · next ts₁ hskip => exact leaves_pure _ (skip_suffix hskip)
  · next ts₁ hskip =>
    refine (leaves_exactly fun ts₂ hts₂ => ?_).mono (skip_suffix hskip)
    refine ((leaves_choices _ ts₂).mono hts₂).bind fun choices ts₃ hts₃ => ?_
    exact (leaves_exactly fun ts₄ hts₄ => leaves_pure _ hts₄).mono hts₃

theorem leaves_fieldDefault (ts : List SourceToken) : Leaves ts (fieldDefault ts) := by
  unfold fieldDefault
  split
  · next ts₁ hskip => exact leaves_pure _ (skip_suffix hskip)
  · next ts₁ hskip =>
    refine ((leaves_token _ _ ts₁).mono (skip_suffix hskip)).bind fun (text, _) ts₂ hts₂ => ?_
    dsimp only
    split
    · exact leaves_pure _ hts₂
    · exact leaves_error _

theorem leaves_fieldDescription (ts : List SourceToken) : Leaves ts (fieldDescription ts) := by
  unfold fieldDescription
  split
  · next ts₁ hskip => exact leaves_pure _ (skip_suffix hskip)
  · next ts₁ hskip =>
    refine ((leaves_token _ _ ts₁).mono (skip_suffix hskip)).bind fun (text, _) ts₂ hts₂ => ?_
    exact leaves_pure _ hts₂

theorem leaves_field (name : String) (ts : List SourceToken) : Leaves ts (field name ts) := by
  unfold field
  split
  next optional ts₁ hskip =>
  refine (leaves_exactly fun ts₂ hts₂ => ?_).mono (skip_suffix hskip)
  refine ((leaves_fieldType _ ts₂).mono hts₂).bind fun type ts₃ hts₃ => ?_
  refine ((leaves_fieldChoices ts₃).mono hts₃).bind fun choices ts₄ hts₄ => ?_
  refine ((leaves_fieldDefault ts₄).mono hts₄).bind fun default ts₅ hts₅ => ?_
  refine ((leaves_fieldDescription ts₅).mono hts₅).bind fun description ts₆ hts₆ => ?_
  exact leaves_pure _ hts₆

theorem leaves_parent (ts : List SourceToken) : Leaves ts (parent ts) := by
  unfold parent
  split
  · next ts₁ hskip => exact leaves_pure _ (skip_suffix hskip)
  · next ts₁ hskip =>
    refine ((leaves_token _ _ ts₁).mono (skip_suffix hskip)).bind fun (name, _) ts₂ hts₂ => ?_
    exact leaves_pure _ hts₂

theorem leaves_fields (n : Nat) (known : Dict Field) (ts : List SourceToken) :
    Leaves ts (fields n known ts) := by
  induction n generalizing known ts with
  | zero => exact leaves_error _
  | succ n ih =>
    unfold fields
    split
    · next ts₁ hskip => exact leaves_pure _ (skip_suffix hskip)
    · next ts₁ hskip =>
      refine ((leaves_token _ _ ts₁).mono (skip_suffix hskip)).bind fun (name, _) ts₂ hts₂ => ?_
      refine ((leaves_field name ts₂).mono hts₂).bind fun f ts₃ hts₃ => ?_
      dsimp only
      split
      · exact leaves_error _
      · exact (ih _ ts₃).mono hts₃

theorem leaves_one (ts : List SourceToken) : Leaves ts (one ts) := by
  unfold one
  refine leaves_exactly fun ts₁ hts₁ => ?_
  refine ((leaves_token _ _ ts₁).mono hts₁).bind fun (name, _) ts₂ hts₂ => ?_
  refine ((leaves_parent ts₂).mono hts₂).bind fun parent ts₃ hts₃ => ?_
  refine (leaves_exactly fun ts₄ hts₄ => ?_).mono hts₃
  refine ((leaves_fields _ _ ts₄).mono hts₄).bind fun fields ts₅ hts₅ => ?_
  exact leaves_pure _ hts₅

/-! ## Names -/

/-- A word that is read is a word of the source. -/
theorem word_mem {expected name : String} {location : Location}
    (h : word expected ts = .ok ((name, location), ts')) : ∃ t ∈ ts, t.lexeme = .word name := by
  unfold word token at h
  split at h
  · cases h
  · next t ts =>
    refine ⟨t, List.mem_cons_self, ?_⟩
    split at h
    · next hname =>
      cases h
      dsimp only at hname
      split at hname
      · next hlexeme => rw [hlexeme, Option.some.inj hname]
      · cases hname
    · cases h

/-- The names of the fields that are read are words of the source. -/
theorem fields_words {known fs : Dict Field} (h : fields n known ts = .ok (fs, ts')) {key : String}
    (hkey : key ∈ fs.keys) : key ∈ known.keys ∨ ∃ t ∈ ts, t.lexeme = .word key := by
  induction n generalizing known ts with
  | zero => cases h
  | succ n ih =>
    unfold fields at h
    split at h
    · cases h
      exact .inl hkey
    · next ts₁ hskip =>
      simp only [bind_eq_ok_iff] at h
      obtain ⟨⟨⟨name, location⟩, ts₂⟩, hword, ⟨f, ts₃⟩, hf, h⟩ := h
      dsimp only at h
      have hts₁ := skip_suffix hskip
      have hts₂ := leaves_token _ _ _ _ _ hword
      split at h
      · cases h
      · rcases ih h with hmem | ⟨t, ht, htw⟩
        · rw [Dict.mem_keys_iff, Dict.contains_insert, Bool.or_eq_true, decide_eq_true_eq] at hmem
          rcases hmem with rfl | hmem
          · obtain ⟨t, ht, htw⟩ := word_mem hword
            exact .inr ⟨t, hts₁.subset ht, htw⟩
          · exact .inl (Dict.mem_keys_iff.2 hmem)
        · exact .inr ⟨t, hts₁.subset (hts₂.subset ((leaves_field _ _ _ _ hf).subset ht)), htw⟩

/-- The names of a structure that is read are words of the source. -/
theorem one_words (h : one ts = .ok (s, ts')) :
    ∀ name ∈ s.name :: s.fields.keys, ∃ t ∈ ts, t.lexeme = .word name := by
  simp only [one, bind_eq_ok_iff] at h
  obtain ⟨ts₁, hstructure, ⟨⟨name, _⟩, ts₂⟩, hname, ⟨parent, ts₃⟩, hparent, ts₄, hopen, ⟨fs, ts₅⟩,
    hfields, h⟩ := h
  cases h
  have hts₁ := exactly_suffix hstructure
  have hts₂ := leaves_token _ _ _ _ _ hname
  have hts₃ := leaves_parent _ _ _ hparent
  have hts₄ := (exactly_suffix hopen).trans (hts₃.trans (hts₂.trans hts₁))
  rw [List.forall_mem_cons]
  constructor
  · obtain ⟨t, ht, htw⟩ := word_mem hname
    exact ⟨t, hts₁.subset ht, htw⟩
  · intro key hkey
    rcases fields_words hfields hkey with hnone | ⟨t, ht, htw⟩
    · cases hnone
    · exact ⟨t, hts₄.subset ht, htw⟩

end SourceParser

end Conduit
