import Conduit.Proofs.Structure.Parser
import Conduit.Proofs.Structure.Words

/-!
# Field types as they are written

The description of a field type is text of a source: it spells lexemes that write the type
(`FieldType.describe_spells`), so that the type is read from it. That takes names of structures that
are words and are not those of types (`typeWords`), and it takes no more: what is read mentions such
names only (`SourceParser.fieldType_mentions`). So a field type is read back from its description
exactly if it mentions such names only (`FieldType.fieldType_describe_iff`).
-/

namespace Conduit

open Text SourceToken SourceParser

variable {t : FieldType} {ts ts' : List SourceToken} {n : Nat}

/-! ## What is read -/

namespace SourceParser

theorem WritesType.length_pos {type : List Lexeme} (h : WritesType type t) : 0 < type.length := by
  cases h <;> exact Nat.succ_pos _

/-- The structures that a type mentions are named by words of the source, and by no words that
start types of their own. -/
theorem fieldType_mentions (h : fieldType n ts = .ok (t, ts')) :
    ∀ name ∈ t.mentions, name ∉ typeWords ∧ ∃ token ∈ ts, token.lexeme = .word name := by
  induction n generalizing ts ts' t with
  | zero => cases h
  | succ n ih =>
    -- What an argument mentions is found after the tokens that have been read before it.
    have hargument : ∀ {ts₁ ts₂ t₁}, ts₁ <:+ ts → fieldType n ts₁ = .ok (t₁, ts₂) →
        ∀ name ∈ t₁.mentions, name ∉ typeWords ∧ ∃ token ∈ ts, token.lexeme = .word name := by
      intro ts₁ ts₂ t₁ hsuffix hread name hname
      obtain ⟨hword, token, hmem, htoken⟩ := ih hread name hname
      exact ⟨hword, token, hsuffix.subset hmem, htoken⟩
    rw [fieldType] at h
    obtain ⟨⟨⟨keyword, location⟩, ts₁⟩, hword, h⟩ := bind_eq_ok_iff.1 h
    have hsuffix : ts₁ <:+ ts := leaves_token _ _ _ _ _ hword
    dsimp only at h
    split at h
    case h_1 | h_2 | h_3 | h_4 | h_5 =>
      cases h
      exact List.forall_mem_nil _
    case h_6 =>
      split at h
      · cases h
        exact List.forall_mem_nil _
      · next ts₂ hskip =>
        obtain ⟨⟨item, ts₃⟩, hitem, h⟩ := bind_eq_ok_iff.1 h
        have hitems := hargument ((skip_suffix hskip).trans hsuffix) hitem
        obtain ⟨ts₄, _, h⟩ := bind_eq_ok_iff.1 h
        cases h
        exact hitems
    case h_7 =>
      split at h
      · cases h
        exact List.forall_mem_nil _
      · next ts₂ hskip =>
        have hsuffix₂ := (skip_suffix hskip).trans hsuffix
        obtain ⟨⟨key, ts₃⟩, hkey, h⟩ := bind_eq_ok_iff.1 h
        have hkeys := hargument hsuffix₂ hkey
        dsimp only at h
        split at h
        · next ts₄ hcomma =>
          obtain ⟨⟨value, ts₅⟩, hvalue, h⟩ := bind_eq_ok_iff.1 h
          obtain ⟨ts₆, _, h⟩ := bind_eq_ok_iff.1 h
          cases h
          have hsuffix₃ := (leaves_fieldType _ _ _ _ hkey).trans hsuffix₂
          have hsuffix₄ := (skip_suffix hcomma).trans hsuffix₃
          exact List.forall_mem_append.2 ⟨hkeys, hargument hsuffix₄ hvalue⟩
        · obtain ⟨ts₅, _, h⟩ := bind_eq_ok_iff.1 h
          cases h
          exact hkeys
    case h_8 htext hinteger hboolean hnumber hdate hlist hdict =>
      cases h
      have hkeyword : keyword ∉ typeWords := by
        simp only [typeWords, List.mem_cons, List.not_mem_nil, or_false, not_or]
        exact ⟨htext, hinteger, hboolean, hnumber, hdate, hlist, hdict⟩
      exact List.forall_mem_singleton.2 ⟨hkeyword, word_mem hword⟩

end SourceParser

/-! ## What is written -/

namespace FieldType

/-- The description of a type is a phrase of lexemes that write it. -/
theorem describe_spells (t : FieldType)
    (h : ∀ name ∈ t.mentions, isVariable name = true ∧ name ∉ typeWords) :
    ∃ type, WritesType type t ∧ Phrase t.describe.toList type := by
  induction t with
  | text => exact ⟨_, .text, phrase_word (by decide)⟩
  | integer => exact ⟨_, .integer, phrase_word (by decide)⟩
  | boolean => exact ⟨_, .boolean, phrase_word (by decide)⟩
  | number => exact ⟨_, .number, phrase_word (by decide)⟩
  | date => exact ⟨_, .date, phrase_word (by decide)⟩
  | anyList => exact ⟨_, .anyList, phrase_word (by decide)⟩
  | nested name =>
    obtain ⟨hname, hword⟩ := List.forall_mem_singleton.1 h
    exact ⟨_, .nested hword, phrase_word hname⟩
  | listOf item ih =>
    obtain ⟨type, hitem, hphrase⟩ := ih h
    refine ⟨_, .listOf hitem, ?_⟩
    simpa [describe] using hphrase.argument (w := "list") (by decide)
  | anyDict key ih =>
    obtain ⟨type, hkey, hphrase⟩ := ih h
    refine ⟨_, .anyDict hkey, ?_⟩
    simpa [describe] using hphrase.argument (w := "dict") (by decide)
  | dictOf key value ihkey ihvalue =>
    obtain ⟨hkeys, hvalues⟩ := List.forall_mem_append.1 h
    obtain ⟨keyType, hkey, hphrase⟩ := ihkey hkeys
    obtain ⟨valueType, hvalue, hphrase'⟩ := ihvalue hvalues
    refine ⟨_, .dictOf hkey hvalue, ?_⟩
    simpa [describe] using hphrase.arguments (w := "dict") (by decide) hphrase'

/-- A field type is read back from its description, whose tokens are all read, exactly if the
structures that it mentions are named by words other than those of types. At most as many types are
nested in each other as there are tokens, and a greater bound makes no difference. -/
theorem fieldType_describe_iff (t : FieldType) :
    (∃ tokens, scan t.describe = .ok tokens ∧
      ∀ n, tokens.length ≤ n → fieldType n tokens = .ok (t, [])) ↔
    ∀ name ∈ t.mentions, isVariable name = true ∧ name ∉ typeWords := by
  constructor
  · rintro ⟨tokens, hscan, hread⟩ name hname
    obtain ⟨hword, token, hmem, htoken⟩ := fieldType_mentions (hread _ le_rfl) name hname
    exact ⟨isVariable_of_mem_scanFrom hscan hmem htoken, hword⟩
  · intro h
    obtain ⟨type, htype, hphrase⟩ := t.describe_spells h
    have hall := hphrase (show EndsWord [] from nofun) .nil
    rw [List.append_nil, List.append_nil] at hall
    obtain ⟨tokens, hscan, hlexemes⟩ := scanFrom_spells hall .start
    refine ⟨tokens, hscan, fun n hn => ?_⟩
    rw [← List.length_map SourceToken.lexeme, hlexemes] at hn
    have hpos := htype.length_pos
    obtain ⟨n, rfl⟩ : ∃ m, n = m + 1 := ⟨n - 1, by omega⟩
    have hreads : Reads (fieldType (n + 1) tokens) t [] :=
      fieldType_reads htype hn (by rw [hlexemes, List.append_nil]) nofun
    obtain ⟨left, hread, hleft⟩ := hreads
    rw [hread, List.map_eq_nil_iff.1 hleft]

end FieldType

end Conduit
