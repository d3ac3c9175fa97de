import Mathlib.Data.Bool.AllAny
import Conduit.Proofs.Except
import Conduit.Proofs.Json.RoundTrip
import Conduit.Structure.Source.Token
import Conduit.Text.Name

/-!
# What a source spells

A text spells lexemes if it is made of their texts one after another, with any white space between
them (`SourceToken.Spells`). A word is written as it is, and what follows it does not go on with it;
a string literal is written as JSON writes it. The scanner gives the lexemes that a text spells, at
whatever place it starts (`SourceToken.scanFrom_spells`).
-/

namespace Conduit.SourceToken

open Text

variable {cs : List Char} {lexemes : List Lexeme}

/-- A text does not go on with a word. -/
def EndsWord (cs : List Char) : Prop :=
  ∀ c ∈ cs.head?, isWordChar c = false

theorem endsWord_cons {c : Char} (h : isWordChar c = false) (cs : List Char) :
    EndsWord (c :: cs) := by
  intro c' hc'
  cases hc'
  exact h

/-- A text is made of lexemes. -/
inductive Spells : List Char → List Lexeme → Prop
  | nil : Spells [] []
  | blank {c : Char} {cs : List Char} {lexemes : List Lexeme} (hblank : isBlank c = true)
    (h : Spells cs lexemes) : Spells (c :: cs) lexemes
  | word {name : String} {cs : List Char} {lexemes : List Lexeme} (hname : isVariable name = true)
    (hends : EndsWord cs) (h : Spells cs lexemes) :
    Spells (name.toList ++ cs) (.word name :: lexemes)
  | literal (text : String) {cs : List Char} {lexemes : List Lexeme} (h : Spells cs lexemes) :
    Spells ((Json.quoted text).toList ++ cs) (.literal text :: lexemes)
  | mark {c : Char} {cs : List Char} {lexemes : List Lexeme} (hmark : c ∈ marks)
    (h : Spells cs lexemes) : Spells (c :: cs) (.mark c :: lexemes)

theorem Spells.space (h : Spells cs lexemes) : Spells (' ' :: cs) lexemes :=
  .blank (by decide) h

theorem Spells.line (h : Spells cs lexemes) : Spells ('\n' :: cs) lexemes :=
  .blank (by decide) h

/-- A word before a character that is not part of a word. -/
theorem Spells.word_cons {name : String} {c : Char} (hname : isVariable name = true)
    (hc : isWordChar c = false) (h : Spells (c :: cs) lexemes) :
    Spells (name.toList ++ c :: cs) (.word name :: lexemes) :=
  .word hname (endsWord_cons hc cs) h

/-! ## Phrases -/

/-- A text spells lexemes wherever no word goes on after it. -/
def Phrase (text : List Char) (lexemes : List Lexeme) : Prop :=
  ∀ ⦃cs rest⦄, EndsWord cs → Spells cs rest → Spells (text ++ cs) (lexemes ++ rest)

theorem phrase_word {name : String} (hname : isVariable name = true) :
    Phrase name.toList [.word name] :=
  fun _ _ hends h => .word hname hends h

namespace Phrase

variable {text text' : List Char} {lexemes' rest : List Lexeme}

/-- No mark goes on with a word. -/
theorem before {c : Char} (h : Phrase text lexemes) (hc : c ∈ marks) (hcs : Spells cs rest) :
    Spells (text ++ c :: cs) (lexemes ++ .mark c :: rest) := by
  have hword : ∀ c ∈ marks, isWordChar c = false := by decide
  exact h (endsWord_cons (hword c hc) cs) (.mark hc hcs)

/-- A word with an argument in angle brackets. -/
theorem argument {w : String} (hw : isVariable w = true) (h : Phrase text lexemes) :
    Phrase (w.toList ++ '<' :: (text ++ ['>']))
      (.word w :: .mark '<' :: (lexemes ++ [.mark '>'])) := by
  intro cs rest _ hcs
  have hclose := h.before (c := '>') (by decide) hcs
  simpa using (phrase_word hw).before (c := '<') (by decide) hclose

/-- A word with two arguments in angle brackets. -/
theorem arguments {w : String} (hw : isVariable w = true) (h : Phrase text lexemes)
    (h' : Phrase text' lexemes') :
    Phrase (w.toList ++ '<' :: (text ++ ',' :: ' ' :: (text' ++ ['>'])))
      (.word w :: .mark '<' :: (lexemes ++ .mark ',' :: (lexemes' ++ [.mark '>']))) := by
  intro cs rest _ hcs
  have hclose := h'.before (c := '>') (by decide) hcs
  have hcomma := h.before (c := ',') (by decide) hclose.space
  simpa using (phrase_word hw).before (c := '<') (by decide) hcomma

end Phrase

/-! ## Kinds of characters -/

/-- What is in a word is no white space. -/
theorem isBlank_of_isWordChar {c : Char} (h : isWordChar c = true) : isBlank c = false := by
  have hletter : ((65 ≤ c.toNat ∧ c.toNat ≤ 90 ∨ 97 ≤ c.toNat ∧ c.toNat ≤ 122) ∨
      48 ≤ c.toNat ∧ c.toNat ≤ 57) ∨ c.toNat = 95 := by
    delta isWordChar Char.isAlphanum Char.isAlpha Char.isUpper Char.isLower Char.isDigit at h
    simp only [Bool.or_eq_true, Bool.and_eq_true, decide_eq_true_eq, beq_iff_eq, ge_iff_le,
      UInt32.le_iff_toNat_le] at h
    exact h.imp id (congrArg Char.toNat)
  have hval : c.toNat = c.val.toNat := rfl
  simp only [isBlank, Bool.or_eq_false_iff, Bool.and_eq_false_imp, decide_eq_true_eq,
    decide_eq_false_iff_not, beq_eq_false_iff_ne, ne_eq, UInt32.le_iff_toNat_le,
    ← UInt32.toNat_inj]
  simp only [hval] at hletter
  simp
  omega

/-- What starts a word may go on in it. -/
theorem isWordChar_of_startsWord {c : Char} (h : startsWord c = true) : isWordChar c = true := by
  unfold startsWord at h
  unfold isWordChar Char.isAlphanum
  rw [Bool.or_right_comm, h, Bool.true_or]

/-- What starts a word is no white space. -/
theorem isBlank_of_startsWord {c : Char} (h : startsWord c = true) : isBlank c = false :=
  isBlank_of_isWordChar (isWordChar_of_startsWord h)

/-- What starts a word is no digit. -/
theorem isDigit_of_startsWord {c : Char} (h : startsWord c = true) :
    c.isDigit = false := by
  have hletter : (65 ≤ c.toNat ∧ c.toNat ≤ 90 ∨ 97 ≤ c.toNat ∧ c.toNat ≤ 122) ∨ c.toNat = 95 := by
    delta startsWord Char.isAlpha Char.isUpper Char.isLower at h
    simp only [Bool.or_eq_true, Bool.and_eq_true, decide_eq_true_eq, beq_iff_eq, ge_iff_le,
      UInt32.le_iff_toNat_le] at h
    exact h.imp id (congrArg Char.toNat)
  have hval : c.toNat = c.val.toNat := rfl
  delta Char.isDigit
  simp only [Bool.and_eq_false_imp, decide_eq_true_eq, decide_eq_false_iff_not, ge_iff_le,
    UInt32.le_iff_toNat_le]
  simp only [hval] at hletter
  simp
  omega

/-- The name of a variable is a word. -/
theorem exists_of_isVariable {name : String} (h : isVariable name = true) :
    ∃ c more, name.toList = c :: more ∧ startsWord c = true ∧
      ∀ c ∈ more, isWordChar c = true := by
  unfold isVariable at h
  cases hname : name.toList with
  | nil =>
    rw [hname] at h
    cases h
  | cons c more =>
    rw [hname] at h
    obtain ⟨hstart, hall⟩ := Bool.and_eq_true_iff.1 h
    exact ⟨c, more, rfl, hstart, List.all_eq_true.1 hall⟩

/-- A mark is neither white space nor the start of a word or of a literal. -/
theorem of_mem_marks : ∀ c ∈ marks, isBlank c = false ∧ startsWord c = false ∧ c ≠ '"' := by
  rw [← List.all_iff_forall_prop]
  decide

/-! ## String literals -/

/-- A span goes on after a character that is neither a backslash nor ends it. -/
theorem span_plain {c : Char} (hquote : c ≠ '"') (hslash : c ≠ '\\') (hline : c ≠ '\n') :
    span false (c :: cs) =
      ⟨c :: (span false cs).taken, (span false cs).rest, (span false cs).closed⟩ := by
  have hslash : (c == '\\') = false := by simpa using hslash
  rw [span]
  simp [hquote, hslash, hline]

/-- A span takes whatever follows a backslash. -/
theorem span_backslash (c : Char) : span false ('\\' :: c :: cs) =
    ⟨'\\' :: c :: (span false cs).taken, (span false cs).rest, (span false cs).closed⟩ := by
  rw [span, span]
  simp

/-- A span takes a character in the way in which it is written. -/
theorem span_escaped (c : Char) : span false (Json.escaped c ++ cs) =
    ⟨Json.escaped c ++ (span false cs).taken, (span false cs).rest, (span false cs).closed⟩ := by
  unfold Json.escaped
  split
  case h_8 hquote hslash _ _ hline _ _ =>
    split
    · next hcontrol =>
      have hdigit : ∀ u < 16, hexDigit u ≠ '"' ∧ hexDigit u ≠ '\\' ∧ hexDigit u ≠ '\n' := by
        decide
      obtain ⟨hquote, hslash, hline⟩ := hdigit (c.toNat / 16) (by omega)
      obtain ⟨hquote', hslash', hline'⟩ := hdigit (c.toNat % 16) (by omega)
      simp only [List.cons_append, List.nil_append]
      rw [span_backslash, span_plain (by decide) (by decide) (by decide),
        span_plain (by decide) (by decide) (by decide), span_plain hquote hslash hline,
        span_plain hquote' hslash' hline']
    · exact span_plain hquote hslash hline
  all_goals exact span_backslash _

/-- The span of a literal that is written ends with its closing quotation mark. -/
theorem span_flatMap_escaped (text cs : List Char) :
    span false (text.flatMap Json.escaped ++ '"' :: cs) =
      ⟨text.flatMap Json.escaped ++ ['"'], cs, true⟩ := by
  induction text with
  | nil => simp [span]
  | cons c text ih => rw [List.flatMap_cons, List.append_assoc, span_escaped, ih, List.append_assoc]

/-! ## Scanning -/

theorem scanFrom_blank {c : Char} (h : isBlank c = true) (p : Position) :
    scanFrom p (c :: cs) = scanFrom (p.after c) cs := by
  rw [scanFrom, if_pos h]

theorem scanFrom_word {c : Char} {more : List Char} (hstart : startsWord c = true)
    (hmore : ∀ c ∈ more, isWordChar c = true) (hends : EndsWord cs) (p : Position) :
    let stop := (p.after c).afterAll more
    scanFrom p (c :: more ++ cs) =
      (scanFrom stop cs).map (⟨.word (String.ofList (c :: more)), p.upTo stop⟩ :: ·) := by
  have hblank := isBlank_of_startsWord hstart
  rw [List.cons_append, scanFrom]
  simp only [hblank, hstart, takeWhile_append_of_ends hmore hends,
    dropWhile_append_of_ends hmore hends, Bool.false_eq_true, if_false, if_true]
  cases scanFrom ((p.after c).afterAll more) cs <;> rfl

theorem scanFrom_literal (text : String) (p : Position) :
    let stop := (p.after '"').afterAll (text.toList.flatMap Json.escaped ++ ['"'])
    scanFrom p ((Json.quoted text).toList ++ cs) =
      (scanFrom stop cs).map (⟨.literal text, p.upTo stop⟩ :: ·) := by
  have htext : (Json.quoted text).toList ++ cs =
      '"' :: (text.toList.flatMap Json.escaped ++ '"' :: cs) := by
    simp [Json.quoted]
  have hread : Json.parse? (String.ofList ('"' :: (text.toList.flatMap Json.escaped ++ ['"']))) =
      some (.string text) :=
    Json.parse?_quoted text
  rw [htext, scanFrom, if_neg (by decide), if_neg (by decide), if_pos rfl]
  simp only [span_flatMap_escaped, Bool.not_true, Bool.false_eq_true, if_false, hread]
  cases scanFrom ((p.after '"').afterAll (text.toList.flatMap Json.escaped ++ ['"'])) cs <;> rfl

theorem scanFrom_mark {c : Char} (h : c ∈ marks) (p : Position) :
    scanFrom p (c :: cs) =
      (scanFrom (p.after c) cs).map (⟨.mark c, p.upTo (p.after c)⟩ :: ·) := by
  obtain ⟨hblank, hstart, hquote⟩ := of_mem_marks c h
  rw [scanFrom, if_neg (by simp [hblank]), if_neg (by simp [hstart]), if_neg hquote,
    if_pos (List.contains_iff_mem.2 h)]
  cases scanFrom (p.after c) cs <;> rfl

/-- The scanner gives the lexemes that a text spells. -/
theorem scanFrom_spells (h : Spells cs lexemes) (p : Position) :
    ∃ tokens, scanFrom p cs = .ok tokens ∧ tokens.map SourceToken.lexeme = lexemes := by
  induction h generalizing p with
  | nil => exact ⟨[], by rw [scanFrom], rfl⟩
  | blank hblank h ih =>
    obtain ⟨tokens, htokens, hlexemes⟩ := ih _
    exact ⟨tokens, by rw [scanFrom_blank hblank, htokens], hlexemes⟩
  | word hname hends h ih =>
    obtain ⟨c, more, hname, hstart, hmore⟩ := exists_of_isVariable hname
    obtain ⟨tokens, htokens, hlexemes⟩ := ih _
    refine ⟨_ :: tokens, by rw [hname, scanFrom_word hstart hmore hends, htokens, Except.map], ?_⟩
    rw [List.map_cons, hlexemes, ← hname, String.ofList_toList]
  | literal text h ih =>
    obtain ⟨tokens, htokens, hlexemes⟩ := ih _
    refine ⟨_ :: tokens, by rw [scanFrom_literal, htokens, Except.map], ?_⟩
    rw [List.map_cons, hlexemes]
  | mark hmark h ih =>
    obtain ⟨tokens, htokens, hlexemes⟩ := ih _
    refine ⟨_ :: tokens, by rw [scanFrom_mark hmark, htokens, Except.map], ?_⟩
    rw [List.map_cons, hlexemes]

end Conduit.SourceToken
