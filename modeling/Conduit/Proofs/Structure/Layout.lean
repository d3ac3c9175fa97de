import Conduit.Proofs.Expression.Sealed
import Conduit.Proofs.Structure.Lines
import Conduit.Proofs.Structure.Tokens
import Conduit.Proofs.Structure.Words

/-!
# The layout of tokens

The tokens of a source are laid out in it one after another, with nothing but white space between
them, and the place of each is that of the text in which it is written (`SourceToken.LaidOut`). No
token breaks its line: the one kind of token in which a line break could stand is a string literal,
and JSON accepts none there (`Json.Parser.not_mem_of_parse?`). Where scanning stops at a fault, the
fault is at a place in the source (`SourceToken.scanFrom_placed`).
-/

namespace Conduit

open Text

/-! ## String literals -/

namespace Json.Parser

variable {cs rest s : List Char}

/-- What is read of a text has no line break in it. -/
def Unbroken (cs rest : List Char) : Prop :=
  ∃ read, cs = read ++ rest ∧ '\n' ∉ read

theorem Unbroken.refl (cs : List Char) : Unbroken cs cs :=
  ⟨[], rfl, List.not_mem_nil⟩

theorem Unbroken.cons {c : Char} (hc : c ≠ '\n') (h : Unbroken cs rest) :
    Unbroken (c :: cs) rest := by
  obtain ⟨read, rfl, hread⟩ := h
  exact ⟨c :: read, rfl, List.not_mem_cons_of_ne_of_not_mem hc.symm hread⟩

theorem hexValue?_ne_break {c : Char} {n : Nat} (h : hexValue? c = some n) : c ≠ '\n' := by
  rintro rfl
  cases h

theorem unescape?_ne_break {c d : Char} (h : unescape? c = some d) : c ≠ '\n' := by
  rintro rfl
  cases h

theorem unbroken_of_unit? {a b c d : Char} {u : Nat} (hunit : unit? a b c d = some u)
    (h : Unbroken cs rest) : Unbroken (a :: b :: c :: d :: cs) rest := by
  simp only [unit?, Option.bind_eq_bind, Option.bind_eq_some_iff] at hunit
  obtain ⟨_, ha, _, hb, _, hc, _, hd, _⟩ := hunit
  exact .cons (hexValue?_ne_break ha) (.cons (hexValue?_ne_break hb)
    (.cons (hexValue?_ne_break hc) (.cons (hexValue?_ne_break hd) h)))

theorem Unbroken.escape {c : Char} (hc : c ≠ '\n') (h : Unbroken cs rest) :
    Unbroken ('\\' :: c :: cs) rest :=
  .cons (by decide) (.cons hc h)

/-- A string that JSON accepts has no line break between its quotation marks. -/
theorem unbroken_of_stringBody (h : stringBody cs = some (s, rest)) : Unbroken cs rest := by
  fun_induction stringBody cs generalizing s with
  | case2 =>
    cases h
    exact .cons (by decide) (.refl _)
  | case5 _ _ _ _ _ _ _ _ _ _ hunit _ _ hlow _ ih =>
    obtain ⟨s, hs⟩ := exists_of_map h
    exact .escape (by decide)
      (unbroken_of_unit? hunit (.escape (by decide) (unbroken_of_unit? hlow (ih hs))))
  | case8 _ _ _ _ _ _ _ _ _ _ hunit _ _ ih =>
    obtain ⟨s, hs⟩ := exists_of_map h
    exact .escape (by decide) (unbroken_of_unit? hunit (ih hs))
  | case11 _ _ _ _ _ _ _ hunit _ ih =>
    obtain ⟨s, hs⟩ := exists_of_map h
    exact .escape (by decide) (unbroken_of_unit? hunit (ih hs))
  | case13 c _ _ _ _ hunescape ih =>
    obtain ⟨s, hs⟩ := exists_of_map h
    exact .escape (unescape?_ne_break hunescape) (ih hs)
  | case15 c cs _ _ _ _ hcontrol ih =>
    obtain ⟨s, hs⟩ := exists_of_map h
    refine .cons ?_ (ih hs)
    rintro rfl
    exact hcontrol (by decide)
  | _ => cases h

/-- A text that starts with a quotation mark is read as a string, with white space behind it. -/
theorem exists_of_parse?_quote {v : Json} (h : Json.parse? (String.ofList ('"' :: cs)) = some v) :
    ∃ s rest, stringBody cs = some (s, rest) ∧ ∀ c ∈ rest, isSpace c = true := by
  obtain ⟨v, hv, _⟩ := Option.map_eq_some_iff.1 h
  unfold parseOrdered? at hv
  rw [String.toList_ofList] at hv
  split at hv
  · next w rest hvalue =>
    split at hv
    · next hrest =>
      have hstring : ((stringBody cs).bind fun read =>
          some (Json.string (String.ofList read.1), read.2)) = some (w, rest) := by
        rw [value] at hvalue
        simpa [skipSpace, isSpace] using hvalue
      obtain ⟨⟨s, rest⟩, hbody, heq⟩ := Option.bind_eq_some_iff.1 hstring
      cases heq
      exact ⟨s, _, hbody, List.dropWhile_eq_nil_iff.1 (List.isEmpty_iff.1 hrest)⟩
    · cases hv
  · cases hv

/-- A text that JSON reads as a string is one line, if it starts and ends with a quotation mark. -/
theorem not_mem_of_parse? {v : Json}
    (h : Json.parse? (String.ofList ('"' :: (cs ++ ['"']))) = some v) : '\n' ∉ cs := by
  obtain ⟨s, rest, hbody, hspace⟩ := exists_of_parse?_quote h
  obtain ⟨read, hcs, hread⟩ := unbroken_of_stringBody hbody
  -- White space behind the string would end with the quotation mark at the end of the text.
  have hnil : rest = [] := by
    rcases List.eq_nil_or_concat rest with hnil | ⟨init, c, rfl⟩
    · exact hnil
    · rw [List.concat_eq_append, ← List.append_assoc] at hcs
      have hquote := List.singleton_inj.1 (List.append_inj' hcs rfl).2
      have hblank := hspace c (by simp)
      rw [← hquote] at hblank
      cases hblank
  rw [hnil, List.append_nil] at hcs
  exact fun hmem => hread (hcs ▸ List.mem_append_left _ hmem)

end Json.Parser

/-! ## Scanning -/

/-- A text is a way to write a lexeme. -/
def Lexeme.WrittenAs (text : List Char) : Lexeme → Prop
  | word name => text = name.toList
  | literal content => (∃ body, text = '"' :: (body ++ ['"'])) ∧
      Json.parse? (String.ofList text) = some (.string content)
  | mark c => text = [c]

namespace SourceToken

/-- Tokens are laid out in what follows `before`: each stands at its place, and there is nothing but
white space between them. -/
inductive LaidOut : List Char → List Char → List SourceToken → Prop
  | nil {before cs : List Char} (hblank : Blank cs) : LaidOut before cs []
  | cons {t : SourceToken} {before gap text cs : List Char} {tokens : List SourceToken}
    (hgap : Blank gap) (hwritten : t.lexeme.WrittenAs text)
    (hplace : t.location.Covers (before ++ gap) text)
    (h : LaidOut (before ++ gap ++ text) cs tokens) :
    LaidOut before (gap ++ (text ++ cs)) (t :: tokens)

/-- What scanning the characters after `before` gives: tokens laid out in them, or a place in the
source. -/
def Placed (source : String) (before cs : List Char) :
    Except (SourceFault × Location) (List SourceToken) → Prop
  | .ok tokens => LaidOut before cs tokens
  | .error (_, l) => l.Within source

variable {source : String} {before text cs : List Char} {c : Char} {lexeme : Lexeme}
  {p : Position} {scanned : Except (SourceFault × Location) (List SourceToken)}

theorem Placed.blank (hc : isBlank c = true) (h : Placed source (before ++ [c]) cs scanned) :
    Placed source before (c :: cs) scanned := by
  cases scanned with
  | error e => exact h
  | ok tokens =>
    cases h with
    | nil hblank => exact .nil (blank_cons.2 ⟨hc, hblank⟩)
    | @cons t _ gap text cs tokens hgap hwritten hplace h =>
      rw [List.append_assoc] at hplace
      rw [List.append_assoc before] at h
      exact .cons (blank_cons.2 ⟨hc, hgap⟩) hwritten hplace h

/-- One more token in front. -/
theorem Placed.token (hp : Position.start.afterAll before = p) (hwritten : lexeme.WrittenAs text)
    (hne : text ≠ []) (hunbroken : '\n' ∉ text)
    (h : Placed source (before ++ text) cs scanned) :
    Placed source before (text ++ cs)
      (scanned >>= fun tokens => pure (⟨lexeme, p.upTo (p.afterAll text)⟩ :: tokens)) := by
  cases scanned with
  | error e => exact h
  | ok tokens =>
    have hplace := Location.covers_upTo before hne hunbroken
    rw [Position.afterAll_append, hp] at hplace
    have hgap : Blank ([] : List Char) := by decide
    change LaidOut before ([] ++ (text ++ cs)) _
    refine .cons hgap hwritten ?_ ?_
    · rwa [List.append_nil]
    · rwa [List.append_nil]

/-- A fault in the text that starts with a character. -/
theorem placed_error {fault : SourceFault} {more : List Char}
    (hp : Position.start.afterAll before = p) (hc : c ≠ '\n')
    (hsource : source.toList = before ++ (c :: more) ++ cs) :
    Placed source before (c :: more ++ cs) (.error (fault, p.upTo (p.afterAll (c :: more)))) := by
  subst hp
  rw [← Position.afterAll_append]
  exact Location.within_upTo hc hsource

theorem ne_break_of_isBlank (h : isBlank c = false) : c ≠ '\n' := by
  rintro rfl
  cases h

/-- A string literal and what follows it are the text from its opening quotation mark on. -/
theorem quote_span (cs : List Char) :
    '"' :: cs = '"' :: (span false cs).taken ++ (span false cs).rest :=
  congrArg ('"' :: ·) (taken_append_rest false cs).symm

/-- A span that is closed ends with a quotation mark. -/
theorem exists_of_closed {escaped : Bool} (h : (span escaped cs).closed = true) :
    ∃ body, (span escaped cs).taken = body ++ ['"'] := by
  fun_induction span escaped cs with
  | case1 => cases h
  | case2 escaped c cs hquote =>
    simp only [Bool.and_eq_true, beq_iff_eq] at hquote
    exact ⟨[], by rw [hquote.2]; rfl⟩
  | case3 => cases h
  | case4 escaped c cs _ _ s ih =>
    obtain ⟨body, hbody⟩ := ih h
    exact ⟨c :: body, congrArg (c :: ·) hbody⟩

/-- Scanning stops at a place in the source, or gives tokens that are laid out in it. -/
theorem scanFrom_placed (hsource : source.toList = before ++ cs)
    (hp : Position.start.afterAll before = p) : Placed source before cs (scanFrom p cs) := by
  fun_induction scanFrom p cs generalizing before
  case case1 => exact .nil (by decide)
  case case2 p c cs next hblank ih =>
    rw [List.append_cons] at hsource
    exact Placed.blank hblank (ih hsource (Position.afterAll_start_append [c] hp))
  case case3 p c cs next hblank _ more _ stop ih =>
    have htext : c :: cs = c :: more ++ cs.dropWhile isWordChar := by
      rw [List.cons_append, List.takeWhile_append_dropWhile]
    have hunbroken : '\n' ∉ c :: more := by
      intro hbreak
      rcases List.mem_cons.1 hbreak with h | h
      · exact ne_break_of_isBlank (Bool.eq_false_iff.2 hblank) h.symm
      · exact ne_break_of_isBlank (isBlank_of_isWordChar (List.mem_takeWhile_imp h)) rfl
    rw [htext, ← List.append_assoc] at hsource
    rw [htext]
    exact Placed.token hp String.toList_ofList.symm (by simp) hunbroken
      (ih hsource (Position.afterAll_start_append _ hp))
  case case4 p cs s _ _ next _ _ stop =>
    rw [quote_span, ← List.append_assoc] at hsource
    rw [quote_span]
    exact placed_error hp (by decide) hsource
  case case5 p cs s _ hclosed content next _ _ stop hread ih =>
    obtain ⟨body, hbody⟩ : ∃ body, s.taken = body ++ ['"'] :=
      exists_of_closed (by simpa using hclosed)
    have hunbroken : '\n' ∉ '"' :: s.taken := by
      have hnot := Json.Parser.not_mem_of_parse? (hbody ▸ hread)
      simp [hbody, hnot]
    rw [quote_span, ← List.append_assoc] at hsource
    rw [quote_span]
    refine Placed.token hp ⟨⟨body, congrArg ('"' :: ·) hbody⟩, hread⟩ (by simp) hunbroken ?_
    exact ih hsource (Position.afterAll_start_append _ hp)
  case case6 p cs s _ _ next _ _ stop _ =>
    rw [quote_span, ← List.append_assoc] at hsource
    rw [quote_span]
    exact placed_error hp (by decide) hsource
  case case7 p c cs next hblank _ _ _ ih =>
    have hc := ne_break_of_isBlank (Bool.eq_false_iff.2 hblank)
    rw [List.append_cons] at hsource
    have hwritten : (Lexeme.mark c).WrittenAs [c] := rfl
    exact Placed.token hp hwritten (by simp) (by simpa using hc.symm)
      (ih hsource (Position.afterAll_start_append [c] hp))
  case case8 p c cs next hblank _ _ _ =>
    have hc := ne_break_of_isBlank (Bool.eq_false_iff.2 hblank)
    rw [List.append_cons] at hsource
    exact placed_error hp hc hsource

end SourceToken

end Conduit
