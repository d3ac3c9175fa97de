import Conduit.Proofs.Expression.Operand
import Conduit.Proofs.Template.Whole
import Conduit.Structure.Source.Parser
import Mathlib.Data.List.Induction

/-!
# Lines and columns

The scanner counts lines and columns while it goes through a source. `Position.afterAll_start` says
where it is after a text: behind as many line breaks as the text has, and behind the characters that
follow the last one (`Text.lastLine`). A location that it makes of two such positions is that of the
text between them (`Location.covers_upTo`), whose characters stand in these columns of this line
(`Location.Covers.stretch_eq`), and it lies in the source (`Location.Within`), as does the end of
the last line (`Location.within_stop`).
-/

namespace Conduit

open Text

/-! ## Lines -/

namespace Text

variable {sep c : Char} {cs before after left right : List Char} {above below : List (List Char)}

/-- A text has one piece more than it has separators. -/
theorem length_splitOn (sep : Char) (cs : List Char) :
    (splitOn sep cs).length = cs.count sep + 1 := by
  induction cs with
  | nil => rfl
  | cons c cs ih =>
    rw [splitOn]
    split
    · next h => rw [List.length_cons, ih, h, List.count_cons_self]
    · next h =>
      obtain ⟨piece, pieces, hpieces⟩ := List.exists_cons_of_ne_nil (splitOn_ne_nil sep cs)
      rw [List.count_cons_of_ne h, ← ih, hpieces]
      rfl

/-- A separator starts a piece, and any other character goes on with the first one. -/
theorem splitOn_cons (h : splitOn sep cs = right :: below) (c : Char) :
    splitOn sep (c :: cs) = if c = sep then [] :: right :: below else (c :: right) :: below := by
  rw [splitOn, h]

/-- The last piece of a text and the first one of the text that follows are one piece of both. -/
theorem splitOn_meet (hbefore : splitOn sep before = above ++ [left])
    (hafter : splitOn sep after = right :: below) :
    splitOn sep (before ++ after) = above ++ (left ++ right) :: below := by
  induction before generalizing above left with
  | nil =>
    obtain ⟨rfl, hleft⟩ := List.append_eq_singleton_iff.1 hbefore.symm |>.resolve_right (by simp)
    obtain rfl := List.singleton_inj.1 hleft
    exact hafter
  | cons c before ih =>
    obtain ⟨piece, pieces, hpieces⟩ := List.exists_cons_of_ne_nil (splitOn_ne_nil sep before)
    rw [splitOn_cons hpieces] at hbefore
    rw [List.cons_append]
    cases above with
    | nil =>
      split at hbefore
      · cases hbefore
      · next hsep =>
        obtain ⟨rfl, rfl⟩ := List.cons.inj hbefore
        have hmeet := ih (show splitOn sep before = [] ++ [piece] from hpieces)
        rw [splitOn_cons hmeet, if_neg hsep]
        rfl
    | cons first above =>
      split at hbefore
      · next hsep =>
        obtain ⟨rfl, hlast⟩ := List.cons.inj hbefore
        rw [splitOn, if_pos hsep, ih (hpieces.trans hlast)]
        rfl
      · next hsep =>
        obtain ⟨rfl, rfl⟩ := List.cons.inj hbefore
        have hmeet := ih (show splitOn sep before = (piece :: above) ++ [left] from hpieces)
        rw [splitOn_cons hmeet, if_neg hsep]
        rfl

/-- The characters of a text after its last line break. -/
def lastLine (cs : List Char) : List Char :=
  (splitOn '\n' cs).getLast (splitOn_ne_nil '\n' cs)

theorem exists_splitOn_eq_lastLine (cs : List Char) :
    ∃ above, splitOn '\n' cs = above ++ [lastLine cs] ∧ above.length = cs.count '\n' := by
  have h := List.dropLast_concat_getLast (splitOn_ne_nil '\n' cs)
  refine ⟨_, h.symm, ?_⟩
  rw [List.length_dropLast, length_splitOn, Nat.add_sub_cancel]

theorem lastLine_of_splitOn (h : splitOn '\n' cs = above ++ [left]) : lastLine cs = left := by
  obtain ⟨above', habove', _⟩ := exists_splitOn_eq_lastLine cs
  exact (List.append_inj' (habove'.symm.trans h) rfl).2 |> List.singleton_inj.1

/-- The last line goes on up to a line break. -/
theorem lastLine_append (h : '\n' ∉ after) :
    lastLine (before ++ after) = lastLine before ++ after := by
  obtain ⟨above, habove, _⟩ := exists_splitOn_eq_lastLine before
  exact lastLine_of_splitOn (splitOn_meet habove (splitOn_eq_singleton h))

theorem lastLine_break (cs : List Char) : lastLine (cs ++ ['\n']) = [] := by
  obtain ⟨above, habove, _⟩ := exists_splitOn_eq_lastLine cs
  have hmeet : splitOn '\n' (cs ++ ['\n']) = above ++ (lastLine cs ++ []) :: [[]] :=
    splitOn_meet habove rfl
  exact lastLine_of_splitOn (hmeet.trans (List.append_cons ..))

/-- A text that does not break its line stands in the line in which it starts. -/
theorem exists_line (before after : List Char) (h : '\n' ∉ cs) : ∃ right,
    (splitOn '\n' (before ++ cs ++ after))[before.count '\n']? =
      some (lastLine before ++ cs ++ right) := by
  obtain ⟨above, habove, hlength⟩ := exists_splitOn_eq_lastLine (before ++ cs)
  obtain ⟨right, below, hafter⟩ := List.exists_cons_of_ne_nil (splitOn_ne_nil '\n' after)
  have hcount : above.length = before.count '\n' := by
    rw [hlength, List.count_append, List.count_eq_zero_of_not_mem h, Nat.add_zero]
  refine ⟨right, ?_⟩
  rw [splitOn_meet habove hafter, lastLine_append h, ← hcount, List.getElem?_append_right le_rfl,
    Nat.sub_self, List.getElem?_cons_zero]

end Text

/-! ## Positions -/

namespace Position

variable {cs before : List Char}

theorem afterAll_append (p : Position) (before after : List Char) :
    p.afterAll (before ++ after) = (p.afterAll before).afterAll after :=
  List.foldl_append ..

theorem afterAll_start_append {p : Position} (text : List Char) (h : start.afterAll before = p) :
    start.afterAll (before ++ text) = p.afterAll text := by
  rw [afterAll_append, h]

/-- Where a text ends: in the line after as many line breaks as it has, behind the characters after
the last one. -/
theorem afterAll_start (cs : List Char) :
    start.afterAll cs = ⟨cs.count '\n' + 1, (lastLine cs).length + 1⟩ := by
  induction cs using List.reverseRecOn with
  | nil => rfl
  | append_singleton cs c ih =>
    rw [afterAll_append, ih, List.count_append]
    by_cases hc : c = '\n'
    · rw [hc, lastLine_break]
      rfl
    · have hbreak : '\n' ∉ [c] := by simpa using Ne.symm hc
      rw [lastLine_append hbreak, List.count_eq_zero_of_not_mem hbreak, List.length_append]
      exact if_neg hc

theorem afterAll_of_unbroken (p : Position) (h : '\n' ∉ cs) :
    p.afterAll cs = ⟨p.line, p.column + cs.length⟩ := by
  induction cs generalizing p with
  | nil => rfl
  | cons c cs ih =>
    rw [List.mem_cons, not_or] at h
    have hafter : p.after c = ⟨p.line, p.column + 1⟩ := if_neg (Ne.symm h.1)
    change (p.after c).afterAll cs = _
    rw [ih _ h.2, hafter, List.length_cons, Nat.add_assoc, Nat.add_comm 1]

end Position

/-! ## Places in a source -/

namespace Location

/-- The length of a line of a source, as the reader counts lines: neither the line break nor a
carriage return before it belongs to the line, and nothing follows the last line break. -/
def lineLength (source : String) (line : Nat) : Nat :=
  ((SourceParser.linesOf (splitOn '\n' source.toList))[line - 1]?).elim 0 List.length

/-- A location that lies in a source. -/
structure Within (l : Location) (source : String) : Prop where
  line_pos : 1 ≤ l.line
  column_pos : 1 ≤ l.column
  endColumn_pos : 1 ≤ l.endColumn
  line_le : l.line ≤ l.endLine
  endLine_le : l.endLine ≤ source.toList.count '\n' + 1
  column_le_endColumn : l.line = l.endLine → l.column ≤ l.endColumn
  column_le : l.column ≤ lineLength source l.line + 1

/-- A location that is exactly that of a text which follows `before` and does not break its line. -/
structure Covers (l : Location) (before text : List Char) : Prop where
  nonempty : text ≠ []
  unbroken : '\n' ∉ text
  line : l.line = before.count '\n' + 1
  endLine : l.endLine = l.line
  column : l.column = (lastLine before).length + 1
  endColumn : l.endColumn + 1 = l.column + text.length

/-- The characters of a source from the first to the last column of a location in one line. -/
def stretch (l : Location) (source : String) : List Char :=
  (((splitOn '\n' source.toList)[l.line - 1]?.getD []).drop (l.column - 1)).take
    (l.endColumn + 1 - l.column)

variable {l : Location} {source : String} {before text after : List Char} {c : Char}

/-- The columns of a location that covers a text are those of the text. -/
theorem Covers.stretch_eq (h : l.Covers before text)
    (hsource : source.toList = before ++ text ++ after) : l.stretch source = text := by
  obtain ⟨right, hline⟩ := exists_line before after h.unbroken
  have hcolumn := h.column
  have hlength : l.endColumn + 1 - l.column = text.length := by
    have := h.endColumn
    omega
  rw [stretch, hlength, h.line, hcolumn, Nat.add_sub_cancel, Nat.add_sub_cancel, hsource, hline,
    Option.getD_some, List.append_assoc, List.drop_left, List.take_left]

/-- A text that does not break its line is covered by what the scanner takes for its place. -/
theorem covers_upTo (before : List Char) (hne : text ≠ []) (hunbroken : '\n' ∉ text) :
    ((Position.start.afterAll before).upTo
      (Position.start.afterAll (before ++ text))).Covers before text := by
  have hpos := List.length_pos_iff.2 hne
  rw [Position.afterAll_append, Position.afterAll_of_unbroken _ hunbroken, Position.afterAll_start]
  refine ⟨hne, hunbroken, rfl, rfl, rfl, ?_⟩
  simp only [Position.upTo]
  omega

/-- A line that is not empty is a line of a source, but for a carriage return at its end. -/
theorem exists_linesOf {pieces : List (List Char)} {i : Nat} {piece : List Char}
    (h : pieces[i]? = some piece) (hne : piece ≠ []) : ∃ line,
    (SourceParser.linesOf pieces)[i]? = some line ∧ (piece = line ∨ piece = line ++ ['\r']) := by
  fun_induction SourceParser.linesOf pieces generalizing i with
  | case1 => cases h
  | case2 last hlast =>
    cases i with
    | zero => exact absurd (List.isEmpty_iff.1 hlast) (Option.some.inj h ▸ hne)
    | succ i => cases h
  | case3 last hlast =>
    cases i with
    | zero => exact ⟨last, rfl, .inl (Option.some.inj h).symm⟩
    | succ i => cases h
  | case4 first rest hrest ih =>
    cases i with
    | zero =>
      obtain rfl := Option.some.inj h
      refine ⟨_, rfl, ?_⟩
      cases hline : before? ['\r'] first with
      | none => exact .inl rfl
      | some line => exact .inr (eq_of_before? hline)
    | succ i => exact ih h

/-- The characters of a line before one that does not break it are no more than the line has. -/
theorem length_lastLine_le {more : List Char} (hc : c ≠ '\n')
    (hsource : source.toList = before ++ (c :: more) ++ after) :
    (lastLine before).length ≤ lineLength source (before.count '\n' + 1) := by
  have hunbroken : '\n' ∉ [c] := by simpa using Ne.symm hc
  obtain ⟨right, hpiece⟩ := exists_line before (more ++ after) hunbroken
  obtain ⟨line, hline, hlength⟩ := exists_linesOf hpiece (by simp)
  have hchars : source.toList = before ++ [c] ++ (more ++ after) := by
    rw [hsource, List.append_assoc, List.append_assoc]
    rfl
  have hsame : lineLength source (before.count '\n' + 1) = line.length := by
    rw [lineLength, Nat.add_sub_cancel, hchars, hline, Option.elim_some]
  rw [hsame]
  rcases hlength with h | h <;>
    · have hlengths := congrArg List.length h
      simp only [List.length_append, List.length_singleton] at hlengths
      omega

/-- What the scanner takes for the place of a text is a place in the source, also if the text breaks
its line. -/
theorem within_upTo {more : List Char} (hc : c ≠ '\n')
    (hsource : source.toList = before ++ (c :: more) ++ after) :
    ((Position.start.afterAll before).upTo
      (Position.start.afterAll (before ++ c :: more))).Within source := by
  have hstart := length_lastLine_le hc hsource
  rw [Position.afterAll_start, Position.afterAll_start]
  refine ⟨Nat.le_add_left .., Nat.le_add_left .., Nat.le_max_right .., ?_, ?_, fun hline => ?_, ?_⟩
  · simp only [Position.upTo, List.count_append]
    omega
  · simp only [Position.upTo, hsource, List.count_append]
    omega
  · simp only [Position.upTo, List.count_append, Nat.add_right_cancel_iff, Nat.left_eq_add] at hline
    have hunbroken : '\n' ∉ c :: more := List.count_eq_zero.1 hline
    simp only [Position.upTo, lastLine_append hunbroken, List.length_append, List.length_cons]
    omega
  · exact Nat.add_le_add_right hstart 1

theorem Covers.within (h : l.Covers before text)
    (hsource : source.toList = before ++ text ++ after) : l.Within source := by
  obtain ⟨c, more, rfl⟩ := List.exists_cons_of_ne_nil h.nonempty
  have hc : c ≠ '\n' := fun heq => h.unbroken (heq ▸ List.mem_cons_self)
  have hstart := length_lastLine_le hc hsource
  have hcount : source.toList.count '\n' = before.count '\n' + after.count '\n' := by
    rw [hsource, List.count_append, List.count_append, List.count_eq_zero_of_not_mem h.unbroken]
    rfl
  have hcolumn := h.column
  have hend := h.endColumn
  rw [List.length_cons] at hend
  rw [← h.line] at hstart
  have hline := h.line
  have hendLine := h.endLine
  exact ⟨by omega, by omega, by omega, by omega, by omega, fun _ => by omega, by omega⟩

theorem length_linesOf_le (pieces : List (List Char)) :
    (SourceParser.linesOf pieces).length ≤ pieces.length := by
  fun_induction SourceParser.linesOf pieces with
  | case1 => exact le_rfl
  | case2 => exact Nat.zero_le _
  | case3 => exact le_rfl
  | case4 first rest hrest ih => exact Nat.succ_le_succ ih

/-- The end of the input is a place in the source. -/
theorem within_stop (source : String) : (SourceParser.stop source).Within source := by
  have hlength := length_linesOf_le (splitOn '\n' source.toList)
  rw [length_splitOn] at hlength
  unfold SourceParser.stop
  extract_lets lines line column
  have hlast : column ≤ lineLength source line + 1 := by
    have hline : line - 1 = lines.length - 1 := by omega
    rw [lineLength, hline, ← List.getLast?_eq_getElem?]
  have hline : line ≤ source.toList.count '\n' + 1 :=
    Nat.max_le.2 ⟨hlength, Nat.le_add_left ..⟩
  exact ⟨Nat.le_max_right .., Nat.le_add_left .., Nat.le_add_left .., le_rfl, hline,
    fun _ => le_rfl, hlast⟩

end Location

end Conduit
