import Conduit.Proofs.Template.Bare
import Mathlib.Data.List.Chain
import Mathlib.Data.List.Infix

/-!
# The pieces of a template

Splitting a template loses nothing but the white space at the ends of its expressions. The pieces of
a source are a split (`Template.Split`): literals are not empty and no two of them meet, expressions
are trimmed, and no piece has a mark in it that would end it early. And the source is what the
pieces write (`Template.Writes`): literals as they are, expressions between interpolation marks with
white space around them. Conversely, a source that a split writes is cut into just these pieces
(`Template.parse?_eq_ok_iff`), since a mark is always cut at where it first occurs
(`Text.cutAt?_eq_some_iff`). One space on either side of each expression is always enough
(`Template.Split.writes_normalForm`).
-/

namespace Conduit

open Text

/-! ## First occurrences -/

namespace Text

variable {part cs left right : List Char} {c : Char}

/-- A part is found in a text if it stands there. -/
theorem contains_iff : contains part cs = true ↔ part <:+: cs := by
  constructor
  · intro h
    obtain ⟨⟨left, right⟩, hcut⟩ := Option.isSome_iff_exists.1 h
    exact ⟨left, right, (eq_append_of_cutAt? hcut).symm⟩
  · rintro ⟨left, right, rfl⟩
    exact contains_of_append part left right

theorem contains_eq_false_iff : contains part cs = false ↔ ¬ part <:+: cs := by
  rw [← contains_iff, Bool.not_eq_true]

theorem after?_isSome_iff : (after? part cs).isSome ↔ part <+: cs := by
  rw [Option.isSome_iff_exists]
  exact exists_congr fun rest => after?_eq_some_iff.trans eq_comm

theorem isPrefix_append_dropLast (left part right : List Char) :
    left ++ part.dropLast <+: left ++ part ++ right := by
  have hpart : part.dropLast <+: part := List.dropLast_prefix part
  exact ((List.prefix_append_right_inj left).2 hpart).trans (List.prefix_append _ _)

/-- An occurrence of a part that starts before another one ends before the last character of the
other one. -/
theorem prefix_of_prefix_append (hne : part ≠ []) (hleft : left ≠ [])
    (h : part <+: left ++ part ++ right) : part <+: left ++ part.dropLast := by
  refine List.prefix_of_prefix_length_le h (isPrefix_append_dropLast left part right) ?_
  have hpart := List.length_pos_iff.2 hne
  have hpos := List.length_pos_iff.2 hleft
  rw [List.length_append, List.length_dropLast]
  omega

/-- A text is cut where a part first occurs: none ends before the part that is cut out does. -/
theorem cutAt?_eq_some_iff (hne : part ≠ []) : cutAt? part cs = some (left, right) ↔
    cs = left ++ part ++ right ∧ ¬ part <:+: left ++ part.dropLast := by
  induction cs generalizing left with
  | nil =>
    have hnone : after? part [] = none := by
      obtain ⟨p, more, rfl⟩ := List.exists_cons_of_ne_nil hne
      rfl
    simp [cutAt?, hnone, hne]
  | cons c cs ih =>
    rw [cutAt?]
    cases hstart : after? part (c :: cs) with
    | some rest =>
      rw [after?_eq_some_iff] at hstart
      constructor
      · intro h
        cases h
        refine ⟨by simpa using hstart, fun hinfix => ?_⟩
        have hlength := hinfix.length_le
        have hpart := List.length_pos_iff.2 hne
        rw [List.nil_append, List.length_dropLast] at hlength
        omega
      · rintro ⟨hcs, hfirst⟩
        cases left with
        | nil =>
          rw [hstart, List.nil_append] at hcs
          rw [List.append_cancel_left hcs]
        | cons d left =>
          have hearly : part <+: d :: left ++ part ++ right := ⟨rest, by rw [← hstart, hcs]⟩
          exact absurd (prefix_of_prefix_append hne (List.cons_ne_nil d left) hearly).isInfix hfirst
    | none =>
      have hprefix : ¬ part <+: c :: cs := by
        rw [← after?_isSome_iff, hstart]
        exact Bool.false_ne_true
      rw [Option.map_eq_some_iff]
      constructor
      · rintro ⟨⟨l, r⟩, hcut, heq⟩
        obtain ⟨rfl, rfl⟩ := Prod.mk.inj heq
        obtain ⟨rfl, hfirst⟩ := ih.1 hcut
        refine ⟨rfl, fun hinfix => ?_⟩
        rw [List.cons_append, List.infix_cons_iff] at hinfix
        refine hinfix.elim (fun hearly => hprefix ?_) hfirst
        exact hearly.trans (isPrefix_append_dropLast (c :: l) part r)
      · rintro ⟨hcs, hfirst⟩
        cases left with
        | nil => exact absurd ⟨right, hcs.symm⟩ hprefix
        | cons d l =>
          obtain ⟨rfl, rfl⟩ := List.cons.inj hcs
          refine ⟨(l, right), ih.2 ⟨rfl, fun hinfix => hfirst ?_⟩, rfl⟩
          exact hinfix.trans (List.suffix_cons c _).isInfix

end Text

/-! ## Splits -/

namespace Piece

/-- Whether a piece is a literal. -/
def isLiteral : Piece → Bool
  | literal _ => true
  | expression _ => false

/-- What a piece of a template is like: no expression starts in a literal, and none ends before its
end. -/
def Proper : Piece → Prop
  | literal text => text.toList ≠ [] ∧ ¬ Template.opening <:+: text.toList
  | expression source => Trimmed source.toList ∧ ¬ Template.closing <:+: source.toList

/-- A piece as it is written with one space on either side of an expression. -/
def written : Piece → List Char
  | literal text => text.toList
  | expression source => Template.opening ++ (' ' :: source.toList ++ [' ']) ++ Template.closing

end Piece

namespace Template

/-- Pieces of a template: each of them is proper, and no two literals meet. -/
structure Split (ps : List Piece) : Prop where
  proper : ∀ p ∈ ps, p.Proper
  apart : ps.IsChain fun p q => p.isLiteral = true → q.isLiteral = false

/-- A text is what pieces write: literals as they are, and expressions between interpolation marks,
with white space around them that keeps the closing mark apart. -/
inductive Writes : List Piece → List Char → Prop
  | nil : Writes [] []
  | literal (text : String) {ps : List Piece} {cs : List Char} (h : Writes ps cs) :
    Writes (.literal text :: ps) (text.toList ++ cs)
  | expression (source : String) {before after : List Char} {ps : List Piece} {cs : List Char}
    (hbefore : Blank before) (hafter : Blank after)
    (hfirst : ¬ closing <:+: before ++ source.toList ++ after ++ closing.dropLast)
    (h : Writes ps cs) :
    Writes (.expression source :: ps)
      (opening ++ (before ++ source.toList ++ after) ++ closing ++ cs)

/-- Pieces as they are written with one space on either side of each expression. -/
def normalForm (ps : List Piece) : String :=
  String.ofList (ps.flatMap Piece.written)

variable {source : String} {ps : List Piece} {cs before inner : List Char}

/-- What opens an expression cannot start in a text and go on behind it. -/
theorem not_opening_infix_append (h : ¬ opening <:+: cs) :
    ¬ opening <:+: cs ++ opening.dropLast := by
  induction cs with
  | nil => decide
  | cons c cs ih =>
    rw [List.infix_cons_iff, not_or] at h
    rw [List.cons_append, List.infix_cons_iff, not_or]
    refine ⟨fun hprefix => h.1 ?_, ih h.2⟩
    match cs, hprefix with
    | [], hprefix => simp [opening] at hprefix
    | [_], hprefix => simp [opening] at hprefix
    | d :: e :: more, hprefix => simpa [opening] using hprefix

/-- A text without a mark that opens an expression is one literal. -/
theorem pieces_literal (h : ¬ opening <:+: cs) : pieces cs = .ok (literal cs) := by
  have hnone : cutAt? opening cs = none := by
    rw [← Option.not_isSome_iff_eq_none]
    exact fun hsome => h (contains_iff.1 hsome)
  rw [pieces]
  split
  · rfl
  · next hcut => rw [hnone] at hcut; cases hcut

theorem not_opening_infix_nil : ¬ opening <:+: [] := by
  decide

/-- The first expression of a template, and what comes before it. -/
theorem pieces_expression (cs : List Char) (hbefore : ¬ opening <:+: before)
    (hfirst : ¬ closing <:+: inner ++ closing.dropLast) (hne : trim inner ≠ []) :
    pieces (before ++ opening ++ (inner ++ closing ++ cs)) = (pieces cs).map
      (literal before ++ .expression (String.ofList (trim inner)) :: ·) := by
  have hopening : cutAt? opening (before ++ opening ++ (inner ++ closing ++ cs)) =
      some (before, inner ++ closing ++ cs) :=
    (cutAt?_eq_some_iff (by decide)).2 ⟨rfl, not_opening_infix_append hbefore⟩
  have hclosing : cutAt? closing (inner ++ closing ++ cs) = some (inner, cs) :=
    (cutAt?_eq_some_iff (by decide)).2 ⟨rfl, hfirst⟩
  have hnonempty : (trim inner).isEmpty = false := by
    rw [Bool.eq_false_iff, Ne, List.isEmpty_iff]
    exact hne
  rw [pieces]
  split
  · next hnone => rw [hopening] at hnone; cases hnone
  · next left right hcut =>
    rw [hopening] at hcut
    cases hcut
    split
    · next hnone => rw [hclosing] at hnone; cases hnone
    · next left right hcut =>
      rw [hclosing] at hcut
      cases hcut
      simp only [hnonempty, Bool.false_eq_true, if_false]
      cases pieces cs <;> rfl

/-- A literal in front of pieces of which the first is none. -/
theorem Split.literal_append (h : Split ps) (hcs : ¬ opening <:+: cs)
    (hhead : ∀ p ∈ ps.head?, p.isLiteral = false) : Split (literal cs ++ ps) := by
  unfold literal
  split
  · exact h
  · next hempty =>
    refine ⟨List.forall_mem_cons.2 ⟨⟨?_, ?_⟩, h.proper⟩, ?_⟩
    · rw [String.toList_ofList]
      exact fun hnil => hempty (by rw [hnil]; rfl)
    · rw [String.toList_ofList]
      exact hcs
    · exact List.isChain_cons.2 ⟨fun p hp _ => hhead p hp, h.apart⟩

theorem Split.expression_cons (h : Split ps) (htrimmed : Trimmed source.toList)
    (hclosing : ¬ closing <:+: source.toList) : Split (.expression source :: ps) :=
  ⟨List.forall_mem_cons.2 ⟨⟨htrimmed, hclosing⟩, h.proper⟩,
    List.isChain_cons.2 ⟨fun _ _ => nofun, h.apart⟩⟩

theorem Writes.literal_append (h : Writes ps cs) (before : List Char) :
    Writes (Template.literal before ++ ps) (before ++ cs) := by
  unfold Template.literal
  split
  · next hempty =>
    rw [List.isEmpty_iff.1 hempty]
    exact h
  · have hwrites := h.literal (String.ofList before)
    rwa [String.toList_ofList] at hwrites

theorem not_infix_of_cutAt?_eq_none {part : List Char} (h : cutAt? part cs = none) :
    ¬ part <:+: cs := by
  rw [← contains_iff, contains, h]
  exact Bool.false_ne_true

/-- The pieces of a template are a split, and write it. -/
theorem split_of_pieces (h : pieces cs = .ok ps) : Split ps ∧ Writes ps cs := by
  fun_induction pieces cs generalizing ps
  case case1 cs hopening =>
    cases h
    have hsplit : Split [] := ⟨List.forall_mem_nil _, .nil⟩
    have hwrites := Writes.nil.literal_append cs
    have hliteral := hsplit.literal_append (not_infix_of_cutAt?_eq_none hopening) (by simp)
    simp only [List.append_nil] at hwrites hliteral
    exact ⟨hliteral, hwrites⟩
  case case2 => cases h
  case case3 => cases h
  case case4 cs before rest hopening inner rest' hclosing _ _ trimmed hne ih =>
    obtain ⟨more, hmore, h⟩ := bind_eq_ok_iff.1 h
    cases h
    obtain ⟨hsplit, hwrites⟩ := ih hmore
    obtain ⟨rfl, hbefore⟩ := (cutAt?_eq_some_iff (by decide)).1 hopening
    obtain ⟨rfl, hfirst⟩ := (cutAt?_eq_some_iff (by decide)).1 hclosing
    obtain ⟨left, right, hinner, hleft, hright⟩ := exists_eq_trim inner
    have htrimmed : Trimmed trimmed := trimmed_trim fun hnil => hne (List.isEmpty_iff.2 hnil)
    have hinfix : trimmed <:+: inner := ⟨left, right, hinner.symm⟩
    have hexpression : Split (.expression (String.ofList trimmed) :: more) := by
      refine hsplit.expression_cons ?_ ?_
      · rwa [String.toList_ofList]
      · rw [String.toList_ofList]
        exact fun h => hfirst ((h.trans hinfix).trans (List.prefix_append ..).isInfix)
    have hwritten := hwrites.expression (String.ofList trimmed) hleft hright (by
      rwa [String.toList_ofList, ← hinner])
    rw [String.toList_ofList, ← hinner] at hwritten
    have hliteral := hwritten.literal_append before
    simp only [← List.append_assoc] at hliteral ⊢
    refine ⟨hexpression.literal_append ?_ (by rintro _ ⟨⟩; rfl), hliteral⟩
    exact fun h => hbefore (h.trans (List.prefix_append ..).isInfix)

/-- What a split writes, after a literal, is cut into the literal and the split. -/
theorem Writes.pieces_append (h : Writes ps cs) (hsplit : Split ps)
    (hbefore : ¬ opening <:+: before) (hhead : before ≠ [] → ∀ p ∈ ps.head?, p.isLiteral = false) :
    pieces (before ++ cs) = .ok (Template.literal before ++ ps) := by
  -- A literal has no cut of its own: it is put in front and handed on to the next expression.
  induction h generalizing before with
  | nil =>
    rw [List.append_nil, List.append_nil]
    exact pieces_literal hbefore
  | @literal text ps cs h ih =>
    have hnil : before = [] := by
      by_contra hne
      cases hhead hne _ rfl
    obtain ⟨⟨hne, hopening⟩, hproper⟩ := List.forall_mem_cons.1 hsplit.proper
    obtain ⟨hnext, hapart⟩ := List.isChain_cons.1 hsplit.apart
    have hliteral : Template.literal text.toList = [.literal text] := by
      rw [Template.literal, if_neg (fun h => hne (List.isEmpty_iff.1 h)), String.ofList_toList]
    rw [hnil, List.nil_append, ih ⟨hproper, hapart⟩ hopening fun _ p hp => hnext p hp rfl, hliteral]
    rfl
  | @expression source left right ps cs hleft hright hfirst h ih =>
    obtain ⟨⟨htrimmed, _⟩, hproper⟩ := List.forall_mem_cons.1 hsplit.proper
    have hapart := (List.isChain_cons.1 hsplit.apart).2
    have htrim : trim (left ++ source.toList ++ right) = source.toList :=
      trim_pad hleft htrimmed hright
    have hrest : pieces cs = .ok ps :=
      ih ⟨hproper, hapart⟩ not_opening_infix_nil fun h => absurd rfl h
    have hpieces := pieces_expression cs hbefore hfirst (by
      rw [htrim]
      exact htrimmed.ne_nil)
    rw [htrim, hrest, String.ofList_toList] at hpieces
    simpa only [List.append_assoc, Except.map] using hpieces

/-- A source is cut into pieces exactly if they are a split that writes it. -/
theorem parse?_eq_ok_iff : parse? source = .ok ps ↔ Split ps ∧ Writes ps source.toList := by
  rw [parse?, mapError_eq_ok_iff]
  refine ⟨split_of_pieces, ?_⟩
  rintro ⟨hsplit, hwrites⟩
  exact hwrites.pieces_append hsplit not_opening_infix_nil fun h => absurd rfl h

/-- Pieces of a split are written in normal form. -/
theorem Split.writes_normalForm (h : Split ps) : Writes ps (normalForm ps).toList := by
  rw [normalForm, String.toList_ofList]
  induction ps with
  | nil => exact .nil
  | cons p ps ih =>
    obtain ⟨hp, hproper⟩ := List.forall_mem_cons.1 h.proper
    have hwrites := ih ⟨hproper, (List.isChain_cons.1 h.apart).2⟩
    cases p with
    | literal text => exact hwrites.literal text
    | expression source =>
      have hspace : contains closing (' ' :: source.toList) = false := by
        rw [contains_eq_false_iff, List.infix_cons_iff, not_or]
        exact ⟨by simp [closing], hp.2⟩
      have hfirst := ((cutAt?_eq_some_iff (by decide)).1 (cutAt?_closing hspace)).2
      have hblank : Blank [' '] := by decide
      exact hwrites.expression source hblank hblank hfirst

/-- Splitting loses nothing: the pieces of a source are a split and write the source, and they are
the pieces of their normal form. -/
theorem parse?_splits (h : parse? source = .ok ps) :
    Split ps ∧ Writes ps source.toList ∧ parse? (normalForm ps) = .ok ps := by
  obtain ⟨hsplit, hwrites⟩ := parse?_eq_ok_iff.1 h
  exact ⟨hsplit, hwrites, parse?_eq_ok_iff.2 ⟨hsplit, hsplit.writes_normalForm⟩⟩

/-- A source with characters of marks on both sides of its marks. -/
def crowded : String :=
  "$$\x7b\x7b\u2003\x7ba\x7d \x7d\x7d\x7d$\x7b\x7bb\x7d\x7d$\x7b"

/-- The pieces of that source. -/
def crowdedPieces : List Piece :=
  [.literal "$", .expression "\x7ba\x7d", .literal "\x7d", .expression "b", .literal "$\x7b"]

theorem parse?_crowded_splits : parse? crowded = .ok crowdedPieces ∧ Split crowdedPieces ∧
    Writes crowdedPieces crowded.toList ∧
    parse? (normalForm crowdedPieces) = .ok crowdedPieces := by
  have h : parse? crowded = .ok crowdedPieces := eq_ok_of_toOption (by decide +kernel)
  exact ⟨h, parse?_splits h⟩

end Template

end Conduit
