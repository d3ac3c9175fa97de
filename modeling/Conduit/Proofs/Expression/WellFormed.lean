import Conduit.Proofs.Expression.Parentheses
import Conduit.Proofs.Expression.Sealed

/-!
# What is read is well-formed

A text that is read as an expression is well-formed outside of its strings
(`Expression.wellFormed_of_parse?`): its parentheses are in pairs, the symbols in it are
connectives, at any depth, and each has an operand on both sides. Two things are left out. Texts in
single quotation marks are told by their ends only, so that `('a' < 'b')` is read as one string
(`Expression.not_forall_wellFormed`); and a repeated `||` or `&&` need not have an operand after it.

`Read` says what is known of each part, and that is put together form by form.
-/

namespace Conduit.Expression

open Text

variable {cs left right rest symbol inner : List Char} {s : Scan} {e : Expression}

/-! ## Symbols that divide -/

/-- A symbol stands at the top level of a text, and something comes after it. -/
def Divides (symbol cs : List Char) : Prop :=
  ∃ left right, cs = left ++ symbol ++ right ∧ Scan.start.after left = .start ∧ right ≠ []

/-- What divides a part divides the text, if the part starts at the top level. -/
theorem Divides.lift (h : Divides symbol cs) {before : List Char}
    (hbefore : Scan.start.after before = .start) (after : List Char) :
    Divides symbol (before ++ cs ++ after) := by
  obtain ⟨left, right, rfl, hleft, hright⟩ := h
  refine ⟨before ++ left, right ++ after, by simp, ?_, ?_⟩
  · rw [Scan.after_append, hbefore, hleft]
  · exact List.append_ne_nil_of_left_ne_nil hright after

/-- What divides a text at its start divides the text. -/
theorem Divides.append (h : Divides symbol cs) (rest : List Char) : Divides symbol (cs ++ rest) :=
  h.lift (rfl : Scan.start.after [] = .start) rest

/-- What divides a text at its end divides the text, if the end starts at the top level. -/
theorem Divides.prepend (h : Divides symbol cs) {before : List Char}
    (hbefore : Scan.start.after before = .start) : Divides symbol (before ++ cs) := by
  have hlift := h.lift hbefore []
  rwa [List.append_nil] at hlift

theorem eq_start_of_isTop (h : s.isTop = true) : s = .start := by
  obtain ⟨quote, depth⟩ := s
  simp only [Scan.isTop, Bool.and_eq_true, Option.isNone_iff_eq_none, beq_iff_eq] at h
  rw [h.1, h.2]
  rfl

/-- Nothing is open where a symbol is found. -/
theorem after_of_cutTop? (h : cutTop? symbol s cs = some (left, right)) :
    s.after left = .start := by
  induction cs generalizing s left with
  | nil => cases h
  | cons c cs ih =>
    obtain ⟨_, htop, rfl, _⟩ | ⟨more, rfl, hcut, _⟩ := cutTop?_cons_eq_some h
    · exact eq_start_of_isTop htop
    · rw [Scan.after_cons]
      exact ih hcut

/-- A symbol is found where it stands first. -/
theorem cutTop?_left_eq_none (h : cutTop? symbol s cs = some (left, right)) :
    cutTop? symbol s left = none := by
  induction cs generalizing s left with
  | nil => cases h
  | cons c cs ih =>
    obtain ⟨_, _, rfl, _⟩ | ⟨more, rfl, hcut, hhere⟩ := cutTop?_cons_eq_some h
    · rfl
    · rw [cutTop?_cons_eq_none_iff]
      refine ⟨fun hstep htop => ?_, ih hcut⟩
      have hnone := hhere hstep htop
      rw [eq_append_of_cutTop? hcut, List.append_assoc, ← List.cons_append] at hnone
      exact after?_none_left hnone

/-- A symbol that stands somewhere is found there or before. -/
theorem exists_cutTop? (hsymbol : symbol ∈ symbols) (hleft : s.after left = .start) :
    ∃ before after, cutTop? symbol s (left ++ symbol ++ right) = some (before, after) ∧
      right.length ≤ after.length := by
  induction left generalizing s with
  | nil =>
    obtain ⟨c, more, rfl, hc, _⟩ := exists_of_mem_symbols hsymbol
    rw [Scan.after_nil] at hleft
    exact ⟨[], right, by rw [hleft]; exact cutTop?_here hc, Nat.le_refl _⟩
  | cons c left ih =>
    rw [Scan.after_cons] at hleft
    obtain ⟨before, after, hcut, hle⟩ := ih hleft
    rw [List.cons_append, List.cons_append]
    cases hwhole : cutTop? symbol s (c :: (left ++ symbol ++ right)) with
    | none =>
      rw [cutTop?_cons_eq_none_iff, hcut] at hwhole
      cases hwhole.2
    | some cut =>
      -- an earlier place leaves more of the text behind it
      obtain ⟨first, last⟩ := cut
      refine ⟨first, last, rfl, ?_⟩
      obtain ⟨_, _, _, hhere⟩ | ⟨more, _, hlater, _⟩ := cutTop?_cons_eq_some hwhole
      · have hlength := congrArg List.length (after?_eq_some_iff.1 hhere)
        simp only [List.length_cons, List.length_append] at hlength
        omega
      · rw [hcut] at hlater
        cases hlater
        exact hle

theorem not_divides_of_parts? (hsymbol : symbol ∈ symbols) {hne : symbol ≠ []}
    (h : parts? symbol hne cs = none) : ¬ Divides symbol cs := by
  rintro ⟨left, right, rfl, hleft, hright⟩
  obtain ⟨before, after, hcut, hle⟩ := exists_cutTop? hsymbol hleft
  refine hright (List.eq_nil_of_length_eq_zero ?_)
  rw [cutTop?_of_parts?_eq_none h hcut] at hle
  exact Nat.le_zero.1 hle

/-! ## Parts -/

/-- A text ends in an operand, or in an operator that divides it. -/
def Ends (cs : List Char) : Prop :=
  ∃ init c after, cs = init ++ c :: after ∧ isBlank c = false ∧ Blank after ∧
    c ∉ ['(', '=', '!', '<', '>'] ∧ (c = '|' → Divides ['|', '|'] cs) ∧
    (c = '&' → Divides ['|', '|'] cs ∨ Divides ['&', '&'] cs)

/-- What is known of a text that is read. -/
structure Read (cs : List Char) : Prop where
  balanced : Balanced cs
  sound : Sound cs
  starts : StartsOperand cs
  ends : Ends cs

theorem sealed_of_blank (h : Blank cs) : Sealed cs :=
  .of_plain fun c hc => isPlain_of_isBlank (h c hc)

theorem after_of_blank (h : Blank cs) : Scan.start.after cs = .start :=
  (Passes.of_blank h).after 0

/-- White space continues no symbol. -/
theorem apart_of_blank (h : Blank cs) (rest : List Char) : Apart cs rest ∧ Apart rest cs := by
  have hnone : ∀ c ∈ cs, c ∉ marks := fun c hc => not_mem_marks_of_isBlank (h c hc)
  exact ⟨fun c hc d _ hmeets => hnone c (List.mem_of_mem_getLast? hc) hmeets.marks.1,
    fun c _ d hd hmeets => hnone d (List.mem_of_mem_head? hd) hmeets.marks.2⟩

theorem Ends.prepend (h : Ends cs) {before : List Char}
    (hbefore : Scan.start.after before = .start) : Ends (before ++ cs) := by
  obtain ⟨init, c, after, heq, hblank, hafter, hc, hor, hand⟩ := h
  exact ⟨before ++ init, c, after, by simp [heq], hblank, hafter, hc,
    fun h => (hor h).prepend hbefore,
    fun h => (hand h).imp (·.prepend hbefore) (·.prepend hbefore)⟩

theorem Ends.append (h : Ends cs) (hrest : Blank rest) : Ends (cs ++ rest) := by
  obtain ⟨init, c, after, heq, hblank, hafter, hc, hor, hand⟩ := h
  have hspace : Blank (after ++ rest) := List.forall_mem_append.2 ⟨hafter, hrest⟩
  exact ⟨init, c, after ++ rest, by simp [heq], hblank, hspace, hc,
    fun h => (hor h).append rest, fun h => (hand h).imp (·.append rest) (·.append rest)⟩

/-- A text that no operator divides ends in an operand. -/
theorem Ends.endsOperand (h : Ends cs) (hor : ¬ Divides ['|', '|'] cs)
    (hand : symbol ≠ ['|', '|'] → ¬ Divides ['&', '&'] cs) : EndsOperand symbol cs := by
  obtain ⟨init, c, after, heq, hblank, hafter, hc, hdivOr, hdivAnd⟩ := h
  refine ⟨init, c, after, heq, hblank, hafter, ?_, fun hamp => ?_⟩
  · have hbar : c ≠ '|' := fun hbar => hor (hdivOr hbar)
    simp only [List.mem_cons, not_or] at hc ⊢
    exact ⟨hc.1, hbar, hc.2⟩
  · by_contra hne
    exact (hdivAnd hamp).elim hor (hand hne)

/-- White space around a text makes no difference. -/
theorem Read.of_trim (h : Read (trim cs)) : Read cs := by
  obtain ⟨before, after, hcs, hbefore, hafter⟩ := exists_eq_trim cs
  generalize trim cs = t at h hcs
  subst hcs
  obtain ⟨front, c, rest, heq, hfront, hc⟩ := h.starts
  have hstarts : StartsOperand (before ++ t) :=
    ⟨before ++ front, c, rest, by simp [heq], List.forall_mem_append.2 ⟨hbefore, hfront⟩, hc⟩
  exact {
    balanced := ((sealed_of_blank hbefore).balanced.append h.balanced).append
      (sealed_of_blank hafter).balanced
    sound := ((sealed_of_blank hbefore).sound.append h.sound (apart_of_blank hbefore t).1).append
      (sealed_of_blank hafter).sound (apart_of_blank hafter _).2
    starts := hstarts.append (apart_of_blank hafter _).2
    ends := (h.ends.prepend (after_of_blank hbefore)).append hafter }

/-! ## Pieces -/

/-- The piece before a symbol is not divided by it. -/
theorem not_divides_left (hsymbol : symbol ∈ symbols)
    (hcut : cutTop? symbol .start cs = some (left, right)) : ¬ Divides symbol left := by
  obtain ⟨c, more, rfl, _⟩ := exists_of_mem_symbols hsymbol
  exact not_divides_of_parts? hsymbol
    (parts?_eq_none (List.cons_ne_nil c more) (cutTop?_left_eq_none hcut))

/-- An operand ends before a symbol that a text is cut at, if no operator that binds less tightly
divides the text. -/
theorem endsOperand_of_cut (hsymbol : symbol ∈ connectives)
    (hcut : cutTop? symbol .start cs = some (left, right)) (hread : Read left)
    (hor : symbol ≠ ['|', '|'] → ¬ Divides ['|', '|'] cs)
    (hand : symbol ≠ ['|', '|'] → symbol ≠ ['&', '&'] → ¬ Divides ['&', '&'] cs) :
    EndsOperand symbol left := by
  have hnot := not_divides_left (List.mem_append_right _ hsymbol) hcut
  have hleft : ∀ {other}, ¬ Divides other cs → ¬ Divides other left := by
    intro other hother hdivides
    refine hother ?_
    rw [eq_append_of_cutTop? hcut, List.append_assoc]
    exact hdivides.append _
  refine hread.ends.endsOperand ?_ fun hother => ?_
  · by_cases hsame : symbol = ['|', '|']
    · rwa [hsame] at hnot
    · exact hleft (hor hsame)
  · by_cases hsame : symbol = ['&', '&']
    · rwa [hsame] at hnot
    · exact hleft (hand hother hsame)

theorem after_of_mem_connectives (h : symbol ∈ connectives) : Scan.start.after symbol = .start :=
  Scan.after_bare (bare_of_mem_connectives h) 0

theorem mem_connectives_of_chains (h : symbol = ['|', '|'] ∨ symbol = ['&', '&']) :
    symbol ∈ connectives := by
  rcases h with rfl | rfl <;> decide

/-- A part of a disjunction or conjunction ends: in an operand or, in a disjunction, in an
operator. -/
def EndsPart (symbol cs : List Char) : Prop :=
  ∃ init c after, cs = init ++ c :: after ∧ isBlank c = false ∧ Blank after ∧
    c ∉ ['(', '=', '!', '<', '>'] ∧ (c = '|' → symbol = ['|', '|'])

theorem EndsPart.prepend (h : EndsPart symbol cs) (before : List Char) :
    EndsPart symbol (before ++ cs) := by
  obtain ⟨init, c, after, rfl, hc⟩ := h
  exact ⟨before ++ init, c, after, by simp, hc⟩

/-- What is known of parts with a symbol between any two of them, if an operand ends with the
last. -/
structure Leads (symbol cs : List Char) : Prop where
  balanced : Balanced cs
  sound : Sound cs
  ends : EndsOperand symbol cs

/-- What is known of all parts of a disjunction or conjunction. -/
structure Chained (symbol cs : List Char) : Prop where
  balanced : Balanced cs
  sound : Sound cs
  ends : EndsPart symbol cs

section

variable (hsymbol : symbol = ['|', '|'] ∨ symbol = ['&', '&']) (h : Leads symbol left)
include hsymbol h

/-- Another part follows. -/
theorem Leads.next (hread : Read right) (hends : EndsOperand symbol right) :
    Leads symbol (left ++ symbol ++ right) := by
  have hconnective := mem_connectives_of_chains hsymbol
  have hmid := balanced_of_bare (bare_of_mem_connectives hconnective)
  exact ⟨(h.balanced.append hmid).append hread.balanced,
    h.sound.connect hread.sound hconnective h.ends (.inl hread.starts), hends.prepend _⟩

/-- The last part follows. -/
theorem Leads.last (hread : Read right)
    (hor : symbol ≠ ['|', '|'] → ¬ Divides ['|', '|'] right) :
    Chained symbol (left ++ symbol ++ right) := by
  have hconnective := mem_connectives_of_chains hsymbol
  have hmid := balanced_of_bare (bare_of_mem_connectives hconnective)
  obtain ⟨init, c, after, heq, hblank, hafter, hc, hdivides, _⟩ := hread.ends
  have hends : EndsPart symbol right := by
    refine ⟨init, c, after, heq, hblank, hafter, hc, fun hbar => ?_⟩
    by_contra hother
    exact hor hother (hdivides hbar)
  exact ⟨(h.balanced.append hmid).append hread.balanced,
    h.sound.connect hread.sound hconnective h.ends (.inl hread.starts), hends.prepend _⟩

/-- Nothing follows, after a symbol that is repeated. -/
theorem Leads.repeated (hrepeats : Repeats symbol left) : Chained symbol (left ++ symbol) := by
  have hconnective := mem_connectives_of_chains hsymbol
  have hmid := balanced_of_bare (bare_of_mem_connectives hconnective)
  have hsound := h.sound.connect Sealed.nil.sound hconnective h.ends (.inr ⟨rfl, hrepeats⟩)
  rw [List.append_nil] at hsound
  refine ⟨h.balanced.append hmid, hsound, EndsPart.prepend ?_ _⟩
  rcases hsymbol with rfl | rfl
  · exact ⟨['|'], '|', [], rfl, by decide, blank_nil, by decide, fun _ => rfl⟩
  · exact ⟨['&'], '&', [], rfl, by decide, blank_nil, by decide, by decide⟩

/-- The pieces of a text may follow a part, with the symbol between any two of them. -/
theorem Leads.chained {hne : symbol ≠ []} (hpieces : ∀ p ∈ pieceTexts symbol hne right, Read p)
    (hright : right ≠ []) (hor : symbol ≠ ['|', '|'] → ¬ Divides ['|', '|'] right) :
    Chained symbol (left ++ symbol ++ right) := by
  have hconnective := mem_connectives_of_chains hsymbol
  -- on what is still to be read; the parts before it grow with each piece
  induction right using cut_induct hne generalizing left with
  | last hcut =>
    rw [pieceTexts_last hne hright hcut] at hpieces
    exact h.last hsymbol (.of_trim (hpieces _ List.mem_cons_self)) hor
  | @cut right piece more hcut ih =>
    rw [pieceTexts_cut hne hcut, List.forall_mem_cons] at hpieces
    have hread : Read piece := .of_trim hpieces.1
    have hends : EndsOperand symbol piece :=
      endsOperand_of_cut hconnective hcut hread hor fun hother hother' =>
        absurd (hsymbol.resolve_left hother) hother'
    have hnext := h.next hsymbol hread hends
    have hshape := eq_append_of_cutTop? hcut
    have happend : left ++ symbol ++ right = left ++ symbol ++ piece ++ symbol ++ more := by
      rw [hshape]
      simp
    rw [happend]
    cases more with
    | nil =>
      have hrepeats : Repeats symbol (left ++ symbol ++ piece) :=
        ⟨by simpa using hsymbol, left, piece, rfl, h.sound.closed, hread.balanced⟩
      rw [List.append_nil]
      exact hnext.repeated hsymbol hrepeats
    | cons d more =>
      refine ih hnext hpieces.2 (List.cons_ne_nil d more) fun hother hdivides => ?_
      have hbefore : Scan.start.after (piece ++ symbol) = .start := by
        rw [Scan.after_append, after_of_cutTop? hcut, after_of_mem_connectives hconnective]
      rw [hshape] at hor
      exact hor hother (hdivides.prepend hbefore)

end

/-! ## Forms -/

/-- A disjunction or conjunction. -/
theorem Read.of_cut {hne : symbol ≠ []} (hsymbol : symbol = ['|', '|'] ∨ symbol = ['&', '&'])
    (hcut : cutTop? symbol .start cs = some (left, right)) (hright : right ≠ [])
    (hpieces : ∀ p ∈ trim left :: pieceTexts symbol hne right, Read p)
    (hor : symbol ≠ ['|', '|'] → ¬ Divides ['|', '|'] cs) : Read cs := by
  have hconnective := mem_connectives_of_chains hsymbol
  rw [List.forall_mem_cons] at hpieces
  have hread : Read left := .of_trim hpieces.1
  have hends : EndsOperand symbol left :=
    endsOperand_of_cut hconnective hcut hread hor fun hother hother' =>
      absurd (hsymbol.resolve_left hother) hother'
  have hshape := eq_append_of_cutTop? hcut
  have hdivides : Divides symbol cs := ⟨left, right, hshape, after_of_cutTop? hcut, hright⟩
  have hrightOr : symbol ≠ ['|', '|'] → ¬ Divides ['|', '|'] right := by
    intro hother hright
    refine hor hother ?_
    rw [hshape]
    refine hright.prepend ?_
    rw [Scan.after_append, after_of_cutTop? hcut, after_of_mem_connectives hconnective]
  have hleads : Leads symbol left := ⟨hread.balanced, hread.sound, hends⟩
  obtain ⟨hbalanced, hsound, init, c, after, heq, hblank, hafter, hc, hbar⟩ :=
    hleads.chained hsymbol hpieces.2 hright hrightOr
  have hapart : Apart left (symbol ++ right) := (hends.apart hconnective).append_left hne
  rw [← hshape] at hbalanced hsound heq
  refine ⟨hbalanced, hsound, ?_, init, c, after, heq, hblank, hafter, hc, fun h => ?_, fun _ => ?_⟩
  · rw [hshape, List.append_assoc]
    exact hread.starts.append hapart
  · rwa [hbar h] at hdivides
  · rcases hsymbol with rfl | rfl
    · exact .inl hdivides
    · exact .inr hdivides

/-- A comparison. -/
theorem Read.of_comparison (hsymbol : symbol = ['!', '='] ∨ symbol = ['=', '='])
    (hdiv : Undivided cs) (hcut : cutTop? symbol .start cs = some (left, right))
    (hleft : Read left) (hright : Read right) : Read cs := by
  have hconnective : symbol ∈ connectives := by rcases hsymbol with rfl | rfl <;> decide
  have hor : ¬ Divides ['|', '|'] cs := not_divides_of_parts? (by decide) hdiv.or
  have hand : ¬ Divides ['&', '&'] cs := not_divides_of_parts? (by decide) hdiv.and
  have hends : EndsOperand symbol left :=
    endsOperand_of_cut hconnective hcut hleft (fun _ => hor) fun _ _ => hand
  have hbefore : Scan.start.after (left ++ symbol) = .start := by
    rw [Scan.after_append, after_of_cutTop? hcut, after_of_mem_connectives hconnective]
  have hne : symbol ≠ [] := by rcases hsymbol with rfl | rfl <;> nofun
  have hapart : Apart left (symbol ++ right) := (hends.apart hconnective).append_left hne
  have hmid := balanced_of_bare (bare_of_mem_connectives hconnective)
  rw [eq_append_of_cutTop? hcut]
  refine ⟨(hleft.balanced.append hmid).append hright.balanced,
    hleft.sound.connect hright.sound hconnective hends (.inl hright.starts), ?_,
    hright.ends.prepend hbefore⟩
  rw [List.append_assoc]
  exact hleft.starts.append hapart

/-- A text without marks and quotation marks is sound. -/
theorem sound_of_forall (h : ∀ c ∈ cs, c ∉ marks ∧ c ≠ '\'' ∧ c ≠ '"') : Sound cs where
  closed := outside_of_forall fun c hc => (h c hc).2
  flanked symbol hsymbol left right heq _ := by
    obtain ⟨c, more, rfl, hc, _⟩ := exists_of_mem_symbols hsymbol
    exact absurd hc (h c (by simp [heq])).1

/-- A text in parentheses. -/
theorem Read.parens (h : Read inner) : Read (parens inner) := by
  have hopen : Sound ['('] := sound_of_forall (by decide)
  have hclose : Sound [')'] := sound_of_forall (by decide)
  have hbefore : Apart ['('] inner := by
    intro c hc d _ hmeets
    cases hc
    exact absurd hmeets.marks.1 (by decide)
  have hafter : Apart ('(' :: inner) [')'] := by
    intro c _ d hd hmeets
    cases hd
    exact absurd hmeets.marks.2 (by decide)
  refine ⟨h.balanced.parens, (hopen.append h.sound hbefore).append hclose hafter, ?_, ?_⟩
  · exact ⟨[], '(', inner ++ [')'], rfl, blank_nil, by decide, by decide, nofun⟩
  · exact ⟨'(' :: inner, ')', [], rfl, by decide, blank_nil, by decide, nofun, nofun⟩

/-- The last character of a sealed text is no part of a symbol, and no parenthesis. -/
theorem Sealed.last {c : Char} (h : Sealed (cs ++ [c])) : c ∉ '(' :: ')' :: marks := by
  have hclosed : (Place.outside.after cs).next c = .outside := by
    have hafter : Place.outside.after (cs ++ [c]) = .outside := h.closed
    rwa [Place.after_append] at hafter
  have hinert := (inert_append.1 h.inert).2.1
  have hquote : c = '\'' ∨ c = '"' → c ∉ '(' :: ')' :: marks := by
    rintro (rfl | rfl) <;> decide
  -- it stands outside of strings, or it is the quotation mark that ends the last one
  generalize Place.outside.after cs = p at hclosed hinert
  cases p with
  | outside => exact hinert rfl
  | single =>
    by_cases hc : c = '\''
    · exact hquote (.inl hc)
    · rw [Place.next, if_neg hc] at hclosed
      cases hclosed
  | double =>
    by_cases hc : c = '"'
    · exact hquote (.inr hc)
    · rw [Place.next, if_neg hc] at hclosed
      split at hclosed <;> cases hclosed
  | escaped => cases hclosed

/-- An operand. -/
theorem Read.of_sealed (h : Sealed cs) (htrim : Trimmed cs) : Read cs := by
  have hmarks : ∀ {c}, c ∉ '(' :: ')' :: marks →
      c ∉ ['(', ')', '|', '&', '=', '!', '<', '>'] := fun hc => hc
  refine ⟨h.balanced, h.sound, ?_, ?_⟩
  · obtain ⟨c, rest, rfl, hblank⟩ := htrim.starts
    have hc := hmarks (h.inert.1 rfl)
    simp only [List.mem_cons, List.not_mem_nil, or_false, not_or] at hc
    refine ⟨[], c, rest, rfl, blank_nil, hblank, ?_, fun hbang => absurd hbang hc.2.2.2.2.2.1⟩
    simp [hc]
  · obtain ⟨init, c, rfl, hblank⟩ := htrim.ends
    have hc := hmarks h.last
    simp only [List.mem_cons, List.not_mem_nil, or_false, not_or] at hc
    refine ⟨init, c, [], rfl, hblank, blank_nil, ?_, fun hbar => absurd hbar hc.2.2.1,
      fun hand => absurd hand hc.2.2.2.1⟩
    simp [hc]

/-- A negated text starts with the negation. -/
theorem exists_of_negations {count : Nat} (htrim : Trimmed cs)
    (hneg : negations cs = (count + 1, inner)) :
    ∃ more, cs = '!' :: more ∧ more.head? ≠ some '=' := by
  obtain ⟨c, more, rfl, _⟩ := htrim.starts
  by_cases hbang : c = '!'
  · rw [hbang]
    refine ⟨more, rfl, fun hequals => ?_⟩
    obtain ⟨rest, rfl⟩ : ∃ rest, more = '=' :: rest := by
      cases more with
      | nil => cases hequals
      | cons d rest =>
        cases hequals
        exact ⟨rest, rfl⟩
    rw [hbang] at hneg
    cases hneg
  · rw [negations_eq_zero htrim (fun hhead => hbang (Option.some.inj hhead))] at hneg
    cases hneg

/-- A negation. -/
theorem Read.of_negations {count : Nat} (htrim : Trimmed cs)
    (hneg : negations cs = (count + 1, inner)) (h : Read inner) : Read cs := by
  obtain ⟨before, heq, hbefore, _⟩ := exists_eq_negations cs
  rw [hneg] at heq
  have hbare : ∀ c ∈ before, c ∉ delimiters := by
    intro c hc
    rcases hbefore c hc with rfl | hblank
    · decide
    · exact (isPlain_iff.1 (isPlain_of_isBlank hblank)).1
  have hsound : Sound before := by
    refine ⟨(balanced_of_bare hbare).closed, fun symbol hsymbol left right hsplit _ => ?_⟩
    have hother : ∀ symbol ∈ symbols, ¬ ∀ d ∈ symbol, d = '!' ∨ isBlank d = true := by decide
    exact absurd (fun d hd => hbefore d (by simp [hsplit, hd])) (hother symbol hsymbol)
  have hapart : Apart before inner := by
    intro c hc d hd hmeets
    rcases hbefore c (List.mem_of_mem_getLast? hc) with rfl | hblank
    · obtain rfl : d = '=' := by simpa [Meets] using hmeets
      exact h.starts.head hd (by decide)
    · exact not_mem_marks_of_isBlank hblank hmeets.marks.1
  obtain ⟨more, hmore, hequals⟩ := exists_of_negations htrim hneg
  have hstarts : StartsOperand cs :=
    ⟨[], '!', more, hmore, blank_nil, by decide, by decide, fun _ => hequals⟩
  have hends : Ends (before ++ inner) := h.ends.prepend (Scan.after_bare hbare 0)
  rw [← heq] at hends
  refine ⟨?_, ?_, hstarts, hends⟩
  · rw [heq]
    exact (balanced_of_bare hbare).append h.balanced
  · rw [heq]
    exact hsound.append h.sound hapart

/-! ## Texts in single quotation marks -/

mutual

/-- The strings of an expression that are operands, from left to right. -/
def strings : Expression → List String
  | literal (.string s) => [s]
  | literal _ | path _ => []
  | not e => strings e
  | equals l r | notEquals l r => strings l ++ strings r
  | and parts | or parts => stringsOf parts

/-- The strings of several expressions. -/
def stringsOf : List Expression → List String
  | [] => []
  | e :: es => strings e ++ stringsOf es

end

theorem strings_negated (n : Nat) (e : Expression) : (negated n e).strings = e.strings := by
  induction n with
  | zero => rfl
  | succ n ih => rw [negated, strings, ih]

/-- No string that is written in single quotation marks has one in it. -/
def PlainQuotes (cs : List Char) (e : Expression) : Prop :=
  ∀ s ∈ e.strings, singleQuoted s.toList <:+: cs → '\'' ∉ s.toList

theorem PlainQuotes.part {part : List Char} {e' : Expression} (h : PlainQuotes cs e)
    (hpart : part <:+: cs) (hstrings : e'.strings ⊆ e.strings) : PlainQuotes part e' :=
  fun s hs hquoted => h s (hstrings hs) (hquoted.trans hpart)

theorem isInfix_trim (cs : List Char) : trim cs <:+: cs := by
  obtain ⟨before, after, hcs, _⟩ := exists_eq_trim cs
  exact ⟨before, after, hcs.symm⟩

/-- Each piece is a part of the text. -/
theorem isInfix_of_mem_pieceTexts {hne : symbol ≠ []} {p : List Char}
    (h : p ∈ pieceTexts symbol hne cs) : p <:+: cs := by
  induction cs using cut_induct hne with
  | @last cs hcut =>
    rcases eq_or_ne cs [] with rfl | hcs
    · rw [pieceTexts_nil] at h
      cases h
    · rw [pieceTexts_last hne hcs hcut, List.mem_singleton] at h
      rw [h]
      exact isInfix_trim cs
  | @cut cs left right hcut ih =>
    have hshape := eq_append_of_cutTop? hcut
    rw [pieceTexts_cut hne hcut] at h
    rcases List.mem_cons.1 h with rfl | h
    · exact (isInfix_trim left).trans ⟨[], symbol ++ right, by simp [hshape]⟩
    · exact (ih h).trans ⟨left ++ symbol, [], by simp [hshape]⟩

section

variable (hcut : cutTop? symbol .start (trim cs) = some (left, right))
include hcut

theorem isInfix_of_cut {hne : symbol ≠ []} :
    ∀ p ∈ trim left :: pieceTexts symbol hne right, p <:+: cs := by
  intro p hp
  rw [← pieceTexts_cut hne hcut] at hp
  exact (isInfix_of_mem_pieceTexts hp).trans (isInfix_trim cs)

theorem isInfix_sides : trim left <:+: cs ∧ trim right <:+: cs := by
  have hshape := eq_append_of_cutTop? hcut
  have hleft : left <:+: trim cs := ⟨[], symbol ++ right, by simp [hshape]⟩
  have hright : right <:+: trim cs := ⟨left ++ symbol, [], by simp [hshape]⟩
  exact ⟨((isInfix_trim left).trans hleft).trans (isInfix_trim cs),
    ((isInfix_trim right).trans hright).trans (isInfix_trim cs)⟩

end

/-- The parts of a text are known, if they are where they are read. -/
theorem read_of_forall₂ {ps : List (List Char)} {es : List Expression} (hquotes : PlainQuotes cs e)
    (hparts : ∀ p ∈ ps, p <:+: cs) (hstrings : stringsOf es ⊆ e.strings)
    (h : List.Forall₂ (fun p e => node p = .ok e ∧ (PlainQuotes p e → Read p)) ps es) :
    ∀ p ∈ ps, Read p := by
  induction h with
  | nil => exact nofun
  | cons hpart _ ih =>
    rw [List.forall_mem_cons] at hparts ⊢
    rw [stringsOf, List.append_subset] at hstrings
    exact ⟨hpart.2 (hquotes.part hparts.1 hstrings.1), ih hparts.2 hstrings.2⟩

/-- A text that is read is known. -/
theorem read_of_node (h : node cs = .ok e) (hquotes : PlainQuotes cs e) : Read cs := by
  revert hquotes
  refine node_induct (motive := fun cs e => PlainQuotes cs e → Read cs) ?or ?and ?not ?enclosed
    ?notEquals ?equals ?operand h
  case or =>
    intro cs left right es hcut hne hparts hquotes
    exact .of_trim (.of_cut (.inl rfl) hcut hne
      (read_of_forall₂ hquotes (isInfix_of_cut hcut) (List.Subset.refl _) hparts)
      fun h => absurd rfl h)
  case and =>
    intro cs left right es hor hcut hne hparts hquotes
    exact .of_trim (.of_cut (.inr rfl) hcut hne
      (read_of_forall₂ hquotes (isInfix_of_cut hcut) (List.Subset.refl _) hparts)
      fun _ => not_divides_of_parts? (by decide) hor)
  case not =>
    intro cs inner count e _ hneg _ _ ih hquotes
    have hne : trim cs ≠ [] := by
      intro hnil
      rw [hnil] at hneg
      cases hneg
    obtain ⟨before, heq, _⟩ := exists_eq_negations (trim cs)
    rw [hneg] at heq
    have hinner : inner <:+: trim cs := ⟨before, [], by rw [List.append_nil, ← heq]⟩
    have hstrings : e.strings ⊆ (negated (count + 1) e).strings := by
      rw [strings_negated]
      exact List.Subset.refl _
    have hpart : trim inner <:+: cs := (isInfix_trim inner).trans (hinner.trans (isInfix_trim cs))
    have hread : Read inner := .of_trim (ih (hquotes.part hpart hstrings))
    exact .of_trim (.of_negations (trimmed_trim hne) hneg hread)
  case enclosed =>
    intro cs inner e _ henc _ ih hquotes
    have heq := eq_of_enclosed? henc
    have hinner : inner <:+: trim cs := ⟨['('], [')'], by rw [heq]; rfl⟩
    have hread := (ih (hquotes.part (hinner.trans (isInfix_trim cs)) (List.Subset.refl _))).parens
    rw [← heq] at hread
    exact .of_trim hread
  case notEquals =>
    intro cs left right l r hdiv _ hcut _ _ _ ihl _ ihr hquotes
    obtain ⟨hleft, hright⟩ := isInfix_sides hcut
    exact .of_trim (.of_comparison (.inl rfl) hdiv hcut
      (.of_trim (ihl (hquotes.part hleft (List.subset_append_left _ _))))
      (.of_trim (ihr (hquotes.part hright (List.subset_append_right _ _)))))
  case equals =>
    intro cs left right l r hdiv _ _ hcut _ _ _ ihl _ ihr hquotes
    obtain ⟨hleft, hright⟩ := isInfix_sides hcut
    exact .of_trim (.of_comparison (.inr rfl) hdiv hcut
      (.of_trim (ihl (hquotes.part hleft (List.subset_append_left _ _))))
      (.of_trim (ihr (hquotes.part hright (List.subset_append_right _ _)))))
  case operand =>
    intro cs e _ hne _ _ _ hoperand hquotes
    refine .of_trim (.of_sealed (sealed_of_operand (trim_trim cs) ?_ hoperand) (trimmed_trim hne))
    rintro text rfl heq
    have hplain := hquotes (String.ofList text) List.mem_cons_self
    rw [String.toList_ofList, ← heq] at hplain
    exact hplain (isInfix_trim cs)

/-! ## Well-formed texts -/

/-- A text is well-formed outside of its strings: the parentheses are in pairs, no symbol but the
four connectives stands there, and every connective has an operand on both sides. -/
structure WellFormed (cs : List Char) (e : Expression) : Prop where
  quotes : PlainQuotes cs e
  balanced : Balanced cs
  allowed : ∀ symbol ∈ refused, ∀ left right, cs = left ++ symbol ++ right → ¬ Outside left
  flanked : ∀ symbol ∈ connectives, ∀ left right, cs = left ++ symbol ++ right → Outside left →
    EndsOperand symbol left ∧ StartsOperand right

/-- A text that is read as an expression is well-formed, but for two things: that no string in
single quotation marks has one in it is a condition, and a connective has an operand on its right
unless it is a repeated `||` or `&&`. -/
theorem wellFormed_of_parse? {source : String} (h : parse? source = .ok e)
    (hquotes : PlainQuotes source.toList e) :
    Balanced source.toList ∧
    (∀ symbol ∈ refused, ∀ left right, source.toList = left ++ symbol ++ right → ¬ Outside left) ∧
    ∀ symbol ∈ connectives, ∀ left right, source.toList = left ++ symbol ++ right → Outside left →
      EndsOperand symbol left ∧ (StartsOperand right ∨ Repeats symbol left) := by
  have hread := read_of_node (parse?_eq_ok_iff.1 h).2.2 hquotes
  refine ⟨hread.balanced, fun symbol hsymbol left right heq hout => ?_,
    fun symbol hsymbol left right heq hout => ?_⟩
  · have hnone : ∀ symbol ∈ refused, symbol ∉ connectives := by decide
    have hmem : symbol ∈ symbols := List.mem_append_left _ hsymbol
    have hflanked := hread.sound.flanked symbol hmem left right heq hout
    exact hnone symbol hsymbol hflanked.connective
  · have hmem : symbol ∈ symbols := List.mem_append_right _ hsymbol
    have hflanked := hread.sound.flanked symbol hmem left right heq hout
    exact ⟨hflanked.ends, hflanked.starts⟩

/-- The two sides of a comparison of parts in parentheses. -/
theorem wellFormed_of_parse?_comparison :
    parse? "(x) == ('y')" = .ok (.equals (.path "x") (.literal (.string "y"))) ∧
      PlainQuotes "(x) == ('y')".toList (.equals (.path "x") (.literal (.string "y"))) ∧
      Balanced "(x) == ('y')".toList ∧ EndsOperand ['=', '='] "(x) ".toList ∧
      (StartsOperand " ('y')".toList ∨ Repeats ['=', '='] "(x) ".toList) := by
  have hquotes : PlainQuotes "(x) == ('y')".toList
      (.equals (.path "x") (.literal (.string "y"))) := by
    intro s hs _
    obtain rfl : s = "y" := by simpa [strings] using hs
    decide
  obtain ⟨hbalanced, _, hflanked⟩ := wellFormed_of_parse? parse?_comparison hquotes
  exact ⟨parse?_comparison, hquotes, hbalanced, hflanked _ (by decide) _ _ (by decide) (by decide)⟩

/-- An ordering of two strings in parentheses is read as one string. -/
theorem not_forall_wellFormed :
    ¬ ∀ source e, parse? source = .ok e → WellFormed source.toList e := by
  intro h
  have hread : parse? (parenthesized "'a' < 'b'") = .ok (.literal (.string "a' < 'b")) := by
    have hundivided : Undivided "'a' < 'b'".toList :=
      undivided_of_cutTop? (by decide) (by decide)
    have htrim : Trimmed "'a' < 'b'".toList := trimmed_singleQuoted "a' < 'b".toList
    have hoperand : operand "'a' < 'b'".toList = .ok (.literal (.string "a' < 'b")) :=
      operand_singleQuoted "a' < 'b".toList
    rw [parse?_parenthesized_eq_node (by decide), node_parens (by decide) (by decide) (by decide),
      node_operand hundivided htrim (by decide) (by decide) (by decide) (by decide), hoperand]
  refine (h _ _ hread).allowed ['<'] (by decide) "('a' ".toList " 'b')".toList ?_ (by decide)
  decide

end Conduit.Expression
