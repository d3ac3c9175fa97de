import Conduit.Expression.Parser
import Conduit.Proofs.Text.Trim

/-!
# What the search for symbols passes over

The search for a symbol (`cutTop?`) passes over a text in which no symbol can start: every character
of it opens or closes something, or stands inside quotation marks or parentheses, or is none that
the symbol starts with (`Quiet`, `cutTop?_quiet`). `Grouped` says of a text that it may be put
between parentheses: it leaves them as they were, for the search as well as for the test of
enclosing parentheses, which does not know of quotation marks.

`Unbroken` says that none of the symbols of expressions stands at the top level of a text. Plain
characters (`isPlain`) have no part in symbols and open or close nothing, so that a text of them is
passed over (`Passes.of_plain`).
-/

namespace Conduit.Expression

open Text

variable {starts cs left right rest : List Char} {s : Scan} {c : Char}

/-! ## Symbols -/

/-- The symbols that join two or more parts to one expression. -/
def connectives : List (List Char) :=
  [['|', '|'], ['&', '&'], ['!', '='], ['=', '=']]

/-- All symbols that are looked for at the top level. -/
def symbols : List (List Char) :=
  strictEqualities ++ orderings ++ connectives

/-- The characters that symbols are made of. -/
def marks : List Char :=
  ['|', '&', '=', '!', '<', '>']

/-- The characters that open and close something. -/
def delimiters : List Char :=
  ['\'', '"', '(', ')']

/-- Whether a character is no part of a symbol, and opens and closes nothing. -/
def isPlain (c : Char) : Bool :=
  c ∉ delimiters ++ marks

/-- No symbol stands at the top level of a text. -/
def Unbroken (s : Scan) (cs : List Char) : Prop :=
  ∀ symbol ∈ symbols, cutTop? symbol s cs = none

/-- A symbol is made of marks, and starts with one. -/
theorem exists_of_mem_symbols {symbol : List Char} (h : symbol ∈ symbols) :
    ∃ c rest, symbol = c :: rest ∧ c ∈ marks ∧ ∀ d ∈ rest, d ∈ marks := by
  have hall : ∀ symbol ∈ symbols, symbol ≠ [] ∧ ∀ d ∈ symbol, d ∈ marks := by decide
  obtain ⟨hne, hmarks⟩ := hall symbol h
  obtain ⟨c, rest, rfl⟩ := List.exists_cons_of_ne_nil hne
  rw [List.forall_mem_cons] at hmarks
  exact ⟨c, rest, rfl, hmarks.1, hmarks.2⟩

theorem bare_of_mem_connectives {symbol : List Char} (h : symbol ∈ connectives) :
    ∀ c ∈ symbol, c ∉ delimiters := by
  revert symbol
  decide

theorem isPlain_iff : isPlain c = true ↔ c ∉ delimiters ∧ c ∉ marks := by
  simp [isPlain]

/-- Characters of a kind are plain if no delimiter and no mark is one of them. -/
theorem isPlain_of_forall {p : Char → Prop} (hnone : ∀ c ∈ delimiters ++ marks, ¬ p c) (h : p c) :
    isPlain c = true := by
  rw [isPlain_iff, ← not_or, ← List.mem_append]
  exact fun hmem => hnone c hmem h

theorem isPlain_of_isBlank (h : isBlank c = true) : isPlain c = true :=
  isPlain_of_forall (p := (isBlank · = true)) (by decide) h

/-- White space is no part of a symbol. -/
theorem not_mem_marks_of_isBlank (h : isBlank c = true) : c ∉ marks :=
  (isPlain_iff.1 (isPlain_of_isBlank h)).2

/-- A text of plain characters starts with none that is not. -/
theorem head?_ne_of_plain {d : Char} (h : ∀ c ∈ cs, isPlain c = true) (hd : isPlain d = false) :
    cs.head? ≠ some d := by
  intro heq
  have hplain := h d (List.mem_of_mem_head? heq)
  rw [hd] at hplain
  cases hplain

/-! ## Scans -/

namespace Scan

/-- What is open after a text. -/
def after (s : Scan) (cs : List Char) : Scan :=
  cs.foldl (fun s c => (s.step? c).getD s) s

@[simp] theorem after_nil (s : Scan) : s.after [] = s := rfl

@[simp] theorem after_cons (s : Scan) (c : Char) (cs : List Char) :
    s.after (c :: cs) = ((s.step? c).getD s).after cs := rfl

@[simp] theorem after_append (s : Scan) (cs rest : List Char) :
    s.after (cs ++ rest) = (s.after cs).after rest :=
  List.foldl_append

theorem step?_quoted (q : Char) (depth : Nat) (c : Char) :
    step? ⟨some q, depth⟩ c = if c = q then some ⟨none, depth⟩ else none := rfl

theorem step?_bare (h : c ∉ delimiters) (depth : Nat) : step? ⟨none, depth⟩ c = none := by
  simp only [delimiters, List.mem_cons, List.not_mem_nil, or_false, not_or] at h
  simp [step?, h]

/-- A text that opens and closes nothing leaves everything as it was. -/
theorem after_bare (h : ∀ c ∈ cs, c ∉ delimiters) (depth : Nat) :
    after ⟨none, depth⟩ cs = ⟨none, depth⟩ := by
  induction cs with
  | nil => rfl
  | cons c cs ih =>
    rw [List.forall_mem_cons] at h
    rw [after_cons, step?_bare h.1]
    exact ih h.2

end Scan

/-! ## Quiet texts -/

/-- No symbol that starts with one of some characters can start in a text. -/
def Quiet (starts : List Char) : Scan → List Char → Prop
  | _, [] => True
  | s, c :: cs =>
    (s.step? c = none → s.isTop = true → c ∉ starts) ∧ Quiet starts ((s.step? c).getD s) cs

theorem quiet_append :
    Quiet starts s (cs ++ rest) ↔ Quiet starts s cs ∧ Quiet starts (s.after cs) rest := by
  induction cs generalizing s with
  | nil => simp [Quiet]
  | cons c cs ih => rw [List.cons_append, Quiet, Quiet, ih, and_assoc, Scan.after_cons]

theorem Quiet.imp {more : List Char} (h : Quiet more s cs) (hsub : starts ⊆ more) :
    Quiet starts s cs := by
  induction cs generalizing s with
  | nil => trivial
  | cons c cs ih => exact ⟨fun hstep htop hc => h.1 hstep htop (hsub hc), ih h.2⟩

/-- A text that opens and closes nothing is quiet if none of the characters is in it. -/
theorem quiet_bare (h : ∀ c ∈ cs, c ∉ delimiters) {depth : Nat}
    (hstarts : ∀ c ∈ cs, (Scan.mk none depth).isTop = true → c ∉ starts) :
    Quiet starts ⟨none, depth⟩ cs := by
  induction cs with
  | nil => trivial
  | cons c cs ih =>
    rw [List.forall_mem_cons] at h hstarts
    refine ⟨fun _ => hstarts.1, ?_⟩
    rw [Scan.step?_bare h.1]
    exact ih h.2 hstarts.2

/-- A text that starts otherwise than a symbol does not start with it. -/
theorem after?_eq_none_of_ne {d : Char} {symbol : List Char} (h : d ≠ c) :
    after? (d :: symbol) (c :: cs) = none :=
  if_neg h

theorem after?_eq_none_of_head? {d : Char} {symbol : List Char} (h : cs.head? ≠ some d) :
    after? (d :: symbol) cs = none := by
  cases cs with
  | nil => rfl
  | cons c cs => exact after?_eq_none_of_ne fun heq => h (congrArg some heq.symm)

/-- The search goes on after a character with which the symbol does not start. -/
theorem cutTop?_skip {symbol : List Char} (hstep : s.step? c = none)
    (h : s.isTop = true → after? symbol (c :: cs) = none) : cutTop? symbol s (c :: cs) =
      (cutTop? symbol s cs).map fun (left, right) => (c :: left, right) := by
  have hhere : (if s.isTop then after? symbol (c :: cs) else none) = none := by
    split
    · next htop => exact h htop
    · rfl
  rw [cutTop?]
  simp only [hstep, hhere]

/-- The search for a symbol passes over a quiet text. -/
theorem cutTop?_quiet {symbol : List Char} (h : Quiet starts s cs) (hc : c ∈ starts) :
    cutTop? (c :: symbol) s (cs ++ rest) =
      (cutTop? (c :: symbol) (s.after cs) rest).map fun (left, right) => (cs ++ left, right) := by
  induction cs generalizing s with
  | nil => simp
  | cons d cs ih =>
    obtain ⟨hd, hcs⟩ := h
    have hskip : cutTop? (c :: symbol) s (d :: cs ++ rest) =
        (cutTop? (c :: symbol) ((s.step? d).getD s) (cs ++ rest)).map
          fun (left, right) => (d :: left, right) := by
      cases hstep : s.step? d with
      | some s' =>
        rw [List.cons_append, cutTop?, hstep]
        rfl
      | none =>
        refine cutTop?_skip hstep fun htop => after?_eq_none_of_ne ?_
        rintro rfl
        exact hd hstep htop hc
    rw [hskip, ih hcs, Scan.after_cons, Option.map_map]
    rfl

/-- There is no symbol in a quiet text. -/
theorem cutTop?_eq_none {symbol : List Char} (h : Quiet starts s cs) (hc : c ∈ starts) :
    cutTop? (c :: symbol) s cs = none := by
  rw [← List.append_nil cs, cutTop?_quiet h hc, cutTop?]
  rfl

/-- A symbol is not found if it stands neither here nor later. -/
theorem cutTop?_cons_eq_none_iff {symbol : List Char} : cutTop? symbol s (c :: cs) = none ↔
    (s.step? c = none → s.isTop = true → after? symbol (c :: cs) = none) ∧
      cutTop? symbol ((s.step? c).getD s) cs = none := by
  rw [cutTop?]
  cases s.step? c with
  | some s' => simp
  | none => cases s.isTop <;> cases after? symbol (c :: cs) <;> simp

/-- A symbol is found here or later. -/
theorem cutTop?_cons_eq_some {symbol : List Char}
    (h : cutTop? symbol s (c :: cs) = some (left, right)) :
    s.step? c = none ∧ s.isTop = true ∧ left = [] ∧ after? symbol (c :: cs) = some right ∨
      ∃ more, left = c :: more ∧ cutTop? symbol ((s.step? c).getD s) cs = some (more, right) ∧
        (s.step? c = none → s.isTop = true → after? symbol (c :: cs) = none) := by
  have hlater : ∀ s',
      (cutTop? symbol s' cs).map (fun cut => (c :: cut.1, cut.2)) = some (left, right) →
      ∃ more, left = c :: more ∧ cutTop? symbol s' cs = some (more, right) := by
    intro s' hmap
    obtain ⟨⟨l, r⟩, hcut, heq⟩ := Option.map_eq_some_iff.1 hmap
    cases heq
    exact ⟨l, rfl, hcut⟩
  rw [cutTop?] at h
  cases hstep : s.step? c with
  | some s' =>
    simp only [hstep] at h
    obtain ⟨more, hleft, hcut⟩ := hlater s' h
    exact .inr ⟨more, hleft, hcut, fun hnone => absurd hnone (Option.some_ne_none s')⟩
  | none =>
    simp only [hstep] at h
    split at h
    · next htop =>
      cases h
      obtain ⟨hs, hafter⟩ := Option.ite_none_right_eq_some.1 htop
      exact .inl ⟨rfl, hs, rfl, hafter⟩
    · next htop =>
      obtain ⟨more, hleft, hcut⟩ := hlater s h
      exact .inr ⟨more, hleft, hcut, fun _ hs => by rwa [if_pos hs] at htop⟩

/-- A text that does not start with a symbol does not if it is cut short. -/
theorem after?_none_left {symbol : List Char} (h : after? symbol (cs ++ rest) = none) :
    after? symbol cs = none := by
  refine Option.eq_none_iff_forall_ne_some.2 fun more hmore => ?_
  have hlonger : cs ++ rest = symbol ++ (more ++ rest) := by
    rw [after?_eq_some_iff.1 hmore, List.append_assoc]
  rw [after?_eq_some_iff.2 hlonger] at h
  cases h

/-- A symbol that is not found in a text is not found either if what follows has nothing in common
with it. -/
theorem cutTop?_append_none {symbol : List Char} (hne : symbol ≠ [])
    (hrest : ∀ c ∈ rest, c ∉ symbol) (h : cutTop? symbol s cs = none) :
    cutTop? symbol s (cs ++ rest) = none := by
  obtain ⟨d, symbol, rfl⟩ := List.exists_cons_of_ne_nil hne
  -- a symbol that starts in the text and ends after it has a character of what follows
  have hhere : ∀ cs, after? (d :: symbol) cs = none → after? (d :: symbol) (cs ++ rest) = none := by
    intro cs hcs
    refine Option.eq_none_iff_forall_ne_some.2 fun more hmore => ?_
    obtain ⟨x, hx, hsplit⟩ | ⟨x, hx, -⟩ := List.append_eq_append_iff.1 (after?_eq_some_iff.1 hmore)
    · cases x with
      | nil =>
        rw [List.append_nil] at hx
        rw [after?_eq_some_iff.2 (hx.symm.trans (List.append_nil _).symm)] at hcs
        cases hcs
      | cons c x =>
        refine hrest c ?_ ?_
        · simp [hsplit]
        · simp [hx]
    · rw [after?_eq_some_iff.2 hx] at hcs
      cases hcs
  induction cs generalizing s with
  | nil =>
    refine Option.eq_none_iff_forall_ne_some.2 fun ⟨left, right⟩ hcut => ?_
    have heq := eq_append_of_cutTop? hcut
    rw [List.nil_append] at heq
    refine hrest d ?_ List.mem_cons_self
    simp [heq]
  | cons c cs ih =>
    rw [cutTop?_cons_eq_none_iff] at h
    rw [List.cons_append, cutTop?_cons_eq_none_iff]
    exact ⟨fun hstep htop => hhere (c :: cs) (h.1 hstep htop), ih h.2⟩

/-- With more parentheses open, a character opens or closes the same. -/
theorem Scan.step?_deeper {quote : Option Char} {depth more : Nat} (hle : depth ≤ more) (c : Char) :
    step? ⟨quote, depth⟩ c = none ∧ step? ⟨quote, more⟩ c = none ∨
      ∃ q d m, d ≤ m ∧ step? ⟨quote, depth⟩ c = some ⟨q, d⟩ ∧
        step? ⟨quote, more⟩ c = some ⟨q, m⟩ := by
  cases quote with
  | some q =>
    by_cases hq : c = q
    · exact .inr ⟨none, depth, more, hle, if_pos hq, if_pos hq⟩
    · exact .inl ⟨if_neg hq, if_neg hq⟩
  | none =>
    unfold step?
    dsimp only
    split
    · exact .inr ⟨some c, depth, more, hle, rfl, rfl⟩
    · split
      · exact .inr ⟨none, depth + 1, more + 1, by omega, rfl, rfl⟩
      · split
        · exact .inr ⟨none, depth - 1, more - 1, by omega, rfl, rfl⟩
        · exact .inl ⟨rfl, rfl⟩

/-- What is not found at the top level is not found when parentheses are open around the text. -/
theorem cutTop?_deeper {symbol : List Char} {quote : Option Char} {depth more : Nat}
    (hle : depth ≤ more) (h : cutTop? symbol ⟨quote, depth⟩ cs = none) :
    cutTop? symbol ⟨quote, more⟩ cs = none := by
  induction cs generalizing quote depth more with
  | nil => rfl
  | cons c cs ih =>
    rw [cutTop?_cons_eq_none_iff] at h ⊢
    obtain ⟨hhere, hlater⟩ := h
    obtain ⟨hstep, hmore⟩ | ⟨q, d, m, hdm, hstep, hmore⟩ := Scan.step?_deeper hle c
    · rw [hstep] at hhere hlater
      rw [hmore]
      refine ⟨fun _ htop => hhere rfl ?_, ih hle hlater⟩
      simp only [Scan.isTop, Bool.and_eq_true, beq_iff_eq] at htop ⊢
      exact ⟨htop.1, by omega⟩
    · rw [hstep] at hlater
      rw [hmore]
      exact ⟨nofun, ih hdm hlater⟩

/-- A comparison before white space is no strict one. -/
theorem cutTop?_strict_iff {c m : Char} (hc : c = '=' ∨ c = '!') (hm : m = '=' ∨ m = '!') :
    cutTop? [c, '=', '='] .start (m :: '=' :: ' ' :: cs) = none ↔
      cutTop? [c, '=', '='] .start cs = none := by
  have hequals : Scan.start.step? '=' = none := rfl
  have hbang : Scan.start.step? '!' = none := rfl
  have hspace : Scan.start.step? ' ' = none := rfl
  rcases hc with rfl | rfl <;> rcases hm with rfl | rfl <;>
    simp [cutTop?_cons_eq_none_iff, hequals, hbang, hspace, after?]

/-- A text is cut at a symbol at its start. -/
theorem cutTop?_here {symbol : List Char} (hc : c ∈ marks) :
    cutTop? (c :: symbol) .start (c :: symbol ++ rest) = some ([], rest) := by
  have hstep : Scan.start.step? c = none := by
    revert c
    decide
  have hafter : after? (c :: symbol) (c :: symbol ++ rest) = some rest :=
    after?_eq_some_iff.2 rfl
  rw [List.cons_append] at hafter ⊢
  rw [cutTop?, hstep]
  simp [Scan.isTop, Scan.start, hafter]

/-- No symbol stands in a quiet text. -/
theorem Quiet.unbroken (h : Quiet marks s cs) : Unbroken s cs := by
  intro symbol hsymbol
  obtain ⟨c, rest, rfl, hc, _⟩ := exists_of_mem_symbols hsymbol
  exact cutTop?_eq_none h hc

/-- A text is quiet outside quotation marks, and leaves everything as it was. -/
structure Passes (starts cs : List Char) : Prop where
  after : ∀ depth, Scan.after ⟨none, depth⟩ cs = ⟨none, depth⟩
  quiet : ∀ depth, Quiet starts ⟨none, depth⟩ cs

namespace Passes

theorem append (h : Passes starts cs) (hrest : Passes starts rest) :
    Passes starts (cs ++ rest) where
  after depth := by rw [Scan.after_append, h.after, hrest.after]
  quiet depth := by
    rw [quiet_append, h.after]
    exact ⟨h.quiet depth, hrest.quiet depth⟩

theorem of_bare (h : ∀ c ∈ cs, c ∉ delimiters) (hstarts : ∀ c ∈ cs, c ∉ starts) :
    Passes starts cs where
  after := Scan.after_bare h
  quiet _ := quiet_bare h fun c hc _ => hstarts c hc

theorem of_plain (h : ∀ c ∈ cs, isPlain c = true) : Passes marks cs :=
  .of_bare (fun c hc => (isPlain_iff.1 (h c hc)).1) fun c hc => (isPlain_iff.1 (h c hc)).2

theorem imp {more : List Char} (h : Passes more cs) (hsub : starts ⊆ more) : Passes starts cs where
  after := h.after
  quiet depth := (h.quiet depth).imp hsub

theorem of_blank (h : Blank cs) : Passes marks cs :=
  .of_plain fun c hc => isPlain_of_isBlank (h c hc)

theorem unbroken (h : Passes marks cs) : Unbroken .start cs :=
  (h.quiet 0).unbroken

/-- There is no symbol that starts with one of the characters. -/
theorem cutTop?_none (h : Passes starts cs) (hc : c ∈ starts) (more : List Char) :
    cutTop? (c :: more) .start cs = none :=
  cutTop?_eq_none (h.quiet 0) hc

/-- What is found after a text that is passed over is found in what follows it. -/
theorem cutTop?_append {symbol : List Char} (h : Passes starts cs) (hc : c ∈ starts)
    (rest : List Char) : cutTop? (c :: symbol) .start (cs ++ rest) =
      (cutTop? (c :: symbol) .start rest).map fun (left, right) => (cs ++ left, right) := by
  have hafter : Scan.start.after cs = .start := h.after 0
  have hquiet : Quiet starts .start cs := h.quiet 0
  rw [cutTop?_quiet hquiet hc, hafter]

theorem cutTop?_append_eq_none_iff {symbol : List Char} (h : Passes starts cs) (hc : c ∈ starts) :
    cutTop? (c :: symbol) .start (cs ++ rest) = none ↔
      cutTop? (c :: symbol) .start rest = none := by
  rw [h.cutTop?_append hc, Option.map_eq_none_iff]

/-- A text is cut at the first symbol after one that is quiet. -/
theorem cutTop?_eq {symbol : List Char} (h : Passes starts cs) (hstarts : c ∈ starts)
    (hmarks : c ∈ marks) :
    cutTop? (c :: symbol) .start (cs ++ (c :: symbol ++ rest)) = some (cs, rest) := by
  rw [h.cutTop?_append hstarts, cutTop?_here hmarks]
  simp

end Passes

/-! ## Texts between parentheses -/

/-- A text between parentheses. -/
def parens (cs : List Char) : List Char :=
  '(' :: cs ++ [')']

theorem trimmed_parens (cs : List Char) : Trimmed (parens cs) where
  starts := ⟨'(', cs ++ [')'], rfl, by decide⟩
  ends := ⟨'(' :: cs, ')', rfl, by decide⟩

/-- Parentheses around a text stay open in all of it, and are closed after it. -/
structure Grouped (cs : List Char) : Prop where
  after : ∀ depth, Scan.after ⟨none, depth⟩ cs = ⟨none, depth⟩
  quiet : ∀ starts depth, Quiet starts ⟨none, depth + 1⟩ cs
  closes : ∀ depth rest, neverCloses depth (cs ++ rest) = neverCloses depth rest

theorem neverCloses_cons (hopen : c ≠ '(') (hclose : c ≠ ')') (depth : Nat) (cs : List Char) :
    neverCloses depth (c :: cs) = neverCloses depth cs := by
  cases depth with
  | zero => simp [neverCloses, hclose]
  | succ depth => simp [neverCloses, hclose]

theorem neverCloses_append (h : ∀ c ∈ cs, c ≠ '(' ∧ c ≠ ')') (depth : Nat) (rest : List Char) :
    neverCloses depth (cs ++ rest) = neverCloses depth rest := by
  induction cs with
  | nil => rfl
  | cons c cs ih =>
    rw [List.forall_mem_cons] at h
    rw [List.cons_append, neverCloses_cons h.1.1 h.1.2]
    exact ih h.2

theorem Scan.after_parens (h : ∀ depth, after ⟨none, depth⟩ cs = ⟨none, depth⟩) (depth : Nat) :
    after ⟨none, depth⟩ (parens cs) = ⟨none, depth⟩ := by
  simp [parens, step?, h]

/-- No symbol stands outside the parentheses around a text. -/
theorem Grouped.passes_parens (h : Grouped cs) (starts : List Char) :
    Passes starts (parens cs) where
  after := Scan.after_parens h.after
  quiet depth := by
    unfold parens
    rw [List.cons_append]
    refine ⟨nofun, ?_⟩
    show Quiet starts ⟨none, depth + 1⟩ (cs ++ [')'])
    rw [quiet_append, h.after]
    exact ⟨h.quiet starts depth, nofun, trivial⟩

namespace Grouped

theorem append (h : Grouped cs) (hrest : Grouped rest) : Grouped (cs ++ rest) where
  after depth := by rw [Scan.after_append, h.after, hrest.after]
  quiet starts depth := by
    rw [quiet_append, h.after]
    exact ⟨h.quiet starts depth, hrest.quiet starts depth⟩
  closes depth more := by rw [List.append_assoc, h.closes, hrest.closes]

theorem parens (h : Grouped cs) : Grouped (parens cs) where
  after := Scan.after_parens h.after
  quiet starts depth := (h.passes_parens starts).quiet (depth + 1)
  closes depth rest := by
    show neverCloses (depth + 1) (cs ++ [')'] ++ rest) = neverCloses depth rest
    rw [List.append_assoc, h.closes]
    rfl

/-- Below the top level no symbol is found, whatever a text that opens and closes nothing is made
of. -/
theorem of_bare (h : ∀ c ∈ cs, c ∉ delimiters) : Grouped cs where
  after := Scan.after_bare h
  quiet starts depth := quiet_bare h fun c hc htop => by cases htop
  closes := neverCloses_append fun c hc =>
    ⟨fun heq => h c hc (heq ▸ by decide), fun heq => h c hc (heq ▸ by decide)⟩

end Grouped

/-! ## Texts in single quotation marks -/

/-- A text in single quotation marks. -/
def singleQuoted (cs : List Char) : List Char :=
  '\'' :: cs ++ ['\'']

theorem trimmed_singleQuoted (cs : List Char) : Trimmed (singleQuoted cs) where
  starts := ⟨'\'', cs ++ ['\''], rfl, by decide⟩
  ends := ⟨'\'' :: cs, '\'', rfl, by decide⟩

/-- Nothing in quotation marks opens or closes anything, but the mark itself. -/
theorem inside_quotation {q : Char} (h : q ∉ cs) (depth : Nat) :
    Scan.after ⟨some q, depth⟩ cs = ⟨some q, depth⟩ ∧
      ∀ starts, Quiet starts ⟨some q, depth⟩ cs := by
  induction cs with
  | nil => exact ⟨rfl, fun _ => trivial⟩
  | cons c cs ih =>
    rw [List.mem_cons, not_or] at h
    have hstep : Scan.step? ⟨some q, depth⟩ c = none := if_neg (Ne.symm h.1)
    obtain ⟨hafter, hquiet⟩ := ih h.2
    refine ⟨?_, fun starts => ⟨fun _ htop => (by cases htop), ?_⟩⟩
    · rw [Scan.after_cons, hstep]
      exact hafter
    · rw [hstep]
      exact hquiet starts

/-- No symbol stands outside the quotation marks around a text without them. -/
theorem passes_singleQuoted (h : '\'' ∉ cs) (starts : List Char) :
    Passes starts (singleQuoted cs) where
  after depth := by
    have hafter := (inside_quotation h depth).1
    simp [singleQuoted, Scan.step?, hafter]
  quiet depth := by
    obtain ⟨hafter, hquiet⟩ := inside_quotation h depth
    unfold singleQuoted
    rw [List.cons_append]
    refine ⟨nofun, ?_⟩
    show Quiet starts ⟨some '\'', depth⟩ (cs ++ ['\''])
    rw [quiet_append, hafter]
    exact ⟨hquiet starts, nofun, trivial⟩

/-- A text in single quotation marks may stand between parentheses if there are no quotation marks
and no parentheses in it. -/
theorem grouped_singleQuoted (h : ∀ c ∈ cs, c ≠ '\'' ∧ c ≠ '(' ∧ c ≠ ')') :
    Grouped (singleQuoted cs) where
  after := (passes_singleQuoted (fun hmem => (h _ hmem).1 rfl) marks).after
  quiet starts depth :=
    (passes_singleQuoted (fun hmem => (h _ hmem).1 rfl) starts).quiet (depth + 1)
  closes := by
    refine neverCloses_append fun c hc => ?_
    simp only [singleQuoted, List.cons_append, List.mem_cons, List.mem_append, List.not_mem_nil,
      or_false] at hc
    rcases hc with rfl | hc | rfl
    · decide
    · exact (h c hc).2
    · decide

end Conduit.Expression
