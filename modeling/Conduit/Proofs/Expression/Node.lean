import Conduit.Proofs.Except
import Conduit.Proofs.Expression.Scan

/-!
# One step of reading

`Expression.node` with what shows that it ends taken out (`node_eq`), and from it the two directions
in which it is used: what a text is read as if its form is known (`node_or` to `node_operand`), and
the forms that a text which is read may have (`node_induct`), each with the readings of its parts.
-/

namespace Conduit.Expression

open Text

variable {symbol cs left right inner : List Char}

/-! ## Pieces -/

/-- The pieces of a text between the occurrences of a symbol at the top level. -/
def pieceTexts (symbol : List Char) (h : symbol ≠ []) (cs : List Char) : List (List Char) :=
  (pieces symbol h cs).map Subtype.val

/-- The pieces of a text that a symbol divides into two or more. -/
def parts? (symbol : List Char) (h : symbol ≠ []) (cs : List Char) : Option (List (List Char)) :=
  (divided? symbol h cs).map (·.map Subtype.val)

theorem pieceTexts_nil (h : symbol ≠ []) : pieceTexts symbol h [] = [] := by
  rw [pieceTexts, pieces]
  rfl

/-- A text without the symbol is one piece. -/
theorem pieceTexts_last (h : symbol ≠ []) (hne : cs ≠ []) (hcut : cutTop? symbol .start cs = none) :
    pieceTexts symbol h cs = [trim cs] := by
  rw [pieceTexts, pieces]
  split
  · next hempty => exact absurd (List.isEmpty_iff.1 hempty) hne
  · split
    · rfl
    · next hsome => cases hsome.symm.trans hcut

/-- A text with the symbol starts with the piece before it. -/
theorem pieceTexts_cut (h : symbol ≠ []) (hcut : cutTop? symbol .start cs = some (left, right)) :
    pieceTexts symbol h cs = trim left :: pieceTexts symbol h right := by
  rw [pieceTexts, pieces]
  split
  · next hempty =>
    rw [List.isEmpty_iff.1 hempty] at hcut
    cases hcut
  · split
    · next hnone => cases hcut.symm.trans hnone
    · next hsome =>
      cases hcut.symm.trans hsome
      simp [pieceTexts, Function.comp_def]

/-- Induction over a text from what comes after the first symbol in it. -/
theorem cut_induct {motive : List Char → Prop} (hne : symbol ≠ [])
    (last : ∀ {cs}, cutTop? symbol .start cs = none → motive cs)
    (cut : ∀ {cs left right}, cutTop? symbol .start cs = some (left, right) → motive right →
      motive cs) (cs : List Char) : motive cs := by
  induction hlength : cs.length using Nat.strongRecOn generalizing cs with
  | ind n ih =>
    cases hcut : cutTop? symbol .start cs with
    | none => exact last hcut
    | some sides =>
      obtain ⟨left, right⟩ := sides
      have hlt : right.length < n := by
        have hlengths := length_cutTop? hcut
        have hpos : 0 < symbol.length := List.length_pos_iff.2 hne
        omega
      exact cut hcut (ih right.length hlt right rfl)

/-- A symbol divides a text if something comes after it. -/
theorem parts?_eq (h : symbol ≠ []) (cs : List Char) : parts? symbol h cs =
    match cutTop? symbol .start cs with
    | some (left, right) =>
      if right.isEmpty then none else some (trim left :: pieceTexts symbol h right)
    | none => none := by
  unfold parts? divided?
  split
  · next hcut => simp [hcut]
  · next hcut =>
    simp only [hcut]
    split
    · rfl
    · simp only [Option.map_some, List.map_cons, List.map_map, pieceTexts]
      rfl

theorem parts?_of_divided? {h : symbol ≠ []} {ps : List { p : List Char // p.length < cs.length }}
    (hdiv : divided? symbol h cs = some ps) : parts? symbol h cs = some (ps.map Subtype.val) := by
  rw [parts?, hdiv]
  rfl

theorem parts?_of_not_divided? {h : symbol ≠ []} (hdiv : divided? symbol h cs = none) :
    parts? symbol h cs = none := by
  rw [parts?, hdiv]
  rfl

theorem parts?_eq_none (h : symbol ≠ []) (hcut : cutTop? symbol .start cs = none) :
    parts? symbol h cs = none := by
  simp [parts?_eq, hcut]

theorem parts?_eq_some_iff {h : symbol ≠ []} {ps : List (List Char)} :
    parts? symbol h cs = some ps ↔ ∃ left right, cutTop? symbol .start cs = some (left, right) ∧
      right ≠ [] ∧ ps = trim left :: pieceTexts symbol h right := by
  rw [parts?_eq]
  constructor
  · intro hps
    split at hps
    · next left right hcut =>
      split at hps
      · cases hps
      · next hempty =>
        exact ⟨left, right, hcut, fun hnil => hempty (hnil ▸ rfl), (Option.some.inj hps).symm⟩
    · cases hps
  · rintro ⟨left, right, hcut, hne, rfl⟩
    simp [hcut, hne]

/-- A symbol that divides a text into no parts ends it. -/
theorem cutTop?_of_parts?_eq_none {h : symbol ≠ []} (hparts : parts? symbol h cs = none)
    (hcut : cutTop? symbol .start cs = some (left, right)) : right = [] := by
  by_contra hne
  rw [parts?_eq_some_iff.2 ⟨left, right, hcut, hne, rfl⟩] at hparts
  cases hparts

/-! ## Negations -/

/-- A text that does not start with a negation has none. -/
theorem negations_eq_zero (h : Trimmed cs) (hbang : cs.head? ≠ some '!') :
    negations cs = (0, cs) := by
  obtain ⟨c, rest, rfl, hc⟩ := h.starts
  unfold negations
  split
  · next heq => cases heq
  · next heq => exact absurd (congrArg List.head? heq) hbang
  · next heq => exact absurd (congrArg List.head? heq) hbang
  · next heq =>
    obtain ⟨rfl, rfl⟩ := List.cons.inj heq
    rw [hc]
    rfl

/-- What comes before the text after the negations: they, and white space. -/
theorem exists_eq_negations (cs : List Char) : ∃ before, cs = before ++ (negations cs).2 ∧
    (∀ c ∈ before, c = '!' ∨ isBlank c = true) ∧ ((negations cs).1 = 0 → Blank before) := by
  fun_induction negations cs with
  | case1 => exact ⟨[], rfl, List.forall_mem_nil _, fun _ => blank_nil⟩
  | case2 rest => exact ⟨[], rfl, List.forall_mem_nil _, fun _ => blank_nil⟩
  | case3 rest _ n inner hn ih =>
    obtain ⟨before, hrest, hbefore, _⟩ := ih
    rw [hn] at hrest
    refine ⟨'!' :: before, by rw [hrest, List.cons_append], ?_, fun hzero => ?_⟩
    · rw [List.forall_mem_cons]
      exact ⟨.inl rfl, hbefore⟩
    · exact absurd hzero (Nat.succ_ne_zero n)
  | case4 c rest _ _ hblank ih =>
    obtain ⟨before, hrest, hbefore, hzero⟩ := ih
    refine ⟨c :: before, by rw [List.cons_append, ← hrest], ?_, fun h => ?_⟩
    · rw [List.forall_mem_cons]
      exact ⟨.inr hblank, hbefore⟩
    · exact blank_cons.2 ⟨hblank, hzero h⟩
  | case5 c rest => exact ⟨[], rfl, List.forall_mem_nil _, fun _ => blank_nil⟩

/-- Without negations a text is all that is left. -/
theorem trim_negations_of_zero (h : (negations (trim cs)).1 = 0) :
    trim (negations (trim cs)).2 = trim cs := by
  obtain ⟨before, heq, _, hblank⟩ := exists_eq_negations (trim cs)
  calc trim (negations (trim cs)).2
      = trim (before ++ (negations (trim cs)).2) := by
        unfold trim
        rw [trimStart_blank (hblank h)]
    _ = trim (trim cs) := by rw [← heq]
    _ = trim cs := trim_trim cs

/-! ## Forms of a text -/

/-- What a text is read as, by what it looks like. -/
theorem node_eq (cs : List Char) : node cs =
    match parts? ['|', '|'] nofun (trim cs) with
    | some ps => ps.mapM node >>= fun es => return .or es
    | none =>
      match parts? ['&', '&'] nofun (trim cs) with
      | some ps => ps.mapM node >>= fun es => return .and es
      | none =>
        let inner := trim (negations (trim cs)).2
        if inner.isEmpty then .error .missingNegated
        else if 0 < (negations (trim cs)).1 then
          node inner >>= fun e => return negated (negations (trim cs)).1 e
        else match enclosed? inner with
          | some e => node e
          | none => match cutTop? ['!', '='] .start inner with
            | some (left, right) =>
              if (trim left).isEmpty || (trim right).isEmpty then .error .missingOperand
              else do
                let l ← node (trim left)
                let r ← node (trim right)
                return .notEquals l r
            | none => match cutTop? ['=', '='] .start inner with
              | some (left, right) =>
                if (trim left).isEmpty || (trim right).isEmpty then .error .missingOperand
                else do
                  let l ← node (trim left)
                  let r ← node (trim right)
                  return .equals l r
              | none => operand inner := by
  rw [node]
  unfold parts?
  cases divided? ['|', '|'] nofun (trim cs) with
  | some ps => simp
  | none =>
    cases divided? ['&', '&'] nofun (trim cs) with
    | some ps => simp
    | none =>
      dsimp only [Option.map_none]
      refine if_congr Iff.rfl rfl (if_congr Iff.rfl rfl ?_)
      split
      · next he => rw [he]
      · next he =>
        rw [he]
        split
        · next hcut => rw [hcut]; dsimp only; split <;> rfl
        · next hcut =>
          rw [hcut]
          split
          · next hcut => rw [hcut]; dsimp only; split <;> rfl
          · next hcut => rw [hcut]

/-- White space around a text does not change what it is read as. -/
theorem node_trim (cs : List Char) : node (trim cs) = node cs := by
  rw [node_eq, node_eq cs, trim_trim]

/-- A text is not divided by `||`, nor by `&&`. -/
structure Undivided (cs : List Char) : Prop where
  or : parts? ['|', '|'] nofun cs = none
  and : parts? ['&', '&'] nofun cs = none

theorem undivided_of_cutTop? (hor : cutTop? ['|', '|'] .start cs = none)
    (hand : cutTop? ['&', '&'] .start cs = none) : Undivided cs where
  or := parts?_eq_none _ hor
  and := parts?_eq_none _ hand

theorem Unbroken.undivided (h : Unbroken .start cs) : Undivided cs :=
  undivided_of_cutTop? (h ['|', '|'] (by decide)) (h ['&', '&'] (by decide))

theorem undivided_of_not_divided? (hor : divided? ['|', '|'] nofun cs = none)
    (hand : divided? ['&', '&'] nofun cs = none) : Undivided cs where
  or := parts?_of_not_divided? hor
  and := parts?_of_not_divided? hand

theorem node_or (hcut : cutTop? ['|', '|'] .start (trim cs) = some (left, right))
    (hne : right ≠ []) : node cs =
      (trim left :: pieceTexts ['|', '|'] nofun right).mapM node >>= fun es => return .or es := by
  rw [node_eq, parts?_eq_some_iff.2 ⟨left, right, hcut, hne, rfl⟩]

theorem node_and (hor : parts? ['|', '|'] nofun (trim cs) = none)
    (hcut : cutTop? ['&', '&'] .start (trim cs) = some (left, right)) (hne : right ≠ []) :
    node cs =
      (trim left :: pieceTexts ['&', '&'] nofun right).mapM node >>= fun es => return .and es := by
  rw [node_eq, hor, parts?_eq_some_iff.2 ⟨left, right, hcut, hne, rfl⟩]

theorem node_not {count : Nat} (hdiv : Undivided (trim cs))
    (hneg : negations (trim cs) = (count + 1, inner)) (hne : trim inner ≠ []) :
    node cs = node inner >>= fun e => return negated (count + 1) e := by
  rw [node_eq, hdiv.or, hdiv.and]
  simp only [hneg, List.isEmpty_eq_false_iff.2 hne, node_trim]
  rfl

variable (hdiv : Undivided cs) (htrim : Trimmed cs) (hbang : cs.head? ≠ some '!')
include hdiv htrim hbang

/-- What a text without negations is read as. -/
theorem node_plain : node cs =
    match enclosed? cs with
    | some e => node e
    | none => match cutTop? ['!', '='] .start cs with
      | some (left, right) =>
        if (trim left).isEmpty || (trim right).isEmpty then .error .missingOperand
        else do
          let l ← node (trim left)
          let r ← node (trim right)
          return .notEquals l r
      | none => match cutTop? ['=', '='] .start cs with
        | some (left, right) =>
          if (trim left).isEmpty || (trim right).isEmpty then .error .missingOperand
          else do
            let l ← node (trim left)
            let r ← node (trim right)
            return .equals l r
        | none => operand cs := by
  have hself := trim_eq_self htrim
  rw [node_eq, hself, hdiv.or, hdiv.and]
  simp only [negations_eq_zero htrim hbang, hself, List.isEmpty_eq_false_iff.2 htrim.ne_nil]
  rfl

theorem node_enclosed (henc : enclosed? cs = some inner) : node cs = node inner := by
  rw [node_plain hdiv htrim hbang, henc]

theorem node_notEquals (henc : enclosed? cs = none)
    (hcut : cutTop? ['!', '='] .start cs = some (left, right)) (hleft : trim left ≠ [])
    (hright : trim right ≠ []) :
    node cs = do
      let l ← node (trim left)
      let r ← node (trim right)
      return .notEquals l r := by
  rw [node_plain hdiv htrim hbang, henc]
  simp only [hcut, List.isEmpty_eq_false_iff.2 hleft, List.isEmpty_eq_false_iff.2 hright]
  rfl

theorem node_equals (henc : enclosed? cs = none)
    (hne : cutTop? ['!', '='] .start cs = none)
    (hcut : cutTop? ['=', '='] .start cs = some (left, right)) (hleft : trim left ≠ [])
    (hright : trim right ≠ []) :
    node cs = do
      let l ← node (trim left)
      let r ← node (trim right)
      return .equals l r := by
  rw [node_plain hdiv htrim hbang, henc]
  simp only [hne, hcut, List.isEmpty_eq_false_iff.2 hleft, List.isEmpty_eq_false_iff.2 hright]
  rfl

theorem node_operand (henc : enclosed? cs = none)
    (hne : cutTop? ['!', '='] .start cs = none) (heq : cutTop? ['=', '='] .start cs = none) :
    node cs = operand cs := by
  rw [node_plain hdiv htrim hbang, henc, hne, heq]

omit hdiv in
/-- What a text is read as in which no symbol stands at the top level. -/
theorem node_unbroken (h : Unbroken .start cs) : node cs =
    match enclosed? cs with
    | some e => node e
    | none => operand cs := by
  rw [node_plain h.undivided htrim hbang, h ['!', '='] (by decide), h ['=', '='] (by decide)]

omit hdiv htrim hbang

/-! ## Texts that are read -/

/-- Induction over what is read: the forms that a text may have, each with the parts that are read
on their own. -/
theorem node_induct {motive : List Char → Expression → Prop}
    (or : ∀ {cs left right es}, cutTop? ['|', '|'] .start (trim cs) = some (left, right) →
      right ≠ [] →
      List.Forall₂ (fun p e => node p = .ok e ∧ motive p e)
        (trim left :: pieceTexts ['|', '|'] nofun right) es →
      motive cs (.or es))
    (and : ∀ {cs left right es}, parts? ['|', '|'] nofun (trim cs) = none →
      cutTop? ['&', '&'] .start (trim cs) = some (left, right) → right ≠ [] →
      List.Forall₂ (fun p e => node p = .ok e ∧ motive p e)
        (trim left :: pieceTexts ['&', '&'] nofun right) es →
      motive cs (.and es))
    (not : ∀ {cs inner count e}, Undivided (trim cs) →
      negations (trim cs) = (count + 1, inner) → trim inner ≠ [] →
      node (trim inner) = .ok e → motive (trim inner) e →
      motive cs (negated (count + 1) e))
    (enclosed : ∀ {cs inner e}, Undivided (trim cs) → enclosed? (trim cs) = some inner →
      node inner = .ok e → motive inner e → motive cs e)
    (notEquals : ∀ {cs left right l r}, Undivided (trim cs) → enclosed? (trim cs) = none →
      cutTop? ['!', '='] .start (trim cs) = some (left, right) → trim left ≠ [] → trim right ≠ [] →
      node (trim left) = .ok l → motive (trim left) l → node (trim right) = .ok r →
      motive (trim right) r → motive cs (.notEquals l r))
    (equals : ∀ {cs left right l r}, Undivided (trim cs) → enclosed? (trim cs) = none →
      cutTop? ['!', '='] .start (trim cs) = none →
      cutTop? ['=', '='] .start (trim cs) = some (left, right) → trim left ≠ [] → trim right ≠ [] →
      node (trim left) = .ok l → motive (trim left) l → node (trim right) = .ok r →
      motive (trim right) r → motive cs (.equals l r))
    (operand : ∀ {cs e}, Undivided (trim cs) → trim cs ≠ [] → enclosed? (trim cs) = none →
      cutTop? ['!', '='] .start (trim cs) = none → cutTop? ['=', '='] .start (trim cs) = none →
      operand (trim cs) = .ok e → motive cs e)
    {cs : List Char} {e : Expression} (h : node cs = .ok e) : motive cs e := by
  fun_induction node cs generalizing e with
  | case1 cs _ parts hparts ih =>
    obtain ⟨es, hes, h⟩ := bind_eq_ok_iff.1 h
    cases h
    obtain ⟨left, right, hcut, hne, hps⟩ := parts?_eq_some_iff.1 (parts?_of_divided? hparts)
    refine or hcut hne ?_
    rw [← hps, List.forall₂_map_left_iff]
    exact (forall₂_of_mapM hes).imp fun ⟨p, hp⟩ e he => ⟨he, ih p hp he⟩
  | case2 cs _ hor parts hparts ih =>
    obtain ⟨es, hes, h⟩ := bind_eq_ok_iff.1 h
    cases h
    obtain ⟨left, right, hcut, hne, hps⟩ := parts?_eq_some_iff.1 (parts?_of_divided? hparts)
    refine and (parts?_of_not_divided? hor) hcut hne ?_
    rw [← hps, List.forall₂_map_left_iff]
    exact (forall₂_of_mapM hes).imp fun ⟨p, hp⟩ e he => ⟨he, ih p hp he⟩
  | case3 => cases h
  | case4 cs _ hor hand count inner _ hempty hcount =>
    rename_i ih
    obtain ⟨e', he', h⟩ := bind_eq_ok_iff.1 h
    cases h
    obtain ⟨n, hn⟩ : ∃ n, count = n + 1 := ⟨count - 1, by omega⟩
    rw [hn]
    refine not (undivided_of_not_divided? hor hand) (Prod.ext hn rfl) ?_ he' (ih he')
    exact fun hnil => hempty (List.isEmpty_iff.2 hnil)
  | case5 cs _ hor hand count inner _ hempty hcount enc henc =>
    rename_i ih
    have hinner : inner = trim cs := trim_negations_of_zero (by omega)
    rw [hinner] at henc
    exact enclosed (undivided_of_not_divided? hor hand) henc h (ih h)
  | case6 => cases h
  | case7 cs _ hor hand count inner _ hempty hcount henc left right hcut _ _ _ _ hsides =>
    rename_i ihl ihr
    have hinner : inner = trim cs := trim_negations_of_zero (by omega)
    rw [hinner] at henc hcut
    obtain ⟨l, hl, h⟩ := bind_eq_ok_iff.1 h
    obtain ⟨r, hr, h⟩ := bind_eq_ok_iff.1 h
    cases h
    simp only [Bool.or_eq_true, List.isEmpty_iff, not_or] at hsides
    exact notEquals (undivided_of_not_divided? hor hand) henc hcut hsides.1 hsides.2 hl (ihl hl)
      hr (ihr hr)
  | case8 => cases h
  | case9 cs _ hor hand count inner _ hempty hcount henc hne left right hcut _ _ _ _ hsides =>
    rename_i ihl ihr
    have hinner : inner = trim cs := trim_negations_of_zero (by omega)
    rw [hinner] at henc hne hcut
    obtain ⟨l, hl, h⟩ := bind_eq_ok_iff.1 h
    obtain ⟨r, hr, h⟩ := bind_eq_ok_iff.1 h
    cases h
    simp only [Bool.or_eq_true, List.isEmpty_iff, not_or] at hsides
    exact equals (undivided_of_not_divided? hor hand) henc hne hcut hsides.1 hsides.2 hl (ihl hl)
      hr (ihr hr)
  | case10 cs _ hor hand count inner _ hempty hcount henc hne =>
    rename_i heq
    have hinner : inner = trim cs := trim_negations_of_zero (by omega)
    rw [hinner] at hempty henc hne heq h
    refine operand (undivided_of_not_divided? hor hand) ?_ henc hne heq h
    exact fun hnil => hempty (List.isEmpty_iff.2 hnil)

/-- The forms of a text that is read, each with the readings of its parts. -/
inductive Form (cs : List Char) : Expression → Prop
  | or {left right : List Char} {es : List Expression}
    (hcut : cutTop? ['|', '|'] .start (trim cs) = some (left, right)) (hne : right ≠ [])
    (hparts : List.Forall₂ (node · = .ok ·) (trim left :: pieceTexts ['|', '|'] nofun right) es) :
    Form cs (.or es)
  | and {left right : List Char} {es : List Expression}
    (hor : parts? ['|', '|'] nofun (trim cs) = none)
    (hcut : cutTop? ['&', '&'] .start (trim cs) = some (left, right)) (hne : right ≠ [])
    (hparts : List.Forall₂ (node · = .ok ·) (trim left :: pieceTexts ['&', '&'] nofun right) es) :
    Form cs (.and es)
  | not {inner : List Char} {count : Nat} {e : Expression} (hdiv : Undivided (trim cs))
    (hneg : negations (trim cs) = (count + 1, inner)) (hne : trim inner ≠ [])
    (h : node (trim inner) = .ok e) : Form cs (negated (count + 1) e)
  | enclosed {inner : List Char} {e : Expression} (hdiv : Undivided (trim cs))
    (henc : enclosed? (trim cs) = some inner) (h : node inner = .ok e) : Form cs e
  | notEquals {left right : List Char} {l r : Expression} (hdiv : Undivided (trim cs))
    (henc : enclosed? (trim cs) = none)
    (hcut : cutTop? ['!', '='] .start (trim cs) = some (left, right)) (hleft : trim left ≠ [])
    (hright : trim right ≠ []) (hl : node (trim left) = .ok l) (hr : node (trim right) = .ok r) :
    Form cs (.notEquals l r)
  | equals {left right : List Char} {l r : Expression} (hdiv : Undivided (trim cs))
    (henc : enclosed? (trim cs) = none) (hne : cutTop? ['!', '='] .start (trim cs) = none)
    (hcut : cutTop? ['=', '='] .start (trim cs) = some (left, right)) (hleft : trim left ≠ [])
    (hright : trim right ≠ []) (hl : node (trim left) = .ok l) (hr : node (trim right) = .ok r) :
    Form cs (.equals l r)
  | operand {e : Expression} (hdiv : Undivided (trim cs)) (hne : trim cs ≠ [])
    (henc : enclosed? (trim cs) = none) (hnotEquals : cutTop? ['!', '='] .start (trim cs) = none)
    (hequals : cutTop? ['=', '='] .start (trim cs) = none) (h : operand (trim cs) = .ok e) :
    Form cs e

/-- What is read has one of the forms. -/
theorem form_of_node {e : Expression} (h : node cs = .ok e) : Form cs e := by
  refine node_induct (motive := Form) ?or ?and ?not ?enclosed ?notEquals ?equals ?operand h
  case or => exact fun hcut hne hparts => .or hcut hne (hparts.imp fun _ _ hpart => hpart.1)
  case and =>
    exact fun hor hcut hne hparts => .and hor hcut hne (hparts.imp fun _ _ hpart => hpart.1)
  case not => exact fun hdiv hneg hne h _ => .not hdiv hneg hne h
  case enclosed => exact fun hdiv henc h _ => .enclosed hdiv henc h
  case notEquals =>
    exact fun hdiv henc hcut hleft hright hl _ hr _ => .notEquals hdiv henc hcut hleft hright hl hr
  case equals =>
    exact fun hdiv henc hne hcut hleft hright hl _ hr _ =>
      .equals hdiv henc hne hcut hleft hright hl hr
  case operand => exact .operand

/-- The symbols that expressions do not have, where they would be found. -/
def refused : List (List Char) :=
  strictEqualities ++ orderings

theorem refused_cases (h : symbol ∈ refused) : symbol = ['=', '=', '='] ∨
    symbol = ['!', '=', '='] ∨ ∃ c more, symbol = c :: more ∧ c ∈ ['<', '>'] := by
  simp only [refused, strictEqualities, orderings, List.mem_append, List.mem_cons,
    List.not_mem_nil, or_false] at h
  rcases h with (rfl | rfl) | rfl | rfl | rfl | rfl
  · exact .inl rfl
  · exact .inr (.inl rfl)
  · exact .inr (.inr ⟨'>', ['='], rfl, by decide⟩)
  · exact .inr (.inr ⟨'<', ['='], rfl, by decide⟩)
  · exact .inr (.inr ⟨'>', [], rfl, by decide⟩)
  · exact .inr (.inr ⟨'<', [], rfl, by decide⟩)

/-- A text with something in it and no refused symbol at the top level is read. -/
theorem parse?_eq_node {source : String} (hne : trim source.toList ≠ [])
    (hallowed : ∀ symbol ∈ refused, cutTop? symbol .start (trim source.toList) = none) :
    parse? source = node source.toList := by
  simp only [refused, List.forall_mem_append] at hallowed
  unfold parse?
  dsimp only
  rw [if_neg fun hempty => hne (List.isEmpty_iff.1 hempty),
    if_neg (by simpa [hasTop] using hallowed.1), if_neg (by simpa [hasTop] using hallowed.2),
    node_trim]

/-- A text is an expression if there is something in it and no refused symbol at the top level, and
if it is read. -/
theorem parse?_eq_ok_iff {source : String} {e : Expression} : parse? source = .ok e ↔
    trim source.toList ≠ [] ∧
      (∀ symbol ∈ refused, cutTop? symbol .start (trim source.toList) = none) ∧
      node source.toList = .ok e := by
  refine ⟨fun h => ?_, fun ⟨hne, hallowed, h⟩ => by rw [parse?_eq_node hne hallowed, h]⟩
  have hread := h
  unfold parse? at h
  dsimp only at h
  split at h
  · cases h
  · next hempty =>
    split at h
    · cases h
    · next hstrict =>
      split at h
      · cases h
      · next hordering =>
        have hne : trim source.toList ≠ [] := fun hnil => hempty (List.isEmpty_iff.2 hnil)
        have hallowed : ∀ symbol ∈ refused, cutTop? symbol .start (trim source.toList) = none := by
          simp only [refused, List.forall_mem_append]
          exact ⟨by simpa [hasTop] using hstrict, by simpa [hasTop] using hordering⟩
        rw [parse?_eq_node hne hallowed] at hread
        exact ⟨hne, hallowed, hread⟩

end Conduit.Expression
