import Conduit.Json.Parser
import Conduit.Json.View
import Mathlib.Data.List.Basic

/-!
# JSON text is read back

A string that is written between quotation marks is read back as it was (`Json.parse?_quoted`), and
so is a value whose numbers are integers, if its containers are nested no deeper than the reader
goes (`Json.parse?_compact`). Floating numbers are left out. Strings go one character at a time,
numbers are their decimal digits without leading zeros, and items and members are read up to a comma
or the end of their container, which ends every number as well (`Parser.EndsNumber`).
-/

namespace Conduit

namespace Text

variable {p : Char → Bool} {cs rest : List Char}

/-- The longest start of one kind of characters is what is written, if something else follows. -/
theorem takeWhile_append_of_ends (h : ∀ c ∈ cs, p c = true)
    (hrest : ∀ c ∈ rest.head?, p c = false) : (cs ++ rest).takeWhile p = cs := by
  rw [List.takeWhile_append_of_pos h]
  cases rest with
  | nil => simp
  | cons c rest => simp [hrest c rfl]

/-- What is left after that is what follows. -/
theorem dropWhile_append_of_ends (h : ∀ c ∈ cs, p c = true)
    (hrest : ∀ c ∈ rest.head?, p c = false) : (cs ++ rest).dropWhile p = rest := by
  rw [List.dropWhile_append_of_pos h]
  cases rest with
  | nil => simp
  | cons c rest => simp [hrest c rfl]

end Text

namespace Json

open Text

/-! ## Values without floating numbers -/

mutual

/-- Whether every number in a value is an integer. -/
def isIntegral : Json → Bool
  | number (.real _) => false
  | array items => areIntegral items
  | object members => haveIntegral members
  | _ => true

/-- Whether every number in some items is an integer. -/
def areIntegral : List Json → Bool
  | [] => true
  | v :: vs => v.isIntegral && areIntegral vs

/-- Whether every number in some members is an integer. -/
def haveIntegral : List (String × Json) → Bool
  | [] => true
  | (_, v) :: vs => v.isIntegral && haveIntegral vs

end

theorem isIntegral_of_mem_items {vs : List Json} {v : Json} (h : (array vs).isIntegral = true)
    (hv : v ∈ vs) : v.isIntegral = true := by
  rw [isIntegral] at h
  induction vs with
  | nil => cases hv
  | cons w vs ih =>
    rw [areIntegral, Bool.and_eq_true] at h
    rcases List.mem_cons.1 hv with rfl | hv
    · exact h.1
    · exact ih h.2 hv

theorem isIntegral_of_mem_members {vs : List (String × Json)} {k : String} {v : Json}
    (h : (object vs).isIntegral = true) (hv : (k, v) ∈ vs) : v.isIntegral = true := by
  rw [isIntegral] at h
  induction vs with
  | nil => cases hv
  | cons w vs ih =>
    obtain ⟨l, w⟩ := w
    rw [haveIntegral, Bool.and_eq_true] at h
    rcases List.mem_cons.1 hv with heq | hv
    · cases heq
      exact h.1
    · exact ih h.2 hv

namespace Parser

variable {rest : List Char}

/-! ## Strings -/

/-- The two hexadecimal digits of a control character write it. -/
theorem unit?_hexDigit :
    ∀ u < 32, unit? '0' '0' (hexDigit (u / 16)) (hexDigit (u % 16)) = some u := by
  decide

theorem stringBody_control {u : Nat} (h : u < 32) (cs : List Char) :
    stringBody ('\\' :: 'u' :: '0' :: '0' :: hexDigit (u / 16) :: hexDigit (u % 16) :: cs) =
      (stringBody cs).map fun (s, r) => (Char.ofNat u :: s, r) := by
  have hunit := unit?_hexDigit u h
  have hhigh : isHigh u = false := by simp [isHigh]; omega
  have hlow : isLow u = false := by simp [isLow]; omega
  rw [stringBody.eq_def]
  split
  case h_3 heq | h_4 heq =>
    cases heq
    simp [hunit, hhigh, hlow]
  case h_5 hshort heq =>
    cases heq
    exact absurd rfl (hshort _ _ _ _ _ rfl)
  case h_6 hshort heq =>
    cases heq
    exact absurd rfl (hshort _ _ rfl)
  all_goals simp_all

theorem stringBody_plain {c : Char} (hquote : c ≠ '"') (hslash : c ≠ '\\') (h : ¬ c.toNat < 0x20)
    (cs : List Char) :
    stringBody (c :: cs) = (stringBody cs).map fun (s, r) => (c :: s, r) := by
  rw [stringBody.eq_def]
  split
  case h_6 heq =>
    cases heq
    simp only [h, if_false]
  all_goals simp_all

/-- A character that is written is read. -/
theorem stringBody_escaped (c : Char) (cs : List Char) :
    stringBody (escaped c ++ cs) = (stringBody cs).map fun (s, r) => (c :: s, r) := by
  unfold escaped
  split
  case h_8 hquote hslash _ _ _ _ _ =>
    split
    · next h =>
      have hc : Char.ofNat c.toNat = c := by simp
      simp only [List.cons_append, List.nil_append]
      rw [stringBody_control h, hc]
    · next h => exact stringBody_plain hquote hslash h cs
  all_goals simp [stringBody, unescape?]

/-- Characters that are written are read up to the closing quotation mark. -/
theorem stringBody_flatMap_escaped (cs rest : List Char) :
    stringBody (cs.flatMap escaped ++ '"' :: rest) = some (cs, rest) := by
  induction cs with
  | nil => simp [stringBody]
  | cons c cs ih =>
    rw [List.flatMap_cons, List.append_assoc, stringBody_escaped, ih]
    rfl

/-! ## Digits -/

theorem isDigit_of_mem_digitsOf {n : Nat} {c : Char} (h : c ∈ digitsOf n) : c.isDigit = true :=
  Nat.isDigit_of_mem_toDigits (by decide) (by decide) h

/-- Digits are read as the number of which they are the digits. -/
theorem ofDigits_eq {digits : List Char} (h : ∀ c ∈ digits, c.isDigit = true) (n : Nat) :
    ofDigits n digits = Nat.ofDigitChars 10 digits n := by
  unfold ofDigits Nat.ofDigitChars
  induction digits generalizing n with
  | nil => rfl
  | cons c digits ih =>
    rw [List.forall_mem_cons] at h
    have hle : (48 : UInt32) ≤ c.val := by
      have hdigit := h.1
      simp only [Char.isDigit, Bool.and_eq_true, decide_eq_true_eq] at hdigit
      exact hdigit.1
    have hc : (c.val - 48).toNat = c.toNat - '0'.toNat := UInt32.toNat_sub_of_le _ _ hle
    simp only [List.foldl_cons, hc]
    exact ih h.2 _

theorem ofDigits_digitsOf (n : Nat) : ofDigits 0 (digitsOf n) = n := by
  rw [ofDigits_eq fun _ => isDigit_of_mem_digitsOf, digitsOf,
    Nat.ofDigitChars_toDigits (by decide) (by decide)]

/-- The digits of a number that is not zero start with another digit than zero. -/
theorem head?_digitsOf {n : Nat} (h : 0 < n) : (digitsOf n).head? ≠ some '0' := by
  unfold digitsOf
  induction n using Nat.strongRecOn with
  | ind n ih =>
    by_cases hn : n < 10
    · have hdigit : ∀ d < 10, 0 < d → d.digitChar ≠ '0' := by decide
      rw [Nat.toDigits_of_lt_base hn, List.head?_singleton]
      exact fun heq => hdigit n hn h (Option.some.inj heq)
    · have htens := ih (n / 10) (by omega) (by omega)
      rw [Nat.toDigits_of_base_le (by decide) (by omega),
        List.head?_append_of_ne_nil _ Nat.toDigits_ne_nil]
      exact htens

/-! ## Numbers -/

/-- A text does not go on with a number. -/
def EndsNumber (rest : List Char) : Prop :=
  ∀ c ∈ rest.head?, c.isDigit = false ∧ c ≠ '.' ∧ c ≠ 'e' ∧ c ≠ 'E'

theorem endsNumber_cons {c : Char} (h : c ∈ [',', ']', '}']) : EndsNumber (c :: rest) := by
  intro c' hc'
  cases hc'
  simp only [List.mem_cons, List.not_mem_nil, or_false] at h
  rcases h with rfl | rfl | rfl <;> decide

theorem fraction_of_endsNumber (h : EndsNumber rest) : fraction rest = some (none, rest) := by
  unfold fraction
  split
  · exact absurd rfl (h _ rfl).2.1
  · rfl

theorem exponent_of_endsNumber (h : EndsNumber rest) : exponent rest = some (none, rest) := by
  unfold exponent
  split
  · exact absurd rfl (h _ rfl).2.2.1
  · exact absurd rfl (h _ rfl).2.2.2
  · rfl

/-- The digits of a number are not refused for a leading zero. -/
theorem not_leading_zero (n : Nat) : ((digitsOf n).isEmpty ||
    decide ((digitsOf n).length > 1) && (digitsOf n).head? == some '0') = false := by
  rcases Nat.eq_zero_or_pos n with rfl | hn
  · decide
  · have hne : digitsOf n ≠ [] := Nat.toDigits_ne_nil
    simp [hne, head?_digitsOf hn]

theorem unsigned_digitsOf (negative : Bool) (n : Nat) (h : EndsNumber rest) :
    unsigned negative (digitsOf n ++ rest) = (integer? negative (digitsOf n)).map (·, rest) := by
  have hdigits : ∀ c ∈ digitsOf n, c.isDigit = true := fun _ => isDigit_of_mem_digitsOf
  have hends : ∀ c ∈ rest.head?, c.isDigit = false := fun c hc => (h c hc).1
  unfold unsigned
  simp only [takeWhile_append_of_ends hdigits hends, dropWhile_append_of_ends hdigits hends,
    not_leading_zero, fraction_of_endsNumber h, exponent_of_endsNumber h, Option.bind_eq_bind,
    Option.bind_some, Bool.false_eq_true, if_false]
  cases integer? negative (digitsOf n) <;> rfl

/-- The digits of an integer of 64 bits are read as that integer, with its sign before them. -/
theorem integer?_digitsOf (i : JsonInteger) :
    integer? (decide (i.val < 0)) (digitsOf i.val.natAbs) = some (.integer i) := by
  have hof : JsonInteger.ofInt? i.val = some i := dif_pos ⟨i.lower, i.upper⟩
  unfold integer?
  rw [ofDigits_digitsOf]
  by_cases hneg : i.val < 0
  · have hne : ¬ (i.val.natAbs : Int) = 0 := by omega
    have hval : -(i.val.natAbs : Int) = i.val := by omega
    simp only [hneg, decide_true, Bool.true_and, beq_iff_eq, hne, if_false, if_true, hval, hof]
  · have hval : (i.val.natAbs : Int) = i.val := by omega
    simp only [hneg, decide_false, Bool.false_and, Bool.false_eq_true, if_false, hval, hof]

/-- The text of an integer: its digits, after a minus sign if it is negative. -/
theorem toList_integerText (i : JsonInteger) : (numberText (.integer i)).toList =
    if i.val < 0 then '-' :: digitsOf i.val.natAbs else digitsOf i.val.natAbs := by
  have htext : numberText (.integer i) = i.val.repr := rfl
  rw [htext, Int.repr_eq_if]
  by_cases hneg : i.val < 0
  · have hval : (-i.val).toNat = i.val.natAbs := by omega
    simp [hneg, hval, digitsOf, Int.not_le.2 hneg]
  · have hval : i.val.toNat = i.val.natAbs := by omega
    simp [hneg, hval, digitsOf, Int.not_lt.1 hneg]

/-! ## Values -/

variable {nesting : Nat}

theorem skipSpace_cons {c : Char} (h : isSpace c = false) (cs : List Char) :
    skipSpace (c :: cs) = c :: cs := by
  simp [skipSpace, h]

theorem isSpace_of_isDigit {c : Char} (h : c.isDigit = true) : isSpace c = false := by
  cases hspace : isSpace c with
  | false => rfl
  | true =>
    simp only [isSpace, Bool.or_eq_true, beq_iff_eq] at hspace
    rcases hspace with ((rfl | rfl) | rfl) | rfl <;> cases h

/-- What starts with a digit is a number. -/
theorem value_digit {c : Char} (h : c.isDigit = true) (cs : List Char) :
    value nesting (c :: cs) = (unsigned false (c :: cs)).map fun (n, r) => (.number n, r) := by
  unfold value
  rw [skipSpace_cons (isSpace_of_isDigit h)]
  split
  case h_8 => cases unsigned false (c :: cs) <;> rfl
  all_goals
    rename_i heq
    cases heq
    cases h

/-- A string that is written is read. -/
theorem value_quoted (s : String) (rest : List Char) :
    value nesting ((quoted s).toList ++ rest) = some (.string s, rest) := by
  have htext : (quoted s).toList ++ rest = '"' :: (s.toList.flatMap escaped ++ '"' :: rest) := by
    simp [quoted]
  rw [htext]
  unfold value
  rw [skipSpace_cons (by decide)]
  simp [stringBody_flatMap_escaped]

/-- An integer that is written is read. -/
theorem value_integer (i : JsonInteger) (h : EndsNumber rest) :
    value nesting ((numberText (.integer i)).toList ++ rest) =
      some (.number (.integer i), rest) := by
  have hint := integer?_digitsOf i
  have hread := unsigned_digitsOf (decide (i.val < 0)) i.val.natAbs h
  rw [hint] at hread
  rw [toList_integerText]
  split
  · next hneg =>
    unfold value
    rw [List.cons_append, skipSpace_cons (by decide)]
    simp only [hneg, decide_true] at hread
    simp [hread]
  · next hneg =>
    simp only [hneg, decide_false] at hread
    cases hdigits : digitsOf i.val.natAbs with
    | nil => exact absurd hdigits Nat.toDigits_ne_nil
    | cons c cs =>
      have hc : c.isDigit = true := isDigit_of_mem_digitsOf (hdigits ▸ List.mem_cons_self)
      rw [hdigits] at hread
      rw [List.cons_append, value_digit hc, ← List.cons_append, hread]
      rfl

/-- The text of a value starts with a character that is neither white space nor the end of an
array. -/
theorem exists_compact_cons {v : Json} (h : v.isIntegral = true) :
    ∃ c cs, v.compact.toList = c :: cs ∧ isSpace c = false ∧ c ≠ ']' := by
  cases v with
  | null => exact ⟨'n', _, rfl, by decide, by decide⟩
  | bool b =>
    cases b with
    | false => exact ⟨'f', _, rfl, by decide, by decide⟩
    | true => exact ⟨'t', _, rfl, by decide, by decide⟩
  | string s => exact ⟨'"', _, by simp [compact, scalarText, quoted]; rfl, by decide, by decide⟩
  | array items => exact ⟨'[', _, by simp [compact]; rfl, by decide, by decide⟩
  | object members => exact ⟨'\x7b', _, by simp [compact]; rfl, by decide, by decide⟩
  | number n =>
    cases n with
    | real x => cases h
    | integer i =>
      rw [compact, scalarText, toList_integerText]
      · split
        · exact ⟨'-', _, rfl, by decide, by decide⟩
        · cases hdigits : digitsOf i.val.natAbs with
          | nil => exact absurd hdigits Nat.toDigits_ne_nil
          | cons c cs =>
            have hc : c.isDigit = true := isDigit_of_mem_digitsOf (hdigits ▸ List.mem_cons_self)
            refine ⟨c, cs, rfl, isSpace_of_isDigit hc, ?_⟩
            rintro rfl
            cases hc
      all_goals nofun

theorem exists_compactItems_cons {v : Json} {vs : List Json} (h : v.isIntegral = true) :
    ∃ c cs, (compactItems (v :: vs)).toList = c :: cs ∧ isSpace c = false ∧ c ≠ ']' := by
  obtain ⟨c, cs, hcs, hspace, hne⟩ := exists_compact_cons h
  cases vs with
  | nil => exact ⟨c, cs, by rw [compactItems, hcs], hspace, hne⟩
  | cons w vs => exact ⟨c, _, by simp [compactItems, hcs]; rfl, hspace, hne⟩

theorem exists_compactMembers_cons (k : String) (v : Json) (vs : List (String × Json)) :
    ∃ cs, (compactMembers ((k, v) :: vs)).toList = '"' :: cs := by
  cases vs with
  | nil => exact ⟨_, by simp [compactMembers, quoted]; rfl⟩
  | cons w vs => exact ⟨_, by simp [compactMembers, quoted]; rfl⟩

/-! ## Containers -/

/-- Items do not outnumber the characters of their text, but by one. -/
theorem length_le_compactItems (vs : List Json) :
    vs.length ≤ (compactItems vs).toList.length + 1 := by
  induction vs with
  | nil => exact Nat.zero_le _
  | cons v vs ih =>
    cases vs with
    | nil => simp
    | cons w vs =>
      simp only [compactItems, String.toList_append, List.length_append, List.length_cons] at ih ⊢
      simp at ih ⊢
      omega

/-- Members do not outnumber the characters of their text, but by one. -/
theorem length_le_compactMembers (vs : List (String × Json)) :
    vs.length ≤ (compactMembers vs).toList.length + 1 := by
  induction vs with
  | nil => exact Nat.zero_le _
  | cons v vs ih =>
    cases vs with
    | nil => simp
    | cons w vs =>
      simp only [compactMembers, String.toList_append, List.length_append, List.length_cons] at ih ⊢
      simp at ih ⊢
      omega

/-- A reader reads each of some values from its text, up to the character that ends it. -/
def ReadsEach (item : List Char → Option (Json × List Char)) (vs : List Json) : Prop :=
  ∀ v ∈ vs, ∀ rest, EndsNumber rest → item (v.compact.toList ++ rest) = some (v, rest)

/-- Items that are written are read, up to the bracket that closes them. -/
theorem items_compactItems {item : List Char → Option (Json × List Char)} {v : Json}
    {vs : List Json} (h : ReadsEach item (v :: vs)) {fuel : Nat} (hfuel : vs.length < fuel) :
    items item fuel ((compactItems (v :: vs)).toList ++ ']' :: rest) = some (v :: vs, rest) := by
  induction vs generalizing v fuel with
  | nil =>
    obtain ⟨fuel, rfl⟩ := Nat.exists_eq_succ_of_ne_zero (Nat.ne_zero_of_lt hfuel)
    have hv := h v List.mem_cons_self (']' :: rest) (endsNumber_cons (by decide))
    simp [compactItems, items, hv, skipSpace, isSpace]
  | cons w vs ih =>
    obtain ⟨fuel, rfl⟩ := Nat.exists_eq_succ_of_ne_zero (Nat.ne_zero_of_lt hfuel)
    have hmore := ih (fun u hu => h u (List.mem_cons_of_mem v hu)) (Nat.lt_of_succ_lt_succ hfuel)
    have hv := h v List.mem_cons_self (',' :: ((compactItems (w :: vs)).toList ++ ']' :: rest))
      (endsNumber_cons (by decide))
    simp [compactItems, items, hv, hmore, skipSpace, isSpace]

/-- Members that are written are read, up to the brace that closes them. -/
theorem members_compactMembers {item : List Char → Option (Json × List Char)} {k : String}
    {v : Json} {vs : List (String × Json)} (h : ReadsEach item (((k, v) :: vs).map Prod.snd))
    {fuel : Nat} (hfuel : vs.length < fuel) :
    members item fuel ((compactMembers ((k, v) :: vs)).toList ++ '\x7d' :: rest) =
      some ((k, v) :: vs, rest) := by
  induction vs generalizing k v fuel with
  | nil =>
    obtain ⟨fuel, rfl⟩ := Nat.exists_eq_succ_of_ne_zero (Nat.ne_zero_of_lt hfuel)
    have hv := h v List.mem_cons_self ('\x7d' :: rest) (endsNumber_cons (by decide))
    simp [compactMembers, members, quoted, stringBody_flatMap_escaped, hv, skipSpace, isSpace]
  | cons w vs ih =>
    obtain ⟨l, w⟩ := w
    obtain ⟨fuel, rfl⟩ := Nat.exists_eq_succ_of_ne_zero (Nat.ne_zero_of_lt hfuel)
    have hmore := ih (fun u hu => h u (List.mem_cons_of_mem v hu)) (Nat.lt_of_succ_lt_succ hfuel)
    have hv := h v List.mem_cons_self
      (',' :: ((compactMembers ((l, w) :: vs)).toList ++ '\x7d' :: rest))
      (endsNumber_cons (by decide))
    simp [compactMembers, members, quoted, stringBody_flatMap_escaped, hv, hmore, skipSpace,
      isSpace]

/-- An array that is written is read, if its items are. -/
theorem value_array {vs : List Json} (h : ReadsEach (value nesting) vs)
    (hvs : ∀ v ∈ vs, v.isIntegral = true) :
    value (nesting + 1) ((array vs).compact.toList ++ rest) = some (.array vs, rest) := by
  have htext : (array vs).compact.toList ++ rest =
      '[' :: ((compactItems vs).toList ++ ']' :: rest) := by
    simp [compact]
  rw [htext, value, skipSpace_cons (by decide)]
  cases vs with
  | nil => simp [compactItems, skipSpace, isSpace]
  | cons v vs =>
    obtain ⟨c, cs, hcs, hspace, hne⟩ := exists_compactItems_cons (hvs v List.mem_cons_self)
    have hread : items (value nesting) ((c :: (cs ++ ']' :: rest)).length + 1)
        (c :: (cs ++ ']' :: rest)) = some (v :: vs, rest) := by
      have hlength := length_le_compactItems (v :: vs)
      rw [← List.cons_append, ← hcs]
      refine items_compactItems h ?_
      simp only [List.length_cons, List.length_append] at hlength ⊢
      omega
    rw [hcs]
    simp only [List.cons_append, skipSpace_cons hspace]
    split
    · next heq =>
      cases heq
      exact absurd rfl hne
    · rw [hread]
      rfl

/-- An object that is written is read, if the values of its members are. -/
theorem value_object {vs : List (String × Json)} (h : ReadsEach (value nesting) (vs.map Prod.snd)) :
    value (nesting + 1) ((object vs).compact.toList ++ rest) = some (.object vs, rest) := by
  have htext : (object vs).compact.toList ++ rest =
      '\x7b' :: ((compactMembers vs).toList ++ '\x7d' :: rest) := by
    simp [compact]
  rw [htext, value, skipSpace_cons (by decide)]
  cases vs with
  | nil => simp [compactMembers, skipSpace, isSpace]
  | cons v vs =>
    obtain ⟨k, v⟩ := v
    obtain ⟨cs, hcs⟩ := exists_compactMembers_cons k v vs
    have hread : members (value nesting) (('"' :: (cs ++ '\x7d' :: rest)).length + 1)
        ('"' :: (cs ++ '\x7d' :: rest)) = some ((k, v) :: vs, rest) := by
      have hlength := length_le_compactMembers ((k, v) :: vs)
      rw [← List.cons_append, ← hcs]
      refine members_compactMembers h ?_
      simp only [List.length_cons, List.length_append] at hlength ⊢
      omega
    rw [hcs]
    simp only [List.cons_append, skipSpace_cons (show isSpace '"' = false by decide)]
    split
    · next heq => exact absurd (List.cons.inj heq).1 (by decide)
    · rw [hread]
      rfl

/-- A value that is written is read, up to the character that ends it. -/
theorem value_compact : (nesting : Nat) → (v : Json) → v.isIntegral = true → v.depth ≤ nesting →
    ∀ rest, EndsNumber rest → value nesting (v.compact.toList ++ rest) = some (v, rest)
  | _, .null, _, _, _, _ | _, .bool true, _, _, _, _ | _, .bool false, _, _, _, _ => by
      unfold value
      simp [compact, scalarText, skipSpace, isSpace]
  | _, .number (.integer i), _, _, _, hrest => by
      simpa only [compact, scalarText] using value_integer i hrest
  | _, .string s, _, _, rest, _ => by
      simpa only [compact, scalarText] using value_quoted s rest
  | 0, .array vs, _, hdepth, _, _ => by
      rw [depth] at hdepth
      cases hdepth
  | 0, .object vs, _, hdepth, _, _ => by
      rw [depth] at hdepth
      cases hdepth
  | nesting + 1, .array vs, h, hdepth, rest, _ => by
      refine value_array (fun v hv rest hrest => ?_) fun v hv => ?_
      · have hlt := depth_lt_of_mem_items hv
        exact value_compact nesting v (isIntegral_of_mem_items h hv) (by omega) rest hrest
      · exact isIntegral_of_mem_items h hv
  | nesting + 1, .object vs, h, hdepth, rest, _ => by
      refine value_object fun v hv rest hrest => ?_
      obtain ⟨⟨k, w⟩, hw, rfl⟩ := List.mem_map.1 hv
      have hlt := depth_lt_of_mem_members hw
      exact value_compact nesting w (isIntegral_of_mem_members h hw) (by omega) rest hrest

end Parser

/-! ## Texts -/

/-- A string that is written between quotation marks is read back. -/
theorem parse?_quoted (s : String) : parse? (quoted s) = some (.string s) := by
  have hvalue : Parser.value Parser.maxNesting (quoted s).toList = some (.string s, []) := by
    have hread : Parser.value Parser.maxNesting ((quoted s).toList ++ []) = some (.string s, []) :=
      Parser.value_quoted s []
    rwa [List.append_nil] at hread
  simp [parse?, parseOrdered?, hvalue, Parser.skipSpace, canonical]

/-- A value that is written is read back in canonical form, if its numbers are integers and its
containers are not nested too deep. -/
theorem parse?_compact {v : Json} (h : v.isIntegral = true) (hdepth : v.depth ≤ Parser.maxNesting) :
    parse? v.compact = some v.canonical := by
  have hvalue : Parser.value Parser.maxNesting v.compact.toList = some (v, []) := by
    have hread := Parser.value_compact _ v h hdepth [] nofun
    rwa [List.append_nil] at hread
  simp [parse?, parseOrdered?, hvalue, Parser.skipSpace]

end Json

end Conduit
