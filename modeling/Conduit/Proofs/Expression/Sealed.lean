import Conduit.Proofs.Expression.Operand
import Conduit.Proofs.Expression.Outside

/-!
# Operands are sealed

There is no symbol and no parenthesis in a JSON literal outside of its strings
(`Json.sealed_of_parse?`), and none in a path. So an operand that is read is sealed, if it is no
text in single quotation marks with another such mark in it (`Expression.sealed_of_operand`). The
reader of JSON is followed function by function: what each of them takes from the front of a text is
sealed (`Expression.Sheds`), in a string what it takes up to the closing quotation mark
(`Expression.Closes`).
-/

namespace Conduit

open Text Expression

variable {cs rest more : List Char} {c : Char}

namespace Expression

/-- The rest of a text comes after a sealed text. -/
def Sheds (cs rest : List Char) : Prop :=
  ∃ front, cs = front ++ rest ∧ Sealed front

namespace Sheds

theorem refl (cs : List Char) : Sheds cs cs := ⟨[], rfl, .nil⟩

theorem trans (h : Sheds cs rest) (hrest : Sheds rest more) : Sheds cs more := by
  obtain ⟨front, rfl, hfront⟩ := h
  obtain ⟨next, rfl, hnext⟩ := hrest
  exact ⟨front ++ next, by rw [List.append_assoc], hfront.append hnext⟩

theorem of_plain (front : List Char) (h : ∀ c ∈ front, isPlain c = true) (rest : List Char) :
    Sheds (front ++ rest) rest :=
  ⟨front, rfl, .of_plain h⟩

theorem cons (hc : isPlain c = true) (h : Sheds cs rest) : Sheds (c :: cs) rest :=
  trans (of_plain [c] (List.forall_mem_singleton.2 hc) cs) h

theorem dropWhile {p : Char → Bool} (h : ∀ c, p c = true → isPlain c = true) (cs : List Char) :
    Sheds cs (cs.dropWhile p) :=
  ⟨cs.takeWhile p, List.takeWhile_append_dropWhile.symm,
    .of_plain fun c hc => h c (List.mem_takeWhile_imp hc)⟩

end Sheds

/-- The rest of a text comes after the end of a JSON string. -/
def Closes (cs rest : List Char) : Prop :=
  ∃ front, cs = front ++ rest ∧ Inert .double front ∧ Place.double.after front = .outside

namespace Closes

theorem quote (rest : List Char) : Closes ('"' :: rest) rest :=
  ⟨['"'], rfl, ⟨nofun, trivial⟩, rfl⟩

/-- A character of the string. -/
theorem char (hquote : c ≠ '"') (hslash : c ≠ '\\') (h : Closes cs rest) :
    Closes (c :: cs) rest := by
  obtain ⟨front, rfl, hinert, hafter⟩ := h
  have hnext : Place.double.next c = .double := by rw [Place.next, if_neg hquote, if_neg hslash]
  have hinside : Place.double ≠ .outside := by decide
  refine ⟨c :: front, rfl, ⟨fun hout => absurd hout hinside, ?_⟩, ?_⟩
  · rw [hnext]
    exact hinert
  · rw [Place.after_cons, hnext, hafter]

/-- A character after a backslash, whichever it is. -/
theorem escape (c : Char) (h : Closes cs rest) : Closes ('\\' :: c :: cs) rest := by
  obtain ⟨front, rfl, hinert, hafter⟩ := h
  exact ⟨'\\' :: c :: front, rfl, ⟨nofun, nofun, hinert⟩, hafter⟩

/-- The string between its quotation marks. -/
theorem sheds (h : Closes cs rest) : Sheds ('"' :: cs) rest := by
  obtain ⟨front, rfl, hinert, hafter⟩ := h
  exact ⟨'"' :: front, rfl, hafter, fun _ => by decide, hinert⟩

end Closes

end Expression

namespace Json.Parser

/-! ## Strings -/

theorem ne_of_hexValue? {n : Nat} (h : hexValue? c = some n) : c ≠ '"' ∧ c ≠ '\\' := by
  constructor
  · rintro rfl
    cases h
  · rintro rfl
    cases h

/-- Four hexadecimal digits of a string. -/
theorem closes_of_unit? {a b c d : Char} {u : Nat} (hunit : unit? a b c d = some u)
    (h : Closes cs rest) : Closes (a :: b :: c :: d :: cs) rest := by
  simp only [unit?, Option.bind_eq_bind, Option.bind_eq_some_iff] at hunit
  obtain ⟨_, ha, _, hb, _, hc, _, hd, _⟩ := hunit
  obtain ⟨haq, has⟩ := ne_of_hexValue? ha
  obtain ⟨hbq, hbs⟩ := ne_of_hexValue? hb
  obtain ⟨hcq, hcs⟩ := ne_of_hexValue? hc
  obtain ⟨hdq, hds⟩ := ne_of_hexValue? hd
  exact .char haq has (.char hbq hbs (.char hcq hcs (.char hdq hds h)))

/-- What follows a string does not depend on what is done with its characters. -/
theorem exists_of_map {α β : Type} {f : α → β} {x : Option (α × List Char)} {y : β}
    (h : (x.map fun (s, r) => (f s, r)) = some (y, rest)) : ∃ s, x = some (s, rest) := by
  obtain ⟨⟨s, r⟩, hx, heq⟩ := Option.map_eq_some_iff.1 h
  cases heq
  exact ⟨s, hx⟩

/-- A string is read up to its closing quotation mark. -/
theorem closes_of_stringBody {s : List Char} (h : stringBody cs = some (s, rest)) :
    Closes cs rest := by
  fun_induction stringBody cs generalizing s with
  | case2 =>
    cases h
    exact .quote _
  | case5 _ _ _ _ _ _ _ _ _ _ hunit _ _ hlow _ ih =>
    obtain ⟨s, hs⟩ := exists_of_map h
    exact .escape 'u' (closes_of_unit? hunit (.escape 'u' (closes_of_unit? hlow (ih hs))))
  | case8 _ _ _ _ _ _ _ _ _ _ hunit _ _ ih =>
    obtain ⟨s, hs⟩ := exists_of_map h
    exact .escape 'u' (closes_of_unit? hunit (ih hs))
  | case11 _ _ _ _ _ _ _ hunit _ ih =>
    obtain ⟨s, hs⟩ := exists_of_map h
    exact .escape 'u' (closes_of_unit? hunit (ih hs))
  | case13 c _ _ _ _ _ ih =>
    obtain ⟨s, hs⟩ := exists_of_map h
    exact .escape c (ih hs)
  | case15 c cs hquote _ _ hslash _ ih =>
    obtain ⟨s, hs⟩ := exists_of_map h
    refine .char hquote ?_ (ih hs)
    rintro rfl
    cases cs with
    | nil =>
      rw [stringBody] at hs
      cases hs
    | cons d cs => exact hslash d cs rfl rfl
  | _ => cases h

/-! ## Numbers -/

theorem isPlain_of_isDigit (h : c.isDigit = true) : isPlain c = true :=
  Path.isPlain_of_isPathChar (Path.isPathChar_of_isDigit h)

theorem isPlain_of_isSpace (h : isSpace c = true) : isPlain c = true :=
  isPlain_of_forall (p := (isSpace · = true)) (by decide) h

theorem sheds_digits (cs : List Char) : Sheds cs (cs.dropWhile Char.isDigit) :=
  .dropWhile (fun _ => isPlain_of_isDigit) cs

theorem sheds_skipSpace (cs : List Char) : Sheds cs (skipSpace cs) :=
  .dropWhile (fun _ => isPlain_of_isSpace) cs

theorem sheds_of_fraction {digits : Option (List Char)} (h : fraction cs = some (digits, rest)) :
    Sheds cs rest := by
  unfold fraction at h
  split at h
  · dsimp only at h
    split at h
    · cases h
    · cases h
      exact .cons (by decide) (sheds_digits _)
  · cases h
    exact .refl cs

theorem sheds_of_exponent {power : Option Int} (h : exponent cs = some (power, rest)) :
    Sheds cs rest := by
  unfold exponent at h
  split at h
  case h_3 =>
    cases h
    exact .refl cs
  all_goals
    next after =>
    split at h
    next digits hsign =>
    obtain ⟨_, h⟩ := Option.ite_none_left_eq_some.1 h
    cases h
    have hdigits : Sheds after digits := by
      split at hsign
      · cases hsign
        exact .cons (by decide) (.refl _)
      · cases hsign
        exact .cons (by decide) (.refl _)
      · cases hsign
        exact .refl _
    exact .cons (by decide) (hdigits.trans (sheds_digits _))

theorem sheds_of_unsigned {negative : Bool} {n : JsonNumber}
    (h : unsigned negative cs = some (n, rest)) : Sheds cs rest := by
  unfold unsigned at h
  dsimp only at h
  obtain ⟨_, h⟩ := Option.ite_none_left_eq_some.1 h
  simp only [Option.bind_eq_bind, Option.bind_eq_some_iff] at h
  obtain ⟨⟨part, afterPart⟩, hpart, ⟨power, afterPower⟩, hpower, h⟩ := h
  have hrest : afterPower = rest := by
    dsimp only at h
    split at h
    · obtain ⟨_, _, h⟩ := Option.bind_eq_some_iff.1 h
      cases h
      rfl
    · obtain ⟨_, _, h⟩ := Option.bind_eq_some_iff.1 h
      cases h
      rfl
  rw [← hrest]
  exact (sheds_digits cs).trans ((sheds_of_fraction hpart).trans (sheds_of_exponent hpower))

/-! ## Values -/

section

variable {item : List Char → Option (Json × List Char)}
  (hitem : ∀ {cs v rest}, item cs = some (v, rest) → Sheds cs rest) {fuel : Nat}
include hitem

theorem sheds_of_items {vs : List Json} (h : items item fuel cs = some (vs, rest)) :
    Sheds cs rest := by
  induction fuel generalizing cs vs with
  | zero => cases h
  | succ fuel ih =>
    simp only [items, Option.bind_eq_bind, Option.bind_eq_some_iff] at h
    obtain ⟨⟨v, after⟩, hv, h⟩ := h
    refine (hitem hv).trans ((sheds_skipSpace after).trans ?_)
    dsimp only at h
    split at h
    · next hskip =>
      obtain ⟨⟨more, last⟩, hmore, h⟩ := Option.bind_eq_some_iff.1 h
      cases h
      rw [hskip]
      exact .cons (by decide) (ih hmore)
    · next hskip =>
      cases h
      rw [hskip]
      exact .cons (by decide) (.refl _)
    · cases h

theorem sheds_of_members {vs : List (String × Json)}
    (h : members item fuel cs = some (vs, rest)) : Sheds cs rest := by
  induction fuel generalizing cs vs with
  | zero => cases h
  | succ fuel ih =>
    rw [members] at h
    refine (sheds_skipSpace cs).trans ?_
    split at h
    · next keyed hskip =>
      obtain ⟨⟨key, afterKey⟩, hkey, h⟩ := Option.bind_eq_some_iff.1 h
      rw [hskip]
      refine (closes_of_stringBody hkey).sheds.trans ((sheds_skipSpace afterKey).trans ?_)
      dsimp only at h
      split at h
      · next hcolon =>
        obtain ⟨⟨v, after⟩, hv, h⟩ := Option.bind_eq_some_iff.1 h
        rw [hcolon]
        refine .cons (by decide) ((hitem hv).trans ((sheds_skipSpace after).trans ?_))
        dsimp only at h
        split at h
        · next hcomma =>
          obtain ⟨⟨more, last⟩, hmore, h⟩ := Option.bind_eq_some_iff.1 h
          cases h
          rw [hcomma]
          exact .cons (by decide) (ih hmore)
        · next hend =>
          cases h
          rw [hend]
          exact .cons (by decide) (.refl _)
        · cases h
      · cases h
    · cases h

end

/-- A value is read up to its end, if those in it are. -/
theorem sheds_of_value_step {nesting : Nat}
    (hinner : ∀ n, nesting = n + 1 → ∀ {cs v rest}, value n cs = some (v, rest) → Sheds cs rest)
    {v : Json} (h : value nesting cs = some (v, rest)) : Sheds cs rest := by
  refine (sheds_skipSpace cs).trans ?_
  unfold value at h
  split at h
  case h_1 after hskip =>
    cases h
    rw [hskip]
    exact .of_plain ['n', 'u', 'l', 'l'] (by decide) _
  case h_2 after hskip =>
    cases h
    rw [hskip]
    exact .of_plain ['t', 'r', 'u', 'e'] (by decide) _
  case h_3 after hskip =>
    cases h
    rw [hskip]
    exact .of_plain ['f', 'a', 'l', 's', 'e'] (by decide) _
  case h_4 after hskip =>
    obtain ⟨⟨s, last⟩, hs, h⟩ := Option.bind_eq_some_iff.1 h
    cases h
    rw [hskip]
    exact (closes_of_stringBody hs).sheds
  case h_5 after hskip =>
    obtain ⟨⟨n, last⟩, hn, h⟩ := Option.bind_eq_some_iff.1 h
    cases h
    rw [hskip]
    exact .cons (by decide) (sheds_of_unsigned hn)
  case h_6 after hskip =>
    rw [hskip]
    refine .cons (by decide) ((sheds_skipSpace after).trans ?_)
    split at h
    · cases h
    · next n =>
      split at h
      · next hend =>
        cases h
        rw [hend]
        exact .cons (by decide) (.refl _)
      · obtain ⟨⟨vs, last⟩, hvs, h⟩ := Option.bind_eq_some_iff.1 h
        cases h
        exact sheds_of_items (hinner n rfl) hvs
  case h_7 after hskip =>
    rw [hskip]
    refine .cons (by decide) ((sheds_skipSpace after).trans ?_)
    split at h
    · cases h
    · next n =>
      split at h
      · next hend =>
        cases h
        rw [hend]
        exact .cons (by decide) (.refl _)
      · obtain ⟨⟨vs, last⟩, hvs, h⟩ := Option.bind_eq_some_iff.1 h
        cases h
        exact sheds_of_members (hinner n rfl) hvs
  case h_8 =>
    obtain ⟨⟨n, last⟩, hn, h⟩ := Option.bind_eq_some_iff.1 h
    cases h
    exact sheds_of_unsigned hn

/-- A value is read up to its end. -/
theorem sheds_of_value {nesting : Nat} {v : Json} (h : value nesting cs = some (v, rest)) :
    Sheds cs rest := by
  induction nesting generalizing cs v rest with
  | zero =>
    refine sheds_of_value_step (fun n hn => ?_) h
    cases hn
  | succ nesting ih =>
    refine sheds_of_value_step (fun n hn => ?_) h
    cases hn
    exact ih

end Json.Parser

/-- A JSON literal is sealed. -/
theorem Json.sealed_of_parse? {text : String} {v : Json} (h : parse? text = some v) :
    Sealed text.toList := by
  obtain ⟨w, hw, _⟩ := Option.map_eq_some_iff.1 h
  unfold parseOrdered? at hw
  split at hw
  · next v rest hvalue =>
    obtain ⟨hempty, _⟩ := Option.ite_none_right_eq_some.1 hw
    obtain ⟨front, hfront, hsealed⟩ :=
      (Parser.sheds_of_value hvalue).trans (Parser.sheds_skipSpace rest)
    rw [List.isEmpty_iff.1 hempty, List.append_nil] at hfront
    rwa [hfront]
  · cases hw

namespace Expression

theorem eq_of_singleQuoted? (h : singleQuoted? cs = some rest) : cs = singleQuoted rest := by
  obtain ⟨inner, hinner, hrest⟩ := Option.bind_eq_some_iff.1 h
  rw [after?_eq_some_iff.1 hinner, eq_of_before? hrest]
  rfl

/-- A text in single quotation marks is sealed if there is none in it. -/
theorem sealed_singleQuoted (h : '\'' ∉ cs) : Sealed (singleQuoted cs) := by
  have hinside : Inert .single cs ∧ Place.single.after cs = .single := by
    induction cs with
    | nil => exact ⟨trivial, rfl⟩
    | cons c cs ih =>
      rw [List.mem_cons, not_or] at h
      have hnext : Place.single.next c = .single := if_neg (Ne.symm h.1)
      obtain ⟨hinert, hafter⟩ := ih h.2
      refine ⟨⟨nofun, ?_⟩, ?_⟩
      · rw [hnext]
        exact hinert
      · rw [Place.after_cons, hnext, hafter]
  obtain ⟨hinert, hafter⟩ := hinside
  constructor
  · show Place.single.after (cs ++ ['\'']) = .outside
    rw [Place.after_append, hafter]
    rfl
  · refine ⟨fun _ => by decide, ?_⟩
    show Inert .single (cs ++ ['\''])
    rw [inert_append, hafter]
    exact ⟨hinert, nofun, trivial⟩

/-- An operand is sealed, if it is no text in single quotation marks with another one in it. -/
theorem sealed_of_operand {e : Expression} (htrim : trim cs = cs)
    (hquotes : ∀ text, e = .literal (.string (String.ofList text)) → cs = singleQuoted text →
      '\'' ∉ text) (h : operand cs = .ok e) : Sealed cs := by
  unfold operand at h
  split at h
  · next text hquoted =>
    cases h
    have heq := eq_of_singleQuoted? hquoted
    rw [heq]
    exact sealed_singleQuoted (hquotes text rfl heq)
  · dsimp only at h
    split at h
    · split at h
      · next v hread =>
        have hsealed := Json.sealed_of_parse? hread
        rwa [String.toList_ofList] at hsealed
      · cases h
    · split at h
      · next hvalid =>
        have hclean : Path.IsClean (String.ofList cs) :=
          ⟨hvalid, by rw [String.toList_ofList, htrim]⟩
        have hplain := Path.isPlain_of_isClean hclean
        rw [String.toList_ofList] at hplain
        exact .of_plain hplain
      · cases h

end Expression

end Conduit
