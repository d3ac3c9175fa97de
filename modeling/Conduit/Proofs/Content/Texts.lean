import Conduit.Content.Basic
import Conduit.Proofs.Json.Members
import Conduit.Proofs.Json.RoundTrip

/-!
# The two texts of content

Content has a text of its own (`Content.rendered`), and its value has one (`Json.plain` of
`Content.value`). `Content.rendered_eq_plain_iff` says for which content the two are the same
(`Content.Uniform`). They differ for all lists and for all records with fields, whose values are
written as JSON on one line, and for most numbers, since a value that is a number keeps a point or
an exponent.
-/

namespace Conduit

open Text

/-! ## Numbers -/

namespace Double

variable {x : Double} {c : Char}

/-- The layouts of a number agree: it is not a whole number that is written as an integer, it needs
no exponent, and it has digits after its point. -/
structure Fractional (x : Double) : Prop where
  whole : ∀ n ∈ x.toInt?, Content.integerBound ≤ n.natAbs
  point : -4 ≤ x.shortest.point ∧ x.shortest.point ≤ 16
  part : x.shortest.aroundPoint.2 ≠ []

instance : DecidablePred Fractional := fun x =>
  decidable_of_iff ((∀ n ∈ x.toInt?, Content.integerBound ≤ n.natAbs) ∧
      (-4 ≤ x.shortest.point ∧ x.shortest.point ≤ 16) ∧ x.shortest.aroundPoint.2 ≠ [])
    ⟨fun ⟨hwhole, hpoint, hpart⟩ => ⟨hwhole, hpoint, hpart⟩,
      fun h => ⟨h.whole, h.point, h.part⟩⟩

theorem isDigit_of_mem_shortest (h : c ∈ x.shortest.digits) : c.isDigit = true := by
  unfold shortest at h
  split at h
  · rw [List.mem_reverse] at h
    exact Json.Parser.isDigit_of_mem_digitsOf (List.mem_reverse.1 ((List.dropWhile_suffix _).subset h))
  · rw [List.mem_singleton.1 h]
    rfl

/-- There are only digits around the point. -/
theorem isDigit_of_mem_aroundPoint
    (h : c ∈ x.shortest.aroundPoint.1 ∨ c ∈ x.shortest.aroundPoint.2) : c.isDigit = true := by
  have hzeros : ∀ {n}, c ∈ List.replicate n '0' → c.isDigit = true := fun h => by
    rw [List.eq_of_mem_replicate h]
    rfl
  unfold Digits.aroundPoint at h
  split at h
  · simp only [List.mem_singleton, List.mem_append] at h
    rcases h with rfl | h | h
    · rfl
    · exact hzeros h
    · exact isDigit_of_mem_shortest h
  · simp only [List.mem_append] at h
    rcases h with (h | h) | h
    · exact isDigit_of_mem_shortest (List.mem_of_mem_take h)
    · exact hzeros h
    · exact isDigit_of_mem_shortest (List.mem_of_mem_drop h)

theorem eq_of_mem_signText (h : c ∈ x.signText.toList) : c = '-' := by
  unfold signText at h
  split at h
  · simpa using h
  · simp at h

/-- The characters of a number without an exponent. -/
theorem mem_positional (h : c ∈ x.positional.toList) : c.isDigit = true ∨ c = '-' ∨ c = '.' := by
  unfold positional at h
  split at h
  · rw [String.toList_append, List.mem_append] at h
    rcases h with h | h
    · exact .inr (.inl (eq_of_mem_signText h))
    · left
      rw [show c = '0' by simpa using h]
      rfl
  · simp only [String.toList_append, String.toList_ofList, List.mem_append] at h
    rcases h with (h | h) | h
    · exact .inr (.inl (eq_of_mem_signText h))
    · exact .inl (isDigit_of_mem_aroundPoint (.inl h))
    · split at h
      · simp at h
      · rw [String.toList_append, String.toList_ofList, List.mem_append] at h
        rcases h with h | h
        · exact .inr (.inr (by simpa using h))
        · rw [String.toList_ofList] at h
          exact .inl (isDigit_of_mem_aroundPoint (.inr h))

/-- The characters of an exponent. -/
theorem mem_exponentText {e : Int} (h : c ∈ (exponentText e).toList) :
    c.isDigit = true ∨ c = 'e' ∨ c = '-' ∨ c = '+' := by
  unfold exponentText at h
  rw [String.toList_append, List.mem_append] at h
  rcases h with h | h
  · split at h <;> · simp at h; tauto
  · left
    have hrepr : (toString e.natAbs).toList = digitsOf e.natAbs := by
      simp [digitsOf, ToString.toString, Nat.repr]
    exact Json.Parser.isDigit_of_mem_digitsOf (hrepr ▸ h)

/-- The characters of a number in JSON. -/
theorem mem_scientific (h : c ∈ x.scientific.toList) :
    c.isDigit = true ∨ c = 'e' ∨ c = '-' ∨ c = '+' ∨ c = '.' := by
  unfold scientific at h
  split at h
  · rw [String.toList_append, List.mem_append] at h
    rcases h with h | h
    · simp [eq_of_mem_signText h]
    · simp at h
      rcases h with rfl | rfl | rfl <;> simp
  · simp only at h
    split at h
    · simp only [String.toList_append, String.toList_ofList, List.mem_append] at h
      rcases h with ((h | h) | h) | h
      · simp [eq_of_mem_signText h]
      · exact .inl (isDigit_of_mem_aroundPoint (.inl h))
      · simp at h
        simp [h]
      · split at h
        · rw [show c = '0' by simpa using h]
          exact .inl rfl
        · rw [String.toList_ofList] at h
          exact .inl (isDigit_of_mem_aroundPoint (.inr h))
    · simp only [String.toList_append, String.toList_ofList, List.mem_append] at h
      rcases h with ((h | h) | h) | h
      · simp [eq_of_mem_signText h]
      · exact .inl (isDigit_of_mem_shortest (List.mem_of_mem_take h))
      · split at h
        · simp at h
        · rw [String.toList_append, String.toList_ofList, List.mem_append] at h
          rcases h with h | h
          · simp at h
            simp [h]
          · rw [String.toList_ofList] at h
            exact .inl (isDigit_of_mem_shortest (List.mem_of_mem_drop h))
      · have hc := mem_exponentText h
        tauto

/-- Outside the range of the points that JSON writes there is an exponent. -/
theorem e_mem_scientific (hzero : x.isZero = false)
    (hpoint : ¬ (-4 ≤ x.shortest.point ∧ x.shortest.point ≤ 16)) : 'e' ∈ x.scientific.toList := by
  have hrange : (decide (-4 ≤ x.shortest.point) && decide (x.shortest.point ≤ 16)) = false := by
    rw [Bool.eq_false_iff]
    simpa using hpoint
  have hexponent : ∀ e, 'e' ∈ (exponentText e).toList := by
    intro e
    unfold exponentText
    rw [String.toList_append, List.mem_append]
    left
    split <;> decide
  simp only [scientific, hzero, hrange, Bool.false_eq_true, if_false]
  rw [String.toList_append]
  exact List.mem_append_right _ (hexponent _)

/-- A number in JSON has a point or an exponent. -/
theorem mark_mem_scientific (x : Double) :
    '.' ∈ x.scientific.toList ∨ 'e' ∈ x.scientific.toList := by
  by_cases hzero : x.isZero = true
  · simp [scientific, hzero]
  · rw [Bool.not_eq_true] at hzero
    by_cases hpoint : -4 ≤ x.shortest.point ∧ x.shortest.point ≤ 16
    · simp [scientific, hzero, hpoint]
    · exact .inr (e_mem_scientific hzero hpoint)

/-- A number that is not written as an integer is not zero, and is written without exponent. -/
theorem numberText_of_whole (h : ∀ n ∈ x.toInt?, Content.integerBound ≤ n.natAbs) :
    x.isZero = false ∧ Content.numberText x = x.positional := by
  constructor
  · rw [Bool.eq_false_iff]
    intro hzero
    have hscaled : x.scaled = 0 := by simpa [isZero] using hzero
    have hle := h 0 (by simp [toInt?, hscaled])
    exact absurd hle (by decide)
  · rw [Content.numberText]
    split
    · next n hn => rw [if_neg (Nat.not_lt.2 (h n hn))]
    · rfl

/-- The characters of an integer. -/
theorem mem_toString {n : Int} (h : c ∈ (toString n).toList) : c.isDigit = true ∨ c = '-' := by
  have htext : toString n = n.repr := rfl
  rw [htext, Int.repr_eq_if] at h
  split at h
  · simp only [Nat.toList_repr] at h
    exact .inl (Json.Parser.isDigit_of_mem_digitsOf h)
  · rw [String.toList_append, List.mem_append, Nat.toList_repr] at h
    rcases h with h | h
    · exact .inr (by simpa using h)
    · exact .inl (Json.Parser.isDigit_of_mem_digitsOf h)

/-- The characters of a number that is content. -/
theorem mem_numberText (h : c ∈ (Content.numberText x).toList) :
    c.isDigit = true ∨ c = '-' ∨ c = '.' := by
  unfold Content.numberText at h
  split at h
  · split at h
    · have hc := mem_toString h
      tauto
    · exact mem_positional h
  · exact mem_positional h

/-- Which numbers have the same text as content and in JSON. -/
theorem numberText_eq_scientific_iff : Content.numberText x = x.scientific ↔ x.Fractional := by
  constructor
  · intro heq
    have hwhole : ∀ n ∈ x.toInt?, Content.integerBound ≤ n.natAbs := by
      intro n hn
      by_contra hlt
      have htext : x.scientific = toString n := by
        rw [← heq, Content.numberText, Option.mem_def.1 hn]
        simp [not_le.1 hlt]
      have hmark := x.mark_mem_scientific
      rw [htext] at hmark
      rcases hmark with hmem | hmem <;> rcases mem_toString hmem with h | h <;> cases h
    obtain ⟨hzero, htext⟩ := numberText_of_whole hwhole
    rw [htext] at heq
    have hpoint : -4 ≤ x.shortest.point ∧ x.shortest.point ≤ 16 := by
      by_contra hpoint
      have hmem := e_mem_scientific hzero hpoint
      rw [← heq] at hmem
      rcases mem_positional hmem with h | h | h <;> cases h
    refine ⟨hwhole, hpoint, fun hpart => ?_⟩
    have hlength := congrArg (·.toList.length) heq
    simp [positional, scientific, hzero, hpoint, hpart] at hlength
  · intro h
    obtain ⟨hzero, htext⟩ := numberText_of_whole h.whole
    simp [htext, positional, scientific, hzero, h.point, h.part, String.append_assoc]

end Double

/-! ## JSON text -/

namespace Json

/-- A character is written on one line. -/
theorem newline_not_mem_escaped (c : Char) : '\n' ∉ escaped c := by
  have hdigit : ∀ u < 16, hexDigit u ≠ '\n' := by decide
  unfold escaped
  split
  case h_8 hline _ _ =>
    split
    · next hcontrol =>
      have hhigh := hdigit (c.toNat / 16) (by omega)
      have hlow := hdigit (c.toNat % 16) (by omega)
      simp [hhigh.symm, hlow.symm]
    · simpa using Ne.symm hline
  all_goals decide

theorem newline_not_mem_quoted (s : String) : '\n' ∉ (quoted s).toList := by
  simp only [quoted, String.toList_ofList, List.mem_append, List.mem_cons, List.mem_flatMap,
    List.not_mem_nil, or_false, not_or, not_exists, not_and]
  exact ⟨⟨by decide, fun c _ => newline_not_mem_escaped c⟩, by decide⟩

theorem newline_not_mem_numberText (n : JsonNumber) : '\n' ∉ (numberText n).toList := by
  intro h
  cases n with
  | integer i => rcases Double.mem_toString h with h | h <;> cases h
  | real x => rcases Double.mem_scientific h with h | h | h | h | h <;> cases h

mutual

/-- A value is written on one line. -/
theorem newline_not_mem_compact : (v : Json) → '\n' ∉ v.compact.toList
  | null => by decide
  | bool true => by decide
  | bool false => by decide
  | number n => newline_not_mem_numberText n
  | string s => newline_not_mem_quoted s
  | array items => by
      have h := newline_not_mem_compactItems items
      simp [compact, h]
  | object members => by
      have h := newline_not_mem_compactMembers members
      simp [compact, h]

theorem newline_not_mem_compactItems : (vs : List Json) → '\n' ∉ (compactItems vs).toList
  | [] => by decide
  | [v] => newline_not_mem_compact v
  | v :: w :: vs => by
      have h := newline_not_mem_compact v
      have hmore := newline_not_mem_compactItems (w :: vs)
      simp [compactItems, h, hmore]

theorem newline_not_mem_compactMembers :
    (vs : List (String × Json)) → '\n' ∉ (compactMembers vs).toList
  | [] => by decide
  | [(k, v)] => by
      have hkey := newline_not_mem_quoted k
      have h := newline_not_mem_compact v
      simp [compactMembers, hkey, h]
  | (k, v) :: w :: vs => by
      have hkey := newline_not_mem_quoted k
      have h := newline_not_mem_compact v
      have hmore := newline_not_mem_compactMembers (w :: vs)
      simp [compactMembers, hkey, h, hmore]

end

/-- A string is shorter than its text. -/
theorem length_lt_quoted (s : String) : s.length < (quoted s).length := by
  have hescaped : ∀ cs : List Char, cs.length ≤ (cs.flatMap escaped).length := by
    intro cs
    induction cs with
    | nil => exact Nat.le_refl 0
    | cons c cs ih =>
      have hc : 0 < (escaped c).length := by
        unfold escaped
        split <;> first | decide | (split <;> simp)
      simp only [List.length_cons, List.flatMap_cons, List.length_append]
      omega
  have h := hescaped s.toList
  simp only [← String.length_toList, quoted, String.toList_ofList, List.length_append,
    List.length_cons] at h ⊢
  omega

/-- The text of the value of a member is shorter than that of its object. -/
theorem length_compact_lt_of_mem {members : List (String × Json)} {k : String} {v : Json}
    (h : (k, v) ∈ members) : v.compact.length < (object members).compact.length := by
  have hle : v.compact.length ≤ (compactMembers members).length := by
    induction members with
    | nil => exact absurd h List.not_mem_nil
    | cons e members ih =>
      obtain ⟨k', w⟩ := e
      cases members with
      | nil =>
        obtain ⟨rfl, rfl⟩ := Prod.mk.inj (List.mem_singleton.1 h)
        simp [compactMembers]
      | cons e members =>
        simp only [compactMembers, String.length_append]
        rcases List.mem_cons.1 h with h | h
        · obtain ⟨rfl, rfl⟩ := Prod.mk.inj h
          omega
        · have hmore := ih h
          omega
  simp only [compact, String.length_append]
  have hbrace : 0 < "\x7b".length := by decide
  omega

/-- The text of a value is shorter than that of an object in which the value is put. -/
theorem length_compact_lt_ofMembers {members : List (String × Json)} {k : String} {v : Json}
    (h : (Dict.ofList members).get? k = some v) :
    v.compact.length < (ofMembers members).compact.length := by
  rw [← member?_sortMembers] at h
  exact length_compact_lt_of_mem (mem_of_member? h)

end Json

/-! ## Content -/

/-- The text of a text with images is shorter than its record. -/
theorem TextAndImages.length_text_lt (t : TextAndImages) :
    (t.text.getD "").length < t.toJson.compact.length := by
  unfold toJson Json.ofMembers?
  cases htext : t.text with
  | none =>
    refine (Nat.zero_le (Json.array (t.images.map Image.toJson)).compact.length).trans_lt ?_
    exact Json.length_compact_lt_ofMembers (k := "images") rfl
  | some s =>
    refine (Json.length_lt_quoted s).trans ?_
    exact Json.length_compact_lt_ofMembers (k := "text") (v := .string s) rfl

namespace Content

/-- The text of content is that of its value. -/
def Uniform : Content → Prop
  | text _ | imgGenPrompt _ => True
  | number x => x.Fractional
  | record _ fields => fields.entries = []
  | dynamic v => v ≠ .null
  | _ => False

instance : DecidablePred Uniform
  | text _ | imgGenPrompt _ => .isTrue trivial
  | number x => inferInstanceAs (Decidable x.Fractional)
  | record _ fields => inferInstanceAs (Decidable (fields.entries = []))
  | dynamic v => inferInstanceAs (Decidable (v ≠ .null))
  | image _ | pdf _ | textAndImages _ | page _ | llmPrompt _ | list _ => .isFalse id

/-- The text of content is shorter than the JSON text of its value, unless it is a number, a list, a
record or a value. -/
theorem length_rendered_lt (c : Content) : c.rendered.length < c.value.compact.length ∨
    (∃ x, c = number x) ∨ (∃ items, c = list items) ∨ (∃ name fields, c = record name fields) ∨
      ∃ v, c = dynamic v := by
  cases c with
  | number x => exact .inr (.inl ⟨x, rfl⟩)
  | list items => exact .inr (.inr (.inl ⟨items, rfl⟩))
  | record name fields => exact .inr (.inr (.inr (.inl ⟨name, fields, rfl⟩)))
  | dynamic v => exact .inr (.inr (.inr (.inr ⟨v, rfl⟩)))
  | text s => exact .inl (Json.length_lt_quoted s)
  | imgGenPrompt s => exact .inl (Json.length_lt_quoted s)
  | textAndImages t => exact .inl t.length_text_lt
  | pdf url =>
    refine .inl ((Json.length_lt_quoted url).trans ?_)
    exact Json.length_compact_lt_of_mem (v := .string url) List.mem_cons_self
  | image i =>
    refine .inl ((Json.length_lt_quoted i.url).trans ?_)
    obtain ⟨url, caption⟩ := i
    cases caption <;>
      exact Json.length_compact_lt_ofMembers (k := "url") (v := .string url) rfl
  | page p =>
    refine .inl (p.body.length_text_lt.trans ?_)
    obtain ⟨body, view⟩ := p
    cases view <;> exact Json.length_compact_lt_ofMembers (k := "text_and_images") rfl
  | llmPrompt p =>
    obtain ⟨system, user, images⟩ := p
    cases user with
    | none =>
      refine .inl ((Nat.zero_le _).trans_lt
        (?_ : (Json.array (images.map Image.toJson)).compact.length < _))
      cases system <;> exact Json.length_compact_lt_ofMembers (k := "user_images") rfl
    | some u =>
      refine .inl ((Json.length_lt_quoted u).trans ?_)
      cases system <;>
        exact Json.length_compact_lt_ofMembers (k := "user_text") (v := .string u) rfl

/-- A text between `n` pairs of brackets. -/
def bracketed (n : Nat) (cs : List Char) : List Char :=
  List.replicate n '[' ++ cs ++ List.replicate n ']'

theorem bracketed_succ (n : Nat) (cs : List Char) :
    bracketed (n + 1) cs = bracketed n ('[' :: cs ++ [']']) := by
  rw [bracketed, List.replicate_succ', List.replicate_succ, bracketed]
  simp

theorem length_bracketed (n : Nat) (cs : List Char) :
    (bracketed n cs).length = cs.length + 2 * n := by
  simp only [bracketed, List.length_append, List.length_replicate]
  omega

/-- The text of a record starts with a brace. -/
theorem head?_rendered_record (name : String) (fields : Dict Json) :
    (record name fields).rendered.toList.head? = some '\x7b' := by
  simp only [rendered, toJson, Json.ofMembers, Json.pretty]
  cases Json.sortMembers fields.entries with
  | nil => decide
  | cons e members => simp [Json.prettyAt]

/-- A list has another text than its value, also if that stood between brackets, if none of its
items has the text of its value between brackets. -/
theorem rendered_list_ne {items : List Content}
    (h : ∀ c ∈ items, ∀ n, c.rendered.toList ≠ bracketed (n + 1) c.value.compact.toList) (n : Nat) :
    (list items).rendered.toList ≠ bracketed n (list items).value.compact.toList := by
  cases items with
  | nil =>
    intro heq
    have hlength := congrArg List.length heq
    rw [length_bracketed] at hlength
    simp [rendered, renderedItems, value, valueItems, Json.compact, Json.compactItems] at hlength
    omega
  | cons c items =>
    cases items with
    | nil =>
      have hc := h c List.mem_cons_self n
      rw [bracketed_succ] at hc
      simpa [rendered, renderedItems, value, valueItems, Json.compact, Json.compactItems] using hc
    | cons d items =>
      intro heq
      have hline : '\n' ∈ (list (c :: d :: items)).rendered.toList := by
        simp [rendered, renderedItems, String.intercalate_cons_cons]
      have hcompact := Json.newline_not_mem_compact (list (c :: d :: items)).value
      rw [heq] at hline
      simp [bracketed, hcompact] at hline

/-- The text of a value that is content is no longer than its JSON text. -/
theorem length_rendered_dynamic_le (v : Json) :
    (dynamic v).rendered.length ≤ v.compact.length := by
  cases v with
  | string s => exact (Json.length_lt_quoted s).le
  | _ => exact le_rfl

/-- Content has another text than its value between brackets. -/
theorem rendered_ne_bracketed (c : Content) (n : Nat) :
    c.rendered.toList ≠ bracketed (n + 1) c.value.compact.toList := by
  intro heq
  have hlength := congrArg List.length heq
  have hhead : c.rendered.toList.head? = some '[' := by
    rw [heq, bracketed, List.replicate_succ]
    rfl
  rw [length_bracketed, String.length_toList, String.length_toList] at hlength
  rcases c.length_rendered_lt with hlt | ⟨x, rfl⟩ | ⟨items, rfl⟩ | ⟨name, fields, rfl⟩ | ⟨v, rfl⟩
  · omega
  · rcases Double.mem_numberText (List.mem_of_mem_head? hhead) with h | h | h <;> cases h
  · exact rendered_list_ne (fun c hc n => rendered_ne_bracketed c n) (n + 1) heq
  · rw [head?_rendered_record] at hhead
    cases hhead
  · have hle := length_rendered_dynamic_le v
    simp only [value, toJson] at hlength
    omega

/-- A record with fields is written on several lines. -/
theorem newline_mem_rendered_record (name : String) {fields : Dict Json}
    (h : fields.entries ≠ []) : '\n' ∈ (record name fields).rendered.toList := by
  have hmembers : Json.sortMembers fields.entries ≠ [] := by
    intro hnil
    obtain ⟨⟨key, v⟩, es, hes⟩ := List.exists_cons_of_ne_nil h
    have hget := Json.member?_sortMembers fields.entries key
    have hmem : (key, v) ∈ fields.entries := hes ▸ List.mem_cons_self
    rw [hnil, Dict.ofList_entries, Dict.get?_of_mem_entries hmem] at hget
    cases hget
  obtain ⟨e, members, hmembers⟩ := List.exists_cons_of_ne_nil hmembers
  simp only [rendered, toJson, Json.ofMembers, Json.pretty, hmembers]
  cases members <;> simp [Json.prettyAt, Json.prettyMembers, Json.newline]

/-- Content whose text is shorter than the JSON text of its value has another text than the value, if
the value's text is its JSON text. -/
theorem rendered_ne_plain {c : Content} (hlt : c.rendered.length < c.value.compact.length)
    (hplain : c.value.plain = c.value.compact) : c.rendered ≠ c.value.plain := by
  intro heq
  rw [heq, hplain] at hlt
  exact Nat.lt_irrefl _ hlt

/-- For which content the text is that of its value. -/
theorem rendered_eq_plain_iff (c : Content) : c.rendered = c.value.plain ↔ c.Uniform := by
  cases c with
  | text | imgGenPrompt => exact iff_of_true rfl trivial
  | number x => exact Double.numberText_eq_scientific_iff
  | image | pdf | textAndImages | page | llmPrompt =>
    refine iff_of_false (rendered_ne_plain ((length_rendered_lt _).resolve_right ?_) rfl) id
    rintro (⟨_, h⟩ | ⟨_, h⟩ | ⟨_, _, h⟩ | ⟨_, h⟩) <;> cases h
  | list items =>
    refine iff_of_false (fun heq => ?_) id
    have hne := rendered_list_ne (fun c (_ : c ∈ items) n => rendered_ne_bracketed c n) 0
    refine hne ?_
    rw [heq]
    simp [bracketed, Json.plain, value]
  | record name fields =>
    by_cases hfields : fields.entries = []
    · refine iff_of_true ?_ hfields
      simp only [rendered, value, toJson, hfields]
      decide
    · refine iff_of_false (fun heq => ?_) hfields
      have hline := newline_mem_rendered_record name hfields
      rw [heq] at hline
      exact Json.newline_not_mem_compact (toJson (record name fields)) hline
  | dynamic v =>
    cases v with
    | null => exact iff_of_false (by decide) (fun h => h rfl)
    | bool | number | string | array | object => exact iff_of_true rfl Json.noConfusion

end Content

end Conduit
