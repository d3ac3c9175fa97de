import Conduit.Proofs.Structure.Compile
import Conduit.Proofs.Structure.Synthesis

/-!
# Synthesized structures extend the root

Whatever the fields of a schema are called, the source that is written for it starts with the name
of its structure and with the root as the parent (`Schema.render_opens`). What the source goes on
with may be anything, for the name of a field is not checked before it is read; but if the source is
accepted, then its only structure is the one of the start (`Registry.synthesize_rooted`). So in a
registry to which only synthesized structures are added all ancestors end at the root
(`Registry.Rooted`).
-/

namespace Conduit

open Text SourceToken

/-! ## The start of a source -/

namespace SourceToken

variable {cs rest : List Char} {lexemes : List Lexeme} {c : Char}

/-- If a text can be scanned, it starts with some lexemes and goes on with those of its rest. -/
def Opens (cs : List Char) (lexemes : List Lexeme) (rest : List Char) : Prop :=
  ∀ p tokens, scanFrom p cs = .ok tokens → ∃ p' ts, scanFrom p' rest = .ok ts ∧
    tokens.map SourceToken.lexeme = lexemes ++ ts.map SourceToken.lexeme

theorem Opens.refl (cs : List Char) : Opens cs [] cs :=
  fun p tokens h => ⟨p, tokens, h, rfl⟩

theorem Opens.blank (hblank : isBlank c = true) (h : Opens cs lexemes rest) :
    Opens (c :: cs) lexemes rest := by
  intro p tokens htokens
  rw [scanFrom_blank hblank] at htokens
  exact h _ tokens htokens

theorem Opens.mark (hmark : c ∈ marks) (h : Opens cs lexemes rest) :
    Opens (c :: cs) (.mark c :: lexemes) rest := by
  intro p tokens htokens
  rw [scanFrom_mark hmark, map_eq_ok_iff] at htokens
  obtain ⟨tokens, hscan, rfl⟩ := htokens
  obtain ⟨p', ts, hts, hlexemes⟩ := h _ tokens hscan
  exact ⟨p', ts, hts, by rw [List.map_cons, hlexemes, List.cons_append]⟩

/-- A word and a space after it. -/
theorem Opens.word {name : String} (hname : isVariable name = true) (h : Opens cs lexemes rest) :
    Opens (name.toList ++ ' ' :: cs) (.word name :: lexemes) rest := by
  intro p tokens htokens
  obtain ⟨c, more, hchars, hstart, hmore⟩ := exists_of_isVariable hname
  have hends : EndsWord (' ' :: cs) := endsWord_cons (by decide) cs
  rw [hchars, scanFrom_word hstart hmore hends, map_eq_ok_iff] at htokens
  obtain ⟨tokens, hscan, rfl⟩ := htokens
  obtain ⟨p', ts, hts, hlexemes⟩ := h.blank (c := ' ') (by decide) _ tokens hscan
  refine ⟨p', ts, hts, ?_⟩
  rw [List.map_cons, hlexemes, ← hchars, String.ofList_toList, List.cons_append]

end SourceToken

/-- The lexemes with which a structure starts. -/
def Schema.header (name : String) : List Lexeme :=
  [.word "structure", .word name, .word "extends", .word Structure.root, .mark '{']

/-- A schema is written with its structure's name and the root first. -/
theorem Schema.render_opens {name : String} (hname : isVariable name = true)
    (schema : Dict FieldBlueprint) :
    ∃ rest, Opens (render name schema).toList (header name) rest := by
  unfold render
  generalize String.join _ = lines
  have htext : ("structure " ++ name ++ " extends " ++ Structure.root ++ " \x7b\n" ++ lines ++
        "\x7d\n").toList =
      "structure".toList ++ ' ' :: (name.toList ++ ' ' :: ("extends".toList ++ ' ' ::
        (Structure.root.toList ++ ' ' :: '{' :: ('\n' :: lines.toList ++ ['}', '\n'])))) := by
    simp
  rw [htext]
  exact ⟨_, .word (by decide) (.word hname (.word (by decide) (.word (by decide)
    (.mark (by decide) (.refl _)))))⟩

namespace SourceParser

variable {ts ts' : List SourceToken} {rest : List Lexeme} {name : String} {s : Structure} {n : Nat}

/-- A structure has the name and the parent that are read first. -/
theorem one_header (hts : ts.map SourceToken.lexeme = Schema.header name ++ rest)
    (h : one ts = .ok (s, ts')) :
    s.name = name ∧ s.parent = some Structure.root ∧ s.native = false := by
  obtain ⟨ts₁, hkeyword, hts₁⟩ := exactly_reads hts
  obtain ⟨_, ts₂, hname, hts₂⟩ := word_reads "structure name" hts₁
  obtain ⟨ts₃, hextends, hts₃⟩ := skip_reads hts₂
  obtain ⟨_, ts₄, hroot, hts₄⟩ := word_reads "parent structure name" hts₃
  have hparent : parent ts₂ = .ok (some Structure.root, ts₄) := by
    simp only [parent, hextends, hroot, ok_bind]
    rfl
  simp only [one, hkeyword, hname, hparent, ok_bind, bind_eq_ok_iff] at h
  obtain ⟨_, _, ⟨fields, _⟩, _, h⟩ := h
  cases h
  exact ⟨rfl, rfl, rfl⟩

/-- The only structure of a source is the one that is read first. -/
theorem one_of_all (hts : ts ≠ []) (h : all n ts = .ok [s]) : ∃ ts', one ts = .ok (s, ts') := by
  cases ts with
  | nil => exact absurd rfl hts
  | cons t ts =>
    cases n with
    | zero => cases h
    | succ n =>
      simp only [all, bind_eq_ok_iff] at h
      obtain ⟨⟨s', ts'⟩, hone, more, _, h⟩ := h
      cases h
      exact ⟨ts', hone⟩

end SourceParser

namespace Registry

variable {r r' : Registry} {name key : String} {s : Structure}

/-- A structure that is synthesized has the name that is asked for and extends the root. -/
theorem synthesize_rooted (hname : isVariable name = true) {schema : Dict FieldBlueprint}
    (h : r.synthesize name schema = .ok s) :
    s.name = name ∧ s.parent = some Structure.root ∧ s.native = false := by
  simp only [synthesize, compile, bind_eq_ok_iff, mapError_eq_ok_iff, SourceParser.parse?] at h
  obtain ⟨declared, ⟨tokens, hscan, hall⟩, haccept⟩ := h
  obtain ⟨rfl, _⟩ := accept_ok haccept
  obtain ⟨rest, hopens⟩ := Schema.render_opens hname schema
  obtain ⟨_, ts, _, hlexemes⟩ := hopens _ tokens hscan
  have htokens : tokens ≠ [] := by
    rintro rfl
    cases hlexemes
  obtain ⟨_, hone⟩ := SourceParser.one_of_all htokens hall
  exact SourceParser.one_header hlexemes hone

/-! ## Rooted registries -/

/-- Every structure but the root has the root as its parent. -/
structure Rooted (r : Registry) : Prop where
  root : ∃ s, r.get? Structure.root = some s ∧ s.parent = none ∧ s.native = true
  parent : ∀ name s, r.get? name = some s → name = Structure.root ∨ s.parent = some Structure.root

theorem initial_rooted : Registry.initial.Rooted where
  root := by decide
  parent := by
    have hall : ∀ e ∈ Registry.initial.structures.entries,
        e.1 = Structure.root ∨ e.2.parent = some Structure.root := by
      decide
    exact fun name s hs => hall (name, s) (Dict.mem_entries_of_get? hs)

/-- The ancestors of every structure end at the root. -/
theorem Rooted.isContent (h : r.Rooted) (hname : r.contains name = true) :
    r.isContent name = true := by
  obtain ⟨root, hroot, hnone, _⟩ := h.root
  have hparent : r.parent? Structure.root = none := by
    rw [parent?, hroot]
    exact hnone
  obtain ⟨s, hs⟩ := Dict.exists_of_contains hname
  have hsize : ∃ k, r.structures.size = k + 1 := by
    refine Nat.exists_eq_succ_of_ne_zero fun hzero => ?_
    have hmem := Dict.mem_entries_of_get? hroot
    rw [List.length_eq_zero_iff.1 hzero] at hmem
    cases hmem
  obtain ⟨k, hk⟩ := hsize
  have hancestry : r.ancestry name = [Structure.root] ∨
      r.ancestry name = [name, Structure.root] := by
    unfold ancestry
    rw [hk, ancestryFrom, if_neg List.not_mem_nil]
    by_cases hname : name = Structure.root
    · left
      rw [hname, hparent]
    · right
      have hroot : r.parent? name = some Structure.root := by
        have hs' : r.get? name = some s := hs
        rw [parent?, hs']
        exact (h.parent name s hs).resolve_left hname
      rw [hroot]
      simp only
      rw [ancestryFrom, if_neg (by simpa using Ne.symm hname), hparent]
  unfold Registry.isContent
  rcases hancestry with hancestry | hancestry
  · rw [hancestry]
    rfl
  · rw [hancestry]
    rfl

/-- A registry is part of another one, in its order, and has all its built-in structures. -/
structure Part (r r' : Registry) : Prop where
  entries : r.structures.entries.Sublist r'.structures.entries
  native : ∀ name, r'.isNative name = true → r.contains name = true

theorem Part.refl (r : Registry) : r.Part r where
  entries := List.Sublist.refl _
  native name h := by
    obtain ⟨s, hs, _⟩ := Option.any_eq_true _ _ |>.1 h
    exact Dict.contains_of_get? hs

theorem Part.get? (h : r.Part r') (hs : r.get? name = some s) : r'.get? name = some s :=
  Dict.get?_of_mem_entries (h.entries.subset (Dict.mem_entries_of_get? hs))

/-- A structure of the registry whose name a part has is in the part. -/
theorem Part.get?_of_contains (h : r.Part r') (hs : r'.get? name = some s)
    (hthere : r.contains name = true) : r.get? name = some s := by
  obtain ⟨t, ht⟩ := Dict.exists_of_contains hthere
  obtain rfl : t = s := Option.some.inj ((h.get? ht).symm.trans hs)
  exact ht

/-- A part has the same built-in structures. -/
theorem Part.isNative_eq (h : r.Part r') (name : String) : r.isNative name = r'.isNative name := by
  cases hs : r.get? name with
  | some s => simp only [isNative, hs, h.get? hs]
  | none =>
    have hnot : r'.isNative name = false := by
      refine Bool.eq_false_iff.2 fun hnative => ?_
      obtain ⟨s, hs'⟩ := Dict.exists_of_contains (h.native name hnative)
      have hs' : r.get? name = some s := hs'
      rw [hs] at hs'
      cases hs'
    rw [hnot]
    simp only [isNative, hs, Option.any_none]

theorem Part.trans {r'' : Registry} (h : r.Part r') (h' : r'.Part r'') : r.Part r'' where
  entries := h.entries.trans h'.entries
  native name hname := h.native name (by rw [h'.isNative_eq]; exact hname)

/-- Two parts of one registry are equal if they have structures of the same names. -/
theorem eq_of_part {r₁ r₂ : Registry} (h₁ : r₁.Part r) (h₂ : r₂.Part r)
    (h : ∀ name, r₁.contains name = r₂.contains name) : r₁ = r₂ := by
  have hstructures : r₁.structures = r₂.structures := Dict.eq_of_sublist h₁.entries h₂.entries h
  cases r₁
  cases r₂
  exact congrArg _ hstructures

/-! ## Structures that are added and taken out -/

/-- A registry comes from another one for the structure of a concept: it is the same, or has one
more structure, which extends the root. -/
inductive Supplies (r : Registry) (shape : String) : Registry → Prop where
  | same : Supplies r shape r
  | new {s : Structure} {r' : Registry} (hname : s.name = shape)
    (hparent : s.parent = some Structure.root) (hnative : s.native = false)
    (h : r.register? s = some r') : Supplies r shape r'

/-- What is in a registry after a structure is supplied. -/
theorem Supplies.get?_cases {shape : String} (h : r.Supplies shape r')
    (hs : r'.get? name = some s) : r.get? name = some s ∨
      name = shape ∧ s.parent = some Structure.root ∧ s.native = false := by
  cases h with
  | same => exact .inl hs
  | @new new r' hname hparent hnative h =>
    unfold register? at h
    split at h
    · cases h
    · cases h
      rcases Dict.get?_or_eq_of_get?_insert hs with hold | ⟨rfl, rfl⟩
      · exact .inl hold
      · exact .inr ⟨hname, hparent, hnative⟩

theorem Supplies.part {shape : String} (h : r.Supplies shape r') : r.Part r' := by
  have hnative : ∀ name, r'.isNative name = true → r.contains name = true := by
    intro name hname
    obtain ⟨s, hs, hnative⟩ := Option.any_eq_true _ _ |>.1 hname
    rcases h.get?_cases hs with hold | ⟨_, _, hnew⟩
    · exact Dict.contains_of_get? hold
    · rw [hnew] at hnative
      cases hnative
  refine ⟨?_, hnative⟩
  cases h with
  | same => exact List.Sublist.refl _
  | @new new r' _ _ _ h =>
    unfold register? at h
    split at h
    · cases h
    · next hnew =>
      cases h
      have hkeys : new.name ∉ r.structures.keys := by
        rw [Dict.mem_keys_iff]
        exact hnew
      rw [Dict.entries_insert_of_not_mem hkeys]
      exact List.sublist_append_left _ _

theorem Rooted.supplies {shape : String} (hr : r.Rooted) (h : r.Supplies shape r') : r'.Rooted where
  root := by
    obtain ⟨root, hroot, hrest⟩ := hr.root
    exact ⟨root, h.part.get? hroot, hrest⟩
  parent name s hs := by
    rcases h.get?_cases hs with hold | ⟨_, hparent, _⟩
    · exact hr.parent name s hold
    · exact .inr hparent

/-- What is in a registry after a structure is taken out. -/
theorem get?_remove (r : Registry) (name key : String) :
    (r.remove name).get? key =
      if name = key ∧ r.isNative name = false then none else r.get? key := by
  unfold remove
  split
  · next hnative => simp [hnative]
  · next hnative =>
    rw [Bool.not_eq_true] at hnative
    simp only [hnative, and_true]
    exact Dict.get?_erase _ _ _

theorem remove_part (r : Registry) (name : String) : (r.remove name).Part r where
  entries := by
    unfold remove
    split
    · exact List.Sublist.refl _
    · exact List.filter_sublist
  native key hkey := by
    obtain ⟨s, hs, _⟩ := Option.any_eq_true _ _ |>.1 hkey
    have hstays : (r.remove name).get? key = some s := by
      rw [get?_remove, if_neg]
      · exact hs
      · rintro ⟨rfl, hnot⟩
        rw [hkey] at hnot
        cases hnot
    exact Dict.contains_of_get? hstays

theorem Rooted.remove (h : r.Rooted) (name : String) : (r.remove name).Rooted where
  root := by
    obtain ⟨root, hroot, hnone, hnative⟩ := h.root
    refine ⟨root, ?_, hnone, hnative⟩
    rw [get?_remove, if_neg]
    · exact hroot
    · rintro ⟨rfl, hnot⟩
      rw [isNative, hroot, Option.any_some, hnative] at hnot
      cases hnot
  parent key s hs := h.parent key s ((remove_part r name).get? hs)

end Registry

end Conduit
