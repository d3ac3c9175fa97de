import Conduit.Proofs.Run.Typed

/-!
# Batches are isolated

A batch runs its branch for each item of a list, each time on the memory as it was with nothing but
the item in it (`Engine.itemMemory_sameBut`), and takes from each branch its latest result. What the
branches write besides is lost: the memory that a batch leaves differs from the one it was given in
the stored list, in the alias of its name and in the alias `main` (`Engine.runBatch_isolated`).
-/

namespace Conduit

namespace Memory

variable {m m' : Memory} {s : Stuff} {name key : String}

/-- A memory differs from another at most in the entry of a name and in some aliases. -/
structure SameBut (m m' : Memory) (name : String) (aliases : List String) : Prop where
  entries : ∀ key, key ≠ name → m'.entries.get? key = m.entries.get? key
  aliases : ∀ key, key ∉ aliases → m'.aliases.get? key = m.aliases.get? key

/-- A value that is stored drops the alias of its name and changes nothing else. -/
theorem set_sameBut (m : Memory) (name : String) (s : Stuff) :
    m.SameBut (m.set name s) name [name] where
  entries key hkey := by simp [set, Ne.symm hkey]
  aliases key hkey := by
    rw [List.mem_singleton] at hkey
    simp [set, Ne.symm hkey]

/-- A value that is stored as the latest result. -/
theorem set_setAlias_eq (h : (m.set name s).setAlias mainAlias name = .ok m') :
    name ≠ mainAlias ∧ m' = ⟨m.entries.insert name { s with name },
      (m.aliases.erase name).insert mainAlias name⟩ := by
  obtain ⟨hne, _, rfl⟩ := setAlias_eq_ok_iff.1 h
  exact ⟨hne.symm, rfl⟩

/-- A value that is stored as the latest result changes nothing but its entry, the alias of its name
and the alias of the latest result. -/
theorem set_setAlias_sameBut (h : (m.set name s).setAlias mainAlias name = .ok m') :
    m.SameBut m' name [name, mainAlias] := by
  obtain ⟨_, rfl⟩ := set_setAlias_eq h
  refine ⟨(set_sameBut m name s).entries, ?_⟩
  intro key hkey
  simp only [List.mem_cons, List.not_mem_nil, or_false, not_or] at hkey
  simp [Ne.symm hkey.1, Ne.symm hkey.2]

/-- The names of two such memories are the same, but for those that may differ. -/
theorem SameBut.mem_names_iff {aliases : List String} (h : m.SameBut m' name aliases)
    (hname : key ≠ name) (haliases : key ∉ aliases) : key ∈ m'.names ↔ key ∈ m.names := by
  simp only [names, List.mem_append, Dict.mem_keys_iff, Dict.contains, h.entries key hname,
    h.aliases key haliases]

end Memory

namespace Engine

variable {e : Engine} {run : Runner} {m m' : Memory} {params : RunParams} {name : Option String}
  {c : Concept}

/-- The memory of the run for an item holds the item, under the concept of the list, and is
otherwise as the memory was. -/
theorem itemMemory_sameBut (m : Memory) (name : String) (c : Concept) (item : Content) :
    (itemMemory m name c item).find? name = some ⟨m.freshCode, name, c, item⟩ ∧
      m.SameBut (itemMemory m name c item) name [name] := by
  refine ⟨?_, Memory.set_sameBut m name _⟩
  simp [itemMemory, Memory.find?, Memory.target, Memory.set, Memory.fresh]

/-- The content that is made of an item is that of the latest result of its run. -/
theorem Mapped.get {branch : String} {b : Batching} {items contents : List Content} {i : Nat}
    {item : Content} (h : Mapped run branch b m params c items contents)
    (hitem : items[i]? = some item) : ∃ left latest,
      (run branch (itemMemory m b.item c item) params.nested none).result = .ok left ∧
        left.main = .ok latest ∧ contents[i]? = some latest.content := by
  obtain ⟨hi, rfl⟩ := List.getElem?_eq_some_iff.1 hitem
  have hi' : i < contents.length := h.length_eq ▸ hi
  obtain ⟨left, latest, hleft, hlatest, hcontent⟩ := (List.forall₂_iff_get.1 h).2 i hi hi'
  refine ⟨left, latest, hleft, hlatest, ?_⟩
  rw [hcontent]
  exact List.getElem?_eq_getElem hi'

/-- A batch that succeeds is a map over its list. It stores one content for each item, in the order
of the items: that of the latest result of the branch on the memory of the item. The stored list
takes the name that was asked for, else that of the pipe, and becomes the latest result. Nothing
else changes: no name that only a branch has written is in the memory, and the variable of the items
is as it was, unless the list is stored under its name. -/
theorem runBatch_isolated (e : Engine) (run : Runner) (owner branch : String) (b : Batching)
    (output : Concept) (m m' : Memory) (params : RunParams) (name : Option String)
    (h : (e.runBatch run owner branch b output m params name).result = .ok m') :
    ∃ (s : Stuff) (items contents : List Content) (stored : String),
      m.get b.list = .ok s ∧ s.content = .list items ∧ contents.length = items.length ∧
      (∀ (i : Nat) (item : Content), items[i]? = some item → ∃ left latest,
        (run branch (itemMemory m b.item s.concept item) params.nested none).result = .ok left ∧
        left.main = .ok latest ∧ contents[i]? = some latest.content) ∧
      (∀ item, (itemMemory m b.item s.concept item).find? b.item =
          some ⟨m.freshCode, b.item, s.concept, item⟩ ∧
        m.SameBut (itemMemory m b.item s.concept item) b.item [b.item]) ∧
      stored = Memory.resultName (m.fresh (name.getD owner) output (.list contents)) name ∧
      m' = ⟨m.entries.insert stored ⟨m.freshCode, stored, output, .list contents⟩,
        (m.aliases.erase stored).insert Memory.mainAlias stored⟩ ∧
      m.SameBut m' stored [stored, Memory.mainAlias] ∧
      ∀ key, key ≠ stored → key ≠ Memory.mainAlias → (key ∈ m'.names ↔ key ∈ m.names) := by
  obtain ⟨c, items, contents, stored, hitems, hmapped, hstored⟩ := runBatch_gives.post_of_ok h
  obtain ⟨s, hs, rfl, hlist⟩ := batchItems_ok hitems
  obtain ⟨hname, halias⟩ := storeResult_ok hstored
  have hframe := Memory.set_setAlias_sameBut halias
  refine ⟨s, items, contents, stored, hs, hlist, hmapped.length_eq.symm, ?_,
    fun item => itemMemory_sameBut m b.item s.concept item, hname,
    (Memory.set_setAlias_eq halias).2, hframe, ?_⟩
  · intro i item hitem
    exact hmapped.get hitem
  · intro key hstored hmain
    exact hframe.mem_names_iff hstored (by simp [hstored, hmain])

/-- The titles of two words: each title is made where `word` is one of the words, and the memory
that is left has its own `word` and no `title`. -/
theorem runBatch_titles_isolated :
    ∃ m', (galleryEngine.runBatch galleryEngine.run "titles" "title" ⟨"words", "word"⟩
        NativeConcept.text.concept words {} none).result = .ok m' ∧
      m'.entries.get? "word" = words.entries.get? "word" ∧
      m'.aliases.get? "word" = words.aliases.get? "word" ∧ "title" ∉ m'.names := by
  have hruns : (galleryEngine.runBatch galleryEngine.run "titles" "title" ⟨"words", "word"⟩
      NativeConcept.text.concept words {} none).result.isOk = true := by
    decide +kernel
  obtain ⟨m', hm'⟩ := exists_of_isOk hruns
  obtain ⟨s, items, contents, stored, _, _, _, _, _, hstored, _, hsame, hnames⟩ :=
    runBatch_isolated galleryEngine galleryEngine.run "titles" "title" ⟨"words", "word"⟩
      NativeConcept.text.concept words m' {} none hm'
  obtain rfl : stored = "titles" := hstored
  refine ⟨m', hm', hsame.entries "word" (by decide), hsame.aliases "word" (by decide), ?_⟩
  rw [hnames "title" (by decide) (by decide)]
  decide

end Engine

end Conduit
