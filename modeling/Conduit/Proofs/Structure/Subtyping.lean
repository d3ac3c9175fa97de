import Mathlib.Logic.Relation
import Conduit.Proofs.Structure.Ancestry

/-!
# Subtypes

Whatever a registry holds, a structure is a subtype of those on the chain of parents above it and of
no others (`Registry.isSubtype_iff`), so that subtyping is a preorder along which fields are
inherited (`Registry.isSubtype_preorder`).

A chain of parents may end at a name that is unknown, and it may come back to a name on it. The way
up a chain that stops there (`Registry.Climbs`) is told without a bound on its length, so that it is
part of the statement that it ends. It ends with the ancestry: the bound that the definition of the
latter has is more than the structures that can still be met (`Registry.climbs_ancestryFrom`).
-/

namespace Conduit.Registry

open Relation (ReflTransGen)

variable {r : Registry} {name x y z : String} {seen names names' : List String} {n : Nat}

/-- The structure of a name declares another name as its parent. -/
def Extends (r : Registry) (x y : String) : Prop :=
  r.parent? x = some y

/-- The names on the way up from a name, which ends where no parent is declared, and before a name
that has been seen. -/
inductive Climbs (r : Registry) : List String → String → List String → Prop
  | met {seen : List String} {name : String} (hseen : name ∈ seen) : Climbs r seen name []
  | top {seen : List String} {name : String} (hseen : name ∉ seen) (htop : r.parent? name = none) :
    Climbs r seen name [name]
  | up {seen : List String} {name parent : String} {names : List String} (hseen : name ∉ seen)
    (hparent : r.Extends name parent) (h : Climbs r (name :: seen) parent names) :
    Climbs r seen name (name :: names)

/-! ## The way up -/

namespace Climbs

/-- There is only one way up. -/
theorem unique (h : r.Climbs seen name names) (h' : r.Climbs seen name names') :
    names = names' := by
  induction h generalizing names' with
  | met hseen =>
    cases h' with
    | met => rfl
    | top hnot | up hnot => exact absurd hseen hnot
  | top hseen htop =>
    cases h' with
    | met hmet => exact absurd hmet hseen
    | top => rfl
    | up _ hparent => cases htop.symm.trans hparent
  | up hseen hparent _ ih =>
    cases h' with
    | met hmet => exact absurd hmet hseen
    | top _ htop => cases htop.symm.trans hparent
    | up _ hparent' hmore =>
      cases Option.some.inj (hparent.symm.trans hparent')
      rw [ih hmore]

/-- No name comes twice on the way up, and none that has been seen before. -/
theorem nodup (h : r.Climbs seen name names) : names.Nodup ∧ ∀ x ∈ names, x ∉ seen := by
  induction h with
  | met => exact ⟨List.nodup_nil, nofun⟩
  | top hseen => exact ⟨List.nodup_singleton _, List.forall_mem_singleton.2 hseen⟩
  | up hseen _ _ ih =>
    obtain ⟨hnodup, hfresh⟩ := ih
    refine ⟨List.nodup_cons.2 ⟨fun hmem => hfresh _ hmem List.mem_cons_self, hnodup⟩, ?_⟩
    exact List.forall_mem_cons.2 ⟨hseen, fun x hx hmem => hfresh x hx (List.mem_cons_of_mem _ hmem)⟩

theorem head?_eq (h : r.Climbs [] name names) : names.head? = some name := by
  cases h with
  | met hseen => exact absurd hseen List.not_mem_nil
  | top | up => rfl

end Climbs

/-- The way up ends, and what is met on it is found under a bound that is greater than the number of
structures not seen before. -/
theorem climbs_ancestryFrom (hn : r.unseen seen < n) :
    r.Climbs seen name (r.ancestryFrom n seen name) := by
  induction n generalizing seen name with
  | zero => omega
  | succ n ih =>
    rw [ancestryFrom]
    by_cases hseen : name ∈ seen
    · rw [if_pos hseen]
      exact .met hseen
    rw [if_neg hseen]
    cases hparent : r.parent? name with
    | none => exact .top hseen hparent
    | some parent =>
      have hlt := unseen_cons_lt (contains_of_parent? hparent) hseen
      exact .up hseen hparent (ih (by omega))

/-- The ancestry is what is met on the way up when nothing has been seen. -/
theorem climbs_ancestry (r : Registry) (name : String) : r.Climbs [] name (r.ancestry name) :=
  climbs_ancestryFrom (Nat.lt_succ_of_le (r.unseen_le_size []))

/-! ## Subtypes -/

/-- The ancestry holds the names on the chain of parents, wherever that leads. -/
theorem mem_ancestry_iff : y ∈ r.ancestry x ↔ ReflTransGen r.Extends x y := by
  constructor
  · exact forall_mem_ancestryFrom .refl (fun _ _ hchain hparent => hchain.tail hparent) y
  · intro h
    induction h with
    | refl => exact mem_ancestryFrom_self List.not_mem_nil
    | tail _ hparent hmem => exact parent_mem_ancestry hmem hparent

/-- The subtypes of a structure are those from which a chain of parents leads to it. -/
theorem isSubtype_iff : r.isSubtype x y = true ↔ ReflTransGen r.Extends x y := by
  rw [isSubtype, List.contains_iff_mem, mem_ancestry_iff]

/-- In every registry, an ancestry is what is met on the way up, which ends: it starts with the name
itself and has each name on the chain of parents once. Every structure is a subtype of itself,
subtypes of subtypes are subtypes, and a subtype has fields under all names under which a structure
has fields. -/
theorem isSubtype_preorder (r : Registry) :
    (∀ name, (∀ names, r.Climbs [] name names ↔ names = r.ancestry name) ∧
      (r.ancestry name).head? = some name ∧ (r.ancestry name).Nodup ∧
      ∀ x, x ∈ r.ancestry name ↔ ReflTransGen r.Extends name x) ∧
    (∀ x, r.isSubtype x x = true) ∧
    (∀ x y z, r.isSubtype x y = true → r.isSubtype y z = true → r.isSubtype x z = true) ∧
    ∀ tested wanted, r.isSubtype tested wanted = true →
      (r.allFields wanted).keys ⊆ (r.allFields tested).keys := by
  refine ⟨fun name => ?_, fun x => isSubtype_iff.2 .refl, fun x y z hxy hyz => ?_,
    fun tested wanted h key hkey => ?_⟩
  · have hclimbs := r.climbs_ancestry name
    refine ⟨fun names => ⟨fun h => h.unique hclimbs, fun h => h ▸ hclimbs⟩, hclimbs.head?_eq,
      hclimbs.nodup.1, fun x => mem_ancestry_iff⟩
  · exact isSubtype_iff.2 ((isSubtype_iff.1 hxy).trans (isSubtype_iff.1 hyz))
  · rw [Dict.mem_keys_iff] at hkey ⊢
    exact contains_allFields_of_isSubtype h hkey

/-- A structure that declares a field and a parent. -/
def heir (name field parent : String) : Structure :=
  ⟨name, some parent, .ofList [(field, requiredField field .text "")], false⟩

/-- A registry in which two structures extend each other and a third one extends one of them, and in
which a parent is unknown. -/
def tangled : Registry :=
  ⟨.ofList [("Note", heir "Note" "title" "Memo"), ("Memo", heir "Memo" "sender" "Letter"),
    ("Letter", heir "Letter" "address" "Memo"), ("Stray", heir "Stray" "mark" "Lost")]⟩

/-- A note is a memo, and a memo is a letter, which is a memo again. -/
theorem isSubtype_preorder_tangled :
    (tangled.isSubtype "Note" "Memo" = true ∧ tangled.isSubtype "Memo" "Letter" = true) ∧
    tangled.isSubtype "Note" "Letter" = true ∧
    (tangled.allFields "Letter").keys ⊆ (tangled.allFields "Note").keys := by
  have hnote : tangled.isSubtype "Note" "Memo" = true := by decide
  have hmemo : tangled.isSubtype "Memo" "Letter" = true := by decide
  obtain ⟨_, _, htrans, hfields⟩ := isSubtype_preorder tangled
  have hletter := htrans "Note" "Memo" "Letter" hnote hmemo
  exact ⟨⟨hnote, hmemo⟩, hletter, hfields "Note" "Letter" hletter⟩

end Conduit.Registry
