import Conduit.Content.Read
import Conduit.Proofs.Structure.Record

/-!
# Content of a structure

`Content.Conforms` says that content has the form that a structure calls for. The built-in
structures have forms of their own, the structure of dynamic content takes any content, and every
other structure calls for a valid record of it. A list conforms if each of its items does.

`Registry.Reads` says what is read for a structure (`Registry.read_reads`). So content that is read
from a value conforms to the structure that it is read for (`Registry.read_conforms`).
-/

namespace Conduit

/-- The structures whose content is not a record. -/
def Structure.formed : List String :=
  [textContent, numberContent, imageContent, pdfContent, textAndImagesContent, pageContent,
    llmPromptContent, imgGenPromptContent, dynamicContent]

namespace Content

/-- The built-in structure that calls for the form of content. -/
def form? : Content → Option String
  | text _ => some Structure.textContent
  | number _ => some Structure.numberContent
  | image _ => some Structure.imageContent
  | pdf _ => some Structure.pdfContent
  | textAndImages _ => some Structure.textAndImagesContent
  | page _ => some Structure.pageContent
  | llmPrompt _ => some Structure.llmPromptContent
  | imgGenPrompt _ => some Structure.imgGenPromptContent
  | list _ | record _ _ | dynamic _ => none

/-- Content has the form that a structure calls for, and so has each item of a list. -/
inductive Conforms (r : Registry) : String → Content → Prop where
  | any {c : Content} : Conforms r Structure.dynamicContent c
  | form {shape : String} {c : Content} (h : c.form? = some shape) : Conforms r shape c
  | record {name : String} {fields : Dict Json} (hname : name ∉ Structure.formed)
      (hvalid : r.Valid name fields.entries) : Conforms r name (.record name fields)
  | list {shape : String} {items : List Content} (h : ∀ c ∈ items, Conforms r shape c) :
      Conforms r shape (.list items)

variable {r : Registry} {shape : String} {c : Content}

/-- The items of a list that conforms conform. -/
theorem Conforms.item {items : List Content} (h : Conforms r shape (.list items))
    (hc : c ∈ items) : Conforms r shape c := by
  cases h with
  | any => exact .any
  | form h => cases h
  | list h => exact h c hc

/-- Content of a form of its own conforms to no other structure than the one that calls for it. -/
theorem Conforms.form?_eq {other : String} (h : Conforms r shape c)
    (hshape : shape ≠ Structure.dynamicContent) (hc : c.form? = some other) : other = shape := by
  cases h with
  | any => exact absurd rfl hshape
  | form h =>
    rw [h] at hc
    exact (Option.some.inj hc).symm
  | record _ _ => cases hc
  | list _ => cases hc

end Content

/-! ## What is read -/

/-- What can be read for a structure: a value of any form as dynamic content, content of the form
that the structure calls for, or the values of a valid record. -/
inductive Registry.Reads (r : Registry) : String → Content → Prop where
  | dynamic (v : Json) : r.Reads Structure.dynamicContent (.dynamic v)
  | form {shape : String} {c : Content} (h : c.form? = some shape) : r.Reads shape c
  | record {name : String} {fields : Dict Json} {members : List (String × Json)}
      (hname : name ∉ Structure.formed) (h : r.validate name members = .ok fields) :
      r.Reads name (.record name fields)

namespace Content

variable {r : Registry} {shape : String} {c : Content}

/-- A bare value makes content of the form that the structure calls for. -/
theorem bare?_reads {v : Json} (h : bare? shape v = some c) : r.Reads shape c := by
  unfold bare? at h
  split at h
  · next hdynamic =>
    cases h
    rw [hdynamic]
    exact .dynamic v
  · split at h
    · split at h
      · next htext =>
        cases h
        exact .form (congrArg some htext.symm)
      · split at h
        · next hprompt =>
          cases h
          exact .form (congrArg some hprompt.symm)
        · cases h
    · split at h
      · next hnumber =>
        cases h
        exact .form (congrArg some hnumber.symm)
      · cases h
    · cases h

/-- The values of a valid record make content of the form that its structure calls for. -/
theorem ofFields?_reads {fields : Dict Json} {members : List (String × Json)}
    (hdynamic : shape ≠ Structure.dynamicContent) (hvalid : r.validate shape members = .ok fields)
    (h : ofFields? shape fields = some c) : r.Reads shape c := by
  simp only [ofFields?] at h
  split_ifs at h with htext hnumber himage hpdf hboth hpage hprompt hdrawn
  · cases h
    exact .form (congrArg some htext.symm)
  · cases h
    exact .form (congrArg some hnumber.symm)
  · obtain ⟨_, _, rfl⟩ := Option.map_eq_some_iff.1 h
    exact .form (congrArg some himage.symm)
  · cases h
    exact .form (congrArg some hpdf.symm)
  · obtain ⟨_, _, rfl⟩ := Option.map_eq_some_iff.1 h
    exact .form (congrArg some hboth.symm)
  · obtain ⟨_, _, rfl⟩ := Option.map_eq_some_iff.1 h
    exact .form (congrArg some hpage.symm)
  · obtain ⟨_, _, rfl⟩ := Option.map_eq_some_iff.1 h
    exact .form (congrArg some hprompt.symm)
  · cases h
    exact .form (congrArg some hdrawn.symm)
  · cases h
    refine .record ?_ hvalid
    intro hformed
    simp only [Structure.formed, List.mem_cons, List.not_mem_nil, or_false] at hformed
    tauto

end Content

namespace Registry

variable {r : Registry} {shape : String} {v : Json} {c : Content}

theorem read_reads (h : r.read shape v = .ok c) : r.Reads shape c := by
  unfold read at h
  split at h
  · next c' hbare =>
    cases h
    exact Content.bare?_reads hbare
  · next hbare =>
    have hdynamic : shape ≠ Structure.dynamicContent := by
      rintro rfl
      simp [Content.bare?] at hbare
    split at h
    · simp only [bind_eq_ok_iff] at h
      obtain ⟨fields, hfields, h⟩ := h
      split at h
      · next c' hc =>
        cases h
        exact Content.ofFields?_reads hdynamic hfields hc
      · cases h
    · cases h

/-- Content that is read for a structure conforms to it. -/
theorem read_conforms (h : r.read shape v = .ok c) : c.Conforms r shape := by
  cases read_reads h with
  | dynamic v => exact .any
  | form hform => exact .form hform
  | record hname hvalid => exact .record hname (valid_entries hvalid)

end Registry

end Conduit
