import Conduit.Structure.Basic

/-!
# Concepts

A concept is a named type of values: it belongs to a domain, and a structure says what form its
values have. Ten concepts are native, among them the two wildcards, `Dynamic` and `Anything`, which
go with every concept. A concept may refine a native one and then shares its structure.
-/

namespace Conduit

/-- The concepts that are always there. -/
inductive NativeConcept where
  | text
  | image
  | pdf
  | textAndImages
  | number
  | page
  | llmPrompt
  | imgGenPrompt
  | dynamic
  | anything
  deriving DecidableEq, Repr

/-- A named type of values. `refines` is the full name of the native concept that it refines. -/
structure Concept where
  code : String
  domain : String
  description : String
  shape : String
  refines : Option String
  deriving DecidableEq

namespace Concept

/-- The domain of the native concepts. -/
def nativeDomain : String := "native"

/-- The full name of a concept. -/
def fullName (domain code : String) : String :=
  domain ++ "." ++ code

/-- The full name of a concept. -/
def name (c : Concept) : String :=
  fullName c.domain c.code

/-- Whether a concept belongs to the native domain. -/
def isNative (c : Concept) : Bool :=
  c.domain == nativeDomain

end Concept

namespace NativeConcept

/-- The native concepts, in their order. -/
def all : List NativeConcept :=
  [text, image, pdf, textAndImages, number, page, llmPrompt, imgGenPrompt, dynamic, anything]

/-- The code of a native concept. -/
def code : NativeConcept → String
  | text => "Text"
  | image => "Image"
  | pdf => "PDF"
  | textAndImages => "TextAndImages"
  | number => "Number"
  | page => "Page"
  | llmPrompt => "LLMPrompt"
  | imgGenPrompt => "ImgGenPrompt"
  | dynamic => "Dynamic"
  | anything => "Anything"

/-- The structure of a native concept. -/
def shape : NativeConcept → String
  | text => Structure.textContent
  | image => Structure.imageContent
  | pdf => Structure.pdfContent
  | textAndImages => Structure.textAndImagesContent
  | number => Structure.numberContent
  | page => Structure.pageContent
  | llmPrompt => Structure.llmPromptContent
  | imgGenPrompt => Structure.imgGenPromptContent
  | dynamic | anything => Structure.dynamicContent

/-- What a native concept stands for. -/
def description : NativeConcept → String
  | text => "A text"
  | image => "An image"
  | pdf => "A PDF document"
  | textAndImages => "Text with attached images"
  | number => "A number"
  | page => "A page extracted from a document"
  | llmPrompt => "A prompt for a language model"
  | imgGenPrompt => "A prompt for an image generator"
  | dynamic => "A value whose concept is decided at run time"
  | anything => "Any value"

/-- The native concept of a code. -/
def ofCode? (code : String) : Option NativeConcept :=
  all.find? fun n => n.code == code

/-- A native concept as a concept. -/
def concept (n : NativeConcept) : Concept :=
  ⟨n.code, Concept.nativeDomain, n.description, n.shape, none⟩

end NativeConcept

namespace Concept

/-- The native concept that a concept is, if it is one. -/
def native? (c : Concept) : Option NativeConcept :=
  if c.isNative then NativeConcept.ofCode? c.code else none

/-- Whether a concept goes with every other. -/
def isWildcard (c : Concept) : Bool :=
  c.native? == some .dynamic || c.native? == some .anything

end Concept

end Conduit
