import Conduit.Content.Basic
import Conduit.Structure.Registry

/-!
# Generators

A generator makes content at the request of an operator: text and records from a prompt, images from
a description, pages from a document. Each reply takes some time, in milliseconds, and may be a
failure. The generator `unavailable` fails whatever it is asked for.
-/

namespace Conduit

/-- The structure that generated records must have, with all its fields. -/
structure Schema where
  name : String
  fields : Dict Field
  deriving DecidableEq

/-- The schema of a structure. -/
def Registry.schema (r : Registry) (name : String) : Schema :=
  ⟨name, r.allFields name⟩

/-- A document by its place. -/
inductive Document where
  | image (url : String)
  | pdf (url : String)
  deriving DecidableEq

/-- The place of a document. -/
def Document.url : Document → String
  | image url | pdf url => url

/-- What a generator is asked for. A number of records that is not given may be any. -/
inductive Request where
  | text (prompt : LlmPrompt)
  | object (prompt : LlmPrompt) (schema : Schema)
  | objects (prompt : LlmPrompt) (schema : Schema) (count : Option Nat)
  | images (prompt : String) (count : Nat)
  | pages (document : Document) (views : Bool)
  deriving DecidableEq

/-- Why a generator makes nothing. -/
inductive BackendError where
  | unavailable (reason : String)
  | failed (operation reason : String)
  deriving DecidableEq

/-- An error in words. -/
def BackendError.message : BackendError → String
  | unavailable reason => s!"backend unavailable: {reason}"
  | failed operation reason => s!"{operation} failed: {reason}"

/-- What a generator replies, after a delay in milliseconds. -/
structure Reply (α : Type) where
  answer : Except BackendError α
  delay : Nat := 0

/-- A maker of content. -/
structure Generator where
  text : LlmPrompt → Reply String
  object : LlmPrompt → Schema → Reply Json
  objects : LlmPrompt → Schema → Option Nat → Reply (List Json)
  images : String → Nat → Reply (List Image)
  pages : Document → Bool → Reply (List Page)

namespace Generator

/-- The reply that there is no generator for an operation. -/
def refused {α : Type} (operation : String) : Reply α :=
  { answer := .error (.unavailable s!"no content generator configured for {operation}") }

/-- The generator of hosts that make no content. -/
def unavailable : Generator where
  text _ := refused "text generation"
  object _ _ := refused "object generation"
  objects _ _ _ := refused "object generation"
  images _ _ := refused "image generation"
  pages _ _ := refused "page extraction"

end Generator

end Conduit
