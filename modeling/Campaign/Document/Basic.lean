import Campaign.Document.Encoding

/-!
# Result documents

A document holds what reports computed, or a catalogue of reports, and is written as JSON.

* `Document.empty`, `Document.addOutcome`, `Document.addEntry`: making a document;
* `Document.text`: a document as written;
* `Document.read?`: the document that a text writes.
-/

namespace Campaign

/-- The version of this program. -/
def programVersion : String := "0.1.0"

/-- What is written about an invocation. -/
structure Document where
  /-- The version of the program that made the document. -/
  version : String
  format : String
  outcomes : List Outcome
  catalog : List Entry
  deriving DecidableEq

namespace Document

/-! ### Making documents -/

/-- The document that says nothing yet. -/
def empty : Document := ⟨programVersion, "bcfuzz-eval-json-v1", [], []⟩

/-- The document with one more outcome at the end. -/
def addOutcome (d : Document) (o : Outcome) : Document := { d with outcomes := d.outcomes ++ [o] }

/-- The document with the entry of one more report at the end. -/
def addEntry (d : Document) (r : Report) : Document :=
  { d with catalog := d.catalog ++ [Entry.of r] }

/-- The document of outcomes. -/
def ofOutcomes (os : List Outcome) : Document := os.foldl addOutcome empty

/-- The document of a catalogue. -/
def ofReports (rs : List Report) : Document := rs.foldl addEntry empty

/-! ### Writing and reading -/

/-- The field of a list; it is left out when the list is empty. -/
def listField (name : String) (items : List Json) : List (String × Json) :=
  if items.isEmpty then [] else [(name, .array items)]

/-- A document as a value. -/
def toJson (d : Document) : Json :=
  .record ([("version", .ofString d.version), ("format", .ofString d.format)] ++
    listField "reports" (d.outcomes.map (·.toJson)) ++
    listField "catalog" (d.catalog.map (·.toJson)))

/-- A document as written. -/
def text (d : Document) : String := d.toJson.render

/-- The document that a value writes. -/
def ofJson? (v : Json) : Option Document := do
  let fields ← v.fields? ["version", "format", "reports", "catalog"]
  return { version := ← fields.required? "version" Json.string?
           format := ← fields.required? "format" Json.string?
           outcomes := ← fields.optional? "reports" (Json.list? Outcome.ofJson?) []
           catalog := ← fields.optional? "catalog" (Json.list? Entry.ofJson?) [] }

/-- The document that a text writes. -/
def read? (text : String) : Option Document := do ofJson? (← Json.read? text)

end Document

end Campaign
