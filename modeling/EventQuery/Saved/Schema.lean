import EventQuery.Schema.Config
import EventQuery.Toml.Document

/-!
# Saved schema definitions

Schema definitions as TOML documents.
-/

namespace EventQuery

/-- Reads a schema definition from a document. -/
def SchemaConfig.ofToml (text : String) : Except DataError SchemaConfig :=
  match Toml.read? text with
  | some d => ofData? Toml.conventions d
  | none => .error .malformed

end EventQuery
