import EventQuery.Backend.Basic
import EventQuery.Backend.CriteriaText
import EventQuery.Backend.Sqlite
import EventQuery.Backend.Sqlite.Column
import EventQuery.Backend.Sqlite.JsonPath
import EventQuery.Backend.Wildcard
import EventQuery.Criterion.Basic
import EventQuery.Criterion.Printer
import EventQuery.Data.Basic
import EventQuery.Decimal.Binary64
import EventQuery.Decimal.Digits
import EventQuery.Decimal.Layout
import EventQuery.Decimal.Reader
import EventQuery.Decimal.Shortest
import EventQuery.Error
import EventQuery.Grammar.Criteria
import EventQuery.Grammar.Lexeme
import EventQuery.Grammar.Matcher
import EventQuery.Grammar.Path
import EventQuery.Grammar.Selection
import EventQuery.Json.Grammar
import EventQuery.Json.Reader
import EventQuery.Json.Writer
import EventQuery.Operator
import EventQuery.Path.Basic
import EventQuery.Pipeline.Basic
import EventQuery.Pipeline.Expansion
import EventQuery.Pipeline.Validation
import EventQuery.Request
import EventQuery.Saved.Criterion
import EventQuery.Saved.Schema
import EventQuery.Saved.Selection
import EventQuery.Schema.Config
import EventQuery.Schema.Entity
import EventQuery.Schema.Registry
import EventQuery.Schema.ValueType
import EventQuery.Selection.Basic
import EventQuery.Table
import EventQuery.Text.Quoted
import EventQuery.Text.Space
import EventQuery.Toml.Document
import EventQuery.Toml.Scalar
import EventQuery.Toml.Text
import EventQuery.Toml.Tree
import EventQuery.Value
import EventQuery.Proofs.Criterion.Evaluation
import EventQuery.Proofs.Criterion.Algebra
import EventQuery.Proofs.Criterion.Substitution
import EventQuery.Proofs.Backend.Preparation
import EventQuery.Proofs.Backend.Lowering
import EventQuery.Proofs.Pipeline.Flattening
import EventQuery.Proofs.Backend.Calls
import EventQuery.Proofs.Grammar.Reading
import EventQuery.Proofs.Grammar.Recursion
import EventQuery.Proofs.Grammar.Lexemes
import EventQuery.Proofs.Grammar.Paths
import EventQuery.Proofs.Grammar.Comparison
import EventQuery.Proofs.Grammar.Criteria
import EventQuery.Proofs.Criterion.RoundTrip
import EventQuery.Proofs.Schema.Targets
import EventQuery.Proofs.Criterion.Parsing
import EventQuery.Proofs.Pipeline.Restriction
import EventQuery.Proofs.Request.Memory
import EventQuery.Proofs.Request.Restriction
import EventQuery.Proofs.Wildcard.Containment
import EventQuery.Proofs.Backend.Admission
import EventQuery.Proofs.Document.Designation
import EventQuery.Proofs.Sqlite.Column
import EventQuery.Proofs.Sqlite.Condition
import EventQuery.Proofs.Sqlite.Lists
import EventQuery.Proofs.Sqlite.Placeholders
import EventQuery.Proofs.Backend.CriteriaText
import EventQuery.Proofs.Sqlite.Literals
import EventQuery.Proofs.Sqlite.Operands
import EventQuery.Proofs.Pipeline.Expansion
import EventQuery.Proofs.Criterion.ParsedForm
import EventQuery.Proofs.Criterion.Precedence
import EventQuery.Proofs.Grammar.Lookahead
import EventQuery.Proofs.Grammar.Enclosure
import EventQuery.Proofs.Criterion.Composition
import EventQuery.Proofs.Backend.Pinning
import EventQuery.Proofs.Grammar.Chains
import EventQuery.Proofs.Grammar.Selection
import EventQuery.Proofs.Selection.RoundTrip
import EventQuery.Proofs.Selection.Paths
import EventQuery.Proofs.Json.Strings
import EventQuery.Proofs.Json.Numbers
import EventQuery.Proofs.Json.Data
import EventQuery.Proofs.Decimal.Rounding
import EventQuery.Proofs.Json.Meaning
import EventQuery.Proofs.Saved.Values
import EventQuery.Proofs.Saved.Criteria
import EventQuery.Proofs.Path.Ancestors
import EventQuery.Proofs.Schema.Effects
import EventQuery.Proofs.Schema.Places
import EventQuery.Proofs.Schema.Coherence
import EventQuery.Proofs.Schema.History
import EventQuery.Proofs.Schema.ListKeys
import EventQuery.Proofs.Schema.Entries
import EventQuery.Proofs.Schema.Declared
import EventQuery.Proofs.Schema.PublicPaths
import EventQuery.Proofs.Schema.Alike
import EventQuery.Proofs.Schema.Order
import EventQuery.Proofs.Pipeline.Validation
import EventQuery.Proofs.Request.Sessions
import EventQuery.Proofs.Saved.Selections
import EventQuery.Proofs.Criterion.Faults
import EventQuery.Proofs.Pipeline.Negation
import EventQuery.Proofs.Backend.Repetition
import EventQuery.Proofs.Backend.Disjointness
import EventQuery.Proofs.Pipeline.Leniency
import EventQuery.Proofs.Sqlite.Rejections
import EventQuery.Proofs.Request.Resolution
import EventQuery.Proofs.Grammar.Numbers
import EventQuery.Proofs.Selection.Numbers
import EventQuery.Proofs.Grammar.Continuation
import EventQuery.Proofs.Path.Spelling
import EventQuery.Proofs.Criterion.Spellings
import EventQuery.Proofs.Sqlite.Distinctness
import EventQuery.Proofs.Sqlite.Chains
