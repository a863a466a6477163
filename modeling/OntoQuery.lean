import OntoQuery.Check.Basic
import OntoQuery.Check.Predicate
import OntoQuery.Compiler
import OntoQuery.Fault
import OntoQuery.Graph.Basic
import OntoQuery.Graph.Solution
import OntoQuery.Json.Basic
import OntoQuery.Json.Reader
import OntoQuery.Ontology.Basic
import OntoQuery.Ontology.Cardinality
import OntoQuery.Ontology.Definition
import OntoQuery.Ontology.Hierarchy
import OntoQuery.Ontology.Holder
import OntoQuery.Ontology.Lookup
import OntoQuery.Ontology.Reader
import OntoQuery.OrderedMap
import OntoQuery.Proofs.Agreement
import OntoQuery.Proofs.Alternatives
import OntoQuery.Proofs.Ambiguity
import OntoQuery.Proofs.Annotation
import OntoQuery.Proofs.Announcements
import OntoQuery.Proofs.Asked
import OntoQuery.Proofs.BoundVariables
import OntoQuery.Proofs.Checkpoints
import OntoQuery.Proofs.Closure
import OntoQuery.Proofs.ComputedPredicates
import OntoQuery.Proofs.Constraints
import OntoQuery.Proofs.Convergence
import OntoQuery.Proofs.Demands
import OntoQuery.Proofs.Described
import OntoQuery.Proofs.Emission
import OntoQuery.Proofs.Entailment
import OntoQuery.Proofs.Entities
import OntoQuery.Proofs.Expansion
import OntoQuery.Proofs.Extension
import OntoQuery.Proofs.Finishing
import OntoQuery.Proofs.FixedPoint
import OntoQuery.Proofs.FlatForm
import OntoQuery.Proofs.Flattening
import OntoQuery.Proofs.FreshNames
import OntoQuery.Proofs.GeneratedNames
import OntoQuery.Proofs.Group
import OntoQuery.Proofs.Grouping
import OntoQuery.Proofs.Inheritance
import OntoQuery.Proofs.Inspection
import OntoQuery.Proofs.Layout
import OntoQuery.Proofs.Listing
import OntoQuery.Proofs.MainResource
import OntoQuery.Proofs.Marking
import OntoQuery.Proofs.Meaning
import OntoQuery.Proofs.MostSpecific
import OntoQuery.Proofs.Namespaces
import OntoQuery.Proofs.Naming
import OntoQuery.Proofs.Operands
import OntoQuery.Proofs.OrderFree
import OntoQuery.Proofs.Permissions
import OntoQuery.Proofs.Placement
import OntoQuery.Proofs.Projection
import OntoQuery.Proofs.PropertyVariables
import OntoQuery.Proofs.Rearrangement
import OntoQuery.Proofs.Redundancy
import OntoQuery.Proofs.Refinement
import OntoQuery.Proofs.Rewriting
import OntoQuery.Proofs.RoundTrip
import OntoQuery.Proofs.Rounds
import OntoQuery.Proofs.Scopes
import OntoQuery.Proofs.Settling
import OntoQuery.Proofs.Shadow
import OntoQuery.Proofs.SharedNodes
import OntoQuery.Proofs.ShownTypes
import OntoQuery.Proofs.Solutions
import OntoQuery.Proofs.Spelling
import OntoQuery.Proofs.Steps
import OntoQuery.Proofs.StoredForm
import OntoQuery.Proofs.Subsumption
import OntoQuery.Proofs.Subtypes
import OntoQuery.Proofs.TemplateVariables
import OntoQuery.Proofs.Terms
import OntoQuery.Proofs.ValuePermissions
import OntoQuery.Proofs.ValueTypes
import OntoQuery.Proofs.Versions
import OntoQuery.Proofs.WellFormed
import OntoQuery.Proofs.Writable
import OntoQuery.Query.Basic
import OntoQuery.Query.Entity
import OntoQuery.Query.Expression
import OntoQuery.Query.Pattern
import OntoQuery.Query.Visit
import OntoQuery.Regex.Basic
import OntoQuery.Regex.Bracketed
import OntoQuery.Regex.Lexeme
import OntoQuery.Regex.Parser
import OntoQuery.Schema
import OntoQuery.Sparql.Term
import OntoQuery.Sparql.Text
import OntoQuery.Storage.Dialect
import OntoQuery.Storage.Flattening
import OntoQuery.Storage.Naming
import OntoQuery.Storage.Ordering
import OntoQuery.Storage.Permissions
import OntoQuery.Storage.Query
import OntoQuery.Storage.Subtypes
import OntoQuery.Storage.Values
import OntoQuery.Text.Blank
import OntoQuery.Text.Cut
import OntoQuery.Text.Letter
import OntoQuery.Text.Numeral
import OntoQuery.Typing.Inference
import OntoQuery.Typing.Roles
import OntoQuery.Typing.Rule
import OntoQuery.Typing.Scope
import OntoQuery.Typing.Types
import OntoQuery.ValueKind
import OntoQuery.Vocabulary
