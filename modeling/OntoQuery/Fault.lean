import OntoQuery.Ontology.Basic
import OntoQuery.Query.Basic
import OntoQuery.Regex.Basic

/-!
# Faults

A compilation that fails tells the first fault that it meets. `Fault` lists the causes with what
each concerns. `Fault.report` gives the words for it: the kind of fault, the stage that met it, the
part of the query at fault in the query's own syntax, and the reason.
-/

namespace OntoQuery

/-- The stages of a compilation. -/
inductive Stage where
  | typeInspection
  | checking
  | schemaFlattening
  | valueExpansion
  | permissionInjection
  | inferenceCompensation
  | countDerivation
  | emission
  deriving DecidableEq, Repr

def Stage.name : Stage → String
  | typeInspection => "type inspection"
  | checking => "checking"
  | schemaFlattening => "schema flattening"
  | valueExpansion => "value expansion"
  | permissionInjection => "permission injection"
  | inferenceCompensation => "inference compensation"
  | countDerivation => "count derivation"
  | emission => "emission"

/-- What a fault is about, whichever stage meets it. -/
inductive FaultKind where
  | untypedVariable
  | ambiguousType
  | schemaMismatch
  | forbiddenConstruct
  | unsupportedPattern
  deriving DecidableEq, Repr

/-- A fault put into words. -/
structure Report where
  kind : FaultKind
  stage : Stage
  /-- The entity or pattern at fault, as the query writes it. -/
  construct : String
  reason : String
  deriving DecidableEq, Repr

/-- The report as one line. -/
def Report.message (r : Report) : String :=
  r.stage.name ++ ": " ++
    match r.kind with
    | .untypedVariable => "no type could be inferred for " ++ r.construct ++ ": " ++ r.reason
    | .ambiguousType => "incompatible types for " ++ r.construct ++ ": " ++ r.reason
    | .schemaMismatch => "schema mismatch in " ++ r.construct ++ ": " ++ r.reason
    | .forbiddenConstruct => r.construct ++ " is not allowed: " ++ r.reason
    | .unsupportedPattern => "unsupported pattern " ++ r.construct ++ ": " ++ r.reason

/-- Names with this in them are kept for variables that the compiler makes. -/
def Variable.separator : String := "__"

/-- A type as a caller of the schema knows it, in angle brackets. -/
def Schema.showType (schema : Schema) (type : Iri) : String :=
  "<" ++ type.toExternal schema defaultHost ++ ">"

/-- Why a query cannot be compiled. -/
inductive Fault where
  /-- An entity stands both as a predicate and elsewhere. -/
  | mixedRoles (e : Typeable)
  /-- Two types of an entity have nothing in common. -/
  | conflictingTypes (schema : Schema) (e : Typeable) (current candidate : Iri)
  /-- The ontology gives no single constraint for the property. -/
  | ambiguousConstraint (e : Typeable) (cause : OntologyError)
  /-- The properties of a class have objects of unrelated types. -/
  | unrelatedObjects (schema : Schema) (e : Typeable) (class_ first second : Iri)
  /-- Two alternatives give an entity different types. -/
  | conflictingBranches (schema : Schema) (e : Typeable) (first second : Iri)
  /-- No type is known for the objects of a property variable. -/
  | untypedProperty (e : Typeable)
  | reservedName (v : Variable)
  /-- An IRI of another schema than the query's. -/
  | foreignSchema (s : Statement) (ref : IriRef) (tag schema : Schema)
  | coreInTemplate (s : Statement) (ref : IriRef)
  | untypedInTemplate (v : Variable)
  /-- A variable of the template that is neither a resource nor a value. -/
  | plainInTemplate (s : Statement) (v : Variable) (type : Iri)
  | literalInTemplate (s : Statement) (l : Literal)
  | computedPredicate (s : Statement) (ref : IriRef)
  | untypedPredicate (ref : IriRef)
  | badRegex (pattern : String) (cause : Regex.Refusal)
  /-- The main resource is no variable. -/
  | fixedMainResource (e : Entity)
  | emptyTemplate
  | literalPredicate (s : Statement)
  | linkPropertyVariable (s : Statement)
  | untypedValue (s : Statement)
  | notValueType (s : Statement) (type : Iri)
  /-- A link or list value without a node. -/
  | valueWithoutNode (s : Statement)
  | noLinkValueProperty (s : Statement)
  | linkToLiteral (s : Statement)
  | unboundOrderKey (v : Variable)
  | unboundMainResource (v : Variable)
  /-- A name that is no variable name in the target language. -/
  | badVariable (v : Variable)
  /-- An IRI that cannot be written in the target language. -/
  | badIri (e : Entity)
  deriving DecidableEq, Repr

namespace Fault

/-- The fault in words. -/
def report : Fault → Report
  | mixedRoles e =>
    ⟨.ambiguousType, .typeInspection, e.display,
      "used both as a property and as a non-property entity"⟩
  | conflictingTypes schema e current candidate =>
    ⟨.ambiguousType, .typeInspection, e.display,
      "inferred as both " ++ schema.showType current ++ " and " ++ schema.showType candidate⟩
  | ambiguousConstraint e cause => ⟨.ambiguousType, .typeInspection, e.display, cause.message⟩
  | unrelatedObjects schema e class_ first second =>
    ⟨.ambiguousType, .typeInspection, e.display,
      schema.showType class_ ++ " has properties with unrelated object types "
        ++ schema.showType first ++ " and " ++ schema.showType second⟩
  | conflictingBranches schema e first second =>
    ⟨.ambiguousType, .typeInspection, e.display,
      "typed as " ++ schema.showType first ++ " in one UNION branch and as "
        ++ schema.showType second ++ " in another"⟩
  | untypedProperty e =>
    ⟨.untypedVariable, .typeInspection, e.display,
      "the property's object type could not be determined"⟩
  | reservedName v =>
    ⟨.unsupportedPattern, .checking, v.display,
      "variable names containing `" ++ Variable.separator ++ "` are reserved"⟩
  | foreignSchema s ref tag schema =>
    ⟨.schemaMismatch, .checking, s.display,
      ref.display ++ " belongs to the " ++ tag.name ++ " schema but the query uses the "
        ++ schema.name ++ " schema"⟩
  | coreInTemplate s ref =>
    ⟨.forbiddenConstruct, .checking, s.display,
      ref.display ++ " may not be used in the CONSTRUCT clause"⟩
  | untypedInTemplate v =>
    ⟨.untypedVariable, .checking, v.display,
      "variables in the CONSTRUCT clause must have a known type"⟩
  | plainInTemplate s v type =>
    ⟨.forbiddenConstruct, .checking, s.display,
      v.display ++ " has type <" ++ type ++ ">, expected a resource or a value"⟩
  | literalInTemplate s l =>
    ⟨.forbiddenConstruct, .checking, s.display,
      "literal " ++ l.display ++ " may not be used in the CONSTRUCT clause"⟩
  | computedPredicate s ref =>
    ⟨.forbiddenConstruct, .checking, s.display,
      ref.display ++ " is computed and cannot be queried"⟩
  | untypedPredicate ref =>
    ⟨.untypedVariable, .checking, ref.display, "no type is known for this property"⟩
  | badRegex pattern cause =>
    ⟨.unsupportedPattern, .checking, "regex \"" ++ pattern ++ "\"", cause.message⟩
  | fixedMainResource e =>
    ⟨.unsupportedPattern, .countDerivation, e.display, "the main resource must be a variable"⟩
  | emptyTemplate =>
    ⟨.unsupportedPattern, .countDerivation, "CONSTRUCT \x7b\x7d", "the CONSTRUCT clause is empty"⟩
  | literalPredicate s =>
    ⟨.unsupportedPattern, .valueExpansion, s.display, "a literal cannot be a predicate"⟩
  | linkPropertyVariable s =>
    ⟨.unsupportedPattern, .valueExpansion, s.display,
      "a property variable cannot stand for a link property"⟩
  | untypedValue s =>
    ⟨.unsupportedPattern, .valueExpansion, s.display, "the value object has no inferred type"⟩
  | notValueType s type =>
    ⟨.unsupportedPattern, .valueExpansion, s.display, "<" ++ type ++ "> is not a value type"⟩
  | valueWithoutNode s =>
    ⟨.unsupportedPattern, .valueExpansion, s.display,
      "link and list values must be bound to a value node"⟩
  | noLinkValueProperty s =>
    ⟨.unsupportedPattern, .valueExpansion, s.display,
      "the link property has no link value property"⟩
  | linkToLiteral s =>
    ⟨.unsupportedPattern, .valueExpansion, s.display,
      "a link property cannot point to a literal"⟩
  | unboundOrderKey v =>
    ⟨.unsupportedPattern, .valueExpansion, v.display,
      "the ORDER BY variable is not bound in the WHERE clause"⟩
  | unboundMainResource v =>
    ⟨.unsupportedPattern, .countDerivation, v.display,
      "the main resource does not occur in the WHERE clause"⟩
  | badVariable v =>
    ⟨.unsupportedPattern, .emission, v.display, "not a valid SPARQL variable name"⟩
  | badIri e => ⟨.unsupportedPattern, .emission, e.display, "not a valid IRI reference"⟩

def message (f : Fault) : String :=
  f.report.message

end Fault

end OntoQuery
