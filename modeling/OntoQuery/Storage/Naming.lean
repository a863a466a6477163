import OntoQuery.Fault

/-!
# Names of generated variables

The compiler makes variables for the nodes that a caller does not write. Their names are derived
from the entities they stand for, joined by the separator that callers must not use, so the same
query always gives the same names.
-/

namespace OntoQuery

/-- Keeps ASCII letters, digits and underscores, and puts an underscore for anything else. -/
def Iri.plainName (name : String) : String :=
  String.ofList (name.toList.map fun c => if c.isAlphanum || c == '_' then c else '_')

/-- A name for an entity that can be part of a variable's name. -/
def Entity.baseName : Entity → String
  | .var v => v.name
  | .iri ref => Iri.plainName ref.iri.localName
  | .lit _ => "literal"

namespace Variable

/-- The parts of a name, joined by the separator. -/
def joined (parts : List String) : Variable :=
  ⟨separator.intercalate parts⟩

/-- The value node for an object that is read by its content. An object that is no variable is told
apart by a number. -/
def valueNode (subject predicate object : Entity) (index : Nat) : Variable :=
  match object with
  | .var v => joined [v.name, "valueNode"]
  | _ => joined [subject.baseName, predicate.baseName, "valueNode" ++ toString index]

/-- The newer version of a value node, which has a value only if the node is superseded. -/
def newerVersion (node : Entity) : Variable :=
  joined [node.baseName, "newer"]

/-- The node of a link from `subject` to `object`. -/
def linkValue (subject : Entity) (property : Iri) (object : Entity) : Variable :=
  joined [subject.baseName, Iri.plainName property.localName, object.baseName, "LinkValue"]

/-- The permissions of a resource or of a value node. -/
def permissions (node : Variable) : Variable :=
  joined [node.name, "permissions"]

/-- The content of a value node by which results are ordered. -/
def orderContent (node : Variable) : Variable :=
  joined [node.name, "orderContent"]

end Variable

end OntoQuery
