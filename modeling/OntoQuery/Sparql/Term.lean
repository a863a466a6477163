import OntoQuery.Fault
import OntoQuery.Text.Blank
import OntoQuery.Text.Letter

/-!
# SPARQL terms

How entities and filter expressions are written in SPARQL. An IRI of a well-known vocabulary is
abbreviated if its local name is plain; names and IRIs that SPARQL cannot write are faults.
-/

namespace OntoQuery.Sparql

/-- The abbreviations of vocabularies, in the order in which they are declared and tried. -/
def abbreviations : List (String × String) :=
  [("rdf", Rdf.vocabulary), ("rdfs", Rdfs.vocabulary), ("owl", Owl.vocabulary),
   ("xsd", Xsd.vocabulary), ("knora-base", Base.vocabulary)]

/-- Whether a variable can have this name: letters, digits and underscores, at least one. -/
def isName (name : String) : Bool :=
  !name.isEmpty && name.toList.all fun c => Text.isAlphanumeric c || c == '_'

def variableTerm (v : Variable) : Except Fault String :=
  if isName v.name then .ok v.display else .error (.badVariable v)

/-- The characters that cannot stand between angle brackets. -/
def isIriDelimiter (c : Char) : Bool :=
  Text.isBlank c || ['<', '>', '"', '\x7b', '\x7d', '|', '^', '\x60', '\\'].contains c

/-- Whether the text can be written as an IRI. -/
def isIri (iri : String) : Bool :=
  !iri.isEmpty && !iri.toList.any isIriDelimiter

/-- Whether a local name can follow an abbreviation. -/
def isPlainLocal : List Char → Bool
  | [] => false
  | c :: cs => (c.isAlphanum || c == '_') && cs.all fun c => c.isAlphanum || c == '_' || c == '-'

/-- The IRI by one of the abbreviations. -/
def abbreviate? (iri : Iri) : Option String :=
  abbreviations.findSome? fun (short, vocabulary) =>
    match Text.dropStart vocabulary.toList iri.toList with
    | some name => if isPlainLocal name then some (short ++ ":" ++ String.ofList name) else none
    | none => none

/-- An IRI, which is written on behalf of the entity `e`. -/
def iriTerm (e : Entity) (iri : Iri) : Except Fault String :=
  if isIri iri then .ok ((abbreviate? iri).getD ("<" ++ iri ++ ">")) else .error (.badIri e)

def literalTerm (l : Literal) : Except Fault String :=
  if l.datatype = Xsd.string then .ok l.quoted
  else do return l.quoted ++ "^^" ++ (← iriTerm (.lit l) l.datatype)

def term : Entity → Except Fault String
  | .var v => variableTerm v
  | .iri ref => iriTerm (.iri ref) ref.iri
  | .lit l => literalTerm l

mutual

/-- An expression; a comparison under a negation is put in parentheses. -/
def expression : Expression → Except Fault String
  | .entity e => term e
  | .compare left op right => do
    return (← expression left) ++ " " ++ op.symbol ++ " " ++ (← expression right)
  | .and left right => do
    return "(" ++ (← expression left) ++ " && " ++ (← expression right) ++ ")"
  | .or left right => do
    return "(" ++ (← expression left) ++ " || " ++ (← expression right) ++ ")"
  | .not (.compare left op right) => do
    return "!(" ++ (← expression left) ++ " " ++ op.symbol ++ " " ++ (← expression right) ++ ")"
  | .not inner => do return "!" ++ (← expression inner)
  | .call function args => do
    return function.name ++ "(" ++ ", ".intercalate (← expressions args) ++ ")"

def expressions : List Expression → Except Fault (List String)
  | [] => .ok []
  | e :: es => do return (← expression e) :: (← expressions es)

end

end OntoQuery.Sparql
