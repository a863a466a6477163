import OntoQuery.Query.Basic
import OntoQuery.Storage.Values

/-!
# Ordering by content

Results cannot be ordered by value nodes, only by what the nodes hold. An order key that is a value
node is replaced by a variable for its content, and the statement that binds the content joins each
outermost group that binds the node: where the node is optional, so is its content.
-/

namespace OntoQuery

namespace Group

/-- Whether a statement of the group itself has the variable as its subject or object. -/
def binds (g : Group) (v : Variable) : Bool :=
  (g.filterMap Pattern.statement?).any fun s => s.subject == .var v || s.object == .var v

end Group

/-- Adds `s` at the end of a group that binds `v`; otherwise takes what was found inside it. -/
def Group.extend (v : Variable) (s : Statement) (g : Group) (inside : Group × Bool) :
    Group × Bool :=
  if g.binds v then (g ++ [.statement s], true) else inside

mutual

/-- Adds `s` to the outermost groups inside the pattern that bind `v`, and tells whether there are
any. What stands under MINUS binds nothing. -/
def Pattern.addWhereBound (v : Variable) (s : Statement) : Pattern → Pattern × Bool
  | .optional g =>
    let (g, added) := Group.extend v s g (Group.addInside v s g)
    (.optional g, added)
  | .union gs =>
    let (gs, added) := Group.addInsideAll v s gs
    (.union gs, added)
  | p => (p, false)

/-- Adds `s` inside the patterns of a group that does not bind `v` itself. -/
def Group.addInside (v : Variable) (s : Statement) : Group → Group × Bool
  | [] => ([], false)
  | p :: ps =>
    let (p, added) := p.addWhereBound v s
    let (ps, added') := Group.addInside v s ps
    (p :: ps, added || added')

def Group.addInsideAll (v : Variable) (s : Statement) : List Group → List Group × Bool
  | [] => ([], false)
  | g :: gs =>
    let (g, added) := Group.extend v s g (Group.addInside v s g)
    let (gs, added') := Group.addInsideAll v s gs
    (g :: gs, added || added')

end

/-- Adds `s` to the outermost groups that bind `v`; `none` if no group does. -/
def Group.addWhereBound? (v : Variable) (s : Statement) (g : Group) : Option Group :=
  match Group.extend v s g (Group.addInside v s g) with
  | (g, true) => some g
  | (_, false) => none

namespace Expander

/-- The kind of a value node that results can be ordered by. -/
def orderKind? (x : Expander) (v : Variable) : Option ValueKind :=
  match x.types.get? (.var v) with
  | some (.entity type _ true) => (ValueKind.ofType? type).filter (·.hasLiteralContent)
  | _ => none

/-- The order of results by content, and the body with the content bound. -/
def orderByContent (x : Expander) :
    List OrderCriterion → (body : Group) → Except Fault (List OrderCriterion × Group)
  | [], body => .ok ([], body)
  | c :: cs, body => do
    match x.orderKind? c.key with
    | none =>
      let (rest, body) ← x.orderByContent cs body
      return (c :: rest, body)
    | some kind =>
      let content := c.key.orderContent
      match body.addWhereBound? c.key ⟨.var c.key, .ofIri kind.contentPredicate, .var content⟩ with
      | none => .error (.unboundOrderKey c.key)
      | some body =>
        let (rest, body) ← x.orderByContent cs body
        return ({ c with key := content } :: rest, body)

end Expander

end OntoQuery
