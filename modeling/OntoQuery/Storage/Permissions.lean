import OntoQuery.Query.Visit
import OntoQuery.Storage.Values

/-!
# Permissions

Whoever runs a query has to know the permissions of each node in its results. So every node with a
deletion marker gets a statement that binds its permissions, right after the marker.
-/

namespace OntoQuery

/-- A node and the variable for its permissions. -/
structure PermissionBinding where
  node : Variable
  permissions : Variable
  deriving DecidableEq, Repr

namespace Statement

/-- The statement that binds the permissions of the node that this one marks. -/
def permission? (s : Statement) : Option Statement :=
  if s.isDeletionMarker then
    s.subject.var?.map fun node =>
      ⟨s.subject, .ofIri Base.hasPermissions, .var node.permissions⟩
  else none

/-- The statement, followed by the permissions of the node that it marks. -/
def withPermission (s : Statement) : List Statement :=
  s :: s.permission?.toList

/-- The binding of permissions that the statement makes. -/
def permissionBinding? (s : Statement) : Option PermissionBinding :=
  match s.subject, s.object with
  | .var node, .var permissions =>
    if s.predicate.isIri Base.hasPermissions then some { node, permissions } else none
  | _, _ => none

end Statement

mutual

def Pattern.withPermissions : Pattern → Group
  | .statement s => s.withPermission.map .statement
  | .optional g => [.optional (Group.withPermissions g)]
  | .union gs => [.union (Group.allWithPermissions gs)]
  | .filter e => [.filter e]
  | .minus g => [.minus (Group.withPermissions g)]

/-- The group with the permissions of every marked node, at any depth. -/
def Group.withPermissions : Group → Group
  | [] => []
  | p :: ps => p.withPermissions ++ Group.withPermissions ps

def Group.allWithPermissions : List Group → List Group
  | [] => []
  | g :: gs => Group.withPermissions g :: Group.allWithPermissions gs

end

/-- The bindings of permissions in a group, each once, in order. -/
def Group.permissionBindings (g : Group) : List PermissionBinding :=
  ((Group.statements g).filterMap Statement.permissionBinding?).eraseDups

end OntoQuery
