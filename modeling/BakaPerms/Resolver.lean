import BakaPerms.Types

/-!
# The resolver

`Core/PermissionResolver.cpp`: the node path and the two walks over it, `resolve` and `resolveWithTrace`.  An ACL
provider is a function from nodes to lists of ACEs.
-/

namespace BakaPerms

/-- The position of the last occurrence of a character (`std::string::rfind`). -/
def rfind (c : Char) : List Char → Option Nat
  | [] => none
  | x :: xs =>
    match rfind c xs with
    | some i => some (i + 1)
    | none => if x = c then some 0 else none

/-- `substr(0, pos)`. -/
def substr (s : String) (pos : Nat) : String := String.ofList (s.toList.take pos)

structure TraceStep where
  node : String
  aclFound : Bool := false
  acl : List ACE := []
  matchedAceIdx : Int := -1
  matchedTokenKind : TokenEntryKind := .subject

structure PermissionTrace where
  subjectKind : SubjectKind := .player
  subjectUuid : String := ""
  requestedNode : String := ""
  nodePath : List String := []
  token : AccessToken := .empty
  steps : List TraceStep := []
  finalResult : AccessMask := .deny

namespace PermissionResolver

abbrev ACLProvider := String → List ACE

/-- The `while` loop of `buildNodePath`: the strings it pushes after the node.  Every round shortens `current`, so
it makes no more rounds than `current` has characters (`mem_parentNodes`). -/
def parentNodes : Nat → String → List String
  | 0, _ => []
  | rounds + 1, current =>
    match rfind '.' current.toList with
    | none => []
    | some pos => substr current pos :: parentNodes rounds (substr current pos)

/-- The path before the root wildcard is added. -/
def ownPath (node : String) : List String := node :: parentNodes node.toList.length node

def buildNodePath (node : String) : Except Exn (List String) :=
  if node = "" then .error (.invalidArgument "Permission node must not be empty")
  else
    let path := ownPath node
    .ok (if path.getLast? ≠ some "*" then path ++ ["*"] else path)

/-! ### `resolve` -/

/-- The inner loop of `resolve`. -/
def firstMatch (token : AccessToken) : List ACE → Option AccessMask
  | [] => none
  | ace :: acl =>
    if ace.subjectUuid = "*" ∨ token.contains ace.subjectUuid then some ace.mask else firstMatch token acl

/-- The outer loop of `resolve`. -/
def resolvePath (token : AccessToken) (getNodeACL : ACLProvider) : List String → AccessMask
  | [] => .deny
  | node :: path =>
    let acl := getNodeACL node
    if acl.isEmpty then resolvePath token getNodeACL path
    else
      match firstMatch token acl with
      | some mask => mask
      -- the implicit deny: the less specific nodes are not consulted
      | none => .deny

def resolve (requestedNode : String) (token : AccessToken) (getNodeACL : ACLProvider) :
    Except Exn AccessMask := do
  let nodePath ← buildNodePath requestedNode
  return resolvePath token getNodeACL nodePath

/-! ### `resolveWithTrace` -/

/-- The inner loop of `resolveWithTrace` from index `i` on: the step with its match, and the mask of the match. -/
def traceACL (token : AccessToken) (step : TraceStep) (i : Nat) : List ACE → Option (TraceStep × AccessMask)
  | [] => none
  | ace :: acl =>
    if ace.subjectUuid = "*" then
      some ({ step with matchedAceIdx := i, matchedTokenKind := .wildcard }, ace.mask)
    else
      match token.find ace.subjectUuid with
      | some entry => some ({ step with matchedAceIdx := i, matchedTokenKind := entry.kind }, ace.mask)
      | none => traceACL token step (i + 1) acl

/-- The outer loop of `resolveWithTrace`. -/
def tracePath (token : AccessToken) (getNodeACL : ACLProvider) (trace : PermissionTrace) :
    List String → PermissionTrace
  | [] => { trace with finalResult := .deny }
  | node :: path =>
    let acl := getNodeACL node
    if acl.isEmpty then
      tracePath token getNodeACL { trace with steps := trace.steps ++ [{ node, aclFound := false }] } path
    else
      let step : TraceStep := { node, aclFound := true, acl }
      match traceACL token step 0 acl with
      | some (step, mask) => { trace with steps := trace.steps ++ [step], finalResult := mask }
      | none => { trace with steps := trace.steps ++ [step], finalResult := .deny }

def resolveWithTrace (requestedNode : String) (token : AccessToken) (getNodeACL : ACLProvider) :
    Except Exn PermissionTrace := do
  let nodePath ← buildNodePath requestedNode
  return tracePath token getNodeACL { requestedNode, token, nodePath } nodePath

end PermissionResolver

end BakaPerms
