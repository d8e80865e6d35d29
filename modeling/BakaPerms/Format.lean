import BakaPerms.Manager

/-!
# Texts

The helpers of `Commands/PermsCommand.cpp` that build the texts of the commands, up to `formatTrace`.  What the
server provides is a parameter: the translation of a key with its arguments, and the lookups of the player
directory.
-/

namespace BakaPerms

/-- The services of the server: `_tr`, the uuid of a player's name, and the name of a player's uuid. -/
structure Services where
  tr : String → List String → String
  fromName : String → Option String
  fromUuid : String → Option String

/-- The text of an exception (`what()`). -/
def Exn.what (svc : Services) : Exn → String
  | outOfRange what => what
  | operationFailed key args => svc.tr "bakaperms.exception.operation_failed" [svc.tr key args]
  | invalidArgument detail => svc.tr "bakaperms.exception.invalid_argument" [detail]
  | database what => what

section Labels

variable (svc : Services)

def accessMaskToString : AccessMask → String
  | .allow => svc.tr "bakaperms.label.allow" []
  | .deny => svc.tr "bakaperms.label.deny" []

def resolveUuidLabel (db : Db) (uuid : String) : String :=
  if uuid = "*" then svc.tr "bakaperms.label.everyone" []
  else
    match PermissionRepository.getGroup db uuid with
    | some group => svc.tr "bakaperms.label.group" [] ++ ":" ++ group.name
    | none =>
      match svc.fromUuid uuid with
      | some name => svc.tr "bakaperms.label.player" [] ++ ":" ++ name
      | none => uuid

def tokenEntryKindToString : TokenEntryKind → String
  | .subject => svc.tr "bakaperms.label.subject" []
  | .directGroup => svc.tr "bakaperms.label.direct_group" []
  | .inheritedGroup => svc.tr "bakaperms.label.inherited_group" []
  | .wildcard => svc.tr "bakaperms.label.wildcard" []

def subjectKindToString : SubjectKind → String
  | .player => svc.tr "bakaperms.label.player" []
  | .group => svc.tr "bakaperms.label.group" []

def traceSubjectName (db : Db) (trace : PermissionTrace) : String :=
  match trace.subjectKind with
  | .player => (svc.fromUuid trace.subjectUuid).getD trace.subjectUuid
  | .group => ((PermissionRepository.getGroup db trace.subjectUuid).map GroupInfo.name).getD trace.subjectUuid

end Labels

/-! ### `formatTrace` -/

/-- The variables of `formatTrace`'s loop. -/
structure TraceText where
  msg : String
  anyAclFound : Bool := false
  matched : Bool := false

section FormatTrace

variable (svc : Services) (db : Db)

/-- The loop over the ACEs of a step, from index `i` on. -/
def formatAces (step : TraceStep) (i : Nat) (text : TraceText) : List ACE → TraceText
  | [] => text
  | ace :: acl =>
    let args := [step.node, toString ace.orderIndex, accessMaskToString svc ace.mask,
      resolveUuidLabel svc db ace.subjectUuid]
    if (i : Int) = step.matchedAceIdx then
      let line := svc.tr "bakaperms.trace.ace_matched" (args ++ [tokenEntryKindToString svc step.matchedTokenKind])
      formatAces step (i + 1) { text with msg := text.msg ++ "\n            " ++ line, matched := true } acl
    else
      let line := svc.tr "bakaperms.trace.ace_skipped" args
      formatAces step (i + 1) { text with msg := text.msg ++ "\n            " ++ line } acl

/-- The lines about the outcome of a step that has an ACL.  An index behind the end of the ACL, which no trace has,
prints nothing. -/
def formatOutcome (kindStr subjectName : String) (step : TraceStep) : String :=
  if step.matchedAceIdx ≥ 0 then
    match step.acl[step.matchedAceIdx.toNat]? with
    | some matchedAce =>
      let detail := svc.tr "bakaperms.trace.match_detail" [toString matchedAce.orderIndex,
        resolveUuidLabel svc db matchedAce.subjectUuid, tokenEntryKindToString svc step.matchedTokenKind]
      let resolved := svc.tr "bakaperms.trace.resolved" [step.node, accessMaskToString svc matchedAce.mask]
      "\n        " ++ detail ++ "\n    " ++ resolved
    | none => ""
  else
    "\n        " ++ svc.tr "bakaperms.trace.no_match" [kindStr, subjectName] ++
      "\n    " ++ svc.tr "bakaperms.trace.implicit_deny" [step.node]

/-- One round of the loop over the steps. -/
def formatStep (kindStr subjectName : String) (text : TraceText) (step : TraceStep) : TraceText :=
  let msg := text.msg ++ "\n    " ++ svc.tr "bakaperms.trace.searching" [step.node]
  if step.aclFound = false then
    { text with msg := msg ++ "\n        " ++ svc.tr "bakaperms.trace.no_acl" [step.node] }
  else
    let found := msg ++ "\n        " ++ svc.tr "bakaperms.trace.found_node" [step.node]
    let text := formatAces svc db step 0 { text with msg := found, anyAclFound := true } step.acl
    { text with msg := text.msg ++ formatOutcome svc db kindStr subjectName step }

/-- The key of the suffix of the result. -/
def resultSuffix (text : TraceText) : Option String :=
  if text.matched = false then
    some (if text.anyAclFound then "bakaperms.trace.suffix_implicit" else "bakaperms.trace.suffix_default")
  else none

/-- The text after the loop over the steps. -/
def traceText (trace : PermissionTrace) : TraceText :=
  let kindStr := subjectKindToString svc trace.subjectKind
  let subjectName := traceSubjectName svc db trace
  let header := svc.tr "bakaperms.trace.header" [trace.requestedNode, kindStr, subjectName]
  let tokenHeader := header ++ "\n    " ++ svc.tr "bakaperms.trace.token_header" [toString trace.token.size]
  let msg := trace.token.entries.foldl (fun msg entry =>
    msg ++ s!"\n        [{tokenEntryKindToString svc entry.kind}] {resolveUuidLabel svc db entry.uuid}") tokenHeader
  trace.steps.foldl (formatStep svc db kindStr subjectName) { msg }

/-- The text up to the last line. -/
def traceBody (trace : PermissionTrace) : String :=
  let text := traceText svc db trace
  if text.matched = false ∧ text.anyAclFound = false then
    text.msg ++ "\n" ++ svc.tr "bakaperms.trace.no_acl_for_subject" [subjectKindToString svc trace.subjectKind,
      traceSubjectName svc db trace]
  else text.msg

def formatTrace (trace : PermissionTrace) : String :=
  let suffix := ((resultSuffix (traceText svc db trace)).map (svc.tr · [])).getD ""
  let resultStr := accessMaskToString svc trace.finalResult ++ suffix
  traceBody svc db trace ++ "\n" ++ svc.tr "bakaperms.trace.complete" [subjectKindToString svc trace.subjectKind,
    traceSubjectName svc db trace, trace.requestedNode, resultStr]

end FormatTrace

end BakaPerms
