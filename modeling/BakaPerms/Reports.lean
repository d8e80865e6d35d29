import BakaPerms.Commands

/-!
# What reports say

The texts of the commands again, each as a function of what it is about: the mask of a check, the decision of a trace, or
the items of a listing, one on a line (`itemized`).  The keys of the labels are spelled out.  The texts that the handlers
put together are these (`checkResultText_eq`, `formatTrace_eq`, `groupListText_eq`, `foldl_eq_itemized`).
-/

namespace BakaPerms

open PermsCommand

/-- The key of its label. -/
def AccessMask.labelKey : AccessMask → String
  | allow => "bakaperms.label.allow"
  | deny => "bakaperms.label.deny"

def SubjectKind.labelKey : SubjectKind → String
  | player => "bakaperms.label.player"
  | group => "bakaperms.label.group"

/-- A header, and the items on a line each. -/
def itemized (header : String) (items : List String) : String :=
  header ++ String.join (items.map fun item => "\n  " ++ item)

namespace Services

variable (svc : Services)

/-- The result of a check. -/
def checkReport (label node name : String) (mask : AccessMask) : String :=
  svc.tr "bakaperms.check.result" [node, svc.tr label [], name, svc.tr mask.labelKey []]

/-- A trace, whose last line tells the decision. -/
def traceReport (db : Db) (trace : PermissionTrace) : String :=
  let suffix := ((resultSuffix (traceText svc db trace)).map (svc.tr · [])).getD ""
  traceBody svc db trace ++ "\n" ++ svc.tr "bakaperms.trace.complete" [svc.tr trace.subjectKind.labelKey [],
    traceSubjectName svc db trace, trace.requestedNode, svc.tr trace.finalResult.labelKey [] ++ suffix]

/-- A group in the list of groups. -/
def groupItem (group : GroupInfo) : Option String → String
  | none => svc.tr "bakaperms.group.list_entry" [group.name, group.uuid]
  | some parentName => svc.tr "bakaperms.group.list_entry" [group.name, group.uuid] ++ " -> " ++
      svc.tr "bakaperms.group.info_parent" [parentName]

def groupsReport (groups : List GroupInfo) (parentName : GroupInfo → Option String) : String :=
  if groups = [] then svc.tr "bakaperms.group.list_empty" []
  else itemized (svc.tr "bakaperms.group.list_header" [toString groups.length])
    (groups.map fun group => svc.groupItem group (parentName group))

/-- An ACE in the list of those of its subject. -/
def subjectItem (line : NodeACE) : String :=
  s!"[{line.node}] #{line.ace.orderIndex} {svc.tr line.ace.mask.labelKey []}"

def groupReport (group : GroupInfo) (parentName : Option String) (aces : List NodeACE) (members : List String) :
    String :=
  svc.tr "bakaperms.group.info_header" [group.name, group.uuid] ++
    (parentName.elim "" fun name => "\n" ++ svc.tr "bakaperms.group.info_parent" [name]) ++
    (if aces = [] then ""
      else itemized ("\n" ++ svc.tr "bakaperms.group.info_aces" []) (aces.map svc.subjectItem)) ++
    if members = [] then ""
    else itemized ("\n" ++ svc.tr "bakaperms.group.info_members" [toString members.length])
      (members.map fun member => (svc.fromUuid member).getD member)

def playerReport (playerName playerUuid : String) (groups : List GroupInfo) (aces : List NodeACE) : String :=
  svc.tr "bakaperms.user.info_header" [playerName, playerUuid] ++
    (if groups = [] then "\n" ++ svc.tr "bakaperms.user.info_no_groups" []
      else itemized ("\n" ++ svc.tr "bakaperms.user.info_groups" [toString groups.length])
        (groups.map fun group => svc.tr "bakaperms.user.info_group_entry" [group.name])) ++
    if aces = [] then "\n" ++ svc.tr "bakaperms.user.info_no_aces" []
    else itemized ("\n" ++ svc.tr "bakaperms.user.info_aces" []) (aces.map svc.subjectItem)

/-- Who an ACE is about. -/
def aceSubject (groupName : String → Option String) (ace : ACE) : String :=
  if ace.subjectUuid = "*" then svc.tr "bakaperms.label.everyone" []
  else if ace.subjectType = 1 then
    svc.tr "bakaperms.label.group" [] ++ ":" ++ (groupName ace.subjectUuid).getD ace.subjectUuid
  else svc.tr "bakaperms.label.player" [] ++ ":" ++ (svc.fromUuid ace.subjectUuid).getD ace.subjectUuid

/-- An ACE in the list of those of its node. -/
def aclItem (groupName : String → Option String) (ace : ACE) : String :=
  s!"#{ace.orderIndex} {svc.aceSubject groupName ace} {svc.tr ace.mask.labelKey []}"

def aclReport (node : String) (acl : List ACE) (groupName : String → Option String) : String :=
  if acl = [] then svc.tr "bakaperms.acl.empty" [node]
  else itemized (svc.tr "bakaperms.acl.info_header" [node, toString acl.length]) (acl.map (svc.aclItem groupName))

end Services

/-! ### The texts of the handlers -/

section Texts

variable (svc : Services)

theorem accessMaskToString_eq (mask : AccessMask) : accessMaskToString svc mask = svc.tr mask.labelKey [] := by
  cases mask <;> rfl

theorem subjectKindToString_eq (kind : SubjectKind) : subjectKindToString svc kind = svc.tr kind.labelKey [] := by
  cases kind <;> rfl

theorem checkResultText_eq (label node name : String) (mask : AccessMask) :
    checkResultText svc label node name mask = svc.checkReport label node name mask := by
  unfold checkResultText Services.checkReport
  rw [accessMaskToString_eq]

theorem formatTrace_eq (db : Db) (trace : PermissionTrace) : formatTrace svc db trace = svc.traceReport db trace := by
  unfold formatTrace Services.traceReport
  rw [accessMaskToString_eq, subjectKindToString_eq]

theorem itemized_nil (header : String) : itemized header [] = header := String.append_empty ..

theorem itemized_cons (header item : String) (items : List String) :
    itemized header (item :: items) = itemized (header ++ ("\n  " ++ item)) items := by
  unfold itemized
  rw [List.map_cons, String.join_cons, ← String.append_assoc]

/-- Lines that a loop appends one after another. -/
theorem foldl_eq_itemized {α : Type} {step : String → α → String} {item : α → String}
    (hstep : ∀ msg a, step msg a = msg ++ ("\n  " ++ item a)) (header : String) (l : List α) :
    l.foldl step header = itemized header (l.map item) := by
  induction l generalizing header with
  | nil => exact (itemized_nil header).symm
  | cons a l ih => rw [List.foldl_cons, ih, hstep, List.map_cons, itemized_cons]

example : itemized "head" ["a", "b"] = "head\n  a\n  b" := by decide

/-- The name of a group in a list; among groups with one uuid, the last one counts. -/
def nameAmong (groups : List GroupInfo) (uuid : String) : Option String :=
  (groups.reverse.find? fun group => group.uuid == uuid).map GroupInfo.name

/-- The map that `group list` builds first. -/
theorem groupNames_eq (groups : List GroupInfo) :
    groups.foldl (fun (names : String → Option String) g => Function.update names g.uuid (some g.name)) (fun _ => none) =
      nameAmong groups := by
  induction groups using List.reverseRecOn with
  | nil => rfl
  | append_singleton groups group ih =>
    funext uuid
    rw [List.foldl_append, ih, List.foldl_cons, List.foldl_nil]
    unfold nameAmong
    rw [List.reverse_append, List.reverse_singleton, List.singleton_append]
    by_cases h : group.uuid = uuid
    · rw [h, Function.update_self, List.find?_cons_of_pos (by simpa using h), Option.map_some]
    · rw [Function.update_of_ne (Ne.symm h), List.find?_cons_of_neg (by simpa using h)]

theorem groupListText_eq (groups : List GroupInfo) : groupListText svc groups =
    itemized (svc.tr "bakaperms.group.list_header" [toString groups.length])
      (groups.map fun group => svc.groupItem group (group.parentUuid.bind (nameAmong groups))) := by
  unfold groupListText
  rw [groupNames_eq]
  refine foldl_eq_itemized (fun msg group => ?_) ..
  dsimp only
  cases group.parentUuid.bind (nameAmong groups) with
  | none => exact String.append_assoc ..
  | some parentName => simp only [Services.groupItem, String.append_assoc]

theorem append_subjectACEsText (header : String) (aces : List NodeACE) :
    header ++ subjectACEsText svc aces = itemized header (aces.map svc.subjectItem) := by
  have hstep (msg : String) (line : NodeACE) :
      msg ++ s!"\n  [{line.node}] #{line.ace.orderIndex} {accessMaskToString svc line.ace.mask}" =
        msg ++ ("\n  " ++ svc.subjectItem line) := by
    rw [accessMaskToString_eq]
    exact congrArg (msg ++ ·) rfl
  unfold subjectACEsText
  rw [foldl_eq_itemized hstep, itemized, itemized, String.empty_append]

theorem acesText_eq (header none : String) (aces : List NodeACE) :
    (if aces = [] then none else "\n" ++ header ++ subjectACEsText svc aces) =
      if aces = [] then none else itemized ("\n" ++ header) (aces.map svc.subjectItem) := by
  rw [append_subjectACEsText]

theorem membersText_eq (header : String) (members : List String) :
    members.foldl (fun msg m => msg ++ s!"\n  {(svc.fromUuid m).getD m}") header =
      itemized header (members.map fun member => (svc.fromUuid member).getD member) :=
  foldl_eq_itemized (fun _ _ => rfl) header members

theorem playerGroupsText_eq (header : String) (groups : List GroupInfo) :
    groups.foldl (fun msg g => msg ++ "\n  " ++ svc.tr "bakaperms.user.info_group_entry" [g.name]) header =
      itemized header (groups.map fun group => svc.tr "bakaperms.user.info_group_entry" [group.name]) := by
  refine foldl_eq_itemized (fun msg group => ?_) ..
  exact String.append_assoc ..

/-- The name that the tables have for a group. -/
def groupName (db : Db) (uuid : String) : Option String := (PermissionRepository.getGroup db uuid).map GroupInfo.name

theorem parentText_eq (db : Db) (group : GroupInfo) :
    (match group.parentUuid.bind (PermissionRepository.getGroup db) with
      | some parent => "\n" ++ svc.tr "bakaperms.group.info_parent" [parent.name]
      | none => "") =
      (group.parentUuid.bind (groupName db)).elim "" fun name => "\n" ++ svc.tr "bakaperms.group.info_parent" [name] := by
  unfold groupName
  cases group.parentUuid with
  | none => rfl
  | some uuid =>
    rw [Option.bind_some, Option.bind_some]
    cases PermissionRepository.getGroup db uuid <;> rfl

theorem aclItem_eq (db : Db) (msg : String) (ace : ACE) :
    msg ++ s!"\n  #{ace.orderIndex} {aceSubjectLabel svc db ace} {accessMaskToString svc ace.mask}" =
      msg ++ ("\n  " ++ svc.aclItem (groupName db) ace) := by
  rw [accessMaskToString_eq]
  exact congrArg (msg ++ ·) rfl

end Texts

end BakaPerms
