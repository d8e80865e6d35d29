import BakaPerms.Decision
import BakaPerms.Format
import BakaPerms.Token

/-!
# Traces

`resolveWithTrace` is `resolve` with a record of what it looks at.  The nodes without an ACL give a step without
an ACL each, and the first node that has one gives the last step, with the first ACE that speaks about the token
(`tracePath_cases`).  So the trace explains the decision (`Explains`), and the summary that `formatTrace` computes
from its steps says how the decision came about.
-/

namespace BakaPerms

open PermissionResolver

namespace AccessToken

/-- The kind under which an entry about the token matches: wildcards come first. -/
def MatchKind (token : AccessToken) (subjectUuid : String) (kind : TokenEntryKind) : Prop :=
  (subjectUuid = "*" ∧ kind = .wildcard) ∨ (subjectUuid ≠ "*" ∧ (⟨subjectUuid, kind⟩ : TokenEntry) ∈ token.entries)

theorem contains_of_find {token : AccessToken} {uuid : String} {result : Option TokenEntry}
    (h : token.find uuid = result) : token.contains uuid = result.isSome := by
  rw [← find_isSome, h]

end AccessToken

/-- What the last step of a trace says about the decision: the ACE at the matched index is the first one that
speaks about the token, and its mask is the result; without such an ACE the index is `-1` and the result `deny`. -/
def Outcome (token : AccessToken) (step : TraceStep) (result : AccessMask) : Prop :=
  (step.matchedAceIdx = -1 ∧ (∀ ace ∈ step.acl, token.matches ace.subjectUuid = false) ∧ result = .deny) ∨
    ∃ (i : Nat) (ace : ACE), step.acl[i]? = some ace ∧ step.matchedAceIdx = (i : Int) ∧
      token.matches ace.subjectUuid = true ∧
      (∀ j < i, ∀ ace', step.acl[j]? = some ace' → token.matches ace'.subjectUuid = false) ∧
      token.MatchKind ace.subjectUuid step.matchedTokenKind ∧ result = ace.mask

/-- The trace is an account of the walk along the path. -/
structure Explains (getNodeACL : ACLProvider) (token : AccessToken) (path : List String)
    (trace : PermissionTrace) : Prop where
  nonempty : trace.steps ≠ []
  visited : trace.steps.map TraceStep.node <+: path
  skipped : ∀ step ∈ trace.steps.dropLast, step.aclFound = false
  stopped : trace.steps.length < path.length → ∀ step, trace.steps.getLast? = some step → step.aclFound = true
  found : ∀ step ∈ trace.steps, step.aclFound = !(getNodeACL step.node).isEmpty
  acl : ∀ step ∈ trace.steps, step.acl = getNodeACL step.node
  outcome : ∀ step, trace.steps.getLast? = some step → Outcome token step trace.finalResult

namespace PermissionResolver

/-! ### The walk -/

/-- The step of a node without an ACL. -/
def missStep (node : String) : TraceStep := { node, aclFound := false }

/-- The step of a node with an ACL. -/
def hitStep (token : AccessToken) (node : String) (acl : List ACE) : TraceStep :=
  match traceACL token { node, aclFound := true, acl } 0 acl with
  | some (step, _) => step
  | none => { node, aclFound := true, acl }

theorem traceACL_none {token : AccessToken} {step : TraceStep} {i : Nat} {acl : List ACE}
    (h : traceACL token step i acl = none) :
    firstMatch token acl = none ∧ ∀ ace ∈ acl, token.matches ace.subjectUuid = false := by
  induction acl generalizing i with
  | nil => exact ⟨rfl, by simp⟩
  | cons ace acl ih =>
    unfold traceACL at h
    by_cases hw : ace.subjectUuid = "*"
    · simp [hw] at h
    cases hf : token.find ace.subjectUuid with
    | some entry => simp [hw, hf] at h
    | none =>
      simp only [hw, ↓reduceIte, hf] at h
      have hc := AccessToken.contains_of_find hf
      obtain ⟨hfirst, hrest⟩ := ih h
      refine ⟨by simp [firstMatch, hw, hc, hfirst], fun ace' hace' => ?_⟩
      rcases List.mem_cons.1 hace' with rfl | hace'
      · simp [AccessToken.matches, hw, hc]
      · exact hrest ace' hace'

theorem traceACL_some {token : AccessToken} {step step' : TraceStep} {i : Nat} {acl : List ACE} {mask : AccessMask}
    (h : traceACL token step i acl = some (step', mask)) :
    firstMatch token acl = some mask ∧ ∃ l₁ ace l₂ kind, acl = l₁ ++ ace :: l₂ ∧
      step' = { step with matchedAceIdx := ((i + l₁.length : Nat) : Int), matchedTokenKind := kind } ∧
      token.matches ace.subjectUuid = true ∧ (∀ ace' ∈ l₁, token.matches ace'.subjectUuid = false) ∧
      token.MatchKind ace.subjectUuid kind ∧ mask = ace.mask := by
  induction acl generalizing i with
  | nil => cases h
  | cons ace acl ih =>
    unfold traceACL at h
    by_cases hw : ace.subjectUuid = "*"
    · simp only [hw, ↓reduceIte, Option.some.injEq, Prod.mk.injEq] at h
      obtain ⟨rfl, rfl⟩ := h
      refine ⟨by simp [firstMatch, hw], [], ace, acl, .wildcard, rfl, rfl, ?_, by simp, .inl ⟨hw, rfl⟩, rfl⟩
      simp [AccessToken.matches, hw]
    cases hf : token.find ace.subjectUuid with
    | some entry =>
      simp only [hw, ↓reduceIte, hf, Option.some.injEq, Prod.mk.injEq] at h
      obtain ⟨rfl, rfl⟩ := h
      have hc := AccessToken.contains_of_find hf
      obtain ⟨hmem, huuid⟩ := AccessToken.find_eq_some.1 hf
      refine ⟨by simp [firstMatch, hc], [], ace, acl, entry.kind, rfl, rfl, ?_, by simp, .inr ⟨hw, ?_⟩, rfl⟩
      · simp [AccessToken.matches, hc]
      · rw [← huuid]
        exact hmem
    | none =>
      simp only [hw, ↓reduceIte, hf] at h
      have hc := AccessToken.contains_of_find hf
      obtain ⟨hfirst, l₁, ace', l₂, kind, rfl, rfl, hmatch, hbefore, hkind, hmask⟩ := ih h
      refine ⟨by simp [firstMatch, hw, hc, hfirst], ace :: l₁, ace', l₂, kind, rfl, ?_, hmatch, ?_, hkind, hmask⟩
      · rw [List.length_cons, Nat.add_right_comm, Nat.add_assoc]
      · intro ace'' h''
        rcases List.mem_cons.1 h'' with rfl | h''
        · simp [AccessToken.matches, hw, hc]
        · exact hbefore ace'' h''

theorem hitStep_spec (token : AccessToken) (node : String) (acl : List ACE) :
    (hitStep token node acl).node = node ∧ (hitStep token node acl).aclFound = true ∧
      (hitStep token node acl).acl = acl ∧
      Outcome token (hitStep token node acl) ((firstMatch token acl).getD .deny) := by
  unfold hitStep
  cases h : traceACL token { node, aclFound := true, acl } 0 acl with
  | none =>
    obtain ⟨hfirst, hnone⟩ := traceACL_none h
    exact ⟨rfl, rfl, rfl, .inl ⟨rfl, hnone, by rw [hfirst]; rfl⟩⟩
  | some result =>
    obtain ⟨step, mask⟩ := result
    obtain ⟨hfirst, l₁, ace, l₂, kind, rfl, rfl, hmatch, hbefore, hkind, hmask⟩ := traceACL_some h
    refine ⟨rfl, rfl, rfl, .inr ⟨l₁.length, ace, by simp, by simp, hmatch, fun j hj ace' hace' => ?_, hkind, ?_⟩⟩
    · rw [List.getElem?_append_left hj] at hace'
      exact hbefore ace' (List.mem_of_getElem? hace')
    · rw [hfirst]
      exact hmask

/-- The walk misses every node of the path, or it misses some and stops at the next one. -/
theorem tracePath_cases (token : AccessToken) (getNodeACL : ACLProvider) (trace : PermissionTrace)
    (path : List String) :
    ((∀ k ∈ path, (getNodeACL k).isEmpty) ∧ resolvePath token getNodeACL path = .deny ∧
      tracePath token getNodeACL trace path =
        { trace with steps := trace.steps ++ path.map missStep, finalResult := .deny }) ∨
    ∃ l₁ k l₂, path = l₁ ++ k :: l₂ ∧ (∀ k' ∈ l₁, (getNodeACL k').isEmpty) ∧ (getNodeACL k).isEmpty = false ∧
      resolvePath token getNodeACL path = (firstMatch token (getNodeACL k)).getD .deny ∧
      tracePath token getNodeACL trace path =
        { trace with
          steps := trace.steps ++ (l₁.map missStep ++ [hitStep token k (getNodeACL k)])
          finalResult := (firstMatch token (getNodeACL k)).getD .deny } := by
  induction path generalizing trace with
  | nil =>
    left
    simp [tracePath, resolvePath]
  | cons k path ih =>
    unfold tracePath resolvePath
    by_cases hk : (getNodeACL k).isEmpty
    · simp only [hk, ↓reduceIte]
      rcases ih { trace with steps := trace.steps ++ [missStep k] } with
        ⟨hall, hres, htrace⟩ | ⟨l₁, k', l₂, hpath, hall, hne, hres, htrace⟩
      · left
        refine ⟨?_, hres, ?_⟩
        · intro k' hk'
          rcases List.mem_cons.1 hk' with rfl | hk'
          · exact hk
          · exact hall k' hk'
        · refine htrace.trans ?_
          simp
      · right
        refine ⟨k :: l₁, k', l₂, by rw [hpath]; rfl, ?_, hne, hres, ?_⟩
        · intro k'' hk''
          rcases List.mem_cons.1 hk'' with rfl | hk''
          · exact hk
          · exact hall k'' hk''
        · refine htrace.trans ?_
          simp
    · right
      rw [Bool.not_eq_true] at hk
      refine ⟨[], k, path, rfl, by simp, hk, ?_⟩
      simp only [hk, Bool.false_eq_true, ↓reduceIte, List.map_nil, List.nil_append]
      unfold hitStep
      cases h : traceACL token { node := k, aclFound := true, acl := getNodeACL k } 0 (getNodeACL k) with
      | none =>
        rw [(traceACL_none h).1]
        exact ⟨rfl, rfl⟩
      | some result =>
        obtain ⟨step, mask⟩ := result
        rw [(traceACL_some h).1]
        exact ⟨rfl, rfl⟩

@[simp] theorem requestedNode_tracePath (token : AccessToken) (getNodeACL : ACLProvider) (trace : PermissionTrace)
    (path : List String) : (tracePath token getNodeACL trace path).requestedNode = trace.requestedNode := by
  rcases tracePath_cases token getNodeACL trace path with ⟨-, -, h⟩ | ⟨l₁, k, l₂, -, -, -, -, h⟩ <;> rw [h]

/-- The traced walk has the result of the plain one. -/
theorem finalResult_tracePath (token : AccessToken) (getNodeACL : ACLProvider) (trace : PermissionTrace)
    (path : List String) :
    (tracePath token getNodeACL trace path).finalResult = resolvePath token getNodeACL path := by
  rcases tracePath_cases token getNodeACL trace path with ⟨-, hres, h⟩ | ⟨l₁, k, l₂, -, -, -, hres, h⟩ <;> rw [h, hres]

/-- A trace that misses the whole path. -/
theorem explains_missed {token : AccessToken} {getNodeACL : ACLProvider} {path : List String}
    {trace : PermissionTrace} (hsteps : trace.steps = path.map missStep) (hres : trace.finalResult = .deny)
    (hpath : path ≠ []) (hall : ∀ k ∈ path, (getNodeACL k).isEmpty) : Explains getNodeACL token path trace := by
  have hmiss : ∀ step ∈ trace.steps, ∃ k ∈ path, step = missStep k := by
    intro step hstep
    rw [hsteps] at hstep
    obtain ⟨k, hk, rfl⟩ := List.mem_map.1 hstep
    exact ⟨k, hk, rfl⟩
  constructor
  case nonempty => simpa [hsteps] using hpath
  case visited => simp [hsteps, Function.comp_def, missStep]
  case skipped =>
    intro step hstep
    obtain ⟨k, -, rfl⟩ := hmiss step (List.dropLast_subset _ hstep)
    rfl
  case stopped =>
    intro hlt
    simp [hsteps] at hlt
  case found =>
    intro step hstep
    obtain ⟨k, hk, rfl⟩ := hmiss step hstep
    simp [missStep, hall k hk]
  case acl =>
    intro step hstep
    obtain ⟨k, hk, rfl⟩ := hmiss step hstep
    simpa [missStep] using (hall k hk).symm
  case outcome =>
    intro step hstep
    obtain ⟨k, -, rfl⟩ := hmiss step (List.mem_of_getLast? hstep)
    exact .inl ⟨rfl, by simp [missStep], hres⟩

/-- A trace that stops at the first node with an ACL. -/
theorem explains_stopped {token : AccessToken} {getNodeACL : ACLProvider} {l₁ l₂ : List String} {k : String}
    {trace : PermissionTrace} (hsteps : trace.steps = l₁.map missStep ++ [hitStep token k (getNodeACL k)])
    (hres : trace.finalResult = (firstMatch token (getNodeACL k)).getD .deny)
    (hall : ∀ k' ∈ l₁, (getNodeACL k').isEmpty) (hne : (getNodeACL k).isEmpty = false) :
    Explains getNodeACL token (l₁ ++ k :: l₂) trace := by
  obtain ⟨hnode, hfound, hacl, hout⟩ := hitStep_spec token k (getNodeACL k)
  have hstep : ∀ step ∈ trace.steps, (∃ k' ∈ l₁, step = missStep k') ∨ step = hitStep token k (getNodeACL k) := by
    intro step hstep
    rw [hsteps] at hstep
    rcases List.mem_append.1 hstep with hstep | hstep
    · obtain ⟨k', hk', rfl⟩ := List.mem_map.1 hstep
      exact .inl ⟨k', hk', rfl⟩
    · exact .inr (List.mem_singleton.1 hstep)
  have hlast : ∀ step, trace.steps.getLast? = some step → step = hitStep token k (getNodeACL k) := by
    intro step hs
    rw [hsteps, List.getLast?_concat, Option.some.injEq] at hs
    exact hs.symm
  constructor
  case nonempty => simp [hsteps]
  case visited =>
    refine ⟨l₂, ?_⟩
    simp [hsteps, Function.comp_def, missStep, hnode]
  case skipped =>
    intro step hs
    rw [hsteps, List.dropLast_concat] at hs
    obtain ⟨k', -, rfl⟩ := List.mem_map.1 hs
    rfl
  case stopped =>
    intro _ step hs
    rw [hlast step hs, hfound]
  case found =>
    intro step hs
    rcases hstep step hs with ⟨k', hk', rfl⟩ | rfl
    · simp [missStep, hall k' hk']
    · rw [hnode, hfound, hne]
      rfl
  case acl =>
    intro step hs
    rcases hstep step hs with ⟨k', hk', rfl⟩ | rfl
    · simpa [missStep] using (hall k' hk').symm
    · rw [hacl, hnode]
  case outcome =>
    intro step hs
    rw [hlast step hs, hres]
    exact hout

theorem explains_tracePath (token : AccessToken) (getNodeACL : ACLProvider) {trace : PermissionTrace}
    {path : List String} (hs : trace.steps = []) (hpath : path ≠ []) :
    Explains getNodeACL token path (tracePath token getNodeACL trace path) ∧
      (tracePath token getNodeACL trace path).finalResult = resolvePath token getNodeACL path := by
  refine ⟨?_, finalResult_tracePath ..⟩
  rcases tracePath_cases token getNodeACL trace path with
    ⟨hall, -, htrace⟩ | ⟨l₁, k, l₂, rfl, hall, hne, -, htrace⟩
  · rw [htrace, hs, List.nil_append]
    exact explains_missed rfl rfl hpath hall
  · rw [htrace, hs, List.nil_append]
    exact explains_stopped rfl rfl hall hne

end PermissionResolver

/-! ### The summary of `formatTrace` -/

section Summary

variable (svc : Services) (db : Db)

theorem flags_formatAces (step : TraceStep) (i : Nat) (text : TraceText) (acl : List ACE) :
    ((formatAces svc db step i text acl).matched = true ↔
      text.matched = true ∨ ((i : Int) ≤ step.matchedAceIdx ∧ step.matchedAceIdx < (i : Int) + acl.length)) ∧
      (formatAces svc db step i text acl).anyAclFound = text.anyAclFound := by
  induction acl generalizing i text with
  | nil =>
    refine ⟨⟨.inl, ?_⟩, rfl⟩
    rintro (h | h)
    · exact h
    · simp only [List.length_nil] at h
      omega
  | cons ace acl ih =>
    unfold formatAces
    simp only [List.length_cons]
    -- the flags do not depend on the message, so the induction hypothesis is used at whatever text the loop has built
    by_cases hi : (i : Int) = step.matchedAceIdx
    · simp only [hi, ↓reduceIte]
      refine ⟨(ih (i + 1) _).1.trans ?_, (ih (i + 1) _).2⟩
      constructor
      · intro _
        right
        omega
      · intro _
        exact .inl rfl
    · simp only [hi, ↓reduceIte]
      refine ⟨(ih (i + 1) _).1.trans ?_, (ih (i + 1) _).2⟩
      constructor
      · rintro (h | h)
        · exact .inl h
        · right
          omega
      · rintro (h | h)
        · exact .inl h
        · right
          omega

/-- A step counts as matched when it has an ACL with an entry at the matched index. -/
def TraceStep.hasMatch (step : TraceStep) : Bool :=
  step.aclFound && decide (0 ≤ step.matchedAceIdx) && decide (step.matchedAceIdx < step.acl.length)

theorem flags_formatStep (kindStr subjectName : String) (text : TraceText) (step : TraceStep) :
    (formatStep svc db kindStr subjectName text step).matched = (text.matched || step.hasMatch) ∧
      (formatStep svc db kindStr subjectName text step).anyAclFound = (text.anyAclFound || step.aclFound) := by
  unfold formatStep TraceStep.hasMatch
  by_cases hf : step.aclFound = false
  · simp [hf]
  · rw [Bool.not_eq_false] at hf
    simp only [hf, Bool.true_eq_false, ↓reduceIte]
    constructor
    · rw [Bool.eq_iff_iff]
      refine (flags_formatAces svc db step 0 _ step.acl).1.trans ?_
      simp
    · refine (flags_formatAces svc db step 0 _ step.acl).2.trans ?_
      simp

theorem flags_foldl_formatStep (kindStr subjectName : String) (steps : List TraceStep) (text : TraceText) :
    (steps.foldl (formatStep svc db kindStr subjectName) text).matched =
        (text.matched || steps.any TraceStep.hasMatch) ∧
      (steps.foldl (formatStep svc db kindStr subjectName) text).anyAclFound =
        (text.anyAclFound || steps.any TraceStep.aclFound) := by
  induction steps generalizing text with
  | nil => simp
  | cons step steps ih =>
    obtain ⟨hm, ha⟩ := flags_formatStep svc db kindStr subjectName text step
    obtain ⟨ihm, iha⟩ := ih (formatStep svc db kindStr subjectName text step)
    rw [List.foldl_cons, ihm, iha, hm, ha, List.any_cons, List.any_cons, Bool.or_assoc, Bool.or_assoc]
    exact ⟨rfl, rfl⟩

end Summary

/-- An ACE of the last visited ACL speaks about the token. -/
def Matched (token : AccessToken) (trace : PermissionTrace) : Prop :=
  ∃ step, trace.steps.getLast? = some step ∧ ∃ ace ∈ step.acl, token.matches ace.subjectUuid = true

namespace Explains

variable {getNodeACL : ACLProvider} {token : AccessToken} {path : List String} {trace : PermissionTrace}

theorem any_aclFound (h : Explains getNodeACL token path trace) :
    trace.steps.any TraceStep.aclFound = true ↔ ∃ k ∈ path, (getNodeACL k).isEmpty = false := by
  rw [List.any_eq_true]
  constructor
  · rintro ⟨step, hstep, hfound⟩
    refine ⟨step.node, h.visited.subset (List.mem_map_of_mem hstep), ?_⟩
    have := h.found step hstep
    rw [hfound] at this
    simpa using this.symm
  · rintro ⟨k, hk, hne⟩
    by_cases hlen : trace.steps.length < path.length
    · have hlast := List.getLast?_eq_some_getLast h.nonempty
      exact ⟨_, List.mem_of_getLast? hlast, h.stopped hlen _ hlast⟩
    · -- the whole path was visited
      have heq : trace.steps.map TraceStep.node = path := by
        refine h.visited.eq_of_length_le ?_
        rw [List.length_map]
        omega
      rw [← heq] at hk
      obtain ⟨step, hstep, rfl⟩ := List.mem_map.1 hk
      exact ⟨step, hstep, by rw [h.found step hstep, hne]; rfl⟩

/-- An entry that speaks about the token belongs to the ACL of a node of the path. -/
theorem found_of_matched (h : Explains getNodeACL token path trace) (hm : Matched token trace) :
    ∃ k ∈ path, (getNodeACL k).isEmpty = false := by
  obtain ⟨step, hstep, ace, hace, -⟩ := hm
  have hmem := List.mem_of_getLast? hstep
  refine ⟨step.node, h.visited.subset (List.mem_map_of_mem hmem), ?_⟩
  rw [← h.acl step hmem]
  simpa using List.ne_nil_of_mem hace

theorem any_hasMatch (h : Explains getNodeACL token path trace) :
    trace.steps.any TraceStep.hasMatch = true ↔ Matched token trace := by
  have hlast := List.getLast?_eq_some_getLast h.nonempty
  rw [List.any_eq_true]
  constructor
  · rintro ⟨step, hstep, hmatch⟩
    simp only [TraceStep.hasMatch, Bool.and_eq_true, decide_eq_true_eq] at hmatch
    have hstep' : trace.steps.getLast? = some step := by
      rw [← List.dropLast_append_getLast h.nonempty, List.mem_append, List.mem_singleton] at hstep
      rcases hstep with hstep | hstep
      · rw [h.skipped step hstep] at hmatch
        simp at hmatch
      · rw [hlast, hstep]
    rcases h.outcome step hstep' with ⟨hidx, -, -⟩ | ⟨i, ace, hace, -, hm, -, -, -⟩
    · omega
    · exact ⟨step, hstep', ace, List.mem_of_getElem? hace, hm⟩
  · rintro ⟨step, hstep, ace, hace, hm⟩
    have hmem := List.mem_of_getLast? hstep
    refine ⟨step, hmem, ?_⟩
    rcases h.outcome step hstep with ⟨-, hnone, -⟩ | ⟨i, ace', hace', hidx, -, -, -, -⟩
    · have := hnone ace hace
      rw [hm] at this
      cases this
    · have hfound : step.aclFound = true := by
        rw [h.found step hmem, ← h.acl step hmem]
        have hne := List.ne_nil_of_mem hace
        simpa using hne
      obtain ⟨hlt, -⟩ := List.getElem?_eq_some_iff.1 hace'
      simp only [TraceStep.hasMatch, hfound, Bool.true_and, Bool.and_eq_true, decide_eq_true_eq]
      omega

end Explains

/-- What the summary of `formatTrace` says about a trace that explains its result. -/
theorem Explains.resultSuffix_iff {getNodeACL : ACLProvider} {token : AccessToken} {path : List String}
    {trace : PermissionTrace} (h : Explains getNodeACL token path trace) (svc : Services) (db : Db)
    (kind : SubjectKind) (uuid : String) :
    let suffix := resultSuffix (traceText svc db { trace with subjectKind := kind, subjectUuid := uuid })
    (suffix = some "bakaperms.trace.suffix_implicit" ↔
        (∃ k ∈ path, (getNodeACL k).isEmpty = false) ∧ ¬ Matched token trace) ∧
      (suffix = some "bakaperms.trace.suffix_default" ↔ ∀ k ∈ path, (getNodeACL k).isEmpty = true) ∧
      (suffix = none ↔ Matched token trace) := by
  intro suffix
  obtain ⟨hm, ha⟩ := flags_foldl_formatStep svc db (subjectKindToString svc kind)
    (traceSubjectName svc db { trace with subjectKind := kind, subjectUuid := uuid }) trace.steps
    (traceText svc db { trace with subjectKind := kind, subjectUuid := uuid, steps := [] })
  have hsuffix : suffix = if trace.steps.any TraceStep.hasMatch = false then
      some (if trace.steps.any TraceStep.aclFound then "bakaperms.trace.suffix_implicit"
        else "bakaperms.trace.suffix_default")
      else none := by
    rw [← Bool.false_or (trace.steps.any TraceStep.hasMatch), ← Bool.false_or (trace.steps.any TraceStep.aclFound)]
    exact congrArg₂ (fun m a : Bool => if m = false then
      some (if a then "bakaperms.trace.suffix_implicit" else "bakaperms.trace.suffix_default") else none) hm ha
  have hall : (∀ k ∈ path, (getNodeACL k).isEmpty = true) ↔ trace.steps.any TraceStep.aclFound = false := by
    rw [← Bool.not_eq_true, h.any_aclFound]
    simp
  have himp : trace.steps.any TraceStep.hasMatch = true → trace.steps.any TraceStep.aclFound = true :=
    fun hmatch => h.any_aclFound.2 (h.found_of_matched (h.any_hasMatch.1 hmatch))
  rw [hsuffix, hall, ← h.any_aclFound, ← h.any_hasMatch]
  cases hmatch : trace.steps.any TraceStep.hasMatch with
  | false => cases trace.steps.any TraceStep.aclFound <;> simp
  | true => simp [himp hmatch]

/-! ### The trace explains the decision -/

/-- For every token and every ACL provider the trace has the result of `resolve` and explains it, and the summary
of `formatTrace` names the default deny when no node of the path has an ACL, the implicit deny when one has and no
entry of it speaks about the token, and nothing when an entry matched.  The matched kind is `wildcard` exactly for
the wildcard subject as long as the token itself has no entry of that kind, as no token of `buildToken` has. -/
theorem resolveWithTrace_explains {node : String} (hne : node ≠ "") (token : AccessToken)
    (getNodeACL : ACLProvider) :
    ∃ path trace, buildNodePath node = .ok path ∧ resolveWithTrace node token getNodeACL = .ok trace ∧
      resolve node token getNodeACL = .ok trace.finalResult ∧ Explains getNodeACL token path trace ∧
      ((∀ entry ∈ token.entries, entry.kind ≠ .wildcard) →
        ∀ step (i : Nat) ace, trace.steps.getLast? = some step → step.matchedAceIdx = (i : Int) →
          step.acl[i]? = some ace → (step.matchedTokenKind = .wildcard ↔ ace.subjectUuid = "*")) ∧
      (∀ db kind uuid, token = PermissionManager.buildToken db kind uuid →
        ∀ entry ∈ token.entries, entry.kind ≠ .wildcard) ∧
      ∀ svc db kind uuid, ∃ suffix,
        formatTrace svc db { trace with subjectKind := kind, subjectUuid := uuid } =
          traceBody svc db { trace with subjectKind := kind, subjectUuid := uuid } ++
            "\n" ++ svc.tr "bakaperms.trace.complete" [subjectKindToString svc kind,
              traceSubjectName svc db { trace with subjectKind := kind, subjectUuid := uuid }, node,
              accessMaskToString svc trace.finalResult ++ (suffix.map (svc.tr · [])).getD ""] ∧
        (suffix = some "bakaperms.trace.suffix_implicit" ↔
          (∃ k ∈ path, (getNodeACL k).isEmpty = false) ∧ ¬ Matched token trace) ∧
        (suffix = some "bakaperms.trace.suffix_default" ↔ ∀ k ∈ path, (getNodeACL k).isEmpty = true) ∧
        (suffix = none ↔ Matched token trace) := by
  obtain ⟨path, hpath, -, -, hnil⟩ := buildNodePath_eq_ok hne
  obtain ⟨hexp, hres⟩ := @explains_tracePath token getNodeACL
    { requestedNode := node, token, nodePath := path } path rfl hnil
  have hreq := requestedNode_tracePath token getNodeACL { requestedNode := node, token, nodePath := path } path
  refine ⟨path, _, hpath, ?_, ?_, hexp, ?_, ?_, fun svc db kind uuid => ⟨_, ?_, hexp.resultSuffix_iff svc db kind uuid⟩⟩
  · unfold resolveWithTrace
    simp only [hpath, bind, Except.bind, pure, Except.pure]
  · unfold resolve
    simp only [hpath, bind, Except.bind, pure, Except.pure]
    rw [hres]
  · intro htoken step i ace hstep hidx hace
    rcases hexp.outcome step hstep with ⟨hneg, -, -⟩ | ⟨j, ace', hace', hidx', -, -, hkind, -⟩
    · omega
    · have hij : i = j := by omega
      rw [hij, hace', Option.some.injEq] at hace
      subst hace
      rcases hkind with ⟨hw, hkind⟩ | ⟨hw, hmem⟩
      · simp [hw, hkind]
      · simp [hw, htoken _ hmem]
  · rintro db kind uuid rfl
    exact PermissionManager.kind_ne_wildcard_buildToken db kind uuid
  · unfold formatTrace
    simp only [hreq]

/-- A token that holds a uuid under the kind `wildcard`: the kind of a match does not tell the wildcard subject
apart. -/
theorem matchedTokenKind_wildcard_of_token :
    ∃ trace, resolveWithTrace "a" (AccessToken.empty.add "u" .wildcard) (fun _ => [⟨0, "u", 0, .allow⟩]) = .ok trace ∧
      ∃ step ace, trace.steps.getLast? = some step ∧ step.matchedAceIdx = 0 ∧ step.acl[0]? = some ace ∧
        step.matchedTokenKind = .wildcard ∧ ace.subjectUuid ≠ "*" :=
  ⟨_, rfl, _, _, rfl, rfl, rfl, rfl, by decide⟩

theorem resolveWithTrace_explains_sample :
    ∃ path trace, buildNodePath "a.b" = .ok path ∧
      resolveWithTrace "a.b" (AccessToken.empty.add "p" .subject) (fun _ => [⟨0, "p", 0, .allow⟩]) = .ok trace ∧
      resolve "a.b" (AccessToken.empty.add "p" .subject) (fun _ => [⟨0, "p", 0, .allow⟩]) = .ok trace.finalResult := by
  obtain ⟨path, trace, hpath, htrace, hres, -⟩ := resolveWithTrace_explains (by decide : "a.b" ≠ "")
    (AccessToken.empty.add "p" .subject) fun _ => [⟨0, "p", 0, .allow⟩]
  exact ⟨path, trace, hpath, htrace, hres⟩

end BakaPerms
