import Mathlib.Data.List.Nodup
import Mathlib.Logic.Function.Basic
import Mathlib.Tactic.Common

/-!
# Core types

The types of `Core/Types.hpp` and the exceptions of the program.  C++ `int` and SQLite `INTEGER` values are `Int`,
strings are `String`, vectors are lists and `unordered_map`s are functions to `Option`.

An `AccessToken` keeps its entries in a vector and a map from uuid to position.  The field `index_spec` says that
the map is the inverse of the vector, so `find` and `contains` are about the entries (`find_eq_some`,
`contains_iff`) and no uuid occurs twice (`nodup_uuids`).
-/

namespace BakaPerms

inductive AccessMask
  | deny
  | allow
  deriving DecidableEq, Repr

/-- `static_cast<int>(mask)`. -/
def AccessMask.toInt : AccessMask → Int
  | .deny => 0
  | .allow => 1

inductive SubjectKind
  | player
  | group
  deriving DecidableEq, Repr

inductive TokenEntryKind
  | subject
  | directGroup
  | inheritedGroup
  | wildcard
  deriving DecidableEq, Repr

structure TokenEntry where
  uuid : String
  kind : TokenEntryKind
  deriving DecidableEq, Repr

structure ACE where
  orderIndex : Int
  subjectUuid : String
  subjectType : Int
  mask : AccessMask
  deriving DecidableEq, Repr

structure GroupInfo where
  uuid : String
  name : String
  parentUuid : Option String
  deriving DecidableEq, Repr

structure NodeACE where
  node : String
  ace : ACE
  deriving DecidableEq, Repr

/-- The exceptions that are thrown.  `operationFailed` and `invalidArgument` carry the detail that their messages
are built from: a translation key with its arguments, and a plain text. -/
inductive Exn
  | outOfRange (what : String)
  | operationFailed (key : String) (args : List String)
  | invalidArgument (detail : String)
  | database (what : String)
  deriving DecidableEq, Repr

/-! ### Access tokens -/

structure AccessToken where
  entries : List TokenEntry
  index : String → Option Nat
  index_spec : ∀ uuid i, index uuid = some i ↔ (entries[i]?).map TokenEntry.uuid = some uuid

namespace AccessToken

def empty : AccessToken where
  entries := []
  index := fun _ => none
  index_spec := by simp

private theorem index_add {entries : List TokenEntry} {index : String → Option Nat}
    (h : ∀ uuid i, index uuid = some i ↔ (entries[i]?).map TokenEntry.uuid = some uuid) {uuid : String}
    (hnew : index uuid = none) (kind : TokenEntryKind) (v : String) (i : Nat) :
    Function.update index uuid (some entries.length) v = some i ↔
      ((entries ++ [⟨uuid, kind⟩])[i]?).map TokenEntry.uuid = some v := by
  by_cases hv : v = uuid
  · subst hv
    rw [Function.update_self]
    rcases Nat.lt_trichotomy i entries.length with hi | hi | hi
    · rw [List.getElem?_append_left hi, ← h, hnew]
      simp only [Option.some.injEq, reduceCtorEq, iff_false]
      omega
    · subst hi
      simp
    · rw [List.getElem?_eq_none (by simpa using Nat.succ_le_of_lt hi)]
      simp only [Option.some.injEq, Option.map_none, reduceCtorEq, iff_false]
      omega
  · rw [Function.update_of_ne hv, h]
    rcases Nat.lt_trichotomy i entries.length with hi | hi | hi
    · rw [List.getElem?_append_left hi]
    · subst hi
      simp [Ne.symm hv]
    · rw [List.getElem?_eq_none (by omega), List.getElem?_eq_none (by simpa using Nat.succ_le_of_lt hi)]

def add (token : AccessToken) (uuid : String) (kind : TokenEntryKind) : AccessToken :=
  if h : token.index uuid = none then
    { entries := token.entries ++ [⟨uuid, kind⟩]
      index := Function.update token.index uuid (some token.entries.length)
      index_spec := index_add token.index_spec h kind }
  else token

def contains (token : AccessToken) (uuid : String) : Bool := (token.index uuid).isSome

def find (token : AccessToken) (uuid : String) : Option TokenEntry :=
  (token.index uuid).bind fun i => token.entries[i]?

def size (token : AccessToken) : Nat := token.entries.length

theorem find_eq_some {token : AccessToken} {uuid : String} {entry : TokenEntry} :
    token.find uuid = some entry ↔ entry ∈ token.entries ∧ entry.uuid = uuid := by
  unfold find
  rw [Option.bind_eq_some_iff]
  constructor
  · rintro ⟨i, hi, he⟩
    have hu := (token.index_spec uuid i).1 hi
    rw [he] at hu
    exact ⟨List.mem_of_getElem? he, Option.some.inj hu⟩
  · rintro ⟨hmem, rfl⟩
    obtain ⟨i, hi⟩ := List.mem_iff_getElem?.1 hmem
    exact ⟨i, (token.index_spec _ i).2 (by rw [hi]; rfl), hi⟩

theorem contains_iff {token : AccessToken} {uuid : String} :
    token.contains uuid ↔ uuid ∈ token.entries.map TokenEntry.uuid := by
  unfold contains
  rw [Option.isSome_iff_exists]
  constructor
  · rintro ⟨i, hi⟩
    obtain ⟨entry, he, hu⟩ := Option.map_eq_some_iff.1 ((token.index_spec uuid i).1 hi)
    exact List.mem_map.2 ⟨entry, List.mem_of_getElem? he, hu⟩
  · intro h
    obtain ⟨entry, hmem, rfl⟩ := List.mem_map.1 h
    obtain ⟨i, hi⟩ := List.mem_iff_getElem?.1 hmem
    exact ⟨i, (token.index_spec _ i).2 (by rw [hi]; rfl)⟩

theorem find_isSome {token : AccessToken} {uuid : String} : (token.find uuid).isSome = token.contains uuid := by
  rw [Bool.eq_iff_iff, contains_iff, Option.isSome_iff_exists, List.mem_map]
  exact exists_congr fun entry => find_eq_some

theorem nodup_uuids (token : AccessToken) : (token.entries.map TokenEntry.uuid).Nodup := by
  refine List.nodup_iff_getElem?_ne_getElem?.2 fun i j hij hj heq => ?_
  rw [List.length_map] at hj
  rw [List.getElem?_map, List.getElem?_map] at heq
  have hu : (token.entries[j]?).map TokenEntry.uuid = some token.entries[j].uuid := by
    rw [List.getElem?_eq_getElem hj]
    rfl
  have h₁ := (token.index_spec token.entries[j].uuid i).2 (heq.trans hu)
  have h₂ := (token.index_spec token.entries[j].uuid j).2 hu
  have := Option.some.inj (h₁.symm.trans h₂)
  omega

@[simp] theorem contains_empty (uuid : String) : empty.contains uuid = false := rfl

/-- The first entry of a uuid stays: `add` changes nothing for a uuid that is there. -/
theorem add_of_contains {token : AccessToken} {uuid : String} (h : token.contains uuid) (kind : TokenEntryKind) :
    token.add uuid kind = token := by
  unfold add
  rw [dif_neg]
  intro hn
  rw [contains, hn] at h
  cases h

theorem entries_add {token : AccessToken} {uuid : String} (h : token.contains uuid = false)
    (kind : TokenEntryKind) : (token.add uuid kind).entries = token.entries ++ [⟨uuid, kind⟩] := by
  unfold add
  rw [dif_pos]
  rw [contains] at h
  exact Option.isNone_iff_eq_none.1 (by simpa using h)

theorem mem_entries_add_iff {token : AccessToken} {uuid : String} {kind : TokenEntryKind} {entry : TokenEntry} :
    entry ∈ (token.add uuid kind).entries ↔
      entry ∈ token.entries ∨ token.contains uuid = false ∧ entry = ⟨uuid, kind⟩ := by
  cases hc : token.contains uuid with
  | true =>
    rw [add_of_contains hc]
    simp
  | false =>
    rw [entries_add hc, List.mem_append, List.mem_singleton]
    simp

theorem mem_entries_add {token : AccessToken} {uuid : String} {kind : TokenEntryKind} {entry : TokenEntry}
    (h : entry ∈ (token.add uuid kind).entries) : entry ∈ token.entries ∨ entry = ⟨uuid, kind⟩ :=
  (mem_entries_add_iff.1 h).imp_right And.right

@[simp] theorem contains_add (token : AccessToken) (uuid v : String) (kind : TokenEntryKind) :
    (token.add uuid kind).contains v = (decide (v = uuid) || token.contains v) := by
  cases h : token.contains uuid with
  | true =>
    rw [add_of_contains h]
    by_cases hv : v = uuid
    · simp [hv, h]
    · simp [hv]
  | false =>
    rw [Bool.eq_iff_iff, contains_iff, entries_add h]
    simp [contains_iff, or_comm]

end AccessToken

end BakaPerms
