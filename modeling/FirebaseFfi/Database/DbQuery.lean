import FirebaseFfi.Database.QuerySpec

namespace Database
open Cbor Dart

/-- A query of the Dart side: the map that becomes its spec. -/
structure DbQuery where
  spec : List (SpecKey × Object)
  distinct : (spec.map Prod.fst).Nodup

def DbQuery.empty : DbQuery := ⟨[], by simp⟩

namespace DbQuery

def find (q : DbQuery) (key : SpecKey) : Option Object := q.spec.lookup key

/-- `{..._spec, ...changes}` -/
def update (q : DbQuery) (changes : List (SpecKey × Object)) : DbQuery :=
  ⟨Assoc.assignAll q.spec changes, Assoc.assignAll_nodup q.distinct⟩

def orderByChild (q : DbQuery) (path : Bytes) : DbQuery :=
  q.update [(.orderBy, .string (ascii "child")), (.orderByPath, .string path)]

def orderByKey (q : DbQuery) : DbQuery := q.update [(.orderBy, .string (ascii "key"))]
def orderByValue (q : DbQuery) : DbQuery := q.update [(.orderBy, .string (ascii "value"))]
def orderByPriority (q : DbQuery) : DbQuery := q.update [(.orderBy, .string (ascii "priority"))]

/-- A bound, with the entry of its key when there is one. -/
def boundChanges (b : Bound) (value : Object) (key : Option Bytes) : List (SpecKey × Object) :=
  (.bound b, value) :: (key.map fun k => (SpecKey.boundKey b, Object.string k)).toList

def startAt (q : DbQuery) (value : Object) (key : Option Bytes) : DbQuery :=
  q.update (boundChanges .startAt value key)
def endAt (q : DbQuery) (value : Object) (key : Option Bytes) : DbQuery :=
  q.update (boundChanges .endAt value key)
def equalTo (q : DbQuery) (value : Object) (key : Option Bytes) : DbQuery :=
  q.update (boundChanges .equalTo value key)

def limitToFirst (q : DbQuery) (n : Int64) : DbQuery := q.update [(.limit .toFirst, .int n)]
def limitToLast (q : DbQuery) (n : Int64) : DbQuery := q.update [(.limit .toLast, .int n)]

end DbQuery

/-- A call of a method of DbQuery. -/
inductive Modifier
  | orderBy (order : OrderBy)
  | bound (b : Bound) (value : Object) (key : Option Bytes)
  | limit (l : Limit) (n : Int64)

def DbQuery.modify (q : DbQuery) : Modifier → DbQuery
  | .orderBy (.child path) => q.orderByChild path
  | .orderBy .key => q.orderByKey
  | .orderBy .value => q.orderByValue
  | .orderBy .priority => q.orderByPriority
  | .bound .startAt value key => q.startAt value key
  | .bound .endAt value key => q.endAt value key
  | .bound .equalTo value key => q.equalTo value key
  | .limit .toFirst n => q.limitToFirst n
  | .limit .toLast n => q.limitToLast n

/-- A chain of calls that starts at `DbQuery()`. -/
def chain (ms : List Modifier) : DbQuery := ms.foldl DbQuery.modify .empty

/-- The cursors of the platform interface. -/
inductive Cursor
  | bound (b : Bound)
  | startAfter
  | endBefore

/-- A query modifier of the platform interface. -/
inductive QueryModifier
  | orderBy (order : OrderBy)
  | cursor (name : Cursor) (value : Object) (key : Option Bytes)
  | limit (l : Limit) (n : Int64)

section QueryFrom

end QueryFrom

/-- What a modifier is about. Two modifiers of one kind override each other. -/
inductive Kind
  | order
  | bound (b : Bound)
  | limit (l : Limit)
  deriving DecidableEq

/-- The kind of modifier that writes a key. -/
def SpecKey.kind : SpecKey → Kind
  | .orderBy => .order
  | .orderByPath => .order
  | .bound b => .bound b
  | .boundKey b => .bound b
  | .limit l => .limit l

namespace Modifier

def kind : Modifier → Kind
  | .orderBy _ => .order
  | .bound b _ _ => .bound b
  | .limit l _ => .limit l

def order : Modifier → Option OrderBy
  | .orderBy order => some order
  | _ => none

def path : Modifier → Option Bytes
  | .orderBy (.child path) => some path
  | _ => none

/-- The bound of one kind, with its key. -/
def at_ (b : Bound) : Modifier → Option (Object × Option Bytes)
  | .bound b' value key => if b' = b then some (value, key) else none
  | _ => none

def count (l : Limit) : Modifier → Option Int64
  | .limit l' n => if l' = l then some n else none
  | _ => none

/-- The entries that a modifier writes. -/
def changes : Modifier → List (SpecKey × Object)
  | .orderBy (.child path) =>
    [(.orderBy, .string (ascii "child")), (.orderByPath, .string path)]
  | .orderBy order => [(.orderBy, .string order.name)]
  | .bound b value key => DbQuery.boundChanges b value key
  | .limit l n => [(.limit l, .int n)]

end Modifier

section Chain

variable {ms pre post : List Modifier} {m m' : Modifier} {key : SpecKey}

theorem changes_kind {e : SpecKey × Object} (h : e ∈ m.changes) : e.1.kind = m.kind := by
  cases m with
  | orderBy order =>
    cases order with
    | child path =>
      rcases List.mem_cons.mp h with rfl | h
      · rfl
      · rw [List.mem_singleton.mp h]
        rfl
    | _ =>
      rw [List.mem_singleton.mp h]
      rfl
  | bound b value key =>
    rcases List.mem_cons.mp h with rfl | h
    · rfl
    · obtain ⟨k, -, rfl⟩ := Option.map_eq_some_iff.mp (Option.mem_toList.mp h)
      rfl
  | limit l n =>
    rw [List.mem_singleton.mp h]
    rfl

theorem last_other (h : m.kind ≠ key.kind) : Assoc.last m.changes key = none := by
  apply Assoc.last_none
  intro e he hk
  rw [← changes_kind he, hk] at h
  exact h rfl

end Chain

/-- The call that a modifier asks for, when there is one. -/
def QueryModifier.modifier : QueryModifier → Option Modifier
  | .orderBy order => some (.orderBy order)
  | .cursor (.bound b) value key => some (.bound b value key)
  | .cursor _ _ _ => none
  | .limit l n => some (.limit l n)

/-- The loops of _queryFrom. -/
inductive Stage
  | orders | cursors | limits
  deriving DecidableEq

def Modifier.stage : Modifier → Stage
  | .orderBy _ => .orders
  | .bound _ _ _ => .cursors
  | .limit _ _ => .limits

/-- The calls that the modifiers ask for, in the order they were given. -/
def given (ms : List QueryModifier) : List Modifier := ms.filterMap QueryModifier.modifier

section Given

variable {ms pre post : List QueryModifier} {m m' : QueryModifier}

end Given

end Database
