import FirebaseFfi.Cbor.Unique
import FirebaseFfi.Firestore.DocumentGrammar
import FirebaseFfi.Firestore.Query

namespace Firestore
open Cbor Tinycbor
open Dart (ascii)

/-- An operand follows the document encoding and stands for the value that the
decoder reads when it is given nothing else. -/
structure Operand (document : Document) (x : Item) (v : FieldValue) : Prop where
  distinct : DistinctKeys x
  denotes : Denotes x v
  decoded : decodeFirst document x.bytes = .ok v

/-- A where clause is a field, an operator and its operand. -/
inductive WhereSays (document : Document) : Item → Filter → Prop
  | compare {len field op x c v} : op.content = (Operator.compare c).name → Operand document x v →
      WhereSays document (.array len [.str true field, .str true op, x])
        (.compare (fieldOf field.content) c v)
  | member {len field op x m vs} : op.content = (Operator.member m).name →
      Operand document x (.array vs) →
      WhereSays document (.array len [.str true field, .str true op, x])
        (.member (fieldOf field.content) m vs)

/-- An order clause is a field and a direction. -/
inductive OrderSays : Item → Field × Direction → Prop
  | clause {len field dir} {d : Direction} : dir.content = d.name →
      OrderSays (.array len [.str true field, .str true dir]) (fieldOf field.content, d)

/-- What one entry of a spec asks for. -/
inductive Statement
  | filters (fs : List Filter)
  | orders (os : List (Field × Direction))
  | group (on : Bool)
  | limit (key : LimitKey) (n : Int32)
  | cursor (key : CursorKey) (values : List FieldValue)

inductive ValueSays (document : Document) : SpecKey → Item → Statement → Prop
  | filters {len xs fs} : List.Forall₂ (WhereSays document) xs fs →
      ValueSays document .wheres (.array len xs) (.filters fs)
  | orders {len xs os} : List.Forall₂ OrderSays xs os →
      ValueSays document .orderBy (.array len xs) (.orders os)
  | group {b} : ValueSays document .collectionGroup (.bool b) (.group b)
  | limit {key x} {n : Int32} : DenotesInt x n.toInt →
      ValueSays document (.limit key) x (.limit key n)
  | cursor {key len xs vs} : List.Forall₂ (Operand document) xs vs →
      ValueSays document (.cursor key) (.array len xs) (.cursor key vs)

inductive EntrySays (document : Document) : Item × Item → Statement → Prop
  | entry {name x st} {key : SpecKey} : name.content = key.name → ValueSays document key x st →
      EntrySays document (.str true name, x) st

def filtersOf : List Statement → List Filter
  | [] => []
  | .filters fs :: sts => fs ++ filtersOf sts
  | _ :: sts => filtersOf sts

def ordersOf : List Statement → List (Field × Direction)
  | [] => []
  | .orders os :: sts => os ++ ordersOf sts
  | _ :: sts => ordersOf sts

/-- The query asks for all that the statements do, and for nothing else. -/
structure Agrees (path : Bytes) (sts : List Statement) (q : Query) : Prop where
  path : q.path = path
  filters : q.filters = filtersOf sts
  orders : q.orders = ordersOf sts
  group : ∀ on, .group on ∈ sts → q.collectionGroup = on
  collection : q.collectionGroup = true → .group true ∈ sts
  limit : ∀ key n, q.limit = some (key, n) ↔ .limit key n ∈ sts
  startCursor : ∀ key vs, q.startCursor = some (key, vs) ↔ key.isStart ∧ .cursor key vs ∈ sts
  endCursor : ∀ key vs, q.endCursor = some (key, vs) ↔ ¬ key.isStart ∧ .cursor key vs ∈ sts

/-- No statement is at odds with another. -/
structure Compatible (sts : List Statement) : Prop where
  group : ∀ {on on'}, .group on ∈ sts → .group on' ∈ sts → on = on'
  limit : ∀ {key n key' n'}, .limit key n ∈ sts → .limit key' n' ∈ sts → (key, n) = (key', n')
  cursor : ∀ {key vs key' vs'}, .cursor key vs ∈ sts → .cursor key' vs' ∈ sts →
    key.isStart = key'.isStart → (key, vs) = (key', vs')

/-- Input that starts with a well-formed map. -/
structure SpecInput where
  len : Option Width
  entries : List (Item × Item)
  rest : Bytes
  wf : (Item.map len entries).WF

def SpecInput.bytes (d : SpecInput) : Bytes := (Item.map d.len d.entries).bytes ++ d.rest

/-- The bytes of a spec tell its entries. -/
theorem SpecInput.unique {d d' : SpecInput} (h : d.bytes = d'.bytes) : d.entries = d'.entries := by
  obtain ⟨hitem, -⟩ := d.wf.unique d'.wf h
  exact (Item.map.inj hitem).2

def SpecInput.Says (document : Document) (d : SpecInput) (sts : List Statement) : Prop :=
  List.Forall₂ (EntrySays document) d.entries sts

/-- Every clause of the spec is applied with exactly its operands. -/
def Reflects (document : Document) (path spec : Bytes) (q : Query) : Prop :=
  (spec = [] ∧ Agrees path [] q) ∨
    ∃ d : SpecInput, d.bytes = spec ∧ ∃ sts, d.Says document sts ∧ Agrees path sts q

/-- Every entry of the spec is one that the encoding gives a meaning, whole, and
no two are at odds. -/
def Lossless (document : Document) (spec : Bytes) : Prop :=
  spec = [] ∨ ∃ d : SpecInput, d.bytes = spec ∧ ∃ sts, d.Says document sts ∧ Compatible sts

theorem Agrees.compatible {path : Bytes} {sts : List Statement} {q : Query}
    (h : Agrees path sts q) : Compatible sts where
  group hon hon' := (h.group _ hon).symm.trans (h.group _ hon')
  limit hl hl' := by
    have hq := (h.limit _ _).mpr hl
    rw [(h.limit _ _).mpr hl'] at hq
    exact (Option.some.inj hq).symm
  cursor := by
    intro key vs key' vs' hc hc' hside
    cases hs : key.isStart with
    | true =>
      have hq := (h.startCursor _ _).mpr ⟨hs, hc⟩
      rw [(h.startCursor _ _).mpr ⟨hside ▸ hs, hc'⟩] at hq
      exact (Option.some.inj hq).symm
    | false =>
      have hq := (h.endCursor _ _).mpr ⟨by simp [hs], hc⟩
      rw [(h.endCursor _ _).mpr ⟨by simp [← hside, hs], hc'⟩] at hq
      exact (Option.some.inj hq).symm

theorem Reflects.lossless {document : Document} {path spec : Bytes} {q : Query}
    (h : Reflects document path spec q) : Lossless document spec := by
  rcases h with ⟨hempty, _⟩ | ⟨d, hd, sts, hmean, hagrees⟩
  · exact .inl hempty
  · exact .inr ⟨d, hd, sts, hmean, hagrees.compatible⟩

end Firestore
