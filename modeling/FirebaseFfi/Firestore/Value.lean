import FirebaseFfi.Tinycbor.Encoder

namespace Firestore
open Cbor Tinycbor

/-- A value of the SDK. A double is its bit pattern, a reference the path of
the document it names, and a map the entries in the order iteration yields
them. The constructors from `delete` on are the sentinels. -/
inductive FieldValue
  | null
  | boolean (b : Bool)
  | integer (i : Int64)
  | double (bits : UInt64)
  | string (s : Bytes)
  | blob (b : Bytes)
  | timestamp (seconds : Int64) (nanoseconds : Int32)
  | geoPoint (latitude longitude : UInt64)
  | reference (path : Bytes)
  | array (items : List FieldValue)
  | map (m : List (Bytes × FieldValue))
  | delete
  | serverTimestamp
  | arrayUnion (items : List FieldValue)
  | arrayRemove (items : List FieldValue)
  | incrementInt (by' : Int64)
  | incrementDouble (bits : UInt64)

abbrev MapFieldValue := List (Bytes × FieldValue)

/-- FDB_CBOR_TAG_*, shared with the Dart side. -/
def tagTimestamp : Nat := 40000
def tagGeoPoint : Nat := 40001
def tagReference : Nat := 40002
def tagDelete : Nat := 40010
def tagServerTimestamp : Nat := 40011
def tagArrayUnion : Nat := 40012
def tagArrayRemove : Nat := 40013
def tagIncrementInt : Nat := 40014
def tagIncrementDouble : Nat := 40015

/-- The largest size a C++ container can have. -/
def maxSize : Nat := sizeMax / 2

/-- The value respects `max_size()` of the strings, vectors and maps in it. -/
inductive FieldValue.Sized : FieldValue → Prop
  | null : Sized .null
  | boolean {b} : Sized (.boolean b)
  | integer {i} : Sized (.integer i)
  | double {d} : Sized (.double d)
  | string {s} : s.length ≤ maxSize → Sized (.string s)
  | blob {b} : b.length ≤ maxSize → Sized (.blob b)
  | timestamp {s n} : Sized (.timestamp s n)
  | geoPoint {a b} : Sized (.geoPoint a b)
  | reference {p} : p.length ≤ maxSize → Sized (.reference p)
  | array {xs} : xs.length ≤ maxSize → (∀ x ∈ xs, Sized x) → Sized (.array xs)
  | map {m} : m.length ≤ maxSize → (∀ e ∈ m, e.1.length ≤ maxSize) →
      (∀ e ∈ m, Sized e.2) → Sized (.map m)
  | delete : Sized .delete
  | serverTimestamp : Sized .serverTimestamp
  | arrayUnion {xs} : Sized (.arrayUnion xs)
  | arrayRemove {xs} : Sized (.arrayRemove xs)
  | incrementInt {i} : Sized (.incrementInt i)
  | incrementDouble {d} : Sized (.incrementDouble d)

/-- An integer in the shortest form. -/
def intItem (i : Int64) : Item :=
  if i.toInt < 0 then .int true (.shortest (-1 - i.toInt).toNat) (-1 - i.toInt).toNat
  else .int false (.shortest i.toInt.toNat) i.toInt.toNat

def textItem (s : Bytes) : Item := .str true (.plain (.shortest s.length) s)

def blobItem (b : Bytes) : Item := .str false (.plain (.shortest b.length) b)

def doubleItem (bits : UInt64) : Item := .prim .eight bits.toNat

def arrayItem (xs : List Item) : Item := .array (some (.shortest xs.length)) xs

def mapItem (es : List (Item × Item)) : Item := .map (some (.shortest es.length)) es

def tagItem (t : Nat) (x : Item) : Item := .tag (.shortest t) t x

mutual
/-- The item a value is stored as. The sentinels have none and become null. -/
def itemOf : FieldValue → Item
  | .null => .null
  | .boolean b => .bool b
  | .integer i => intItem i
  | .double d => doubleItem d
  | .string s => textItem s
  | .blob b => blobItem b
  | .timestamp s n => tagItem tagTimestamp (arrayItem [intItem s, intItem n.toInt64])
  | .geoPoint a b => tagItem tagGeoPoint (arrayItem [doubleItem a, doubleItem b])
  | .reference p => tagItem tagReference (textItem p)
  | .array xs => arrayItem (itemsOf xs)
  | .map m => mapItem (entriesOf m)
  | _ => .null

def itemsOf : List FieldValue → List Item
  | [] => []
  | v :: vs => itemOf v :: itemsOf vs

def entriesOf : List (Bytes × FieldValue) → List (Item × Item)
  | [] => []
  | (k, v) :: es => (textItem k, itemOf v) :: entriesOf es
end

/-- What EncodeValue writes when there is room. -/
def valueBytes (v : FieldValue) : Bytes := (itemOf v).bytes

@[simp] theorem itemsOf_length (vs : List FieldValue) : (itemsOf vs).length = vs.length := by
  induction vs with
  | nil => rfl
  | cons v vs ih => simp [itemsOf, ih]

@[simp] theorem entriesOf_length (m : MapFieldValue) : (entriesOf m).length = m.length := by
  induction m with
  | nil => rfl
  | cons e m ih => simp [entriesOf, ih]

theorem intItem_wf (i : Int64) : (intItem i).WF := by
  have hlo := i.le_toInt
  have hhi := i.toInt_lt
  unfold intItem
  split
  · exact .int (Width.shortest_fits _ (by omega))
  · exact .int (Width.shortest_fits _ (by omega))

theorem textItem_wf {s : Bytes} (h : s.length ≤ maxSize) : (textItem s).WF :=
  .str (Width.shortest_fits _ (by unfold maxSize sizeMax at h; omega))

theorem blobItem_wf {b : Bytes} (h : b.length ≤ maxSize) : (blobItem b).WF :=
  .str (Width.shortest_fits _ (by unfold maxSize sizeMax at h; omega))

theorem doubleItem_wf (d : UInt64) : (doubleItem d).WF :=
  .prim d.toNat_lt (by intro h; cases h)

theorem arrayItem_wf {xs : List Item} (hl : xs.length ≤ maxSize) (h : ∀ x ∈ xs, x.WF) :
    (arrayItem xs).WF := by
  refine .array ?_ h
  intro w hw
  cases hw
  exact Width.shortest_fits _ (by unfold maxSize sizeMax at hl; omega)

theorem mapItem_wf {es : List (Item × Item)} (hl : es.length ≤ maxSize)
    (hk : ∀ e ∈ es, e.1.WF) (hv : ∀ e ∈ es, e.2.WF) : (mapItem es).WF := by
  refine .map ?_ hk hv
  intro w hw
  cases hw
  exact Width.shortest_fits _ (by unfold maxSize sizeMax at hl; omega)

theorem tagItem_wf {t : Nat} {x : Item} (ht : t < 2 ^ 64) (h : x.WF) : (tagItem t x).WF :=
  .tag (Width.shortest_fits _ ht) h

theorem simple_wf {n : Nat} (h : n < 24) : (Item.prim .tiny n).WF :=
  .prim h (by intro h'; cases h')

/-- Every value a program can hold is stored as a well-formed item. -/
theorem FieldValue.Sized.item_wf {v : FieldValue} (h : v.Sized) : (itemOf v).WF := by
  induction h with
  | @boolean b => cases b <;> exact simple_wf (by decide)
  | integer => exact intItem_wf _
  | double => exact doubleItem_wf _
  | string hs => exact textItem_wf hs
  | blob hb => exact blobItem_wf hb
  | timestamp =>
    refine tagItem_wf (by decide) (arrayItem_wf (by simp [maxSize, sizeMax]) ?_)
    simp [intItem_wf]
  | geoPoint =>
    refine tagItem_wf (by decide) (arrayItem_wf (by simp [maxSize, sizeMax]) ?_)
    simp [doubleItem_wf]
  | reference hp => exact tagItem_wf (by decide) (textItem_wf hp)
  | @array xs hl hx ih =>
    refine arrayItem_wf (by simpa using hl) ?_
    clear hl hx
    induction xs with
    | nil => simp [itemsOf]
    | cons x xs ihx =>
      intro y hy
      rcases List.mem_cons.mp hy with rfl | hy
      · exact ih x (by simp)
      · exact ihx (fun z hz => ih z (List.mem_cons_of_mem _ hz)) y hy
  | @map m hl hk hv ih =>
    have hall : ∀ e ∈ entriesOf m, e.1.WF ∧ e.2.WF := by
      clear hl hv
      induction m with
      | nil => simp [entriesOf]
      | cons x m ihm =>
        intro y hy
        rcases List.mem_cons.mp hy with rfl | hy
        · exact ⟨textItem_wf (hk x (by simp)), ih x (by simp)⟩
        · exact ihm (fun z hz => hk z (List.mem_cons_of_mem _ hz))
            (fun z hz => ih z (List.mem_cons_of_mem _ hz)) y hy
    exact mapItem_wf (by simpa using hl) (fun e he => (hall e he).1) (fun e he => (hall e he).2)
  | _ => exact simple_wf (by decide)

end Firestore
