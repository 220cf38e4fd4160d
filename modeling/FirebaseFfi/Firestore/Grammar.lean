import FirebaseFfi.Firestore.RoundTrip

namespace Firestore
open Cbor Tinycbor

/-- An integer item stands for the integer `i`. -/
inductive DenotesInt : Item → Int → Prop
  | int {neg w n} : DenotesInt (.int neg w n) (intValue neg n)

/-- A number stands for a double: a float of any width with the same datum, or
an integer within int64 that the double is equal to. -/
inductive DenotesNumber : Item → UInt64 → Prop
  | float {w f n d} : floatFormat w = some f → Ieee.double.datum d.toNat = f.datum n →
      DenotesNumber (.prim w n) d
  | int {neg w n d} : n < 2 ^ 63 →
      (Ieee.double.datum d.toNat).number = .finite (intValue neg n) →
      DenotesNumber (.int neg w n) d

mutual
/-- The document encoding of firebase_bridge.h: which item stands for which value. -/
inductive Denotes : Item → FieldValue → Prop
  | null : Denotes .null .null
  | boolean {b} : Denotes (.bool b) (.boolean b)
  | integer {x i} : DenotesInt x i.toInt → Denotes x (.integer i)
  | double {w n d} : DenotesNumber (.prim w n) d → Denotes (.prim w n) (.double d)
  | string {s} : Denotes (.str true s) (.string s.content)
  | blob {s} : Denotes (.str false s) (.blob s.content)
  | timestamp {w len x y s n} : DenotesInt x s.toInt → DenotesInt y n.toInt →
      Denotes (.tag w tagTimestamp (.array len [x, y])) (.timestamp s n)
  | geoPoint {w len x y a b} : DenotesNumber x a → DenotesNumber y b →
      Denotes (.tag w tagGeoPoint (.array len [x, y])) (.geoPoint a b)
  | reference {w s} : Denotes (.tag w tagReference (.str true s)) (.reference s.content)
  | array {len xs vs} : DenotesAll xs vs → Denotes (.array len xs) (.array vs)
  | map {len es m} : DenotesEntries es m → Denotes (.map len es) (.map m)
  | delete {w} : Denotes (.tag w tagDelete .null) .delete
  | serverTimestamp {w} : Denotes (.tag w tagServerTimestamp .null) .serverTimestamp
  | arrayUnion {w len xs vs} : DenotesAll xs vs →
      Denotes (.tag w tagArrayUnion (.array len xs)) (.arrayUnion vs)
  | arrayRemove {w len xs vs} : DenotesAll xs vs →
      Denotes (.tag w tagArrayRemove (.array len xs)) (.arrayRemove vs)
  | incrementInt {w len x i} : DenotesInt x i.toInt →
      Denotes (.tag w tagIncrementInt (.array len [x])) (.incrementInt i)
  | incrementDouble {w len x d} : DenotesNumber x d →
      Denotes (.tag w tagIncrementDouble (.array len [x])) (.incrementDouble d)

/-- Elements stand for values one by one. -/
inductive DenotesAll : List Item → List FieldValue → Prop
  | nil : DenotesAll [] []
  | cons {x v xs vs} : Denotes x v → DenotesAll xs vs → DenotesAll (x :: xs) (v :: vs)

/-- Entries have text keys and values that stand for the map's. -/
inductive DenotesEntries : List (Item × Item) → MapFieldValue → Prop
  | nil : DenotesEntries [] []
  | cons {s x v es m} : Denotes x v → DenotesEntries es m →
      DenotesEntries ((.str true s, x) :: es) ((s.content, v) :: m)
end

/-- The text keys of a map. -/
def textKeys (es : List (Item × Item)) : List Bytes :=
  es.filterMap fun e => match e.1 with
    | .str true s => some s.content
    | _ => none

/-- No map in the item has a text key twice. -/
inductive DistinctKeys : Item → Prop
  | int {neg w n} : DistinctKeys (.int neg w n)
  | str {text s} : DistinctKeys (.str text s)
  | array {len xs} : (∀ x ∈ xs, DistinctKeys x) → DistinctKeys (.array len xs)
  | map {len es} : (textKeys es).Nodup → (∀ e ∈ es, DistinctKeys e.2) → DistinctKeys (.map len es)
  | tag {w t x} : DistinctKeys x → DistinctKeys (.tag w t x)
  | prim {w n} : DistinctKeys (.prim w n)

/-- Nothing in the item is refused for what it says: no definite count is one
the parser cannot hold, and the SDK makes a document of every reference path. -/
inductive Taken (document : Document) : Item → Prop
  | int {neg w n} : Taken document (.int neg w n)
  | str {text s} : Taken document (.str text s)
  | array {len xs} : tooMany false len xs.length = false → (∀ x ∈ xs, Taken document x) →
      Taken document (.array len xs)
  | map {len es} : tooMany true len es.length = false → (∀ e ∈ es, Taken document e.2) →
      Taken document (.map len es)
  | tag {w t x} : t ≠ tagReference → Taken document x → Taken document (.tag w t x)
  | reference {w s} : document s.content = true →
      Taken document (.tag w tagReference (.str true s))
  | prim {w n} : Taken document (.prim w n)

section Settles

variable {α β : Type} {T U : Prop} {P : α → Prop} {Q : β → Prop} {r : Reading α}

/-- The reading has a value that `P` holds of when `T` does, and fails when it
does not. It never stops at a deviation the decoder does not check. -/
def Settles (T : Prop) (P : α → Prop) (r : Reading α) : Prop :=
  match r with
  | .ok v => T ∧ P v
  | .error .fails => ¬ T
  | .error .unchecked => False

theorem Settles.bind {f : α → Reading β} (h : Settles T P r)
    (hf : ∀ v, P v → Settles U Q (f v)) : Settles (T ∧ U) Q (r >>= f) := by
  cases r with
  | error e =>
    cases e with
    | fails => exact fun hTU => h hTU.1
    | unchecked => exact h
  | ok v =>
    obtain ⟨hT, hP⟩ := h
    have hfv := hf v hP
    show Settles (T ∧ U) Q (f v)
    cases hr : f v with
    | error e =>
      rw [hr] at hfv
      cases e with
      | fails => exact fun hTU => hfv hTU.2
      | unchecked => exact hfv
    | ok w =>
      rw [hr] at hfv
      exact ⟨⟨hT, hfv.1⟩, hfv.2⟩

theorem Settles.map {f : α → β} (h : Settles T P r) (hf : ∀ v, P v → Q (f v)) :
    Settles T Q (do return f (← r)) := by
  cases r with
  | error e => cases e <;> exact h
  | ok v => exact ⟨h.1, hf v h.2⟩

theorem Settles.imp {P' : α → Prop} (h : Settles T P r) (hP : ∀ v, P v → P' v) :
    Settles T P' r := by
  cases r with
  | error e => cases e <;> exact h
  | ok v => exact ⟨h.1, hP v h.2⟩

theorem Settles.congr (h : Settles T P r) (hTU : T ↔ U) : Settles U P r := by
  rwa [propext hTU] at h

theorem Settles.value (h : Settles T P r) (hT : T) : ∃ v, r = .ok v ∧ P v := by
  cases r with
  | error e =>
    cases e with
    | fails => exact absurd hT h
    | unchecked => cases h
  | ok v => exact ⟨v, rfl, h.2⟩

theorem Settles.fails (h : Settles T P r) (hT : ¬ T) : r = .fails := by
  cases r with
  | error e =>
    cases e with
    | fails => rfl
    | unchecked => cases h
  | ok v => exact absurd h.1 hT

end Settles

theorem ofNat_toNat {n : Nat} (h : n < 2 ^ 64) : (UInt64.ofNat n).toNat = n := by
  rw [UInt64.toNat_ofNat']
  exact Nat.mod_eq_of_lt h

/-- An integer item that stands for an int64 is below the limit and read as it. -/
theorem int64Of_eq {neg : Bool} {n : Nat} {i : Int64} (h : intValue neg n = i.toInt) :
    n < 2 ^ 63 ∧ int64Of neg n = i := by
  have hlo := i.le_toInt
  have hhi := i.toInt_lt
  have hn : n < 2 ^ 63 := by
    rw [← h] at hlo hhi
    unfold intValue at hlo hhi
    cases neg
    · simp only [Bool.false_eq_true, if_false] at hhi
      omega
    · simp only [if_true] at hlo
      omega
  exact ⟨hn, Int64.toInt_inj.mp (by rw [int64Of_toInt hn, h])⟩

theorem DenotesInt.reads {x : Item} {i : Int64} (h : DenotesInt x i.toInt) :
    readInt x = .ok i := by
  generalize hi : i.toInt = z at h
  cases h
  rw [readInt, (int64Of_eq hi.symm).2]

/-- An integer that a double is equal to is read as a double equal to it. -/
theorem number_int {neg : Bool} {n : Nat} {d : UInt64} (hn : n < 2 ^ 63)
    (h : (Ieee.double.datum d.toNat).number = .finite (intValue neg n)) :
    (Ieee.double.datum (UInt64.ofNat (Ieee.ofInt (int64Of neg n).toInt)).toNat).number =
      .finite (intValue neg n) := by
  have habs : (intValue neg n).natAbs < 2 ^ 64 := by
    unfold intValue
    split <;> omega
  have hexact : intValue neg n = 0 ∨ Ieee.Exact (intValue neg n).natAbs := by
    by_cases h0 : intValue neg n = 0
    · exact .inl h0
    · exact .inr (Ieee.exact_of_datum h0 h)
  rw [int64Of_toInt hn, ofNat_toNat (Ieee.ofInt_lt habs)]
  exact Ieee.number_ofInt hexact habs

theorem DenotesNumber.reads {x : Item} {d : UInt64} (hx : x.WF) (h : DenotesNumber x d) :
    ∃ d', readDouble x = .ok d' ∧ DenotesNumber x d' := by
  cases h with
  | @int neg w n _ hn hval => exact ⟨_, rfl, .int hn (number_int hn hval)⟩
  | @float w f n _ hf _ =>
    have hn : n < w.limit := by
      cases hx with
      | prim hn _ => exact hn
    cases w with
    | two =>
      refine ⟨_, rfl, .float rfl ?_⟩
      rw [ofNat_toNat (Ieee.widen_lt Ieee.half_narrow _), Ieee.datum_widen Ieee.half_narrow]
    | four =>
      refine ⟨_, rfl, .float rfl ?_⟩
      rw [ofNat_toNat (Ieee.widen_lt Ieee.single_narrow _), Ieee.datum_widen Ieee.single_narrow]
    | eight =>
      refine ⟨_, rfl, .float rfl ?_⟩
      rw [ofNat_toNat hn]
    | _ => cases hf

section Taken

variable {document : Document}

theorem DenotesInt.taken {x : Item} {i : Int} (h : DenotesInt x i) : Taken document x := by
  cases h
  exact .int

theorem DenotesNumber.taken {x : Item} {d : UInt64} (h : DenotesNumber x d) :
    Taken document x := by
  cases h with
  | int => exact .int
  | float => exact .prim

theorem taken_array {len : Option Width} {xs : List Item} :
    Taken document (.array len xs) ↔
      tooMany false len xs.length = false ∧ ∀ x ∈ xs, Taken document x := by
  constructor
  · intro h
    cases h with
    | array hs hx => exact ⟨hs, hx⟩
  · exact fun h => .array h.1 h.2

theorem taken_map {len : Option Width} {es : List (Item × Item)} :
    Taken document (.map len es) ↔
      tooMany true len es.length = false ∧ ∀ e ∈ es, Taken document e.2 := by
  constructor
  · intro h
    cases h with
    | map hs hx => exact ⟨hs, hx⟩
  · exact fun h => .map h.1 h.2

theorem taken_tag {w : Width} {t : Nat} {x : Item} (ht : t ≠ tagReference) :
    Taken document (.tag w t x) ↔ Taken document x := by
  constructor
  · intro h
    cases h with
    | tag _ hx => exact hx
    | reference => exact absurd rfl ht
  · exact .tag ht

theorem taken_reference {w : Width} {s : Str} :
    Taken document (.tag w tagReference (.str true s)) ↔ document s.content = true := by
  constructor
  · intro h
    cases h with
    | tag ht _ => exact absurd rfl ht
    | reference hs => exact hs
  · exact .reference

/-- A tuple of taken elements is taken under its tag. -/
theorem taken_tuple {w : Width} {t : Nat} {len : Option Width} {xs : List Item}
    (ht : t ≠ tagReference) (hlen : xs.length < 2 ^ 31) (hx : ∀ x ∈ xs, Taken document x) :
    Taken document (.tag w t (.array len xs)) :=
  .tag ht (.array (tooMany_of_length hlen) hx)

end Taken

section Settled

variable (document : Document)

theorem DenotesAll.settles {xs : List Item} {vs : List FieldValue} (h : DenotesAll xs vs)
    (ih : ∀ x ∈ xs, ∀ v, Denotes x v →
      Settles (Taken document x) (Denotes x) (readItem document x)) :
    Settles (∀ x ∈ xs, Taken document x) (DenotesAll xs) (readItems document xs) := by
  induction xs generalizing vs with
  | nil => exact ⟨by simp, .nil⟩
  | cons x xs ihxs =>
    cases h with
    | cons hx hxs =>
      have htail := ihxs hxs fun y hy => ih y (List.mem_cons_of_mem _ hy)
      have hrun := (ih x (by simp) _ hx).bind
        (Q := DenotesAll (x :: xs)) fun v hv => htail.map fun vs hvs => .cons hv hvs
      exact hrun.congr (by simp)

theorem DenotesEntries.settles {es : List (Item × Item)} {m : MapFieldValue} (out : MapFieldValue)
    (h : DenotesEntries es m) (hd : (out.map Prod.fst ++ textKeys es).Nodup)
    (ih : ∀ e ∈ es, ∀ v, Denotes e.2 v →
      Settles (Taken document e.2) (Denotes e.2) (readItem document e.2)) :
    Settles (∀ e ∈ es, Taken document e.2) (fun m => ∃ m', m = out ++ m' ∧ DenotesEntries es m')
      (readEntries document out es) := by
  induction es generalizing m out with
  | nil => exact ⟨by simp, [], by simp, .nil⟩
  | cons e es ihes =>
    cases h with
    | @cons s x v _ m' hx hes =>
      have hkeys : textKeys ((.str true s, x) :: es) = s.content :: textKeys es := rfl
      rw [hkeys] at hd
      have hfresh : s.content ∉ out.map Prod.fst := Assoc.head_new hd
      have hrun := (ih (.str true s, x) (by simp) _ hx).bind
        (f := fun value => readEntries document (emplace out s.content value) es)
        (Q := fun m => ∃ m', m = out ++ m' ∧ DenotesEntries ((.str true s, x) :: es) m')
        fun v' hv' => by
          have htail := ihes (out ++ [(s.content, v')]) hes
            (by simpa [List.append_assoc] using hd) fun e he => ih e (List.mem_cons_of_mem _ he)
          rw [emplace_fresh hfresh]
          exact htail.imp fun m hm => by
            obtain ⟨m', rfl, hm'⟩ := hm
            exact ⟨(s.content, v') :: m', by simp, .cons hv' hm'⟩
      exact hrun.congr (by simp)

variable {document}

theorem settles_prim {w : Width} {n : Nat} {d : UInt64} (hx : (Item.prim w n).WF)
    (h : DenotesNumber (.prim w n) d) :
    Settles (Taken document (.prim w n)) (Denotes (.prim w n)) (readPrim w n) := by
  obtain ⟨d', hread, hd'⟩ := h.reads hx
  have hprim : readPrim w n = (do return .double (← readDouble (.prim w n))) := by
    cases h with
    | float hf => cases w <;> first | rfl | cases hf
  rw [hprim, hread]
  exact ⟨.prim, .double hd'⟩

theorem settles_timestamp {w : Width} {len : Option Width} {x y : Item} {s : Int64} {k : Int32}
    (hx : DenotesInt x s.toInt) (hy : DenotesInt y k.toInt) :
    Settles (Taken document (.tag w tagTimestamp (.array len [x, y])))
      (Denotes (.tag w tagTimestamp (.array len [x, y])))
      (readItem document (.tag w tagTimestamp (.array len [x, y]))) := by
  have hy' : readInt y = .ok k.toInt64 := DenotesInt.reads (by rwa [Int32.toInt_toInt64])
  rw [readItem_timestamp hx.reads hy']
  exact ⟨taken_tuple (by decide) (by simp) (by simp [hx.taken, hy.taken]), .timestamp hx hy⟩

theorem settles_geoPoint {w : Width} {len : Option Width} {x y : Item} {a b : UInt64}
    (hwx : x.WF) (hwy : y.WF) (hx : DenotesNumber x a) (hy : DenotesNumber y b) :
    Settles (Taken document (.tag w tagGeoPoint (.array len [x, y])))
      (Denotes (.tag w tagGeoPoint (.array len [x, y])))
      (readItem document (.tag w tagGeoPoint (.array len [x, y]))) := by
  obtain ⟨a', ha, hxa⟩ := hx.reads hwx
  obtain ⟨b', hb, hyb⟩ := hy.reads hwy
  rw [readItem_geoPoint ha hb]
  exact ⟨taken_tuple (by decide) (by simp) (by simp [hx.taken, hy.taken]), .geoPoint hxa hyb⟩

theorem settles_incrementInt {w : Width} {len : Option Width} {x : Item} {i : Int64}
    (hx : DenotesInt x i.toInt) :
    Settles (Taken document (.tag w tagIncrementInt (.array len [x])))
      (Denotes (.tag w tagIncrementInt (.array len [x])))
      (readItem document (.tag w tagIncrementInt (.array len [x]))) := by
  rw [readItem_incrementInt hx.reads]
  exact ⟨taken_tuple (by decide) (by simp) (by simp [hx.taken]), .incrementInt hx⟩

theorem settles_incrementDouble {w : Width} {len : Option Width} {x : Item} {d : UInt64}
    (hwx : x.WF) (hx : DenotesNumber x d) :
    Settles (Taken document (.tag w tagIncrementDouble (.array len [x])))
      (Denotes (.tag w tagIncrementDouble (.array len [x])))
      (readItem document (.tag w tagIncrementDouble (.array len [x]))) := by
  obtain ⟨d', hd, hxd⟩ := hx.reads hwx
  rw [readItem_incrementDouble hd]
  exact ⟨taken_tuple (by decide) (by simp) (by simp [hx.taken]), .incrementDouble hxd⟩

/-- An array of values, plain or under the tag of a union or a removal. -/
theorem settles_array {len : Option Width} {xs : List Item} {P : FieldValue → Prop}
    {Q : List FieldValue → Prop} {f : List FieldValue → FieldValue}
    (h : Settles (∀ x ∈ xs, Taken document x) Q (readItems document xs))
    (hf : ∀ vs, Q vs → P (f vs)) :
    Settles (Taken document (.array len xs)) P
      (if tooMany false len xs.length then .fails else do return f (← readItems document xs)) := by
  cases hs : tooMany false len xs.length with
  | true => exact fun ht => by simpa [hs] using (taken_array.mp ht).1
  | false => exact (h.map hf).congr (by simp [taken_array, hs])

end Settled

/-- An item that stands for a value is read as one it stands for, unless
something in it is refused. -/
theorem Denotes.settles (document : Document) {x : Item} {v : FieldValue} (h : Denotes x v)
    (hx : x.WF) (hd : DistinctKeys x) :
    Settles (Taken document x) (Denotes x) (readItem document x) := by
  -- Elements, entries and payloads are smaller than the item around them.
  induction hn : sizeOf x using Nat.strong_induction_on generalizing x v with
  | _ n ih =>
    subst hn
    have hitems : ∀ {len : Option Width} {xs : List Item} {vs : List FieldValue},
        sizeOf (Item.array len xs) ≤ sizeOf x → (Item.array len xs).WF →
        DistinctKeys (.array len xs) → DenotesAll xs vs →
        Settles (∀ x ∈ xs, Taken document x) (DenotesAll xs) (readItems document xs) := by
      intro len xs vs hle hwf hdk hall
      refine hall.settles document fun y hy w hw => ?_
      have hlt := List.sizeOf_lt_of_mem hy
      have hxs : sizeOf xs < sizeOf (Item.array len xs) := by simp
      cases hdk with
      | array hdk => exact ih (sizeOf y) (by omega) hw (array_items hwf y hy) (hdk y hy) rfl
    have hpayload : ∀ {w : Width} {t : Nat} {y : Item}, x = .tag w t y →
        y.WF ∧ DistinctKeys y ∧ sizeOf y ≤ sizeOf x := by
      rintro w t y rfl
      cases hx with
      | tag _ hy =>
        cases hd with
        | tag hdy => exact ⟨hy, hdy, by simp⟩
    cases h with
    | null => exact ⟨.prim, .null⟩
    | @boolean b => cases b <;> exact ⟨.prim, .boolean⟩
    | @integer x i hi =>
      have hread := hi.reads
      cases hx with
      | int =>
        simp only [readInt, Except.ok.injEq] at hread
        rw [readItem, hread]
        exact ⟨.int, .integer hi⟩
      | _ => cases hi
    | double hnum =>
      rw [readItem]
      exact settles_prim hx hnum
    | string => exact ⟨.str, .string⟩
    | blob => exact ⟨.str, .blob⟩
    | timestamp hy hz => exact settles_timestamp hy hz
    | geoPoint hy hz =>
      have hxs := array_items (hpayload rfl).1
      exact settles_geoPoint (hxs _ (by simp)) (hxs _ (by simp)) hy hz
    | @reference w s =>
      have hread : readItem document (.tag w tagReference (.str true s)) =
          if document s.content then .ok (.reference s.content) else .fails := by
        simp only [readItem]
        rfl
      rw [hread]
      split
      · next hs => exact ⟨.reference hs, .reference⟩
      · next hs => exact fun ht => hs (taken_reference.mp ht)
    | @array len xs vs hall =>
      rw [readItem]
      exact settles_array (hitems (le_refl _) hx hd hall) fun vs hvs => .array hvs
    | @map len es m hall =>
      cases hd with
      | map hkeys hd =>
        have hentries := hall.settles document [] (by simpa using hkeys)
          fun e he v hv => by
            have h1 := List.sizeOf_lt_of_mem he
            have h2 : sizeOf e.2 < sizeOf e := by
              obtain ⟨a, b⟩ := e
              simp
            have h3 : sizeOf es < sizeOf (Item.map len es) := by simp
            exact ih (sizeOf e.2) (by omega) hv ((map_entries hx).2 e he) (hd e he) rfl
        rw [readItem]
        cases hs : tooMany true len es.length with
        | true => exact fun ht => by simpa [hs] using (taken_map.mp ht).1
        | false =>
          have hrun := hentries.map (f := FieldValue.map) (Q := Denotes (.map len es))
            fun m hm => by
              obtain ⟨m', rfl, hm'⟩ := hm
              exact .map hm'
          exact hrun.congr (by simp [taken_map, hs])
    | delete => exact ⟨.tag (by decide) .prim, .delete⟩
    | serverTimestamp => exact ⟨.tag (by decide) .prim, .serverTimestamp⟩
    | @arrayUnion w len xs vs hall =>
      obtain ⟨hy, hdy, hle⟩ := hpayload rfl
      simp only [readItem]
      rw [readPayload_array (by decide) (by decide) (by decide)]
      have hunion : ∀ vs, DenotesAll xs vs →
          Denotes (.tag w tagArrayUnion (.array len xs)) (.arrayUnion vs) := fun _ hvs => .arrayUnion hvs
      exact (settles_array (hitems hle hy hdy hall) hunion).congr (taken_tag (by decide)).symm
    | @arrayRemove w len xs vs hall =>
      obtain ⟨hy, hdy, hle⟩ := hpayload rfl
      simp only [readItem]
      rw [readPayload_array (by decide) (by decide) (by decide)]
      have hremove : ∀ vs, DenotesAll xs vs →
          Denotes (.tag w tagArrayRemove (.array len xs)) (.arrayRemove vs) := fun _ hvs => .arrayRemove hvs
      exact (settles_array (hitems hle hy hdy hall) hremove).congr (taken_tag (by decide)).symm
    | incrementInt hy => exact settles_incrementInt hy
    | incrementDouble hy =>
      have hxs := array_items (hpayload rfl).1
      exact settles_incrementDouble (hxs _ (by simp)) hy

end Firestore
