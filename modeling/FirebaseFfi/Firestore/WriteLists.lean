import FirebaseFfi.Firestore.WriteReads

namespace Firestore
open Cbor Tinycbor Dart

/-- The run has a value that `P` holds of when `T` does, and fails when it does
not. -/
def Comes {α : Type} (T : Prop) (P : α → Prop) (r : Except Failure α) : Prop :=
  match r with
  | .ok v => T ∧ P v
  | .error _ => ¬ T

section Comes

variable {α β : Type} {T U : Prop} {P : α → Prop} {Q : β → Prop} {r : Except Failure α}

theorem Comes.congr (h : Comes T P r) (hTU : T ↔ U) : Comes U P r := by
  rwa [propext hTU] at h

theorem Comes.bind {f : α → Except Failure β} (h : Comes T P r)
    (hf : ∀ v, P v → Comes U Q (f v)) : Comes (T ∧ U) Q (r >>= f) := by
  cases r with
  | error e => exact fun hTU => h hTU.1
  | ok v =>
    obtain ⟨hT, hP⟩ := h
    have hfv := hf v hP
    show Comes (T ∧ U) Q (f v)
    cases hr : f v with
    | error e =>
      rw [hr] at hfv
      exact fun hTU => hfv hTU.2
    | ok w =>
      rw [hr] at hfv
      exact ⟨⟨hT, hfv.1⟩, hfv.2⟩

theorem Comes.map {f : α → β} (h : Comes T P r) (hf : ∀ v, P v → Q (f v)) :
    Comes T Q (do return f (← r)) := by
  cases r with
  | error e => exact h
  | ok v => exact ⟨h.1, hf v h.2⟩

end Comes

section Write

variable {toString : Object → Option Bytes} {document : Document} {n : Nat} {decode : Decoder}
  {len mlen : Option Width} {rest : Bytes} {it : Tinycbor.CborValue}

theorem documentAt_comes (path : Bytes) :
    Comes (document path = true) (fun p => p = path) (documentAt document path) := by
  unfold documentAt
  split
  · next h => exact ⟨h, rfl⟩
  · next h => exact h

/-- The data of a write is decoded as a map equal to it exactly when the
integers chosen are within int64, unless something in it is refused. -/
theorem data_comes (hdec : Decodes document n decode) {d : Object} {es : List (Item × Item)}
    (hx : (Item.map mlen es).WF) (hn : (Item.map mlen es).bytes.length ≤ n + 1)
    (hready : Ready len false rest [.map mlen es] it) (h : Carried document d (.map mlen es)) :
    Comes (Taken document (.map mlen es))
      (fun p => SameTree d (toDart (.map p.2)) ↔ IntsWithin (.map mlen es))
      (decodeMap decode it) := by
  unfold Carried at h
  rw [readItem] at h
  by_cases hs : tooMany true mlen es.length = true
  · rw [if_pos hs] at h
    rw [decodeMap, enter_refused true hs hready.1.shows]
    exact h
  · rw [if_neg hs] at h
    have hrun := decodeMap_reads hdec hx hn hready.1 (by simpa using hs)
    cases hr : readEntries document [] es with
    | error e =>
      rw [hr] at h hrun
      cases e with
      | fails =>
        obtain ⟨f, hf⟩ := hrun
        rw [hf]
        exact h
      | unchecked => cases h
    | ok m =>
      rw [hr] at h hrun
      obtain ⟨it', hres, -⟩ := ConsumedAs.next (by simp) hready hrun
      rw [hres]
      exact h

/-- What the package writes for a write: op, path and data. -/
inductive WriteItem (toString : Object → Option Bytes) : Write → Item → Prop
  | set {len op path data merge mlen es c} : op.content = ascii (if merge then "merge" else "set") →
      encodeFirestoreValue toString (documentData data) = .ok c → Emits c (.map mlen es) →
      WriteItem toString (.set path.content data merge)
        (.array len [.str true op, .str true path, .map mlen es])
  | update {len op path data mlen es c} : op.content = ascii "update" →
      encodeFirestoreValue toString (documentData data) = .ok c → Emits c (.map mlen es) →
      WriteItem toString (.update path.content data)
        (.array len [.str true op, .str true path, .map mlen es])
  | delete {len op path} : op.content = ascii "delete" →
      WriteItem toString (.delete path.content) (.array len [.str true op, .str true path])

/-- The data of the write, if it has any, is like this. -/
def Write.DataIs (P : Object → Prop) (w : Write) : Prop := ∀ d ∈ w.data, P d

theorem decodeWrite_call {op path : Str} {tail : List Item}
    (hx : (Item.array len (.str true op :: .str true path :: tail)).WF)
    (hs : tooMany false len (tail.length + 2) = false)
    (hat : AtItem (.array len (.str true op :: .str true path :: tail)) rest it) :
    ∃ item, Ready len false rest tail item ∧ decodeWrite document decode it =
      decodeCall document decode op.content path.content item := by
  have hxs := array_items hx
  have hop := hxs (.str true op) (by simp)
  have hpath := hxs (.str true path) (by simp)
  have htail : ∀ y ∈ tail, y.WF := fun y hy => hxs y (by simp [hy])
  obtain ⟨r, henter, hready⟩ := enter_small hx hat hs
  obtain ⟨r₁, hread, hready⟩ := readText_item hop (List.forall_mem_cons.mpr ⟨hpath, htail⟩) hready
  obtain ⟨r₂, hread', hready⟩ := readText_item hpath htail hready
  have harray : (it.type == .array) = true := by
    rw [hat.shows.type]
    rfl
  refine ⟨r₂, hready, ?_⟩
  rw [decodeWrite, if_pos harray, henter]
  show (readText r >>= fun p => readText p.1 >>= fun p' =>
    decodeCall document decode p.2 p'.2 p'.1) = _
  rw [hread]
  show (readText r₁ >>= fun p' => decodeCall document decode op.content p'.2 p'.1) = _
  rw [hread']
  rfl

/-- The data is all of an entry that can be refused or changed. -/
theorem entry_taken {op path : Str} {x : Item} :
    Taken document (.array len [.str true op, .str true path, x]) ↔ Taken document x := by
  rw [taken_array]
  constructor
  · intro h
    exact h.2 x (by simp)
  · intro h
    refine ⟨tooMany_of_length (by simp), ?_⟩
    intro y hy
    simp only [List.mem_cons, List.not_mem_nil, or_false] at hy
    rcases hy with rfl | rfl | rfl
    · exact .str
    · exact .str
    · exact h

theorem length_le_array {x : Item} {xs : List Item} (h : x ∈ xs) :
    x.bytes.length ≤ (Item.array len xs).bytes.length := by
  have hall := length_lt_bytesAll h
  have harray := array_lengths len xs
  omega

/-- The data of an entry are well formed, and shorter than it. -/
theorem entry_data {op path : Str} {x : Item}
    (hx : (Item.array len [.str true op, .str true path, x]).WF)
    (hn : (Item.array len [.str true op, .str true path, x]).bytes.length ≤ n) :
    x.WF ∧ x.bytes.length ≤ n + 1 := by
  refine ⟨array_items hx x (by simp), ?_⟩
  have hlength := @length_le_array len x [.str true op, .str true path, x] (by simp)
  omega

/-- A call with data is the same as the write when its data is. -/
theorem call_comes (hdec : Decodes document n decode) {w : Write} {d : Object} {path : Bytes}
    {es : List (Item × Item)} (hx : (Item.map mlen es).WF)
    (hn : (Item.map mlen es).bytes.length ≤ n + 1)
    (hready : Ready len false rest [.map mlen es] it) (h : Carried document d (.map mlen es))
    (f : Bytes → MapFieldValue → SdkWrite)
    (hf : ∀ m, SameWrite w (f path m) ↔ SameTree d (toDart (.map m))) :
    Comes (Taken document (.map mlen es) ∧ document path = true)
      (fun call => SameWrite w call ↔ IntsWithin (.map mlen es))
      (do
        let (_, data) ← decodeMap decode it
        return f (← documentAt document path) data) := by
  refine (data_comes hdec hx hn hready h).bind fun p hp => ?_
  refine (documentAt_comes path).map fun q hq => ?_
  rw [hq, hf, hp]

/-- An entry that stands for a write is decoded as the same call exactly when
the integers chosen are within int64, unless something in it is refused. -/
theorem write_comes (hdec : Decodes document n decode) {w : Write} {x : Item}
    (hitem : WriteItem toString w x) (htree : w.DataIs (Tree true)) (hx : x.WF)
    (hn : x.bytes.length ≤ n) (hat : AtItem x rest it) :
    Comes (Taken document x ∧ document w.path = true)
      (fun call => SameWrite w call ↔ IntsWithin x) (decodeWrite document decode it) := by
  cases hitem with
  | @set len op path data merge mlen es c hop hc hemit =>
    obtain ⟨item, hready, hcall⟩ := @decodeWrite_call document decode _ _ _ _ _ _ hx
      (tooMany_of_length (by simp)) hat
    obtain ⟨hmap, hroom⟩ := entry_data hx hn
    have hcarried : Carried document (documentData data) (.map mlen es) :=
      (htree _ (List.mem_singleton.mpr rfl)).carried hc hemit hmap
    have hbranch : op.content ≠ ascii "delete" ∧
        (op.content = ascii "set" ∨ op.content = ascii "merge") ∧
        decide (op.content = ascii "merge") = merge := by
      rw [hop]
      cases merge <;> decide
    rw [hcall, decodeCall, if_neg hbranch.1, if_pos hbranch.2.1, hbranch.2.2, entry_taken]
    simp only [entry_within]
    refine call_comes hdec hmap hroom hready hcarried (fun p m => .set p m merge) fun m => ?_
    exact ⟨fun h => by cases h; assumption, .set⟩
  | @update len op path data mlen es c hop hc hemit =>
    obtain ⟨item, hready, hcall⟩ := @decodeWrite_call document decode _ _ _ _ _ _ hx
      (tooMany_of_length (by simp)) hat
    obtain ⟨hmap, hroom⟩ := entry_data hx hn
    have hcarried : Carried document (documentData data) (.map mlen es) :=
      (htree _ (List.mem_singleton.mpr rfl)).carried hc hemit hmap
    rw [hcall, decodeCall, hop, if_neg (by decide), if_neg (by decide), if_pos rfl, entry_taken]
    simp only [entry_within]
    refine call_comes hdec hmap hroom hready hcarried .update fun m => ?_
    exact ⟨fun h => by cases h; assumption, .update⟩
  | @delete len op path hop =>
    obtain ⟨item, hready, hcall⟩ := @decodeWrite_call document decode _ _ _ _ _ _ hx
      (tooMany_of_length (by simp)) hat
    have hplain : ∀ y ∈ [Item.str true op, .str true path], ∃ s, y = .str true s := by simp
    rw [hcall, decodeCall, hop, if_pos rfl]
    refine Comes.congr ((documentAt_comes path.content).map fun p hp => ?_) ?_
    · rw [hp]
      refine iff_of_true .delete (.array fun y hy => ?_)
      obtain ⟨s, rfl⟩ := hplain y hy
      exact .str
    · refine (and_iff_right (.array (tooMany_of_length (by simp)) fun y hy => ?_)).symm
      obtain ⟨s, rfl⟩ := hplain y hy
      exact .str

/-- Data is written as a map. -/
theorem emits_data {data : List (Bytes × Object)} {c : Dart.CborValue} {x : Item}
    (hc : encodeFirestoreValue toString (documentData data) = .ok c) (hx : Emits c x) :
    ∃ mlen es, x = .map mlen es := by
  obtain ⟨ces, hces, hc⟩ := bind_ok hc
  cases hc
  cases hx
  exact ⟨_, _, rfl⟩

theorem datum_item {data : List (Bytes × Object)} {cs : List Dart.CborValue} {xs : List Item}
    (hcs : encodeElements toString [documentData data] = .ok cs) (hx : EmitsAll cs xs) :
    ∃ c mlen es, xs = [.map mlen es] ∧ encodeFirestoreValue toString (documentData data) = .ok c ∧
      Emits c (.map mlen es) := by
  obtain ⟨c, hc, hcs⟩ := bind_ok hcs
  cases hcs
  cases hx with
  | cons hx hnil =>
    cases hnil
    obtain ⟨mlen, es, rfl⟩ := emits_data hc hx
    exact ⟨c, mlen, es, rfl, hc, hx⟩

theorem write_item {w : Write} {c : Dart.CborValue} {x : Item}
    (hc : encodeFirestoreValue toString w.recorded = .ok c) (hx : Emits c x) :
    WriteItem toString w x := by
  rw [recorded_eq] at hc
  obtain ⟨cs, hcs, hc⟩ := bind_ok hc
  cases hc
  obtain ⟨op, hop, hcs⟩ := bind_ok hcs
  obtain ⟨cs, hcs', hcs⟩ := bind_ok hcs
  cases hop
  cases hcs
  obtain ⟨path, hpath, hcs⟩ := bind_ok hcs'
  obtain ⟨cs, hdata, hcs⟩ := bind_ok hcs
  cases hpath
  cases hcs
  cases hx with
  | list hx =>
    cases hx with
    | cons hfirst hx =>
      cases hx with
      | cons hsecond hx =>
        obtain ⟨op, rfl, hop⟩ := emits_string hfirst
        obtain ⟨path, rfl, hpath⟩ := emits_string hsecond
        cases w with
        | set p data merge =>
          obtain ⟨d, mlen, es, rfl, hd, hdatum⟩ := datum_item hdata hx
          cases hpath
          exact .set hop hd hdatum
        | update p data =>
          obtain ⟨d, mlen, es, rfl, hd, hdatum⟩ := datum_item hdata hx
          cases hpath
          exact .update hop hd hdatum
        | delete p =>
          cases hdata
          cases hx
          cases hpath
          exact .delete hop

theorem recorded_items {ws : List Write} {cs : List Dart.CborValue} {xs : List Item}
    (hcs : encodeElements toString (ws.map Write.recorded) = .ok cs) (hx : EmitsAll cs xs) :
    List.Forall₂ (WriteItem toString) ws xs := by
  induction ws generalizing cs xs with
  | nil =>
    cases hcs
    cases hx
    exact .nil
  | cons w ws ih =>
    obtain ⟨c, hc, hcs⟩ := bind_ok hcs
    obtain ⟨cs, hrest, hcs⟩ := bind_ok hcs
    cases hcs
    cases hx with
    | cons hx hxs => exact .cons (write_item hc hx) (ih hrest hxs)

theorem write_walked {w : Write} {x : Item} (hitem : WriteItem toString w x)
    (htree : w.DataIs (Tree true)) (hdepth : w.DataIs fun d => nesting d < cborParserMaxRecursions)
    (ht : Taken document x) : walks cborParserMaxRecursions x = true := by
  have hdata : ∀ {data len op path mlen es c}, w.data = [documentData data] →
      encodeFirestoreValue toString (documentData data) = .ok c → Emits c (.map mlen es) →
      Taken document (.array len [.str true op, .str true path, .map mlen es]) →
      walks cborParserMaxRecursions (.array len [.str true op, .str true path, .map mlen es]) =
        true := by
    intro data len op path mlen es c hw hc hx ht
    have hmem : documentData data ∈ w.data := by simp [hw]
    have hlevel := hdepth _ hmem
    have hwalks := (htree _ hmem).walked hc hx (entry_taken.mp ht) (Nat.le_sub_one_of_lt hlevel)
    refine walks_array (taken_array.mp ht).1 fun y hy => ?_
    simp only [List.mem_cons, List.not_mem_nil, or_false] at hy
    rcases hy with rfl | rfl | rfl
    · rfl
    · rfl
    · exact hwalks
  cases hitem with
  | set _ hc hx => exact hdata rfl hc hx ht
  | update _ hc hx => exact hdata rfl hc hx ht
  | delete =>
    refine walks_array (taken_array.mp ht).1 fun y hy => ?_
    simp only [List.mem_cons, List.not_mem_nil, or_false] at hy
    rcases hy with rfl | rfl <;> rfl

theorem advance_walked {x : Item} {xs : List Item} (hx : x.WF) (hxs : ∀ y ∈ xs, y.WF)
    (hnt : it.type ≠ .tag) (hready : Ready len false rest (x :: xs) it)
    (hw : walks cborParserMaxRecursions x = true) :
    ∃ it', cborValueAdvance it = .ok it' ∧ Ready len false rest xs it' := by
  have hitem := advance_item cborParserMaxRecursions hx hready.1 hnt
  unfold Advances at hitem
  rw [if_pos hw] at hitem
  obtain ⟨it', hadv, hready'⟩ := hready.next hxs hitem
  exact ⟨it', by rw [cborValueAdvance, if_neg hready.not_done, hadv], hready'⟩

/-- The loop issues the calls of the writes exactly when nothing in their items
is refused or changed. -/
theorem entries_issued (hdec : Decodes document n decode) {ws : List Write} {xs : List Item}
    (hitems : List.Forall₂ (WriteItem toString) ws xs) (htree : ∀ w ∈ ws, w.DataIs (Tree true))
    (hdepth : ∀ w ∈ ws, w.DataIs fun d => nesting d < cborParserMaxRecursions)
    (hwf : ∀ x ∈ xs, x.WF) (hn : ∀ x ∈ xs, x.bytes.length ≤ n) {fuel : Nat}
    (hfuel : xs.length < fuel) (hready : Ready len false rest xs it) (txn : List SdkWrite) :
    ∃ calls r, applyEntries document decode fuel it txn = (txn ++ calls, r) ∧
      ((r = .ok () ∧ List.Forall₂ SameWrite ws calls) ↔
        (∀ x ∈ xs, Taken document x ∧ IntsWithin x) ∧ ∀ w ∈ ws, document w.path = true) := by
  induction hitems generalizing it fuel txn with
  | nil =>
    obtain ⟨fuel, rfl⟩ : ∃ k, fuel = k + 1 := ⟨fuel - 1, by simp at hfuel; omega⟩
    refine ⟨[], .ok (), ?_, iff_of_true ⟨rfl, .nil⟩ (by simp)⟩
    have hend : cborValueAtEnd it = true := by simpa [cborValueAtEnd] using hready.1
    rw [applyEntries, if_pos hend, List.append_nil]
  | @cons w x ws xs hitem _ ih =>
    obtain ⟨fuel, rfl⟩ : ∃ k, fuel = k + 1 := ⟨fuel - 1, by simp at hfuel; omega⟩
    obtain ⟨hx, hxs⟩ := List.forall_mem_cons.mp hwf
    obtain ⟨htree, htrees⟩ := List.forall_mem_cons.mp htree
    obtain ⟨hdepth, hdepths⟩ := List.forall_mem_cons.mp hdepth
    obtain ⟨hn, hns⟩ := List.forall_mem_cons.mp hn
    have hwrite := write_comes hdec hitem htree hx hn hready.1
    have hend : ¬ cborValueAtEnd it = true := by simpa [cborValueAtEnd] using hready.not_done
    rw [applyEntries, if_neg hend]
    simp only [List.forall_mem_cons]
    cases hrun : decodeWrite document decode it with
    | error e =>
      rw [hrun] at hwrite
      refine ⟨[], .error e, by rw [List.append_nil], iff_of_false ?_ ?_⟩
      · intro h
        cases h.1
      · intro h
        exact hwrite ⟨h.1.1.1, h.2.1⟩
    | ok call =>
      rw [hrun] at hwrite
      obtain ⟨⟨htaken, hpath⟩, hsame⟩ := hwrite
      have hnt : it.type ≠ .tag := by
        rw [hready.1.shows.type]
        cases hitem <;> exact fun h => by cases h
      obtain ⟨it', hadv, hready'⟩ := advance_walked hx hxs hnt hready
        (write_walked hitem htree hdepth htaken)
      obtain ⟨calls, r, hrest, hiff⟩ := ih htrees hdepths hxs hns (by simpa using hfuel) hready'
        (txn ++ [call])
      refine ⟨call :: calls, r, ?_, ?_⟩
      · rw [hadv]
        dsimp only
        rw [hrest, List.append_assoc, List.singleton_append]
      · rw [List.forall₂_cons, and_left_comm, hiff, hsame]
        constructor
        · intro h
          exact ⟨⟨⟨htaken, h.1⟩, h.2.1⟩, hpath, h.2.2⟩
        · intro h
          exact ⟨h.1.1.2, h.1.2, h.2.2⟩

end Write

section Lists

variable {toString : Object → Option Bytes} {document : Document} {ws : List Write} {x : Item}

/-- ApplyWrites takes the whole list and issues the calls of the writes, in order. -/
def Issues (document : Document) (cbor : Bytes) (ws : List Write) : Prop :=
  (applyWrites document cbor).2 = .ok () ∧ List.Forall₂ SameWrite ws (applyWrites document cbor).1

/-- Nothing in the list is refused, or changed by the way it is encoded. -/
structure Carriable (document : Document) (ws : List Write) (x : Item) : Prop where
  trees : ∀ w ∈ ws, w.DataIs (Tree true)
  taken : Taken document x
  within : IntsWithin x
  paths : ∀ w ∈ ws, document w.path = true

/-- A call that is the same as a write has data that only a tree is equal to. -/
theorem SameWrite.tree {w : Write} {call : SdkWrite} (h : SameWrite w call)
    (hkeyed : w.DataIs StringKeyed) : w.DataIs (Tree true) := by
  intro d hd
  cases h with
  | set hsame =>
    obtain rfl := List.mem_singleton.mp hd
    exact (hkeyed _ hd).tree _ hsame
  | update hsame =>
    obtain rfl := List.mem_singleton.mp hd
    exact (hkeyed _ hd).tree _ hsame
  | delete => cases hd

theorem same_trees {calls : List SdkWrite} (h : List.Forall₂ SameWrite ws calls)
    (hkeyed : ∀ w ∈ ws, w.DataIs StringKeyed) : ∀ w ∈ ws, w.DataIs (Tree true) := by
  induction h with
  | nil => simp
  | cons hw _ ih =>
    obtain ⟨hhead, htail⟩ := List.forall_mem_cons.mp hkeyed
    exact List.forall_mem_cons.mpr ⟨hw.tree hhead, ih htail⟩

/-- The calls issued for an encoded list of trees. -/
theorem trees_issued {c : Dart.CborValue}
    (hc : encodeFirestoreValue toString (.list (ws.map Write.recorded)) = .ok c) (hx : Emits c x)
    (hwf : x.WF) (htree : ∀ w ∈ ws, w.DataIs (Tree true))
    (hdepth : ∀ w ∈ ws, w.DataIs fun d => nesting d < cborParserMaxRecursions) :
    Issues document x.bytes ws ↔
      Taken document x ∧ IntsWithin x ∧ ∀ w ∈ ws, document w.path = true := by
  obtain ⟨cs, hcs, hc⟩ := bind_ok hc
  cases hc
  cases hx with
  | @list _ len xs hx =>
    have hitems := recorded_items hcs hx
    have hxs := array_items hwf
    obtain ⟨array, hinit, hready⟩ := parserInit_item [] hwf
    rw [List.append_nil] at hinit
    have hne : (Item.array len xs).bytes ≠ [] := List.length_pos_iff.mp hwf.length_pos
    have harray : (array.type == .array) = true := by
      rw [hready.1.shows.type]
      rfl
    have henter : enterWrites (Item.array len xs).bytes = checked (cborValueEnterContainer array) := by
      rw [enterWrites, hinit]
      exact if_pos harray
    rw [taken_array, within_array, Issues, applyWrites, if_neg (by simpa using hne), henter]
    cases hs : tooMany false len xs.length with
    | true =>
      rw [enter_refused false hs hready.1.shows]
      refine iff_of_false ?_ ?_
      · intro h
        cases h.1
      · intro h
        cases h.1.1
    | false =>
      obtain ⟨entry, hentry, hready⟩ := enter_small hwf hready.1 hs
      have hlength : ∀ y ∈ xs, y.bytes.length ≤ (Item.array len xs).bytes.length :=
        fun y hy => length_le_array hy
      have hfuel : xs.length < (Item.array len xs).bytes.length + 1 := by
        have hle := length_le_bytesAll hxs
        have hlt := array_lengths len xs
        omega
      obtain ⟨calls, r, hrun, hiff⟩ := entries_issued
        (decodeValue_reads document (Item.array len xs).bytes.length) hitems htree hdepth hxs
        hlength hfuel hready []
      rw [hentry, checked]
      dsimp only
      rw [hrun, List.nil_append, hiff]
      constructor
      · intro h
        exact ⟨⟨rfl, fun y hy => (h.1 y hy).1⟩, fun y hy => (h.1 y hy).2, h.2⟩
      · intro h
        exact ⟨fun y hy => ⟨h.1.2 y hy, h.2.1 y hy⟩, h.2.2⟩

/-- An encoded list issues the calls of its writes exactly when nothing in it is
refused or changed. -/
theorem list_issued {c : Dart.CborValue}
    (hc : encodeFirestoreValue toString (.list (ws.map Write.recorded)) = .ok c) (hx : Emits c x)
    (hwf : x.WF) (hkeyed : ∀ w ∈ ws, w.DataIs StringKeyed)
    (hdepth : ∀ w ∈ ws, w.DataIs fun d => nesting d < cborParserMaxRecursions) :
    Issues document x.bytes ws ↔ Carriable document ws x := by
  constructor
  · intro h
    have htree := same_trees h.2 hkeyed
    obtain ⟨htaken, hwithin, hpaths⟩ := (trees_issued hc hx hwf htree hdepth).mp h
    exact ⟨htree, htaken, hwithin, hpaths⟩
  · intro h
    exact (trees_issued hc hx hwf h.trees hdepth).mpr ⟨h.taken, h.within, h.paths⟩

end Lists

end Firestore
