import FirebaseFfi.Tinycbor.Walk

namespace Tinycbor
open Cbor

/-- The parser can hold the count of a container. -/
def countable (isMap : Bool) (len : Option Width) (n : Nat) : Bool :=
  len.isNone || n < countLimit isMap

mutual
/-- advance_recursive gets past the item, with so many levels of nesting left.
In a container a tag is passed on the way to what it tags. -/
def walks : Nat → Item → Bool
  | _, .int _ _ _ => true
  | _, .str _ _ => true
  | level, .array len xs =>
    match level with
    | 0 => false
    | level + 1 => countable false len xs.length && walksAll level xs
  | level, .map len es =>
    match level with
    | 0 => false
    | level + 1 => countable true len es.length && walksEntries level es
  | level, .tag _ _ x => walks level x
  | _, .prim _ _ => true

def walksAll : Nat → List Item → Bool
  | _, [] => true
  | level, x :: xs => walks level x && walksAll level xs

def walksEntries : Nat → List (Item × Item) → Bool
  | _, [] => true
  | level, (key, x) :: es => walks level key && walks level x && walksEntries level es
end

theorem walksAll_flatten (level : Nat) (es : List (Item × Item)) :
    walksAll level (flatten es) = walksEntries level es := by
  induction es with
  | nil => rfl
  | cons e es ih => simp only [flatten, walksAll, walksEntries, ih, Bool.and_assoc]

/-- How often the loop over a container turns for an item. -/
def turns : Item → Nat
  | .tag _ _ x => turns x + 1
  | _ => 1

def turnsAll : List Item → Nat
  | [] => 0
  | x :: xs => turns x + turnsAll xs

theorem turns_le {x : Item} (h : x.WF) : turns x ≤ x.bytes.length := by
  induction h with
  | @tag w t x _ _ ih =>
    simp only [turns, Item.bytes, List.length_append, head_length]
    omega
  | @int neg w n hn => exact (Item.WF.int hn).length_pos
  | @str text s hs => exact (Item.WF.str hs).length_pos
  | @array len xs hl hx => exact (Item.WF.array hl hx).length_pos
  | @map len es hl hk hv => exact (Item.WF.map hl hk hv).length_pos
  | @prim w n hn h1 => exact (Item.WF.prim hn h1).length_pos

theorem turnsAll_le {xs : List Item} (h : ∀ x ∈ xs, x.WF) :
    turnsAll xs ≤ (bytesAll xs).length := by
  induction xs with
  | nil => exact Nat.zero_le _
  | cons x xs ih =>
    have hx := turns_le (h x List.mem_cons_self)
    have hxs := ih fun y hy => h y (List.mem_cons_of_mem _ hy)
    simp only [turnsAll, bytesAll, List.length_append]
    omega

theorem turns_pos (x : Item) : 0 < turns x := by
  cases x <;> simp [turns]

/-- Advancing over an item consumes it when the walk gets past it, and fails
when it does not. -/
def Advances (level : Nat) (x : Item) (rest : Bytes) (it : CborValue) : Prop :=
  if walks level x then Consumed it rest (advanceRecursive level it)
  else ∃ e, advanceRecursive level it = .error e

section Loop

variable {len : Option Width} {isMap : Bool} {rest : Bytes} {level : Nat}

/-- The loop of advance_recursive over a container's items. -/
def advanceAll (level fuel : Nat) (it : CborValue) : Except CborError (CborValue × Unit) :=
  whileNotAtEnd .unknownError
    (fun recursed _ => (advanceRecursive level recursed).map fun it => (it, ())) fuel it ()

theorem advanceAll_done {fuel : Nat} {it : CborValue} (h : it.remaining = 0) :
    advanceAll level (fuel + 1) it = .ok (it, ()) := by
  rw [advanceAll, whileNotAtEnd, if_pos (by simpa [cborValueAtEnd] using h)]

theorem advanceAll_step {fuel : Nat} {it it' : CborValue} (h : it.remaining ≠ 0)
    (hadv : advanceRecursive level it = .ok it') :
    advanceAll level (fuel + 1) it = advanceAll level fuel it' := by
  rw [advanceAll, whileNotAtEnd, if_neg (by simpa [cborValueAtEnd] using h), hadv]
  rfl

theorem advanceAll_error {fuel : Nat} {it : CborValue} {e : CborError} (h : it.remaining ≠ 0)
    (hadv : advanceRecursive level it = .error e) : advanceAll level (fuel + 1) it = .error e := by
  rw [advanceAll, whileNotAtEnd, if_neg (by simpa [cborValueAtEnd] using h), hadv]
  rfl

/-- A tag inside a container leads to the item it tags. -/
theorem advance_tagged {w : Width} {t : Nat} {x : Item} {xs : List Item} {it : CborValue}
    (hx : (Item.tag w t x).WF) (h : Ready len isMap rest (.tag w t x :: xs) it) :
    ∃ it', advanceRecursive level it = .ok it' ∧ Ready len isMap rest (x :: xs) it' := by
  obtain ⟨it', hadv, hframe, hat⟩ := advance_tag hx h.1
  have hfixed : isFixedType it.type = true := by
    rw [h.1.shows.type]
    rfl
  refine ⟨it', ?_, hat, h.2.of_frame hframe⟩
  rw [← hadv]
  unfold advanceRecursive
  rw [if_pos hfixed]

theorem not_tag_type {x : Item} (h : ∀ w t y, x ≠ .tag w t y) : itemType x ≠ .tag := by
  cases x with
  | tag w t y => exact absurd rfl (h w t y)
  | prim w n => exact (primType_fixed w n).2
  | str text s => cases text <;> simp [itemType]
  | _ => simp [itemType]

/-- The loop gets to the end exactly when the walk gets past every item. -/
theorem advanceAll_items (hadv : ∀ {x : Item} {rest : Bytes} {it : CborValue}, x.WF →
      AtItem x rest it → it.type ≠ .tag → Advances level x rest it)
    (xs : List Item) (hxs : ∀ x ∈ xs, x.WF) {fuel : Nat} (hf : turnsAll xs < fuel) {it : CborValue}
    (h : Ready len isMap rest xs it) :
    if walksAll level xs then
      ∃ fin, advanceAll level fuel it = .ok (fin, ()) ∧ Ready len isMap rest [] fin
    else ∃ e, advanceAll level fuel it = .error e := by
  induction fuel generalizing xs it with
  | zero => omega
  | succ fuel ih =>
    cases xs with
    | nil =>
      rw [walksAll, if_pos rfl, advanceAll_done h.1]
      exact ⟨it, rfl, h⟩
    | cons x xs =>
      have hx := hxs x List.mem_cons_self
      have hxs' : ∀ y ∈ xs, y.WF := fun y hy => hxs y (List.mem_cons_of_mem _ hy)
      rw [turnsAll] at hf
      by_cases htag : ∃ w t y, x = .tag w t y
      · obtain ⟨w, t, y, rfl⟩ := htag
        obtain ⟨it', hstep, hready⟩ := advance_tagged hx h
        have hy : y.WF := by
          cases hx
          assumption
        have hrun := ih (y :: xs) (List.forall_mem_cons.mpr ⟨hy, hxs'⟩)
          (by simp only [turns] at hf; simp only [turnsAll]; omega) hready
        rw [advanceAll_step h.not_done hstep]
        exact hrun
      · have hnt : it.type ≠ .tag := by
          rw [h.1.shows.type]
          apply not_tag_type
          intro w t y hy
          exact htag ⟨w, t, y, hy⟩
        have hone := hadv hx h.1 hnt
        unfold Advances at hone
        have hpos := turns_pos x
        cases hw : walks level x with
        | true =>
          rw [hw, if_pos rfl] at hone
          obtain ⟨it', hstep, hready⟩ := h.next hxs' hone
          rw [advanceAll_step h.not_done hstep, walksAll, hw, Bool.true_and]
          exact ih xs hxs' (by omega) hready
        | false =>
          rw [hw, if_neg (by decide)] at hone
          obtain ⟨e, he⟩ := hone
          rw [walksAll, hw, Bool.false_and, if_neg (by decide)]
          exact ⟨e, advanceAll_error h.not_done he⟩

end Loop

theorem countable_lt {isMap : Bool} {len : Option Width} {n : Nat}
    (h : countable isMap len n = true) : len.isSome → n < countLimit isMap := by
  intro hsome
  cases len with
  | none => cases hsome
  | some w => simpa [countable] using h

/-- A container whose count the parser cannot hold is not entered. -/
theorem enter_uncountable (isMap : Bool) {len : Option Width} {n : Nat} {it : CborValue}
    (h : countable isMap len n = false)
    (hshow : Shows (containerType isMap) len (if len.isSome then n else 31) false it) :
    cborValueEnterContainer it = .error .dataTooLarge := by
  cases len with
  | none => cases h
  | some w =>
    have hle : countLimit isMap ≤ n := by simpa [countable] using h
    exact enter_tooLarge hle (by simpa using hshow)

theorem container_type (isMap : Bool) {it : CborValue} (h : it.type = containerType isMap) :
    isFixedType it.type = false ∧ cborValueIsContainer it = true := by
  unfold cborValueIsContainer
  rw [h]
  cases isMap <;> exact ⟨rfl, rfl⟩

theorem advance_too_deep (isMap : Bool) {it : CborValue} (h : it.type = containerType isMap) :
    advanceRecursive 0 it = .error .nestingTooDeep := by
  obtain ⟨hfixed, hcontainer⟩ := container_type isMap h
  unfold advanceRecursive
  rw [hfixed, hcontainer]
  rfl

/-- advance_recursive on a container with a level of nesting left. -/
theorem advance_container (isMap : Bool) {len : Option Width} {n level : Nat} {xs : List Item}
    {rest : Bytes} {it : CborValue}
    (hadv : ∀ {x : Item} {rest : Bytes} {it : CborValue}, x.WF → AtItem x rest it →
      it.type ≠ .tag → Advances level x rest it)
    (hxs : ∀ x ∈ xs, x.WF) (hfuel : turnsAll xs < it.src.length + 2)
    (hshow : Shows (containerType isMap) len (if len.isSome then n else 31) false it)
    (henter : (len.isSome → n < countLimit isMap) →
      ∃ r, cborValueEnterContainer it = .ok r ∧ Ready len isMap rest xs r) :
    if countable isMap len n && walksAll level xs then
      Consumed it rest (advanceRecursive (level + 1) it)
    else ∃ e, advanceRecursive (level + 1) it = .error e := by
  have htype := hshow.type
  obtain ⟨hfixed, hcontainer⟩ := container_type isMap htype
  have hrun : advanceRecursive (level + 1) it =
      (cborValueEnterContainer it).bind fun recursed =>
        (advanceAll level (it.src.length + 2) recursed).bind fun fin =>
          cborValueLeaveContainer it fin.1 := by
    rw [advanceRecursive, hfixed, hcontainer, if_neg Bool.false_ne_true, if_neg (by decide)]
    split
    · next hent => rw [hent]; rfl
    · next recursed hent =>
      rw [hent, Except.bind, advanceAll]
      split
      · next hall => rw [hall]; rfl
      · next hall => rw [hall]; rfl
  cases hc : countable isMap len n with
  | false =>
    rw [Bool.false_and, if_neg (by decide), hrun, enter_uncountable isMap hc hshow]
    exact ⟨_, rfl⟩
  | true =>
    obtain ⟨r, hr, hready⟩ := henter (countable_lt hc)
    have hloop := advanceAll_items hadv xs hxs hfuel hready
    rw [Bool.true_and, hrun, hr, Except.bind]
    cases hw : walksAll level xs with
    | false =>
      rw [hw, if_neg (by decide)] at hloop
      obtain ⟨e, he⟩ := hloop
      rw [if_neg (by decide), he]
      exact ⟨e, rfl⟩
    | true =>
      rw [hw, if_pos rfl] at hloop
      obtain ⟨fin, hfin, hend⟩ := hloop
      rw [if_pos rfl, hfin]
      exact leave_consumed hend (by rw [htype]; cases isMap <;> decide)

theorem advances_str {level : Nat} {text : Bool} {s : Str} {rest : Bytes} {it : CborValue}
    (h : (Item.str text s).WF) (hat : AtItem (.str text s) rest it) :
    Advances level (.str text s) rest it := by
  cases h with
  | str hs =>
    obtain ⟨r, hconsumed, hdup⟩ := dupString_item hs hat
    have hrun : advanceRecursive level it = r := by
      have htype : it.type = if text then .textString else .byteString := hat.shows.type
      unfold advanceRecursive
      rw [if_neg (by rw [htype]; cases text <;> decide),
        if_pos (by rw [cborValueIsContainer, htype]; cases text <;> decide), hdup]
      cases r <;> rfl
    unfold Advances
    rw [walks, if_pos rfl, hrun]
    exact hconsumed

theorem advanceRecursive_fixed {level : Nat} {it : CborValue} (h : isFixedType it.type = true) :
    advanceRecursive level it = advanceInternal it := by
  unfold advanceRecursive
  rw [if_pos h]

theorem advances_int {level : Nat} {neg : Bool} {w : Width} {n : Nat} {rest : Bytes}
    {it : CborValue} (h : (Item.int neg w n).WF) (hat : AtItem (.int neg w n) rest it) :
    Advances level (.int neg w n) rest it := by
  have hfixed : isFixedType it.type = true := by
    rw [hat.shows.type]
    rfl
  unfold Advances
  rw [walks, if_pos rfl, advanceRecursive_fixed hfixed]
  exact advance_int h hat

theorem advances_prim {level : Nat} {w : Width} {n : Nat} {rest : Bytes} {it : CborValue}
    (h : (Item.prim w n).WF) (hat : AtItem (.prim w n) rest it) :
    Advances level (.prim w n) rest it := by
  have hfixed : isFixedType it.type = true := by
    rw [hat.shows.type]
    exact (primType_fixed w n).1
  unfold Advances
  rw [walks, if_pos rfl, advanceRecursive_fixed hfixed]
  exact advance_prim h hat

/-- advance_recursive on a well-formed item that is no tag. -/
theorem advance_item (level : Nat) {x : Item} {rest : Bytes} {it : CborValue} (hx : x.WF)
    (hat : AtItem x rest it) (ht : it.type ≠ .tag) : Advances level x rest it := by
  -- Only a container leads to the level below.
  induction level generalizing x rest it with
  | zero =>
    cases x with
    | int => exact advances_int hx hat
    | prim => exact advances_prim hx hat
    | str => exact advances_str hx hat
    | tag => exact absurd hat.shows.type ht
    | array =>
      unfold Advances
      rw [walks, if_neg (by decide)]
      exact ⟨_, advance_too_deep false hat.shows.type⟩
    | map =>
      unfold Advances
      rw [walks, if_neg (by decide)]
      exact ⟨_, advance_too_deep true hat.shows.type⟩
  | succ level ih =>
    cases x with
    | int => exact advances_int hx hat
    | prim => exact advances_prim hx hat
    | str => exact advances_str hx hat
    | tag => exact absurd hat.shows.type ht
    | array len xs =>
      have hxs : ∀ y ∈ xs, y.WF := by
        cases hx
        assumption
      have hturns := turnsAll_le hxs
      have hlength := congrArg List.length hat.src
      simp only [Item.bytes, List.length_append] at hlength
      unfold Advances
      rw [walks]
      exact advance_container false ih hxs (by omega) hat.shows (enter_array hx hat)
    | map len es =>
      have hxs : ∀ y ∈ flatten es, y.WF := by
        cases hx with
        | map _ hk hv => exact Item.WF.flatten hk hv
      have hturns := turnsAll_le hxs
      have hlength := congrArg List.length hat.src
      rw [bytesAll_flatten] at hturns
      simp only [Item.bytes, List.length_append] at hlength
      unfold Advances
      rw [walks, ← walksAll_flatten]
      exact advance_container true ih hxs (by omega) hat.shows (enter_map hx hat)

end Tinycbor
