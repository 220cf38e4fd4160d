import FirebaseFfi.Firestore.DecodeEnds
import FirebaseFfi.Firestore.QuerySpec
import FirebaseFfi.Tinycbor.Advance

namespace Firestore
open Cbor Tinycbor
open Dart (ascii bind_ok)

section Items

variable {len : Option Width} {isMap : Bool} {rest : Bytes} {x : Item} {xs : List Item}
  {it it' : CborValue}

/-- Where an advance over an item succeeds, the next item follows. -/
theorem advance_ready (hx : x.WF) (hxs : ∀ y ∈ xs, y.WF) (h : Ready len isMap rest (x :: xs) it)
    (ht : it.type ≠ .tag) (hadv : cborValueAdvance it = .ok it') : Ready len isMap rest xs it' := by
  have hitem := advance_item cborParserMaxRecursions hx h.1 ht
  rw [cborValueAdvance, if_neg h.not_done] at hadv
  unfold Advances at hitem
  split at hitem
  · obtain ⟨next, hnext, hready⟩ := h.next hxs hitem
    rw [hadv] at hnext
    cases hnext
    exact hready
  · obtain ⟨e, he⟩ := hitem
    rw [hadv] at he
    cases he

/-- A container that is entered has a count the parser can hold. -/
theorem countable_of_enter {n : Nat}
    (hshow : Shows (containerType isMap) len (if len.isSome then n else 31) false it)
    (henter : cborValueEnterContainer it = .ok it') : len.isSome → n < countLimit isMap := by
  apply countable_lt
  cases hc : countable isMap len n with
  | true => rfl
  | false =>
    rw [enter_uncountable isMap hc hshow] at henter
    cases henter

theorem entered_array (hx : (Item.array len xs).WF) (hat : AtItem (.array len xs) rest it)
    (henter : cborValueEnterContainer it = .ok it') : Ready len false rest xs it' := by
  obtain ⟨r, hr, hready⟩ := enter_array hx hat (countable_of_enter hat.shows henter)
  rw [henter] at hr
  cases hr
  exact hready

theorem entered_map {es : List (Item × Item)} (hx : (Item.map len es).WF)
    (hat : AtItem (.map len es) rest it) (henter : cborValueEnterContainer it = .ok it') :
    Ready len true rest (flatten es) it' := by
  obtain ⟨r, hr, hready⟩ := enter_map hx hat (countable_of_enter hat.shows henter)
  rw [henter] at hr
  cases hr
  exact hready

/-- A text is read and the cursor moves on. -/
theorem readText_item {s : Str} (hx : (Item.str true s).WF) (hxs : ∀ y ∈ xs, y.WF)
    (h : Ready len isMap rest (.str true s :: xs) it) :
    ∃ it', readText it = .ok (it', s.content) ∧ Ready len isMap rest xs it' := by
  have hs : s.WF := by
    cases hx with
    | str hs => exact hs
  have htype : (it.type == .textString) = true := by
    rw [h.1.shows.type]
    rfl
  obtain ⟨next, hconsumed, hdup⟩ := dupString_item hs h.1
  obtain ⟨it', rfl, hready⟩ := h.next hxs hconsumed
  refine ⟨it', ?_, hready⟩
  rw [readText, if_pos htype, hdup]
  rfl

theorem readText_ready {s : Str} {text : Bytes} (hx : (Item.str true s).WF)
    (hxs : ∀ y ∈ xs, y.WF) (h : Ready len isMap rest (.str true s :: xs) it)
    (hread : readText it = .ok (it', text)) : text = s.content ∧ Ready len isMap rest xs it' := by
  obtain ⟨next, hok, hready⟩ := readText_item hx hxs h
  rw [hread] at hok
  cases hok
  exact ⟨rfl, hready⟩

end Items

/-- An operand is decoded as what it is by itself. -/
theorem Operand.reads {document : Document} {x : Item} {v : FieldValue}
    (h : Operand document x v) (hx : x.WF) : readItem document x = .ok v := by
  have hsettles := h.denotes.settles document hx h.distinct
  have hdecode := decodeFirst_reads document [] hx
  rw [List.append_nil] at hdecode
  have hchecked : readItem document x ≠ .unchecked := by
    intro hr
    rw [hr] at hsettles
    cases hsettles
  obtain ⟨w, hw, hfirst⟩ := hdecode.value hchecked h.decoded
  rw [h.decoded] at hfirst
  cases hfirst
  exact hw

theorem Operand.checked {document : Document} {x : Item} {v : FieldValue}
    (h : Operand document x v) (hx : x.WF) : readItem document x ≠ .unchecked := by
  rw [h.reads hx]
  exact fun h => by cases h

theorem operands_read {document : Document} {xs : List Item} {vs : List FieldValue}
    (h : List.Forall₂ (Operand document) xs vs) (hxs : ∀ x ∈ xs, x.WF) :
    readItems document xs = .ok vs := by
  induction h with
  | nil => rfl
  | @cons x v xs vs hx _ ih =>
    have hone := hx.reads (hxs x List.mem_cons_self)
    have hall := ih fun y hy => hxs y (List.mem_cons_of_mem x hy)
    rw [readItems, hone, hall]
    rfl

section Clauses

variable {sdk : Sdk} {rest : Bytes} {x : Item} {it : CborValue} {q q' : Query}

/-- What the decoder makes of an item inside a container, where it succeeds. -/
theorem decodeValue_checked {len : Option Width} {isMap : Bool} {xs : List Item} {n : Nat}
    {p : CborValue × FieldValue} (hchecked : readItem sdk.document x ≠ .unchecked) (hx : x.WF)
    (hxs : ∀ y ∈ xs, y.WF) (hready : Ready len isMap rest (x :: xs) it) (hn : x.bytes.length ≤ n)
    (hrun : decodeValue sdk.document n it = .ok p) : readItem sdk.document x = .ok p.2 := by
  obtain ⟨v, hv, b, hb, hbv, -⟩ :=
    ((decodeValue_reads sdk.document n).next hx hn hxs hready).value hchecked hrun
  rw [hrun] at hb
  cases hb
  rw [hv, hbv]

theorem apply_ok {c : Constraint} (h : sdk.apply q c = .ok q') : q' = q.add c := by
  unfold Sdk.apply at h
  split at h
  · cases h
    rfl
  · cases h

theorem operatorOf_name (o : Operator) : operatorOf o.name = some o := by
  cases o with
  | compare c => cases c <;> rfl
  | member m => cases m <;> rfl

theorem directionOf_name (d : Direction) : directionOf d.name = some d := by
  cases d <;> rfl

theorem specKeyOf_name (k : SpecKey) : specKeyOf k.name = some k := by
  cases k with
  | cursor key => cases key <;> rfl
  | limit key => cases key <;> rfl
  | _ => rfl

/-- What an operator makes of a value is what is added. -/
theorem applyWhere_ok {field op : Bytes} {o : Operator} {v : FieldValue} {f : Filter}
    (ho : op = o.name) (hf : o.filter (fieldOf field) v = some f)
    (h : applyWhere sdk q field op v = .ok q') : q' = q.add (.filter f) := by
  subst ho
  rw [applyWhere, operatorOf_name] at h
  simp only [hf] at h
  split at h
  · cases h
  · exact apply_ok h

/-- The run of a where clause of three elements. -/
theorem applyWhereClause_elements {len : Option Width} {field op : Str}
    (hx : (Item.array len [.str true field, .str true op, x]).WF)
    (hat : AtItem (.array len [.str true field, .str true op, x]) rest it)
    (hchecked : readItem sdk.document x ≠ .unchecked) (h : applyWhereClause sdk it q = .ok q') :
    ∃ v, readItem sdk.document x = .ok v ∧
      applyWhere sdk q field.content op.content v = .ok q' := by
  have hxs := array_items hx
  have hfield := hxs _ (List.mem_cons_self ..)
  have hop := hxs (.str true op) (by simp)
  have hoperand := hxs x (by simp)
  obtain ⟨r, henter, h⟩ := bind_ok h
  have hready := entered_array hx hat (checked_ok henter)
  obtain ⟨p, htext, h⟩ := bind_ok h
  obtain ⟨hp, hready⟩ := readText_ready hfield (by simp [hop, hoperand]) hready htext
  obtain ⟨p', htext', h⟩ := bind_ok h
  obtain ⟨hp', hready⟩ := readText_ready hop (by simp [hoperand]) hready htext'
  obtain ⟨p'', hdecode, h⟩ := bind_ok h
  have hlength : x.bytes.length ≤ it.src.length := by
    rw [hat.src]
    simp only [Item.bytes, bytesAll, List.length_append]
    omega
  refine ⟨p''.2, decodeValue_checked hchecked hoperand (by simp) hready hlength hdecode, ?_⟩
  simp only [hp, hp'] at h
  exact h

theorem Operand.applied {len : Option Width} {field op : Str} {v : FieldValue}
    (hv : Operand sdk.document x v) (hx : (Item.array len [.str true field, .str true op, x]).WF)
    (hat : AtItem (.array len [.str true field, .str true op, x]) rest it)
    (h : applyWhereClause sdk it q = .ok q') :
    applyWhere sdk q field.content op.content v = .ok q' := by
  have hoperand := array_items hx x (by simp)
  obtain ⟨w, hw, happly⟩ := applyWhereClause_elements hx hat (hv.checked hoperand) h
  rw [hv.reads hoperand] at hw
  cases hw
  exact happly

theorem WhereSays.applied {f : Filter} (hmean : WhereSays sdk.document x f) (hx : x.WF)
    (hat : AtItem x rest it) (h : applyWhereClause sdk it q = .ok q') :
    q' = q.add (.filter f) := by
  cases hmean with
  | compare hop hv => exact applyWhere_ok hop rfl (hv.applied hx hat h)
  | member hop hv => exact applyWhere_ok hop rfl (hv.applied hx hat h)

theorem OrderSays.applied {o : Field × Direction} (hmean : OrderSays x o) (hx : x.WF)
    (hat : AtItem x rest it) (h : applyOrderClause sdk it q = .ok q') :
    q' = q.add (.orderBy o.1 o.2) := by
  cases hmean with
  | @clause len field dir d hdir =>
    have hxs := array_items hx
    have hdirection := hxs (.str true dir) (by simp)
    obtain ⟨r, henter, h⟩ := bind_ok h
    have hready := entered_array hx hat (checked_ok henter)
    obtain ⟨p, htext, h⟩ := bind_ok h
    obtain ⟨hp, hready⟩ := readText_ready (hxs _ (List.mem_cons_self ..)) (by simp [hdirection])
      hready htext
    obtain ⟨p', htext', h⟩ := bind_ok h
    obtain ⟨hp', -⟩ := readText_ready hdirection (by simp) hready htext'
    simp only [hp, hp', hdir, directionOf_name] at h
    exact apply_ok h

/-- The clauses of an array are applied one after the other, each as what comes of
its source. -/
theorem clauses_applied {α β : Type} {src : Item → β → Prop} {mean : β → α → Prop}
    {constraint : α → Constraint} {apply : CborValue → Query → Except Failure Query}
    {len : Option Width} (harray : ∀ x b, src x b → itemType x = .array)
    (happlied : ∀ x b {rest it} {q q' : Query}, src x b → x.WF → AtItem x rest it →
      apply it q = .ok q' → ∃ a, mean b a ∧ q' = q.add (constraint a))
    {xs : List Item} {bs : List β} (hsrc : List.Forall₂ src xs bs) (hxs : ∀ x ∈ xs, x.WF)
    (hready : Ready len false rest xs it) {fuel : Nat} {fin : CborValue}
    (h : whileNotAtEnd .outOfFuel (clauseStep apply) fuel it q = .ok (fin, q')) :
    ∃ as, List.Forall₂ mean bs as ∧ q' = as.foldl (fun q a => q.add (constraint a)) q := by
  induction fuel generalizing xs bs it q with
  | zero => cases h
  | succ fuel ih =>
    cases hsrc with
    | nil =>
      rw [whileNotAtEnd_done hready.1] at h
      cases h
      exact ⟨[], .nil, rfl⟩
    | @cons x b xs bs hx htail =>
      have hwf := hxs x List.mem_cons_self
      have hxs' : ∀ y ∈ xs, y.WF := fun y hy => hxs y (List.mem_cons_of_mem x hy)
      have htype : it.type = .array := hready.1.shows.type.trans (harray x b hx)
      rw [whileNotAtEnd_step hready.not_done] at h
      obtain ⟨p, hstep, hloop⟩ := bind_ok h
      rw [clauseStep, if_pos (by rw [htype]; rfl)] at hstep
      obtain ⟨q₁, happly, hstep⟩ := bind_ok hstep
      obtain ⟨next, hadv, hstep⟩ := bind_ok hstep
      cases hstep
      have hnext := advance_ready hwf hxs' hready (by rw [htype]; decide) (checked_ok hadv)
      obtain ⟨a, ha, hq₁⟩ := happlied x b hx hwf hready.1 happly
      obtain ⟨as, has, hq'⟩ := ih htail hxs' hnext hloop
      exact ⟨a :: as, .cons ha has, by rw [hq', hq₁]; rfl⟩

theorem clauseArray_applied {α β : Type} {src : Item → β → Prop} {mean : β → α → Prop}
    {constraint : α → Constraint} {apply : CborValue → Query → Except Failure Query}
    {len : Option Width} {xs : List Item} {bs : List β}
    (harray : ∀ x b, src x b → itemType x = .array)
    (happlied : ∀ x b {rest it} {q q' : Query}, src x b → x.WF → AtItem x rest it →
      apply it q = .ok q' → ∃ a, mean b a ∧ q' = q.add (constraint a))
    (hsrc : List.Forall₂ src xs bs) (hx : (Item.array len xs).WF)
    (hat : AtItem (.array len xs) rest it) (h : applyClauseArray apply it q = .ok q') :
    ∃ as, List.Forall₂ mean bs as ∧ q' = as.foldl (fun q a => q.add (constraint a)) q := by
  rw [applyClauseArray, if_pos (by rw [hat.shows.type]; rfl)] at h
  obtain ⟨r, henter, h⟩ := bind_ok h
  obtain ⟨p, hloop, h⟩ := bind_ok h
  cases h
  exact clauses_applied harray happlied hsrc (array_items hx)
    (entered_array hx hat (checked_ok henter)) hloop

theorem cursorValues_read {len : Option Width} {xs : List Item} {values : List FieldValue}
    (hchecked : readItems sdk.document xs ≠ .unchecked) (hx : (Item.array len xs).WF)
    (hat : AtItem (.array len xs) rest it) (h : readCursorValues sdk it = .ok values) :
    readItems sdk.document xs = .ok values := by
  have hxs := array_items hx
  rw [readCursorValues, if_pos (by rw [hat.shows.type]; rfl)] at h
  obtain ⟨r, henter, h⟩ := bind_ok h
  obtain ⟨p, hloop, h⟩ := bind_ok h
  cases h
  have hready := entered_array hx hat (checked_ok henter)
  have hlength : (bytesAll xs).length ≤ it.src.length := by
    rw [hat.src]
    simp only [Item.bytes, List.length_append]
    omega
  have hsmall : ∀ y ∈ xs, y.bytes.length ≤ it.src.length := by
    intro y hy
    have hy' := length_lt_bytesAll hy
    omega
  have hcount := length_le_bytesAll hxs
  have hread := elements_read (decodeValue_reads sdk.document it.src.length) hxs hsmall
    (show xs.length < it.src.length + 1 by omega) hready []
  simp only [List.nil_append, id_map'] at hread
  obtain ⟨vs, hvs, fin, hfin, -⟩ := hread.value hchecked hloop
  rw [hloop] at hfin
  cases hfin
  exact hvs

theorem limit_read {i : Int64} {m : Int32} (hx : readInt x = .ok i) (hat : AtItem x rest it)
    (h : readLimit it = .ok m) : m = i.toInt32 ∧ 0 < i ∧ i ≤ int32Max := by
  cases x with
  | int neg w k =>
    cases hx
    rw [readLimit, getInt64_item hat] at h
    split at h
    · next hrange =>
      cases h
      simp only [Bool.and_eq_true, decide_eq_true_eq] at hrange
      exact ⟨rfl, hrange.1.2, hrange.2⟩
    · cases h
  | _ => cases hx

/-- What a statement does to a query. -/
def Statement.put (q : Query) : Statement → Query
  | .filters fs => fs.foldl (fun q f => q.add (.filter f)) q
  | .orders os => os.foldl (fun q o => q.add (.orderBy o.1 o.2)) q
  | .group _ => q
  | .limit key n => q.add (.limit key n)
  | .cursor key vs => q.add (.cursor key vs)

theorem ValueSays.applied {key : SpecKey} {st : Statement}
    (hmean : ValueSays sdk.document key x st) (hx : x.WF) (hat : AtItem x rest it)
    (h : applyEntry sdk key.name it q = .ok q') : q' = st.put q := by
  rw [applyEntry, specKeyOf_name] at h
  cases hmean with
  | @filters _ _ fs hfs =>
    have hfold : ∃ as, List.Forall₂ Eq fs as ∧
        q' = as.foldl (fun q f => q.add (.filter f)) q := by
      refine clauseArray_applied ?_ ?_ hfs hx hat h
      · intro x f hf
        cases hf <;> rfl
      · intro x f rest it q q' hf hx hat happly
        exact ⟨f, rfl, hf.applied hx hat happly⟩
    obtain ⟨as, has, hq'⟩ := hfold
    rw [List.forall₂_eq_eq_eq] at has
    subst has
    exact hq'
  | @orders _ _ os hos =>
    have hfold : ∃ as, List.Forall₂ Eq os as ∧
        q' = as.foldl (fun q o => q.add (.orderBy o.1 o.2)) q := by
      refine clauseArray_applied ?_ ?_ hos hx hat h
      · intro x o ho
        cases ho
        rfl
      · intro x o rest it q q' ho hx hat happly
        exact ⟨o, rfl, ho.applied hx hat happly⟩
    obtain ⟨as, has, hq'⟩ := hfold
    rw [List.forall₂_eq_eq_eq] at has
    subst has
    exact hq'
  | group =>
    cases h
    rfl
  | @limit _ _ n hn =>
    obtain ⟨m, hread, h⟩ := bind_ok h
    rw [← Int32.toInt_toInt64] at hn
    obtain ⟨hm, -⟩ := limit_read hn.reads hat hread
    rw [hm, Int32.toInt32_toInt64] at h
    exact apply_ok h
  | cursor hvs =>
    obtain ⟨values, hread, h⟩ := bind_ok h
    have hvs := operands_read hvs (array_items hx)
    have hvalues := cursorValues_read (by rw [hvs]; exact fun h => by cases h) hx hat hread
    rw [hvs] at hvalues
    cases hvalues
    split at h
    · cases h
    · exact apply_ok h

/-- No value that the encoding gives a meaning is tagged. -/
theorem ValueSays.not_tag {document : Document} {key : SpecKey} {st : Statement}
    (h : ValueSays document key x st) : itemType x ≠ .tag := by
  cases h with
  | @group b => cases b <;> decide
  | @limit key x n hn =>
    generalize n.toInt = z at hn
    cases hn
    intro hx
    cases hx
  | filters => intro hx; cases hx
  | orders => intro hx; cases hx
  | cursor => intro hx; cases hx

def Statement.groupOf : Statement → Option Bool
  | .group on => some on
  | _ => none

theorem ValueSays.flag {document : Document} {key : SpecKey} {st : Statement}
    (h : ValueSays document key x st) (hat : AtItem x rest it) :
    if key = .collectionGroup then
      st.groupOf = some (it.type == .boolean && cborValueGetBoolean it)
    else st.groupOf = none := by
  cases h with
  | @group b =>
    have hbool : primType .tiny (if b then 21 else 20) = .boolean := by cases b <;> rfl
    rw [if_pos rfl, getBoolean_prim hbool hat, hat.shows.type]
    cases b <;> rfl
  | _ =>
    rw [if_neg (by intro hk; cases hk)]
    rfl

end Clauses

/-- The first statement that there is about the group. -/
def wantsGroup (sts : List Statement) : Bool := (sts.filterMap Statement.groupOf).head?.getD false

/-- An entry of a spec, and what comes of it where it is applied. -/
inductive EntryRuns (sdk : Sdk) (P : Statement → Prop) : Item × Item → Prop
  | entry {name x} {key : SpecKey} : name.content = key.name → itemType x ≠ .tag →
      (∀ {rest it} {q q' : Query}, x.WF → AtItem x rest it →
        applyEntry sdk key.name it q = .ok q' → ∃ st, P st ∧ q' = st.put q ∧
          if key = .collectionGroup then
            st.groupOf = some (it.type == .boolean && cborValueGetBoolean it)
          else st.groupOf = none) →
      EntryRuns sdk P (.str true name, x)

theorem EntrySays.runs {sdk : Sdk} {e : Item × Item} {st : Statement}
    (h : EntrySays sdk.document e st) : EntryRuns sdk (Eq st) e := by
  cases h with
  | @entry name x st key hname hvalue =>
    refine .entry hname hvalue.not_tag ?_
    intro rest it q q' hx hat happly
    exact ⟨st, rfl, hvalue.applied hx hat happly, hvalue.flag hat⟩

/-- The loop over an accepted spec: what comes of its entries takes effect in
order, and the pass before it has found the first flag. -/
theorem entries_applied {sdk : Sdk} {len : Option Width} {rest : Bytes} {β : Type}
    {mean : β → Statement → Prop} {es : List (Item × Item)} {bs : List β}
    (hruns : List.Forall₂ (fun e b => EntryRuns sdk (mean b) e) es bs)
    (hes : ∀ x ∈ flatten es, x.WF) {it fin : CborValue}
    (hready : Ready len true rest (flatten es) it) {fuel : Nat} {q q' : Query}
    (h : whileNotAtEnd .outOfFuel (buildEntry sdk) fuel it q = .ok (fin, q')) :
    ∃ sts, List.Forall₂ mean bs sts ∧ q' = sts.foldl Statement.put q ∧
      wantsCollectionGroup fuel it = wantsGroup sts := by
  induction fuel generalizing es bs it q with
  | zero => cases h
  | succ fuel ih =>
    cases hruns with
    | nil =>
      have hend : cborValueAtEnd it = true := by simpa [cborValueAtEnd] using hready.1
      rw [whileNotAtEnd_done hready.1] at h
      cases h
      refine ⟨[], .nil, rfl, ?_⟩
      rw [wantsCollectionGroup, if_pos hend]
      rfl
    | @cons e b es bs he htail =>
      cases he with
      | @entry name x key hname hplain happlied =>
        have hkey : (Item.str true name).WF := hes _ (by simp [flatten])
        have hx : x.WF := hes x (by simp [flatten])
        have hes' : ∀ y ∈ flatten es, y.WF := fun y hy => hes y (by simp [flatten, hy])
        have hend : ¬ cborValueAtEnd it = true := by
          simpa [cborValueAtEnd] using hready.not_done
        rw [whileNotAtEnd_step hready.not_done] at h
        obtain ⟨p, hstep, hloop⟩ := bind_ok h
        obtain ⟨⟨entry, text⟩, htext, hstep⟩ := bind_ok hstep
        obtain ⟨rfl, hat⟩ := readText_ready hkey (by simpa [hx] using hes') hready htext
        rw [hname] at htext hstep
        obtain ⟨q₁, happly, hstep⟩ := bind_ok hstep
        obtain ⟨next, hadv, hstep⟩ := bind_ok hstep
        cases hstep
        have hadv := checked_ok hadv
        have hnext := advance_ready hx hes' hat (by rw [hat.1.shows.type]; exact hplain) hadv
        obtain ⟨st, hst, hput, hfirst⟩ := happlied hx hat.1 happly
        obtain ⟨sts, hsts, hfold, hgroup⟩ := ih htail hes' hnext hloop
        refine ⟨st :: sts, .cons hst hsts, by rw [hfold, hput]; rfl, ?_⟩
        rw [wantsCollectionGroup, if_neg hend, htext]
        simp only [specKeyOf_name, Option.some.injEq, wantsGroup, List.filterMap_cons]
        by_cases hk : key = .collectionGroup
        · rw [if_pos hk] at hfirst ⊢
          rw [hfirst]
          rfl
        · rw [if_neg hk] at hfirst ⊢
          rw [hadv, hfirst]
          exact hgroup

end Firestore
