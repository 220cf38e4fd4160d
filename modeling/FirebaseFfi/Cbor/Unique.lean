import FirebaseFfi.Cbor.Item

namespace Cbor

/-- A head can be told from what follows it. -/
theorem head_inj {m m' : Nat} {w w' : Width} {n n' : Nat} {r s : Bytes} (hm : m < 8) (hm' : m' < 8)
    (hn : n < w.limit) (hn' : n' < w'.limit) (h : head m w n ++ r = head m' w' n' ++ s) :
    m = m' ∧ w = w' ∧ n = n' ∧ r = s := by
  simp only [head, List.cons_append, List.cons.injEq] at h
  obtain ⟨hbyte, htail⟩ := h
  have hb := congrArg UInt8.toNat hbyte
  rw [initial_toNat m w n hm hn, initial_toNat m' w' n' hm' hn'] at hb
  have hi := w.info_lt n hn
  have hi' := w'.info_lt n' hn'
  have hmajor : m = m' := by omega
  have hinfo : w.info n = w'.info n' := by omega
  have hwidth : w = w' := by
    cases w <;> cases w' <;> simp only [Width.info, Width.limit] at * <;> omega
  subst hwidth
  obtain ⟨harg, hrest⟩ := List.append_inj htail (by simp)
  refine ⟨hmajor, rfl, ?_, hrest⟩
  by_cases htiny : w = .tiny
  · subst htiny
    exact hinfo
  · rw [← ofBe_argument w n hn htiny, harg, ofBe_argument w n' hn' htiny]

/-- No head begins with the initial byte of an item of indefinite length. -/
theorem head_ne_open {m m' : Nat} {w : Width} {n : Nat} {r s : Bytes} (hm : m < 8) (hm' : m' < 8)
    (hn : n < w.limit) : head m w n ++ r ≠ openByte m' :: s := by
  intro h
  simp only [head, List.cons_append, List.cons.injEq] at h
  have hb := congrArg UInt8.toNat h.1
  rw [initial_toNat m w n hm hn, openByte_toNat m' hm'] at hb
  have hi := w.info_lt n hn
  omega

/-- No head begins with the break byte when its major type is below 7. -/
theorem head_ne_break {m : Nat} {w : Width} {n : Nat} {r s : Bytes} (hm : m < 8)
    (hn : n < w.limit) : head m w n ++ r ≠ breakByte :: s := by
  intro h
  simp only [head, List.cons_append, List.cons.injEq] at h
  have hb := congrArg UInt8.toNat h.1
  rw [initial_toNat m w n hm hn] at hb
  have hi := w.info_lt n hn
  have hbreak : breakByte.toNat = 255 := rfl
  omega

theorem chunks_inj {m : Nat} (hm : m < 8) {cs ds : List (Width × Bytes)} {r s : Bytes}
    (hcs : ∀ c ∈ cs, c.2.length < c.1.limit) (hds : ∀ c ∈ ds, c.2.length < c.1.limit)
    (h : chunksBytes m cs ++ breakByte :: r = chunksBytes m ds ++ breakByte :: s) :
    cs = ds ∧ r = s := by
  induction cs generalizing ds with
  | nil =>
    cases ds with
    | nil =>
      simp only [chunksBytes, List.nil_append, List.cons.injEq] at h
      exact ⟨rfl, h.2⟩
    | cons d ds =>
      simp only [chunksBytes, List.nil_append, List.append_assoc] at h
      exact absurd h.symm (head_ne_break hm (hds d List.mem_cons_self))
  | cons c cs ih =>
    cases ds with
    | nil =>
      simp only [chunksBytes, List.nil_append, List.append_assoc] at h
      exact absurd h (head_ne_break hm (hcs c List.mem_cons_self))
    | cons d ds =>
      simp only [chunksBytes, List.append_assoc] at h
      obtain ⟨-, hwidth, hlength, htail⟩ := head_inj hm hm (hcs c List.mem_cons_self)
        (hds d List.mem_cons_self) h
      obtain ⟨hcontent, hrest⟩ := List.append_inj htail hlength
      obtain ⟨htails, hr⟩ := ih (fun e he => hcs e (List.mem_cons_of_mem c he))
        (fun e he => hds e (List.mem_cons_of_mem d he)) hrest
      exact ⟨by rw [htails, Prod.ext hwidth hcontent], hr⟩

theorem flatten_inj {es fs : List (Item × Item)} (h : flatten es = flatten fs) : es = fs := by
  induction es generalizing fs with
  | nil =>
    cases fs with
    | nil => rfl
    | cons f fs => cases h
  | cons e es ih =>
    cases fs with
    | nil => cases h
    | cons f fs =>
      simp only [flatten, List.cons.injEq] at h
      obtain ⟨hkey, hvalue, htail⟩ := h
      rw [ih htail, Prod.ext hkey hvalue]

/-- What an item is and where it ends can be read off any input it starts. -/
def Unique (x : Item) : Prop :=
  ∀ {y : Item} {r s : Bytes}, y.WF → x.bytes ++ r = y.bytes ++ s → x = y ∧ r = s

/-- So can the items of a container, up to its count or its break. -/
theorem items_unique {len : Option Width} {xs ys : List Item} {r s : Bytes}
    (hxs : ∀ x ∈ xs, Unique x) (hx : ∀ x ∈ xs, x.WF) (hy : ∀ y ∈ ys, y.WF)
    (hlength : len.isSome → xs.length = ys.length)
    (h : bytesAll xs ++ closing len ++ r = bytesAll ys ++ closing len ++ s) : xs = ys ∧ r = s := by
  induction xs generalizing ys with
  | nil =>
    cases ys with
    | nil => exact ⟨rfl, List.append_cancel_left h⟩
    | cons y ys =>
      cases len with
      | some w => cases hlength rfl
      | none =>
        obtain ⟨b, bs, hb, hne, -⟩ := (hy y List.mem_cons_self).not_break
          (bytesAll ys ++ closing none ++ s)
        simp only [bytesAll, List.nil_append, List.append_assoc] at h hb
        rw [hb] at h
        cases h
        exact absurd rfl hne
  | cons x xs ih =>
    cases ys with
    | nil =>
      cases len with
      | some w => cases hlength rfl
      | none =>
        obtain ⟨b, bs, hb, hne, -⟩ := (hx x List.mem_cons_self).not_break
          (bytesAll xs ++ closing none ++ r)
        simp only [bytesAll, List.nil_append, List.append_assoc] at h hb
        rw [hb] at h
        cases h
        exact absurd rfl hne
    | cons y ys =>
      simp only [bytesAll, List.append_assoc] at h
      obtain ⟨hhead, htail⟩ := hxs x List.mem_cons_self (hy y List.mem_cons_self) h
      simp only [← List.append_assoc] at htail
      obtain ⟨htails, hr⟩ := ih (fun z hz => hxs z (List.mem_cons_of_mem x hz))
        (fun z hz => hx z (List.mem_cons_of_mem x hz)) (fun z hz => hy z (List.mem_cons_of_mem y hz))
        (fun hl => Nat.succ.inj (hlength hl)) htail
      exact ⟨by rw [hhead, htails], hr⟩

section Kinds

variable {y : Item}

theorem major_int {neg : Bool} (h : intMajor neg = y.major) : ∃ w n, y = .int neg w n := by
  cases y with
  | int neg' w n =>
    refine ⟨w, n, ?_⟩
    cases neg <;> cases neg' <;> first | rfl | cases h
  | str text => cases neg <;> cases text <;> cases h
  | _ => cases neg <;> cases h

theorem major_str {text : Bool} (h : strMajor text = y.major) : ∃ s, y = .str text s := by
  cases y with
  | str text' s =>
    refine ⟨s, ?_⟩
    cases text <;> cases text' <;> first | rfl | cases h
  | int neg => cases text <;> cases neg <;> cases h
  | _ => cases text <;> cases h

theorem major_array (h : 4 = y.major) : ∃ len xs, y = .array len xs := by
  cases y with
  | array len xs => exact ⟨len, xs, rfl⟩
  | int neg => cases neg <;> cases h
  | str text => cases text <;> cases h
  | _ => cases h

theorem major_map (h : 5 = y.major) : ∃ len es, y = .map len es := by
  cases y with
  | map len es => exact ⟨len, es, rfl⟩
  | int neg => cases neg <;> cases h
  | str text => cases text <;> cases h
  | _ => cases h

theorem major_tag (h : 6 = y.major) : ∃ w t x, y = .tag w t x := by
  cases y with
  | tag w t x => exact ⟨w, t, x, rfl⟩
  | int neg => cases neg <;> cases h
  | str text => cases text <;> cases h
  | _ => cases h

theorem major_prim (h : 7 = y.major) : ∃ w n, y = .prim w n := by
  cases y with
  | prim w n => exact ⟨w, n, rfl⟩
  | int neg => cases neg <;> cases h
  | str text => cases text <;> cases h
  | _ => cases h

end Kinds

theorem major_unique {x y : Item} {r s : Bytes} (hx : x.WF) (hy : y.WF)
    (h : x.bytes ++ r = y.bytes ++ s) : x.major = y.major := by
  obtain ⟨b, bs, hb, -, hm⟩ := hx.not_break r
  obtain ⟨c, cs, hc, -, hm'⟩ := hy.not_break s
  rw [h, hc] at hb
  cases hb
  exact hm.symm.trans hm'

theorem str_unique {text : Bool} {s t : Str} {r q : Bytes} (hs : s.WF) (ht : t.WF)
    (h : (Item.str text s).bytes ++ r = (Item.str text t).bytes ++ q) : s = t ∧ r = q := by
  have hm : strMajor text < 8 := Nat.lt_succ_of_lt (strMajor_lt text)
  cases s with
  | plain w b =>
    cases t with
    | plain w' b' =>
      simp only [Item.bytes, List.append_assoc] at h
      obtain ⟨-, rfl, hlength, htail⟩ := head_inj hm hm hs ht h
      obtain ⟨rfl, rfl⟩ := List.append_inj htail hlength
      exact ⟨rfl, rfl⟩
    | chunked ds =>
      simp only [Item.bytes, List.append_assoc, List.cons_append] at h
      exact absurd h (head_ne_open hm hm hs)
  | chunked cs =>
    cases t with
    | plain w' b' =>
      simp only [Item.bytes, List.append_assoc, List.cons_append] at h
      exact absurd h.symm (head_ne_open hm hm ht)
    | chunked ds =>
      simp only [Item.bytes, List.append_assoc, List.cons_append, List.nil_append,
        List.cons.injEq, true_and] at h
      obtain ⟨rfl, rfl⟩ := chunks_inj hm hs ht h
      exact ⟨rfl, rfl⟩

/-- The opening of a container tells its length, or that it is indefinite. -/
theorem opening_inj {m : Nat} {len len' : Option Width} {n n' : Nat} {r s : Bytes} (hm : m < 8)
    (hn : ∀ w, len = some w → n < w.limit) (hn' : ∀ w, len' = some w → n' < w.limit)
    (h : opening m len n ++ r = opening m len' n' ++ s) :
    len = len' ∧ (len.isSome → n = n') ∧ r = s := by
  cases len with
  | some w =>
    cases len' with
    | some w' =>
      obtain ⟨-, rfl, hcount, hrest⟩ := head_inj hm hm (hn w rfl) (hn' w' rfl) h
      exact ⟨rfl, fun _ => hcount, hrest⟩
    | none => exact absurd h (head_ne_open hm hm (hn w rfl))
  | none =>
    cases len' with
    | some w' => exact absurd h.symm (head_ne_open hm hm (hn' w' rfl))
    | none =>
      refine ⟨rfl, (fun hl => by cases hl), ?_⟩
      simpa [opening] using h

/-- The encoding is free of prefixes. -/
theorem Item.WF.unique {x : Item} (hx : x.WF) : Unique x := by
  induction hx with
  | @int neg w n hn =>
    intro y r s hy h
    obtain ⟨w', n', rfl⟩ := major_int (major_unique (.int hn) hy h)
    have hm : intMajor neg < 8 := Nat.lt_succ_of_lt (intMajor_lt neg)
    cases hy with
    | int hn' =>
      obtain ⟨-, rfl, rfl, rfl⟩ := head_inj hm hm hn hn' h
      exact ⟨rfl, rfl⟩
  | @str text t ht =>
    intro y r s hy h
    obtain ⟨t', rfl⟩ := major_str (major_unique (.str ht) hy h)
    cases hy with
    | str ht' =>
      obtain ⟨rfl, rfl⟩ := str_unique ht ht' h
      exact ⟨rfl, rfl⟩
  | @array len xs hl hxs ih =>
    intro y r s hy h
    obtain ⟨len', ys, rfl⟩ := major_array (major_unique (.array hl hxs) hy h)
    cases hy with
    | array hl' hys =>
      simp only [Item.bytes, List.append_assoc] at h
      obtain ⟨rfl, hcount, hitems⟩ := opening_inj (by decide) hl hl' h
      simp only [← List.append_assoc] at hitems
      obtain ⟨rfl, rfl⟩ := items_unique ih hxs hys hcount hitems
      exact ⟨rfl, rfl⟩
  | @map len es hl hk hv ihk ihv =>
    intro y r s hy h
    obtain ⟨len', fs, rfl⟩ := major_map (major_unique (.map hl hk hv) hy h)
    cases hy with
    | map hl' hk' hv' =>
      have hunique : ∀ x ∈ Cbor.flatten es, Unique x := by
        intro x hx
        obtain ⟨e, he, rfl | rfl⟩ := flatten_mem hx
        · exact ihk e he
        · exact ihv e he
      simp only [Item.bytes, List.append_assoc, ← bytesAll_flatten] at h
      obtain ⟨rfl, hcount, hitems⟩ := opening_inj (by decide) hl hl' h
      simp only [← List.append_assoc] at hitems
      obtain ⟨hflat, rfl⟩ := items_unique hunique (Item.WF.flatten hk hv) (Item.WF.flatten hk' hv')
        (fun hlen => by rw [flatten_length, flatten_length, hcount hlen]) hitems
      exact ⟨by rw [flatten_inj hflat], rfl⟩
  | @tag w t x ht hx ih =>
    intro y r s hy h
    obtain ⟨w', t', x', rfl⟩ := major_tag (major_unique (.tag ht hx) hy h)
    cases hy with
    | tag ht' hx' =>
      simp only [Item.bytes, List.append_assoc] at h
      obtain ⟨-, rfl, rfl, htail⟩ := head_inj (by decide) (by decide) ht ht' h
      obtain ⟨rfl, rfl⟩ := ih hx' htail
      exact ⟨rfl, rfl⟩
  | @prim w n hn hone =>
    intro y r s hy h
    obtain ⟨w', n', rfl⟩ := major_prim (major_unique (.prim hn hone) hy h)
    cases hy with
    | prim hn' hone' =>
      obtain ⟨-, rfl, rfl, rfl⟩ := head_inj (by decide) (by decide) hn hn' h
      exact ⟨rfl, rfl⟩

end Cbor
