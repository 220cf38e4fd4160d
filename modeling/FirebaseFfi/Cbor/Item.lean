import FirebaseFfi.Cbor.Head
import FirebaseFfi.Ieee.Binary

namespace Cbor

/-- A string in one piece, or in chunks of the same kind. -/
inductive Str
  | plain (w : Width) (b : Bytes)
  | chunked (chunks : List (Width × Bytes))
  deriving DecidableEq, Repr

def chunksContent : List (Width × Bytes) → Bytes
  | [] => []
  | c :: cs => c.2 ++ chunksContent cs

def Str.content : Str → Bytes
  | .plain _ b => b
  | .chunked cs => chunksContent cs

/-- One data item of RFC 8949 together with every choice its encoding leaves
open: the width of each head, and definite or indefinite length. `prim` is
major type 7: the simple values and the three widths of float. -/
inductive Item
  | int (neg : Bool) (w : Width) (n : Nat)
  | str (text : Bool) (s : Str)
  | array (len : Option Width) (items : List Item)
  | map (len : Option Width) (entries : List (Item × Item))
  | tag (w : Width) (t : Nat) (item : Item)
  | prim (w : Width) (n : Nat)
  deriving Repr

def strMajor (text : Bool) : Nat := if text then 3 else 2

def intMajor (neg : Bool) : Nat := if neg then 1 else 0

def chunksBytes (major : Nat) : List (Width × Bytes) → Bytes
  | [] => []
  | c :: cs => head major c.1 c.2.length ++ c.2 ++ chunksBytes major cs

/-- The start of a container of `n` items and, for an indefinite one, its end. -/
def opening (major : Nat) (len : Option Width) (n : Nat) : Bytes :=
  match len with
  | some w => head major w n
  | none => [openByte major]

def closing : Option Width → Bytes
  | some _ => []
  | none => [breakByte]

mutual
/-- The encoding of an item. -/
def Item.bytes : Item → Bytes
  | .int neg w n => head (intMajor neg) w n
  | .str text (.plain w b) => head (strMajor text) w b.length ++ b
  | .str text (.chunked cs) =>
    openByte (strMajor text) :: (chunksBytes (strMajor text) cs ++ [breakByte])
  | .array len xs => opening 4 len xs.length ++ bytesAll xs ++ closing len
  | .map len es => opening 5 len es.length ++ bytesEntries es ++ closing len
  | .tag w t x => head 6 w t ++ x.bytes
  | .prim w n => head 7 w n

def bytesAll : List Item → Bytes
  | [] => []
  | x :: xs => x.bytes ++ bytesAll xs

def bytesEntries : List (Item × Item) → Bytes
  | [] => []
  | (k, v) :: es => k.bytes ++ v.bytes ++ bytesEntries es
end

/-- Every length fits the width that carries it. -/
def Str.WF : Str → Prop
  | .plain w b => b.length < w.limit
  | .chunked cs => ∀ c ∈ cs, c.2.length < c.1.limit

/-- The item is one the standard calls well-formed: each argument fits its
head, and a simple value below 32 does not take a byte of its own. -/
inductive Item.WF : Item → Prop
  | int {neg w n} : n < w.limit → WF (.int neg w n)
  | str {text s} : s.WF → WF (.str text s)
  | array {len xs} : (∀ w, len = some w → xs.length < w.limit) →
      (∀ x ∈ xs, WF x) → WF (.array len xs)
  | map {len es} : (∀ w, len = some w → es.length < w.limit) →
      (∀ e ∈ es, WF e.1) → (∀ e ∈ es, WF e.2) → WF (.map len es)
  | tag {w t x} : t < w.limit → WF x → WF (.tag w t x)
  | prim {w n} : n < w.limit → (w = .one → 32 ≤ n) → WF (.prim w n)

/-- The simple values this format gives a meaning. -/
def Item.bool (b : Bool) : Item := .prim .tiny (if b then 21 else 20)
def Item.null : Item := .prim .tiny 22
def Item.undefined : Item := .prim .tiny 23

/-- The entries of a map as the sequence of items they are encoded as. -/
def flatten : List (Item × Item) → List Item
  | [] => []
  | (k, v) :: es => k :: v :: flatten es

@[simp] theorem flatten_length (es : List (Item × Item)) :
    (flatten es).length = 2 * es.length := by
  induction es with
  | nil => rfl
  | cons e es ih =>
    simp only [flatten, List.length_cons, ih]
    omega

theorem bytesAll_flatten (es : List (Item × Item)) :
    bytesAll (flatten es) = bytesEntries es := by
  induction es with
  | nil => rfl
  | cons e es ih => simp [flatten, bytesAll, bytesEntries, ih, List.append_assoc]

theorem flatten_mem {es : List (Item × Item)} {x : Item} (h : x ∈ flatten es) :
    ∃ e ∈ es, x = e.1 ∨ x = e.2 := by
  induction es with
  | nil => simp [flatten] at h
  | cons e es ih =>
    simp only [flatten, List.mem_cons] at h
    rcases h with rfl | rfl | h
    · exact ⟨e, by simp, .inl rfl⟩
    · exact ⟨e, by simp, .inr rfl⟩
    · obtain ⟨e', he, hx⟩ := ih h
      exact ⟨e', List.mem_cons_of_mem _ he, hx⟩

/-- The major type and additional information of an item's initial byte. -/
def Item.major : Item → Nat
  | .int neg _ _ => intMajor neg
  | .str text _ => strMajor text
  | .array _ _ => 4
  | .map _ _ => 5
  | .tag _ _ _ => 6
  | .prim _ _ => 7

theorem intMajor_lt (neg : Bool) : intMajor neg < 7 := by cases neg <;> decide

theorem strMajor_lt (text : Bool) : strMajor text < 7 := by cases text <;> decide

theorem Item.major_lt (x : Item) : x.major < 8 := by
  cases x with
  | int neg _ _ => exact Nat.lt_succ_of_lt (intMajor_lt neg)
  | str text _ => exact Nat.lt_succ_of_lt (strMajor_lt text)
  | _ => simp [major]

/-- An item begins with a head of its major type, or opens with indefinite length. -/
theorem Item.WF.start {x : Item} (h : x.WF) :
    (∃ w n body, n < w.limit ∧ x.bytes = head x.major w n ++ body) ∨
      (x.major < 7 ∧ ∃ body, x.bytes = openByte x.major :: body) := by
  cases h with
  | @int neg w n hn => exact .inl ⟨w, n, [], hn, by simp [bytes, major]⟩
  | @str text s hs =>
    cases s with
    | plain w b => exact .inl ⟨w, b.length, b, hs, rfl⟩
    | chunked cs => exact .inr ⟨strMajor_lt text, _, rfl⟩
  | @array len xs hl hx =>
    cases len with
    | some w => exact .inl ⟨w, xs.length, bytesAll xs, hl w rfl, by simp [bytes, opening, closing, major]⟩
    | none => exact .inr ⟨by simp [major], _, rfl⟩
  | @map len es hl hk hv =>
    cases len with
    | some w => exact .inl ⟨w, es.length, bytesEntries es, hl w rfl, by simp [bytes, opening, closing, major]⟩
    | none => exact .inr ⟨by simp [major], _, rfl⟩
  | @tag w t x ht hx => exact .inl ⟨w, t, x.bytes, ht, rfl⟩
  | @prim w n hn h1 => exact .inl ⟨w, n, [], hn, by simp [bytes, major]⟩

/-- No well-formed item begins with the break byte. -/
theorem Item.WF.not_break {x : Item} (h : x.WF) (tail : Bytes) :
    ∃ b bs, x.bytes ++ tail = b :: bs ∧ b ≠ breakByte ∧ b.toNat / 32 = x.major := by
  have hb : ∀ b : UInt8, b.toNat < 255 → b ≠ breakByte := by
    intro b hlt he
    subst he
    exact absurd hlt (by decide)
  have hm := x.major_lt
  rcases h.start with ⟨w, n, body, hn, he⟩ | ⟨h7, body, he⟩
  · have hi := w.info_lt n hn
    have ht := initial_toNat x.major w n hm hn
    exact ⟨_, _, by rw [he, head]; rfl, hb _ (by omega), by omega⟩
  · have ht := openByte_toNat x.major hm
    exact ⟨_, _, by rw [he]; rfl, hb _ (by omega), by omega⟩

theorem Item.WF.length_pos {x : Item} (h : x.WF) : 0 < x.bytes.length := by
  obtain ⟨b, bs, hb, -⟩ := h.not_break []
  simp only [List.append_nil] at hb
  simp [hb]

theorem chunksContent_length (m : Nat) (cs : List (Width × Bytes)) :
    (chunksContent cs).length ≤ (chunksBytes m cs).length := by
  induction cs with
  | nil => simp [chunksContent]
  | cons c cs ih =>
    simp only [chunksContent, chunksBytes, List.length_append]
    omega

/-- A string is longer than its content. -/
theorem content_length (text : Bool) (s : Str) :
    s.content.length < (Item.str text s).bytes.length := by
  cases s with
  | plain w b =>
    simp only [Str.content, Item.bytes, List.length_append, head_length]
    omega
  | chunked cs =>
    have := chunksContent_length (strMajor text) cs
    simp only [Str.content, Item.bytes, List.length_cons, List.length_append]
    omega

theorem length_le_bytesAll {xs : List Item} (h : ∀ x ∈ xs, x.WF) :
    xs.length ≤ (bytesAll xs).length := by
  induction xs with
  | nil => simp
  | cons x xs ih =>
    have hx := (h x (by simp)).length_pos
    have := ih (fun y hy => h y (List.mem_cons_of_mem _ hy))
    simp only [bytesAll, List.length_cons, List.length_append]
    omega

theorem Item.WF.flatten {es : List (Item × Item)} (hk : ∀ e ∈ es, e.1.WF)
    (hv : ∀ e ∈ es, e.2.WF) : ∀ x ∈ flatten es, x.WF := by
  intro x hx
  obtain ⟨e, he, rfl | rfl⟩ := flatten_mem hx
  · exact hk e he
  · exact hv e he

/-- The mathematical value of an integer item. -/
def intValue (neg : Bool) (n : Nat) : Int := if neg then -1 - n else n

/-- The format a float of major type 7 has at each width. -/
def floatFormat : Width → Option Ieee.Format
  | .two => some Ieee.half
  | .four => some Ieee.single
  | .eight => some Ieee.double
  | _ => none

end Cbor
