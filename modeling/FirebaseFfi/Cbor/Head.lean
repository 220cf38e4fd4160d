import Mathlib.Data.List.Induction
import Mathlib.Tactic.Ring

namespace Cbor

abbrev Bytes := List UInt8

/-- The low `k` bytes of `n`, most significant first. -/
def be : Nat → Nat → Bytes
  | 0, _ => []
  | k + 1, n => be k (n / 256) ++ [UInt8.ofNat n]

/-- The number whose big-endian digits are the given bytes. -/
def ofBe (bs : Bytes) : Nat := bs.foldl (fun acc b => acc * 256 + b.toNat) 0

@[simp] theorem be_length (k n : Nat) : (be k n).length = k := by
  induction k generalizing n with
  | zero => rfl
  | succ k ih => simp [be, ih]

theorem ofBe_append (xs : Bytes) (b : UInt8) : ofBe (xs ++ [b]) = ofBe xs * 256 + b.toNat := by
  simp [ofBe]

/-- Reading back the digits of a number that fits loses nothing. -/
theorem ofBe_be (k n : Nat) (h : n < 256 ^ k) : ofBe (be k n) = n := by
  induction k generalizing n with
  | zero =>
    have h0 : n = 0 := by simpa using h
    subst h0
    rfl
  | succ k ih =>
    have hq : n / 256 < 256 ^ k := by
      apply Nat.div_lt_of_lt_mul
      rw [Nat.pow_succ, Nat.mul_comm] at h
      exact h
    rw [be, ofBe_append, ih _ hq, UInt8.toNat_ofNat']
    omega

/-- A number with a digit to spare has a zero byte. -/
theorem zero_mem_be {k n : Nat} (hn : n < 256 ^ k) : (0 : UInt8) ∈ be (k + 1) n := by
  induction k generalizing n with
  | zero =>
    have h0 : n = 0 := by simpa using hn
    subst h0
    simp [be]
  | succ k ih =>
    rw [be]
    refine List.mem_append_left _ (ih ?_)
    apply Nat.div_lt_of_lt_mul
    rw [Nat.pow_succ, Nat.mul_comm] at hn
    exact hn

/-- How many bytes of argument follow the initial byte of a head. -/
inductive Width
  | tiny | one | two | four | eight
  deriving DecidableEq, Repr

def Width.size : Width → Nat
  | .tiny => 0
  | .one => 1
  | .two => 2
  | .four => 4
  | .eight => 8

/-- The first argument too large for a width. -/
def Width.limit : Width → Nat
  | .tiny => 24
  | .one => 2 ^ 8
  | .two => 2 ^ 16
  | .four => 2 ^ 32
  | .eight => 2 ^ 64

/-- The additional information in the low five bits of the initial byte. -/
def Width.info (w : Width) (n : Nat) : Nat :=
  match w with
  | .tiny => n
  | .one => 24
  | .two => 25
  | .four => 26
  | .eight => 27

/-- The shortest width for an argument. -/
def Width.shortest (n : Nat) : Width :=
  if n < 24 then .tiny
  else if n ≤ 0xff then .one
  else if n ≤ 0xffff then .two
  else if n ≤ 0xffffffff then .four
  else .eight

theorem Width.shortest_fits (n : Nat) (h : n < 2 ^ 64) : n < (Width.shortest n).limit := by
  unfold Width.shortest
  split
  · assumption
  split
  · simp only [Width.limit]; omega
  split
  · simp only [Width.limit]; omega
  split
  · simp only [Width.limit]; omega
  · exact h

theorem Width.info_lt (w : Width) (n : Nat) (h : n < w.limit) : w.info n < 28 := by
  cases w <;> simp only [Width.info, Width.limit] at * <;> omega

theorem Width.limit_le (w : Width) : w.limit ≤ 2 ^ 64 := by
  cases w <;> decide

/-- A head: three bits of major type, the additional information and the argument. -/
def head (major : Nat) (w : Width) (n : Nat) : Bytes :=
  UInt8.ofNat (major * 32 + w.info n) :: be w.size n

/-- The initial byte of an item of indefinite length. -/
def openByte (major : Nat) : UInt8 := UInt8.ofNat (major * 32 + 31)

/-- The byte that ends an item of indefinite length. -/
def breakByte : UInt8 := 0xff

@[simp] theorem head_length (m : Nat) (w : Width) (n : Nat) :
    (head m w n).length = 1 + w.size := by
  simp [head, Nat.add_comm]

theorem initial_toNat (m : Nat) (w : Width) (n : Nat) (hm : m < 8) (h : n < w.limit) :
    (UInt8.ofNat (m * 32 + w.info n)).toNat = m * 32 + w.info n := by
  have := w.info_lt n h
  rw [UInt8.toNat_ofNat']
  omega

theorem openByte_toNat (m : Nat) (hm : m < 8) : (openByte m).toNat = m * 32 + 31 := by
  rw [openByte, UInt8.toNat_ofNat']
  omega

/-- The argument bytes of a head read back as its argument. -/
theorem ofBe_argument (w : Width) (n : Nat) (h : n < w.limit) (hw : w ≠ .tiny) :
    ofBe (be w.size n) = n := by
  apply ofBe_be
  cases w
  · contradiction
  all_goals simp only [Width.limit, Width.size] at *; omega

end Cbor
