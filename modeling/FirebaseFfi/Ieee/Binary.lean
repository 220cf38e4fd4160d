import Mathlib.Data.Nat.Log
import Mathlib.Data.Rat.Cast.Order
import Mathlib.Algebra.Order.Field.Power
import Mathlib.Tactic.Ring
import Mathlib.Tactic.Linarith
import Mathlib.Tactic.NormNum
import Mathlib.Tactic.Positivity

namespace Ieee

/-- A binary interchange format: a sign, an exponent field and a fraction. -/
structure Format where
  exponent : Nat
  fraction : Nat
  deriving DecidableEq, Repr

def half : Format := ⟨5, 10⟩
def single : Format := ⟨8, 23⟩
def double : Format := ⟨11, 52⟩

def Format.bias (f : Format) : Nat := 2 ^ (f.exponent - 1) - 1

def Format.fractionOf (f : Format) (bits : Nat) : Nat := bits % 2 ^ f.fraction

def Format.fieldOf (f : Format) (bits : Nat) : Nat := bits / 2 ^ f.fraction % 2 ^ f.exponent

def Format.negative (f : Format) (bits : Nat) : Bool :=
  bits / 2 ^ (f.fraction + f.exponent) % 2 = 1

/-- What a pattern of bits stands for. Zero keeps its sign. -/
inductive Datum
  | nan
  | infinite (neg : Bool)
  | finite (neg : Bool) (q : ℚ)
  deriving DecidableEq

def signed (neg : Bool) (q : ℚ) : ℚ := if neg then -q else q

def Format.datum (f : Format) (bits : Nat) : Datum :=
  let neg := f.negative bits
  if f.fieldOf bits = 2 ^ f.exponent - 1 then
    if f.fractionOf bits = 0 then .infinite neg else .nan
  else if f.fieldOf bits = 0 then
    .finite neg (signed neg (f.fractionOf bits * 2 ^ (1 - f.bias - f.fraction : ℤ)))
  else
    .finite neg (signed neg
      ((f.fractionOf bits + 2 ^ f.fraction) * 2 ^ (f.fieldOf bits - f.bias - f.fraction : ℤ)))

/-- The number a datum stands for, which the two zeros share. -/
inductive Number
  | nan
  | infinite (neg : Bool)
  | finite (q : ℚ)
  deriving DecidableEq

def Datum.number : Datum → Number
  | .nan => .nan
  | .infinite neg => .infinite neg
  | .finite _ q => .finite q

/-- A double from its sign, exponent field and fraction. -/
def assemble (neg : Bool) (field fraction : Nat) : Nat :=
  (if neg then 2 ^ 63 else 0) + field * 2 ^ 52 + fraction

/-- `m` shifted right by `s` bits, to the nearest integer and to even on a tie. -/
def roundShift (m s : Nat) : Nat :=
  let q := m / 2 ^ s
  let r := m % 2 ^ s
  if 2 ^ s < 2 * r ∨ (2 ^ s = 2 * r ∧ q % 2 = 1) then q + 1 else q

/-- The significand of 53 bits nearest to `m`, in units of its last place. -/
def significand (m : Nat) : Nat :=
  let k := Nat.log 2 m
  if k ≤ 52 then m * 2 ^ (52 - k) else roundShift m (k - 52)

/-- The double nearest to `± m * 2 ^ e`, for a result in the normal range. A
significand that rounds up to `2 ^ 53` carries into the exponent field. -/
def ofDyadic (neg : Bool) (m : Nat) (e : Int) : Nat :=
  if m = 0 then assemble neg 0 0
  else assemble neg ((Nat.log 2 m : Int) + e + 1022).toNat (significand m)

/-- The double nearest to an integer. -/
def ofInt (i : Int) : Nat := ofDyadic (i < 0) i.natAbs 0

/-- The double a narrower format widens to. A NaN becomes a quiet one. -/
def widen (f : Format) (bits : Nat) : Nat :=
  let neg := f.negative bits
  let field := f.fieldOf bits
  let fraction := f.fractionOf bits
  if field = 2 ^ f.exponent - 1 then
    let payload := fraction * 2 ^ (52 - f.fraction)
    assemble neg 2047
      (if fraction = 0 then 0 else if payload < 2 ^ 51 then payload + 2 ^ 51 else payload)
  else if field = 0 then ofDyadic neg fraction (1 - f.bias - f.fraction)
  else assemble neg (field + 1023 - f.bias) (fraction * 2 ^ (52 - f.fraction))

theorem assemble_lt {neg : Bool} {field fraction : Nat} (hf : field < 2048)
    (hr : fraction < 2 ^ 52) : assemble neg field fraction < 2 ^ 64 := by
  unfold assemble
  cases neg <;> simp only [if_true, Bool.false_eq_true, if_false] <;> omega

theorem assemble_negative {neg : Bool} {field fraction : Nat} (hf : field < 2048)
    (hr : fraction < 2 ^ 52) : double.negative (assemble neg field fraction) = neg := by
  unfold Format.negative assemble double
  cases neg <;> simp only [if_true, Bool.false_eq_true, if_false, decide_eq_false_iff_not,
    decide_eq_true_eq] <;> omega

theorem assemble_fieldOf {neg : Bool} {field fraction : Nat} (hf : field < 2048)
    (hr : fraction < 2 ^ 52) : double.fieldOf (assemble neg field fraction) = field := by
  unfold Format.fieldOf assemble double
  cases neg <;> simp only [if_true, Bool.false_eq_true, if_false] <;> omega

theorem assemble_fractionOf {neg : Bool} {field fraction : Nat} (hr : fraction < 2 ^ 52) :
    double.fractionOf (assemble neg field fraction) = fraction := by
  unfold Format.fractionOf assemble double
  cases neg <;> simp only [if_true, Bool.false_eq_true, if_false] <;> omega

theorem double_bias : double.bias = 1023 := by decide

/-- A significand with its leading bit set, in the exponent field below its own. -/
theorem datum_assemble {neg : Bool} {field sig : Nat} (hf : field < 2046) (hlo : 2 ^ 52 ≤ sig)
    (hhi : sig < 2 ^ 53) :
    double.datum (assemble neg field sig) =
      .finite neg (signed neg (sig * 2 ^ (field - 1074 : ℤ))) := by
  obtain ⟨r, rfl⟩ := Nat.exists_eq_add_of_le hlo
  have hr : r < 2 ^ 52 := by omega
  have hsplit : assemble neg field (2 ^ 52 + r) = assemble neg (field + 1) r := by
    unfold assemble
    omega
  have hf' : field + 1 < 2048 := by omega
  simp only [hsplit, Format.datum, assemble_negative hf' hr, assemble_fieldOf hf' hr,
    assemble_fractionOf hr, double_bias]
  rw [if_neg (by simp only [double]; omega), if_neg (by omega)]
  congr 2
  have he : ((field + 1 : Nat) - (1023 : Nat) - double.fraction : ℤ) = (field : ℤ) - 1074 := by
    simp only [double]
    push_cast
    ring
  rw [he]
  simp only [double]
  push_cast
  ring

theorem datum_assemble_special {neg : Bool} {fraction : Nat} (hr : fraction < 2 ^ 52) :
    double.datum (assemble neg 2047 fraction) = if fraction = 0 then .infinite neg else .nan := by
  simp only [Format.datum, assemble_negative (show 2047 < 2048 by decide) hr,
    assemble_fieldOf (show 2047 < 2048 by decide) hr, assemble_fractionOf hr]
  rw [if_pos (by decide)]

theorem datum_zero (neg : Bool) : double.datum (assemble neg 0 0) = .finite neg 0 := by
  have h0 : (0 : Nat) < 2 ^ 52 := by decide
  simp only [Format.datum, assemble_negative (show 0 < 2048 by decide) h0,
    assemble_fieldOf (show 0 < 2048 by decide) h0, assemble_fractionOf h0]
  rw [if_neg (by decide)]
  simp [signed]

/-- No rounding is needed for a number of at most 53 bits times a power of two. -/
def Exact (m : Nat) : Prop := Nat.log 2 m ≤ 52 ∨ 2 ^ (Nat.log 2 m - 52) ∣ m

theorem roundShift_exact {m s : Nat} (h : 2 ^ s ∣ m) : roundShift m s = m / 2 ^ s := by
  have hr : m % 2 ^ s = 0 := Nat.mod_eq_zero_of_dvd h
  have hs : 0 < 2 ^ s := Nat.two_pow_pos s
  simp only [roundShift, hr]
  rw [if_neg (by omega)]

theorem significand_exact {m : Nat} (hm : m ≠ 0) (h : Exact m) :
    2 ^ 52 ≤ significand m ∧ significand m < 2 ^ 53 ∧
      (significand m : ℚ) = m * 2 ^ (52 - Nat.log 2 m : ℤ) := by
  have hlo : 2 ^ Nat.log 2 m ≤ m := Nat.pow_log_le_self 2 hm
  have hhi : m < 2 ^ (Nat.log 2 m + 1) := Nat.lt_pow_succ_log_self (by decide) m
  unfold significand
  unfold Exact at h
  generalize Nat.log 2 m = k at *
  by_cases hk : k ≤ 52
  · simp only [if_pos hk]
    have hpow : 2 ^ k * 2 ^ (52 - k) = 2 ^ 52 := by
      rw [← pow_add]
      congr 1
      omega
    have hpow' : 2 ^ (k + 1) * 2 ^ (52 - k) = 2 ^ 53 := by
      rw [← pow_add]
      congr 1
      omega
    refine ⟨?_, ?_, ?_⟩
    · rw [← hpow]
      exact Nat.mul_le_mul_right _ hlo
    · rw [← hpow']
      exact Nat.mul_lt_mul_of_pos_right hhi (Nat.two_pow_pos _)
    · push_cast
      congr 1
      rw [← zpow_natCast]
      congr 1
      omega
  · simp only [if_neg hk]
    have hdvd := h.resolve_left hk
    obtain ⟨q, hq⟩ := id hdvd
    subst hq
    have hs : 0 < 2 ^ (k - 52) := Nat.two_pow_pos _
    rw [roundShift_exact hdvd, Nat.mul_div_cancel_left _ hs]
    have hk52 : 2 ^ k = 2 ^ (k - 52) * 2 ^ 52 := by
      rw [← pow_add]
      congr 1
      omega
    have hk53 : 2 ^ (k + 1) = 2 ^ (k - 52) * 2 ^ 53 := by
      rw [← pow_add]
      congr 1
      omega
    refine ⟨?_, ?_, ?_⟩
    · rw [hk52] at hlo
      exact Nat.le_of_mul_le_mul_left hlo hs
    · rw [hk53] at hhi
      exact Nat.lt_of_mul_lt_mul_left hhi
    · have hcast : ((2 ^ (k - 52) : Nat) : ℚ) = 2 ^ (k - 52 : ℤ) := by
        push_cast
        rw [← zpow_natCast]
        congr 1
        omega
      have hinv : (2 : ℚ) ^ (k - 52 : ℤ) * 2 ^ (52 - k : ℤ) = 1 := by
        rw [← zpow_add₀ (by norm_num)]
        simp
      rw [Nat.cast_mul, hcast, mul_right_comm, hinv, one_mul]

/-- A number that needs no rounding becomes the double of its value. -/
theorem datum_ofDyadic {neg : Bool} {m : Nat} {e : Int} (hm : m ≠ 0) (h : Exact m)
    (hlo : 1 ≤ (Nat.log 2 m : Int) + e + 1023) (hhi : (Nat.log 2 m : Int) + e + 1023 ≤ 2046) :
    double.datum (ofDyadic neg m e) = .finite neg (signed neg (m * 2 ^ e)) := by
  obtain ⟨h52, h53, hval⟩ := significand_exact hm h
  rw [ofDyadic, if_neg hm, datum_assemble (by omega) h52 h53, hval]
  have hfield : (((Nat.log 2 m : Int) + e + 1022).toNat : ℤ) = Nat.log 2 m + e + 1022 :=
    Int.toNat_of_nonneg (by omega)
  rw [hfield, mul_assoc, ← zpow_add₀ (by norm_num)]
  congr 4
  ring

theorem Format.fieldOf_le {f : Format} (h : 1 ≤ f.exponent) (bits : Nat)
    (hs : f.fieldOf bits ≠ 2 ^ f.exponent - 1) : f.fieldOf bits ≤ 2 * f.bias := by
  have hlt : f.fieldOf bits < 2 ^ f.exponent := Nat.mod_lt _ (Nat.two_pow_pos _)
  have hpow : 2 ^ f.exponent = 2 * 2 ^ (f.exponent - 1) := by
    rw [← pow_succ']
    congr 1
    omega
  have hpos := Nat.two_pow_pos (f.exponent - 1)
  unfold bias
  omega

theorem Format.fractionOf_lt (f : Format) (bits : Nat) : f.fractionOf bits < 2 ^ f.fraction :=
  Nat.mod_lt _ (Nat.two_pow_pos _)

/-- Every datum of the format is one of a double, the subnormal ones as normal. -/
structure Format.Narrow (f : Format) : Prop where
  exponent : 1 ≤ f.exponent
  fraction : f.fraction ≤ 52
  range : f.bias + f.fraction ≤ 1023

theorem half_narrow : half.Narrow := ⟨by decide, by decide, by decide⟩
theorem single_narrow : single.Narrow := ⟨by decide, by decide, by decide⟩

theorem fraction_shift {f : Format} (hf : f.fraction ≤ 52) {r : Nat} (hr : r < 2 ^ f.fraction) :
    r * 2 ^ (52 - f.fraction) < 2 ^ 52 := by
  have hpow : 2 ^ f.fraction * 2 ^ (52 - f.fraction) = 2 ^ 52 := by
    rw [← pow_add]
    congr 1
    omega
  rw [← hpow]
  exact Nat.mul_lt_mul_of_pos_right hr (Nat.two_pow_pos _)

/-- Widening keeps what the bits stand for. -/
theorem datum_widen {f : Format} (hf : f.Narrow) (bits : Nat) :
    double.datum (widen f bits) = f.datum bits := by
  obtain ⟨he, hp, hrange⟩ := hf
  have hr := f.fractionOf_lt bits
  have hfield := f.fieldOf_le he bits
  have hshift := fraction_shift hp hr
  have hpos := Nat.two_pow_pos (52 - f.fraction)
  simp only [widen]
  conv_rhs => simp only [Format.datum]
  by_cases hs : f.fieldOf bits = 2 ^ f.exponent - 1
  · simp only [if_pos hs]
    by_cases h0 : f.fractionOf bits = 0
    · rw [if_pos h0, if_pos h0, datum_assemble_special (by decide), if_pos rfl]
    · have hne : f.fractionOf bits * 2 ^ (52 - f.fraction) ≠ 0 :=
        Nat.mul_ne_zero h0 (Nat.pos_iff_ne_zero.mp hpos)
      rw [if_neg h0, if_neg h0, datum_assemble_special (by split <;> omega),
        if_neg (by split <;> omega)]
  · have hfield := hfield hs
    simp only [if_neg hs]
    by_cases h0 : f.fieldOf bits = 0
    · simp only [if_pos h0]
      generalize f.fractionOf bits = m at *
      by_cases hm : m = 0
      · subst hm
        rw [ofDyadic, if_pos rfl, datum_zero]
        simp [signed]
      · have hlog : Nat.log 2 m < f.fraction := Nat.log_lt_of_lt_pow hm hr
        rw [datum_ofDyadic hm (.inl (by omega)) (by omega) (by omega)]
    · simp only [if_neg h0]
      generalize f.fractionOf bits = r at *
      generalize f.fieldOf bits = field at *
      have hlead : assemble (f.negative bits) (field + 1023 - f.bias) (r * 2 ^ (52 - f.fraction)) =
          assemble (f.negative bits) (field + 1022 - f.bias)
            (2 ^ 52 + r * 2 ^ (52 - f.fraction)) := by
        unfold assemble
        omega
      rw [hlead, datum_assemble (by omega) (by omega) (by omega)]
      congr 2
      have hexp : ((field + 1022 - f.bias : Nat) : ℤ) - 1074 = (field : ℤ) - f.bias - 52 := by
        omega
      have hone : (2 : ℚ) ^ 52 = 2 ^ f.fraction * 2 ^ (52 - f.fraction) := by
        rw [← pow_add]
        congr 1
        omega
      have hunit : (2 : ℚ) ^ (52 - f.fraction) * 2 ^ ((field : ℤ) - f.bias - 52) =
          2 ^ ((field : ℤ) - f.bias - f.fraction) := by
        rw [← zpow_natCast, ← zpow_add₀ (by norm_num)]
        congr 1
        omega
      rw [hexp, ← hunit]
      simp only [Nat.cast_add, Nat.cast_mul, Nat.cast_pow, Nat.cast_ofNat]
      rw [hone]
      ring

/-- A double that is an integer holds it without rounding. -/
theorem exact_of_datum {bits : Nat} {i : Int} (hi : i ≠ 0)
    (h : (double.datum bits).number = .finite i) : Exact i.natAbs := by
  obtain ⟨neg, m, e, hm, hval⟩ : ∃ (neg : Bool) (m : Nat) (e : ℤ), m < 2 ^ 53 ∧
      signed neg (m * 2 ^ e) = i := by
    have hr := double.fractionOf_lt bits
    simp only [Format.datum] at h
    split at h
    · split at h <;> simp [Datum.number] at h
    split at h
    · simp only [Datum.number, Number.finite.injEq] at h
      exact ⟨_, _, _, by simp only [double] at hr ⊢; omega, h⟩
    · simp only [Datum.number, Number.finite.injEq] at h
      exact ⟨_, double.fractionOf bits + 2 ^ 52, _, by simp only [double] at hr ⊢; omega, by
        rw [← h]
        push_cast
        rfl⟩
  have habs : (i.natAbs : ℚ) = m * 2 ^ e := by
    have hpos : (0 : ℚ) ≤ m * 2 ^ e := by positivity
    rw [Nat.cast_natAbs, Int.cast_abs, ← hval]
    cases neg
    · simp [signed]
    · simp [signed, abs_of_nonneg hpos]
  have hne : i.natAbs ≠ 0 := by simpa using hi
  generalize i.natAbs = n at *
  rcases le_or_gt 0 e with he | he
  · obtain ⟨k, rfl⟩ := Int.eq_ofNat_of_zero_le he
    have hn : n = m * 2 ^ k := by
      rw [zpow_natCast] at habs
      exact_mod_cast habs
    by_cases hlog : Nat.log 2 n ≤ 52
    · exact .inl hlog
    · right
      have hlt : 2 ^ Nat.log 2 n < 2 ^ (53 + k) := by
        calc 2 ^ Nat.log 2 n ≤ n := Nat.pow_log_le_self 2 hne
          _ = m * 2 ^ k := hn
          _ < 2 ^ 53 * 2 ^ k := Nat.mul_lt_mul_of_pos_right hm (Nat.two_pow_pos k)
          _ = 2 ^ (53 + k) := (pow_add 2 53 k).symm
      have hk : Nat.log 2 n < 53 + k := (Nat.pow_lt_pow_iff_right (by decide)).mp hlt
      have hdvd : 2 ^ (Nat.log 2 n - 52) ∣ 2 ^ k := Nat.pow_dvd_pow 2 (by omega)
      have hmul : 2 ^ (Nat.log 2 n - 52) ∣ m * 2 ^ k := Dvd.dvd.mul_left hdvd m
      rwa [← hn] at hmul
  · left
    have hle : n ≤ m := by
      have hone : (2 : ℚ) ^ e ≤ 1 := zpow_le_one_of_nonpos₀ (by norm_num) he.le
      have : (n : ℚ) ≤ m := by
        rw [habs]
        exact mul_le_of_le_one_right (by positivity) hone
      exact_mod_cast this
    have : Nat.log 2 n < 53 := Nat.log_lt_of_lt_pow hne (by omega)
    omega

theorem ofDyadic_zero (neg : Bool) (e : Int) : ofDyadic neg 0 e = assemble neg 0 0 := if_pos rfl

/-- An integer that some double holds is converted without loss. -/
theorem number_ofInt {i : Int} (h : i = 0 ∨ Exact i.natAbs) (hb : i.natAbs < 2 ^ 64) :
    (double.datum (ofInt i)).number = .finite i := by
  by_cases h0 : i = 0
  · subst h0
    rw [ofInt, Int.natAbs_zero, ofDyadic_zero, datum_zero]
    rfl
  · have hne : i.natAbs ≠ 0 := by simpa using h0
    have hlog : Nat.log 2 i.natAbs < 64 := Nat.log_lt_of_lt_pow hne hb
    rw [ofInt, datum_ofDyadic hne (h.resolve_left h0) (by omega) (by omega)]
    simp only [Datum.number, zpow_zero, mul_one, Number.finite.injEq]
    rcases lt_or_ge i 0 with hi | hi
    · simp only [hi, decide_true, signed, if_true, Nat.cast_natAbs, Int.cast_abs]
      rw [abs_of_neg (by exact_mod_cast hi), neg_neg]
    · simp only [not_lt.mpr hi, decide_false, signed, Bool.false_eq_true, if_false,
        Nat.cast_natAbs, Int.cast_abs]
      exact abs_of_nonneg (by exact_mod_cast hi)

theorem roundShift_le (m s : Nat) : roundShift m s ≤ m / 2 ^ s + 1 := by
  unfold roundShift
  dsimp only
  split <;> omega

/-- Rounding may carry into a 54th bit. -/
theorem significand_le {m : Nat} (hm : m ≠ 0) : significand m ≤ 2 ^ 53 := by
  by_cases h : Exact m
  · exact (significand_exact hm h).2.1.le
  · have hk : ¬ Nat.log 2 m ≤ 52 := fun hk => h (.inl hk)
    have hhi : m < 2 ^ (Nat.log 2 m + 1) := Nat.lt_pow_succ_log_self (by decide) m
    unfold significand
    dsimp only
    rw [if_neg hk]
    have hdiv : m / 2 ^ (Nat.log 2 m - 52) < 2 ^ 53 := by
      apply Nat.div_lt_of_lt_mul
      rw [← pow_add]
      have he : Nat.log 2 m - 52 + 53 = Nat.log 2 m + 1 := by omega
      rwa [he]
    have := roundShift_le m (Nat.log 2 m - 52)
    omega

theorem ofDyadic_lt {neg : Bool} {m : Nat} {e : Int}
    (h : (Nat.log 2 m : Int) + e + 1023 ≤ 2045) : ofDyadic neg m e < 2 ^ 64 := by
  unfold ofDyadic
  split
  · exact assemble_lt (by decide) (by decide)
  · next hm =>
    have := significand_le hm
    unfold assemble
    cases neg
    · simp only [Bool.false_eq_true, if_false]
      omega
    · simp only [if_true]
      omega

theorem ofInt_lt {i : Int} (h : i.natAbs < 2 ^ 64) : ofInt i < 2 ^ 64 := by
  by_cases h0 : i.natAbs = 0
  · rw [ofInt, h0]
    exact ofDyadic_lt (by simp)
  · have : Nat.log 2 i.natAbs < 64 := Nat.log_lt_of_lt_pow h0 h
    exact ofDyadic_lt (by omega)

theorem ofDyadic_negative {neg : Bool} {m : Nat} {e : Int}
    (h : (Nat.log 2 m : Int) + e + 1023 ≤ 2045) : double.negative (ofDyadic neg m e) = neg := by
  unfold ofDyadic
  split
  · exact assemble_negative (by decide) (by decide)
  · next hm =>
    have := significand_le hm
    unfold Format.negative assemble double
    cases neg
    · simp only [Bool.false_eq_true, if_false, decide_eq_false_iff_not]
      omega
    · simp only [if_true, decide_eq_true_eq]
      omega

theorem ofInt_negative {i : Int} (h : i.natAbs < 2 ^ 64) :
    double.negative (ofInt i) = decide (i < 0) := by
  by_cases h0 : i.natAbs = 0
  · rw [ofInt, h0]
    exact ofDyadic_negative (by simp)
  · have : Nat.log 2 i.natAbs < 64 := Nat.log_lt_of_lt_pow h0 h
    exact ofDyadic_negative (by omega)

theorem signed_sign {neg : Bool} {q : ℚ} (h : 0 ≤ q) :
    if neg then signed neg q ≤ 0 else 0 ≤ signed neg q := by
  cases neg
  · simpa [signed] using h
  · simpa [signed] using h

/-- The sign bit is the sign of the number. -/
theorem number_sign {f : Format} {bits : Nat} {q : ℚ} (h : (f.datum bits).number = .finite q) :
    if f.negative bits then q ≤ 0 else 0 ≤ q := by
  unfold Format.datum at h
  dsimp only at h
  split at h
  · split at h <;> cases h
  · split at h
    · cases h
      exact signed_sign (by positivity)
    · cases h
      exact signed_sign (by positivity)

theorem widen_lt {f : Format} (hf : f.Narrow) (bits : Nat) : widen f bits < 2 ^ 64 := by
  obtain ⟨he, hp, hrange⟩ := hf
  have hr := f.fractionOf_lt bits
  have hfield := f.fieldOf_le he bits
  have hshift := fraction_shift hp hr
  simp only [widen]
  split
  · exact assemble_lt (by decide) (by split <;> [decide; split <;> omega])
  · next hs =>
    have hfield := hfield hs
    split
    · have hlog : Nat.log 2 (f.fractionOf bits) ≤ f.fraction := by
        by_cases h0 : f.fractionOf bits = 0
        · simp [h0]
        · exact (Nat.log_lt_of_lt_pow h0 hr).le
      exact ofDyadic_lt (by omega)
    · exact assemble_lt (by omega) hshift

end Ieee
