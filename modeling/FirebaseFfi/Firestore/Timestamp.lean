import FirebaseFfi.Dart.Value

namespace Firestore
open Dart

/-- A point in time, to the nanosecond. -/
structure FirestoreTimestamp where
  seconds : Int64
  nanoseconds : Int64
  deriving DecidableEq, Repr

def FirestoreTimestamp.fromDateTime (t : DateTime) : FirestoreTimestamp :=
  let us := t.toUtc.microsecondsSinceEpoch
  ⟨us / 1000000, modulo us 1000000 * 1000⟩

def FirestoreTimestamp.toDateTime (t : FirestoreTimestamp) : Except Thrown DateTime :=
  DateTime.fromMicrosecondsSinceEpoch (t.seconds * 1000000 + t.nanoseconds / 1000) true

/-- The instant a timestamp denotes, in nanoseconds. -/
def FirestoreTimestamp.instant (t : FirestoreTimestamp) : Int :=
  t.seconds.toInt * 1000000000 + t.nanoseconds.toInt

/-- A DateTime is conveyed in normal form, without moving it, and back. -/
structure Conveyed (t : DateTime) : Prop where
  normal : 0 ≤ (FirestoreTimestamp.fromDateTime t).nanoseconds.toInt ∧
    (FirestoreTimestamp.fromDateTime t).nanoseconds.toInt < 1000000000
  exact : (FirestoreTimestamp.fromDateTime t).instant = t.microsecondsSinceEpoch.toInt * 1000
  back : (FirestoreTimestamp.fromDateTime t).toDateTime = .ok t.toUtc

section Carries

variable (t : DateTime)

theorem instant_bounds : -8640000000000000000 ≤ t.microsecondsSinceEpoch.toInt ∧
    t.microsecondsSinceEpoch.toInt ≤ 8640000000000000000 :=
  abs_le.mp t.inRange

/-- The floor of the seconds, or one more for an instant before the epoch that
is not on a whole second. -/
theorem fromDateTime_seconds :
    (FirestoreTimestamp.fromDateTime t).seconds.toInt =
      t.microsecondsSinceEpoch.toInt / 1000000 +
        if 0 ≤ t.microsecondsSinceEpoch.toInt ∨ 1000000 ∣ t.microsecondsSinceEpoch.toInt
          then 0 else 1 := by
  have hdiv := Int.tdiv_eq_ediv (a := t.microsecondsSinceEpoch.toInt) (b := 1000000)
  rw [show Int.sign 1000000 = 1 from rfl] at hdiv
  rw [← hdiv]
  exact Int64.toInt_div_of_ne_right _ _ (by decide)

theorem fromDateTime_nanoseconds :
    (FirestoreTimestamp.fromDateTime t).nanoseconds.toInt =
      t.microsecondsSinceEpoch.toInt % 1000000 * 1000 := by
  have hmod : (modulo t.microsecondsSinceEpoch 1000000).toInt =
      t.microsecondsSinceEpoch.toInt % 1000000 := toInt_modulo _ (by decide)
  change (modulo t.microsecondsSinceEpoch 1000000 * 1000).toInt = _
  rw [Int64.toInt_mul, hmod, show (1000 : Int64).toInt = 1000 from rfl]
  apply Int.bmod_eq_of_le <;> omega

theorem fromDateTime_instant :
    (FirestoreTimestamp.fromDateTime t).instant = t.microsecondsSinceEpoch.toInt * 1000 ↔
      0 ≤ t.microsecondsSinceEpoch.toInt ∨ 1000000 ∣ t.microsecondsSinceEpoch.toInt := by
  rw [FirestoreTimestamp.instant, fromDateTime_seconds, fromDateTime_nanoseconds]
  split <;> omega

/-- The way back loses nothing, so it ends where the timestamp is. -/
theorem fromDateTime_back
    (h : (FirestoreTimestamp.fromDateTime t).instant = t.microsecondsSinceEpoch.toInt * 1000) :
    (FirestoreTimestamp.fromDateTime t).toDateTime = .ok t.toUtc := by
  have hbounds := instant_bounds t
  have hnanos := fromDateTime_nanoseconds t
  rw [FirestoreTimestamp.instant] at h
  generalize FirestoreTimestamp.fromDateTime t = stamp at *
  have hseconds : stamp.seconds.toInt = t.microsecondsSinceEpoch.toInt / 1000000 := by omega
  have hmul : (stamp.seconds * 1000000).toInt = stamp.seconds.toInt * 1000000 := by
    rw [Int64.toInt_mul, show (1000000 : Int64).toInt = 1000000 from rfl]
    apply Int.bmod_eq_of_le <;> omega
  have hdiv : (stamp.nanoseconds / 1000).toInt = stamp.nanoseconds.toInt / 1000 := by
    rw [Int64.toInt_div_of_ne_right _ _ (by decide), show (1000 : Int64).toInt = 1000 from rfl]
    exact Int.tdiv_eq_ediv_of_nonneg (by omega)
  have hsum : (stamp.seconds * 1000000 + stamp.nanoseconds / 1000).toInt =
      t.microsecondsSinceEpoch.toInt := by
    rw [Int64.toInt_add, hmul, hdiv, Int.bmod_eq_of_le] <;> omega
  apply DateTime.fromMicrosecondsSinceEpoch_ok.mpr
  exact ⟨(Int64.toInt_inj.mp hsum).symm, rfl⟩

/-- A DateTime is conveyed faithfully exactly when it is not before the epoch
or is on a whole second. -/
theorem conveyed_iff :
    Conveyed t ↔ 0 ≤ t.microsecondsSinceEpoch.toInt ∨ 1000000 ∣ t.microsecondsSinceEpoch.toInt := by
  constructor
  · intro h
    exact (fromDateTime_instant t).mp h.exact
  · intro h
    have hexact := (fromDateTime_instant t).mpr h
    have hnanos := fromDateTime_nanoseconds t
    exact ⟨by omega, hexact, fromDateTime_back t hexact⟩

end Carries

/-- Half a second before the epoch. -/
def halfBeforeEpoch : DateTime := ⟨-500000, true, by decide⟩

theorem conveyed_broken : ¬ ∀ t : DateTime, Conveyed t := by
  intro h
  have hexact := (h halfBeforeEpoch).exact
  exact absurd hexact (by decide)

end Firestore
