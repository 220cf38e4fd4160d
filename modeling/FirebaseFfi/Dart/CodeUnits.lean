import Mathlib.Data.List.Infix

namespace Dart

/-- A string as its UTF-16 code units. -/
abbrev CodeUnits := List UInt16

/-- The code units of a literal without surrogates. -/
def units (s : String) : CodeUnits := s.toList.map fun c => UInt16.ofNat c.toNat

/-- Where a code unit comes last. It is -1 in Dart when there is none. -/
def lastIndexOf : CodeUnits → UInt16 → Option Nat
  | [], _ => none
  | d :: s, c =>
    match lastIndexOf s c with
    | some i => some (i + 1)
    | none => if d = c then some 0 else none

def startsWith (s pattern : CodeUnits) : Bool := pattern.isPrefixOf s

def endsWith (s pattern : CodeUnits) : Bool := pattern.isSuffixOf s

variable {s before after : CodeUnits} {c : UInt16}

theorem lastIndexOf_none : lastIndexOf s c = none ↔ c ∉ s := by
  induction s with
  | nil => simp [lastIndexOf]
  | cons d s ih =>
    rw [lastIndexOf, List.mem_cons, not_or, ← ih]
    cases lastIndexOf s c with
    | none =>
      by_cases h : d = c
      · simp [h]
      · simp [h, Ne.symm h]
    | some i => simp

theorem lastIndexOf_append (h : c ∉ after) :
    lastIndexOf (before ++ c :: after) c = some before.length := by
  induction before with
  | nil => simp [lastIndexOf, lastIndexOf_none.mpr h]
  | cons d before ih => simp [lastIndexOf, ih]

/-- The string is cut at the last place of a code unit. -/
theorem lastIndexOf_some {i : Nat} (h : lastIndexOf s c = some i) :
    s = s.take i ++ c :: s.drop (i + 1) ∧ c ∉ s.drop (i + 1) := by
  induction s generalizing i with
  | nil => cases h
  | cons d s ih =>
    rw [lastIndexOf] at h
    cases hlast : lastIndexOf s c with
    | some j =>
      rw [hlast] at h
      obtain rfl := Option.some.inj h
      obtain ⟨hcut, hafter⟩ := ih hlast
      refine ⟨?_, hafter⟩
      rw [List.take_succ_cons, List.cons_append]
      exact congrArg (d :: ·) hcut
    | none =>
      rw [hlast] at h
      obtain ⟨hd, hi⟩ := Option.ite_none_right_eq_some.mp h
      obtain rfl := Option.some.inj hi
      exact ⟨by simp [hd], lastIndexOf_none.mp hlast⟩

end Dart
