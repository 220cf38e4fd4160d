import FirebaseFfi.Database.QueryDelivery
import FirebaseFfi.Firebase.VariantRoundTrip
import FirebaseFfi.Firestore.Grammar

namespace Database
open Cbor Tinycbor Dart
open Firebase (Variant Less readVariant byBytes)

/-- The spec says what the last modifier of each kind says, and no more. -/
structure Denotes (package : CborPackage) (less : Less) (spec : QuerySpec) (ms : List Modifier) :
    Prop where
  order : spec.find .orderBy = (Assoc.lastOf Modifier.order ms).map fun o => .string o.name
  path : ∀ p, Assoc.lastOf Modifier.order ms = some (.child p) →
    spec.find .orderByPath = some (.string p)
  bound : ∀ b v key, Assoc.lastOf (Modifier.at_ b) ms = some (v, key) →
    (∃ w, spec.find (.bound b) = some w ∧ Conveys package less v w) ∧
      spec.find (.boundKey b) = key.map .string
  unbound : ∀ b, Assoc.lastOf (Modifier.at_ b) ms = none →
    spec.find (.bound b) = none ∧ spec.find (.boundKey b) = none
  limit : ∀ l, spec.find (.limit l) = (Assoc.lastOf (Modifier.count l) ms).map .int64

section Chain

variable {package : CborPackage} {less : Less} {ms : List Modifier} {spec : QuerySpec}
  {qs : List QueryModifier}

/-- The kind of the call that a modifier of the platform asks for. -/
def QueryModifier.kind (m : QueryModifier) : Option Kind := m.modifier.map Modifier.kind

end Chain

/-- A bound, and then one with a key. -/
def keyed : List Modifier :=
  [.bound .startAt (.int 5) none, .bound .startAt (.int 6) (some [0x6b])]

end Database
