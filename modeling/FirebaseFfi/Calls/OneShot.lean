import FirebaseFfi.Calls.Handlers
import FirebaseFfi.Firestore.Legible

namespace Calls
open Cbor Dart Firestore

section Buffers

variable (package : CborPackage) (bytes : Bytes)

/-- The native side reports a failure. -/
def Failed : Prop := ∃ seq, seqOf bytes = .ok seq ∧ seq < 0

/-- The object of the payload that the header bounds. -/
inductive Carries : Object → Prop
  | empty : bytes.length = snapshotHeaderBytes → Carries .null
  | payload {valueLen stop c o} : bytes.length ≠ snapshotHeaderBytes →
      field 24 4 bytes = .ok valueLen →
      stop = (if valueLen = 0 then bytes.length else snapshotHeaderBytes + valueLen) →
      stop ≤ bytes.length → package.decode ((bytes.take stop).drop snapshotHeaderBytes) = .ok c →
      package.toObject c = .ok o → Carries o

/-- A document, or no payload for one that is missing. -/
def CarriesDocument : Prop :=
  bytes.length = snapshotHeaderBytes ∨
  ∃ c, package.decode (bytes.drop snapshotHeaderBytes) = .ok c ∧ Legible package c ∧ Plain c ∧
    ((∃ ces, c.untagged = .map ces) ∨
      Leaf c.untagged ∧ ∃ es, package.toObject c = .ok (.map es))

/-- An entry with a text for its id and its path, and a map for its data if it has any,
every key of it with a text. -/
def Shown (entry : List (Object × Object)) : Prop :=
  interpolate package.toString (entryAt entry keyId) ≠ none ∧
  interpolate package.toString (entryAt entry keyPath) ≠ none ∧
  (entryAt entry keyData = .null ∨ ∃ es, entryAt entry keyData = .map es ∧
    ∀ e ∈ es, interpolate package.toString e.1 ≠ none)

/-- A list, of which those that are maps can be shown. -/
def CarriesResult : Prop :=
  bytes.length = snapshotHeaderBytes ∨
  ∃ c, package.decode (bytes.drop snapshotHeaderBytes) = .ok c ∧ Legible package c ∧ Plain c ∧
    ((∃ b, c.untagged = .bytes b) ∨
      (∃ cs, c.untagged = .list cs ∧ ∀ d ∈ cs, ∀ entry,
        decodeFirestoreValue package d = .ok (.map entry) → Shown package entry) ∨
      Leaf c.untagged ∧ ((∃ b, package.toObject c = .ok (.uint8List b)) ∨
        ∃ os, package.toObject c = .ok (.list os) ∧ ∀ entry, .map entry ∈ os → Shown package entry))

/-- The buffers that a call can answer. -/
def Answerable : OneShot → Prop
  | .getDocument _ | .transactionGet _ => Failed bytes ∨ CarriesDocument package bytes
  | .queryCollection _ => Failed bytes ∨ CarriesResult package bytes
  | .countCollection _ => Failed bytes ∨ ∃ o, Carries package bytes o
  | .callFunction _ => ∃ o, Carries package bytes o ∧
      ∀ seq, seqOf bytes = .ok seq → seq < 0 → seq ≠ -2 → o ≠ .null →
        interpolate package.toString o ≠ none
  | .configValues => Failed bytes ∨ Carries package bytes .null ∨
      ∃ es, Carries package bytes (.map es) ∧ ∀ e ∈ es, interpolate package.toString e.1 ≠ none

/-- What a call is to be answered with: an error for a failure, and else the value
of the buffer. -/
inductive Gives : OneShot → Reply → Prop
  | error {call code message operation} : Failed bytes → Gives call (.error code message operation)
  | document {path o} : ¬ Failed bytes → decodeDocument package bytes = .ok o →
      Gives (.getDocument path) (.value o)
  | transaction {path o} : ¬ Failed bytes → decodeDocument package bytes = .ok o →
      Gives (.transactionGet path) (.value o)
  | result {path docs} : ¬ Failed bytes → decodeQueryResult package bytes = .ok docs →
      Gives (.queryCollection path) (.documents docs)
  | count {path n} : ¬ Failed bytes → Carries package bytes (.int n) →
      Gives (.countCollection path) (.value (.int n))
  | noCount {path o} : ¬ Failed bytes → Carries package bytes o → (∀ n, o ≠ .int n) →
      Gives (.countCollection path) (.value (.int 0))
  | called {name o} : ¬ Failed bytes → Carries package bytes o →
      Gives (.callFunction name) (.value o)
  | values {o es m} : ¬ Failed bytes → Carries package bytes o → mapOrEmpty o = .ok es →
      textKeys package [] es = .ok m →
      Gives .configValues (.value (.map (m.map fun e => (.string e.1, e.2))))

end Buffers

section Answers

variable {package : CborPackage} {bytes : Bytes}

section Handlers

variable {seq : Int64}

end Handlers

end Answers

section Replies

variable (package : CborPackage)

/-- A buffer whose payload is one byte. -/
def oneByte (b : UInt8) : Bytes := fdbPostBuffer 0 1 [b]

end Replies

end Calls
