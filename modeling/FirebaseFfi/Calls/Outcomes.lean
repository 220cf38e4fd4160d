import FirebaseFfi.Dart.Value
import FirebaseFfi.Machine.Exchange
import FirebaseFfi.Tinycbor.Encoder

namespace Calls
open Cbor Dart Tinycbor

/-- What a future of the SDK is completed with: its error, zero for none, and its
error message if it has one. -/
structure Finished where
  error : Int64
  message : Option Bytes

/-- The three elements of the message that fdb_post_outcome posts. -/
structure OutcomeMessage where
  ok : Bool
  code : Int64
  message : Bytes

/-- The bytes are UTF-8. -/
def validUtf8 (s : Bytes) : Bool := (ByteArray.mk s.toArray).validateUTF8

/-- A text that is not UTF-8 makes no message. -/
def fdbPostOutcome (ok : Bool) (code : Int64) (message : Bytes) : Option OutcomeMessage :=
  if validUtf8 (cString message) then some ⟨ok, code, cString message⟩ else none

/-- The completion of an operation without a result. -/
def Finished.post (f : Finished) : Option OutcomeMessage :=
  fdbPostOutcome (f.error = 0) f.error (f.message.getD [])

/-- The text of a failure. -/
def Finished.text (f : Finished) : Bytes := cString (f.message.getD [])

/-- The errors of a call that has not started, with their messages. -/
inductive Refusal
  | state (message : Bytes)
  | argument (message : Bytes)

/-- What the application has of a call: an answer, or an error because it has not
started; or it has thrown before. -/
inductive CallOutcome (Answer : Type)
  | answered (answer : Answer)
  | refused (error : Refusal)
  | threw (thrown : Thrown)

/-- `'…($rc)'` -/
def withCode (text : Bytes) (rc : Int64) : Bytes :=
  text ++ ascii " (" ++ ascii (toString rc.toInt) ++ ascii ")"

/-- The return code of a call that asks for something, or does not. -/
def returnCode {Request : Type} : Except Int64 Request → Int64
  | .ok _ => 0
  | .error rc => rc

theorem Finished.post_eq {f : Finished} {m : OutcomeMessage} (h : f.post = some m) :
    m.ok = decide (f.error = 0) ∧ m.code = f.error ∧ m.message = f.text := by
  unfold Finished.post fdbPostOutcome at h
  split at h
  · cases h
    exact ⟨rfl, rfl, rfl⟩
  · cases h

/-- Only the completion whose text is not UTF-8 is lost. -/
theorem Finished.post_none {f : Finished} : f.post = none ↔ validUtf8 f.text = false := by
  unfold Finished.post fdbPostOutcome Finished.text
  split
  · next h => simp [h]
  · next h => simpa using h

end Calls
