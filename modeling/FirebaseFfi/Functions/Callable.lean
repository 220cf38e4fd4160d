import FirebaseFfi.Calls.Outcomes
import FirebaseFfi.Database.ReportsRead
import FirebaseFfi.Firestore.Measured
import FirebaseFfi.Machine.Answering
import FirebaseFfi.Storage.GetObject

namespace Functions
open Calls Cbor Dart Firebase Machine Tinycbor
open Database (CText Posted)
open InFlight (Future Post callback)

/-- What the SDK is asked to call. -/
structure CallRequest where
  name : Bytes
  data : Variant

section Native

variable (less : Less)

/-- Without arguments the data is null. -/
def fdbFunctionsCall (ready : Bool) (name : Option Bytes) (args : Bytes) :
    Except Int64 CallRequest :=
  if !ready then .error (-1)
  else
    match name with
    | none => .error (-2)
    | some name =>
      if args.isEmpty then .ok ⟨name, .null⟩
      else
        match parseVariant less args with
        | .ok data => .ok ⟨name, data⟩
        | .error _ => .error (-3)

/-- A call comes back as its entry point does. -/
theorem call_returns (s : InFlight.State) (name : Option Bytes) (args : Bytes) :
    (InFlight.fdbFunctionsCall less s name args).2 =
      returnCode (fdbFunctionsCall less (s.ready .functions) name args) := by
  unfold InFlight.fdbFunctionsCall fdbFunctionsCall
  cases s.ready .functions with
  | false => rfl
  | true =>
    cases name with
    | none => rfl
    | some name =>
      cases args with
      | nil => rfl
      | cons b args =>
        cases parseVariant less (b :: args) with
        | ok data => simp [Except.toOption, returnCode]
        | error e => simp [Except.toOption, returnCode]

end Native

/-- What a future is completed with, at the time that goes into its buffer. -/
structure CallCompletion where
  postedNs : Int64
  future : Future Variant

/-- What a callback posts a buffer of. -/
def bufferOf (postedNs : Int64) : Post → Option Bytes
  | .buffer seq payload => some (fdbPostBuffer postedNs.toUInt64 seq payload)
  | _ => none

def CallCompletion.post (c : CallCompletion) : Option Bytes :=
  ((callback .call c.future).findSome? GetObject.postOf).bind (bufferOf c.postedNs)

/-- A callFunction, and whether there is a Functions when it is called. -/
structure FunctionCall where
  name : Bytes
  data : Object
  ready : Bool

section Protocol

variable (package : CborPackage) (less : Less)

/-- `data == null ? Uint8List(0) : …` -/
def encodeArguments (data : Object) : Except Thrown Bytes :=
  match data with
  | .null => .ok []
  | data => Dart.encodeVariant package data

def FunctionCall.start (c : FunctionCall) : Except (CallOutcome Reply) CallRequest :=
  match encodeArguments package c.data with
  | .error thrown => .error (.threw thrown)
  | .ok args =>
    match fdbFunctionsCall less c.ready (some (cString c.name)) args with
    | .ok request => .ok request
    | .error rc =>
      .error (.refused (if rc = -3 then .argument (ascii "these arguments cannot be encoded")
        else .state (withCode (ascii "call " ++ c.name ++ ascii " failed to start") rc)))

def callables : Protocol FunctionCall CallRequest CallCompletion Bytes (CallOutcome Reply) where
  start c := c.start package less
  post _ f := f.post
  handle c bytes := (callFunction package c.name bytes).toOption.map .answered

end Protocol

/-- What a function has given can be written, and read. -/
structure CallCompletion.Suits (less : Less) (c : CallCompletion) : Prop where
  text : c.future.error ≠ 0 → CText c.future.text ∧
    (itemOf (.string c.future.text)).bytes.length < 2 ^ 32
  data : c.future.error = 0 → ∀ v, c.future.result = some v → Posted less v

/-- What a call is told: the value of the function, or the SDK's error. -/
def CallCompletion.answer (name : Bytes) (c : CallCompletion) : Reply :=
  if c.future.error = 0 then .value (c.future.result.elim .null Variant.shown)
  else .error (-1) c.future.text name

def callableService (less : Less) :
    Service FunctionCall CallRequest CallCompletion (CallOutcome Reply) where
  Suits _ c := c.Suits less
  Tells call c o := o = some (.answered (c.answer call.name))

section Provided

variable {package : CborPackage} {less : Less}

/-- The text of an error is written as the value that it is. -/
theorem encodeText_eq {text : Bytes} (h : CText text) :
    InFlight.encodeText text = (itemOf (.string text)).bytes := by
  rw [itemOf, cString_eq_self.mpr h.whole]
  exact Firestore.errorPayload_eq text

theorem callFunction_value (hp : package.Reads) {v : Variant} (hv : Posted less v) (name : Bytes)
    (postedNs : Int64) :
    callFunction package name (fdbPostBuffer postedNs.toUInt64 1 (itemOf v).bytes) =
      .ok (.value v.shown) := by
  have hback := (posts_read_back postedNs 1 hv.length (by decide : ([] : Bytes).length < _)).2.1
  rw [callFunction, hback.readsSeq, ok_bind, if_neg (by decide), hv.decoded hp hback]
  rfl

theorem callFunction_failed (hp : package.Reads) {text : Bytes} (htext : CText text)
    (hv : Posted less (.string text)) (name : Bytes) (postedNs : Int64) :
    callFunction package name
      (fdbPostBuffer postedNs.toUInt64 (-1) (itemOf (.string text)).bytes) =
      .ok (.error (-1) text name) := by
  have hback := (posts_read_back postedNs (-1) hv.length (by decide : ([] : Bytes).length < _)).2.1
  rw [callFunction, hback.readsSeq, ok_bind, if_pos (by decide), hv.decoded hp hback, htext.shown]
  rfl

theorem callFunction_nothing (name : Bytes) (postedNs : Int64) :
    callFunction package name (fdbPostBuffer postedNs.toUInt64 1 []) = .ok (.value .null) := by
  have hback := (posts_read_back postedNs 1 (by decide : ([] : Bytes).length < _)
    (by decide : ([] : Bytes).length < _)).2.1
  rw [callFunction, hback.readsSeq, ok_bind, if_neg (by decide), hback.decodesValue, if_pos rfl]
  rfl

theorem post_failed {c : CallCompletion} (herror : c.future.error ≠ 0) :
    c.post = some (fdbPostBuffer c.postedNs.toUInt64 (-1) (InFlight.encodeText c.future.text)) := by
  unfold CallCompletion.post callback
  simp only [ne_eq, herror, not_false_eq_true, if_true]
  rfl

theorem post_nothing {c : CallCompletion} (herror : c.future.error = 0)
    (hresult : c.future.result = none) :
    c.post = some (fdbPostBuffer c.postedNs.toUInt64 1 []) := by
  unfold CallCompletion.post callback
  simp only [ne_eq, herror, not_true, if_false, hresult]
  rfl

theorem post_value {c : CallCompletion} (herror : c.future.error = 0) {v : Variant}
    (hresult : c.future.result = some v) {payload : Bytes}
    (hpayload : serializeVariant v = some payload) :
    c.post = some (fdbPostBuffer c.postedNs.toUInt64 1 payload) := by
  unfold CallCompletion.post callback
  simp only [ne_eq, herror, not_true, if_false, hresult, hpayload]
  rfl

/-- The handler of a call makes its answer of what is posted. -/
theorem callFunction_answer (hp : package.Reads) {c : CallCompletion} (hc : c.Suits less)
    (name : Bytes) : ∃ bytes, c.post = some bytes ∧
      callFunction package name bytes = .ok (c.answer name) := by
  rw [CallCompletion.answer]
  by_cases herror : c.future.error = 0
  · rw [if_pos herror]
    cases hresult : c.future.result with
    | none => exact ⟨_, post_nothing herror hresult, callFunction_nothing name c.postedNs⟩
    | some v =>
      have hv := hc.data herror v hresult
      exact ⟨_, post_value herror hresult hv.serialized, callFunction_value hp hv name c.postedNs⟩
  · obtain ⟨htext, hlen⟩ := hc.text herror
    have hv : Posted less (.string c.future.text) := htext.posted hlen
    refine ⟨_, post_failed herror, ?_⟩
    rw [if_neg herror, encodeText_eq htext]
    exact callFunction_failed hp htext hv name c.postedNs

theorem callables_provide (hp : package.Reads) :
    (callables package less).Provides (callableService less) := by
  intro call request c _ hc
  obtain ⟨bytes, hpost, hanswer⟩ := callFunction_answer hp hc call.name
  show (c.post.bind fun bytes => (callFunction package call.name bytes).toOption.map _) = _
  rw [hpost, Option.bind_some, hanswer]
  rfl

end Provided

end Functions
