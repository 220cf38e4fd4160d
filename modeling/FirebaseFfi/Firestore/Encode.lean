import FirebaseFfi.Firestore.Value
import FirebaseFfi.Tinycbor.Room

namespace Firestore
open Cbor Tinycbor

/-- The shape shared by the containers EncodeMap and EncodeValue write: create,
fill, close. Each step that fails returns at once and leaves the rest undone. -/
def encodeContainer (created : Created) (fill : CborEncoder → Bool × CborEncoder) :
    Bool × CborEncoder :=
  if created.err.isSome then (false, created.parent)
  else
    let (ok, child) := fill created.container
    if !ok then (false, created.parent)
    else
      let (err, enc) := cborEncoderCloseContainer created.parent child
      (err.isNone, enc)

/-- `f(enc) == CborNoError`, with the encoder it leaves. -/
def succeeded (r : Option CborError × CborEncoder) : Bool × CborEncoder := (r.1.isNone, r.2)

/-- `a && b` over two encoder calls: the second runs only when the first succeeded. -/
def andThen (r : Bool × CborEncoder) (next : CborEncoder → Bool × CborEncoder) :
    Bool × CborEncoder :=
  if r.1 then next r.2 else r

mutual
def encodeValue : FieldValue → CborEncoder → Bool × CborEncoder
  | .null, enc => succeeded (cborEncodeNull enc)
  | .boolean b, enc => succeeded (cborEncodeBoolean enc b)
  | .integer i, enc => succeeded (cborEncodeInt enc i)
  | .double d, enc => succeeded (cborEncodeDouble enc d)
  | .string s, enc => succeeded (cborEncodeTextString enc s)
  | .blob b, enc => succeeded (cborEncodeByteString enc b)
  | .timestamp s n, enc =>
    andThen (succeeded (cborEncodeTag enc tagTimestamp)) fun enc =>
      encodeContainer (cborEncoderCreateArray enc (some 2)) fun pair =>
        andThen (succeeded (cborEncodeInt pair s)) fun pair =>
          succeeded (cborEncodeInt pair n.toInt64)
  | .geoPoint a b, enc =>
    andThen (succeeded (cborEncodeTag enc tagGeoPoint)) fun enc =>
      encodeContainer (cborEncoderCreateArray enc (some 2)) fun pair =>
        andThen (succeeded (cborEncodeDouble pair a)) fun pair =>
          succeeded (cborEncodeDouble pair b)
  | .reference path, enc =>
    andThen (succeeded (cborEncodeTag enc tagReference)) fun enc =>
      succeeded (cborEncodeTextString enc path)
  | .array items, enc =>
    encodeContainer (cborEncoderCreateArray enc (some items.length)) (encodeItems items)
  | .map m, enc =>
    encodeContainer (cborEncoderCreateMap enc (some m.length)) (encodeEntries m)
  | _, enc => succeeded (cborEncodeNull enc)

def encodeItems : List FieldValue → CborEncoder → Bool × CborEncoder
  | [], enc => (true, enc)
  | v :: vs, enc => andThen (encodeValue v enc) (encodeItems vs)

def encodeEntries : List (Bytes × FieldValue) → CborEncoder → Bool × CborEncoder
  | [], enc => (true, enc)
  | (k, v) :: es, enc =>
    andThen (succeeded (cborEncodeTextString enc k)) fun enc =>
      andThen (encodeValue v enc) (encodeEntries es)
end

def encodeMap (m : MapFieldValue) (enc : CborEncoder) : Bool × CborEncoder :=
  encodeContainer (cborEncoderCreateMap enc (some m.length)) (encodeEntries m)

/-- One encode per attempt, the buffer doubled in between. -/
def serializeDocumentLoop (m : MapFieldValue) : Nat → Nat → Option Bytes
  | 0, _ => none
  | attempts + 1, cap =>
    match encodeMap m (cborEncoderInit cap) with
    | (true, enc) => some (cborEncoderGetBuffer enc)
    | (false, _) => serializeDocumentLoop m attempts (cap * 2)

def serializeDocument (m : MapFieldValue) : Option Bytes := serializeDocumentLoop m 16 512

end Firestore
