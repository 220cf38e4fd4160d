import FirebaseFfi.AppCheck.Provider
import FirebaseFfi.Calls.Outcomes
import FirebaseFfi.Dart.SnapshotBuffer
import FirebaseFfi.Dart.Value
import FirebaseFfi.Machine.Answering

namespace AppCheck
open Calls Cbor Dart Machine Tinycbor

/-- What the SDK is asked for. -/
inductive TokenRequest
  | getAppCheckToken (forceRefresh : Bool)
  | getLimitedUseAppCheckToken

section Native

variable (instanced : Bool)

def fdbAcGetToken (forceRefresh : Bool) : Except Int64 TokenRequest :=
  if !instanced then .error (-1) else .ok (.getAppCheckToken forceRefresh)

def fdbAcLimitedUseToken : Except Int64 TokenRequest :=
  if !instanced then .error (-1) else .ok .getLimitedUseAppCheckToken

end Native

/-- What a future is completed with, at the time that goes into its buffer. -/
structure TokenCompletion where
  postedNs : Int64
  finished : Finished
  result : Option AppCheckToken

/-- A negative seq is an error, with its message. -/
def TokenCompletion.postFailed (c : TokenCompletion) : Bytes :=
  Dart.fdbPostBuffer c.postedNs.toUInt64
    (if c.finished.error = 0 then -1 else -c.finished.error) c.finished.text

/-- The callback of either request. -/
def TokenCompletion.post (c : TokenCompletion) : Bytes :=
  match c.result with
  | none => c.postFailed
  | some token =>
    if c.finished.error ≠ 0 then c.postFailed
    else Dart.fdbPostBuffer c.postedNs.toUInt64 token.expireTimeMillis token.token

/-- A byte order mark at the start of a text is left out. -/
def withoutMark : Bytes → Bytes
  | 0xEF :: 0xBB :: 0xBF :: rest => rest
  | text => text

/-- `utf8.decode` -/
def utf8Decode (bytes : Bytes) : Except Thrown Bytes :=
  if validUtf8 bytes then .ok (withoutMark bytes) else .error .formatException

/-- The token of the library, with the moment that it stops being valid. -/
structure TokenRead where
  token : Bytes
  expiresAt : DateTime

/-- What a future is completed with, or what it fails with. -/
inductive TokenReply
  | token (t : TokenRead)
  | exception (code : Int64) (message operation : Bytes)
  | thrown (t : Thrown)

/-- `_readToken`. What it throws is caught by the handler. -/
def readToken (bytes : Bytes) : TokenReply :=
  match seqOf bytes with
  | .error t => .thrown t
  | .ok seq =>
    if bytes.length < snapshotHeaderBytes then .thrown .other
    else
      match utf8Decode (bytes.drop snapshotHeaderBytes) with
      | .error t => .thrown t
      | .ok text =>
        if seq < 0 then .exception (-seq) text (ascii "getToken")
        else
          match DateTime.fromMillisecondsSinceEpoch seq false with
          | .error t => .thrown t
          | .ok expiresAt => .token ⟨text, expiresAt⟩

inductive TokenOperation
  | appCheckToken (forceRefresh : Bool)
  | limitedUseAppCheckToken

def TokenOperation.invoke (instanced : Bool) : TokenOperation → Except Int64 TokenRequest
  | .appCheckToken forceRefresh => fdbAcGetToken instanced forceRefresh
  | .limitedUseAppCheckToken => fdbAcLimitedUseToken instanced

/-- The error for a code that is not zero. -/
def TokenOperation.refused (rc : Int64) : TokenOperation → Refusal
  | .appCheckToken _ => .state (withCode (ascii "appCheckToken before initAppCheck") rc)
  | .limitedUseAppCheckToken =>
    .state (withCode (ascii "limitedUseAppCheckToken before initAppCheck") rc)

/-- An operation, and whether there is an App Check when it is called. -/
structure TokenCall where
  operation : TokenOperation
  instanced : Bool

def TokenCall.start (c : TokenCall) : Except (CallOutcome TokenReply) TokenRequest :=
  match c.operation.invoke c.instanced with
  | .ok request => .ok request
  | .error rc => .error (.refused (c.operation.refused rc))

def tokens : Protocol TokenCall TokenRequest TokenCompletion Bytes (CallOutcome TokenReply) where
  start c := c.start
  post _ f := some f.post
  handle _ bytes := some (.answered (readToken bytes))

/-- The codes of the SDK are not negative, nor is a time of expiry. -/
structure TokenCompletion.Suits (c : TokenCompletion) : Prop where
  error : 0 ≤ c.finished.error
  expiry : ∀ token, c.result = some token → 0 ≤ token.expireTimeMillis

/-- The error of a completion without a token. A token that is missing without an
error is one too. -/
inductive TokenCompletion.Failed (c : TokenCompletion) : Int64 → Prop
  | error : c.finished.error ≠ 0 → Failed c c.finished.error
  | missing : c.finished.error = 0 → c.result = none → Failed c 1

/-- What a call is told: the token and its time, or the SDK's error. It is told too
when the text is not UTF-8 or the time is out of range. -/
inductive TokenCompletion.Tells (c : TokenCompletion) : TokenReply → Prop
  | failed {code} : c.Failed code → validUtf8 c.finished.text →
      Tells c (.exception code (withoutMark c.finished.text) (ascii "getToken"))
  | unclear {code} : c.Failed code → validUtf8 c.finished.text = false →
      Tells c (.thrown .formatException)
  | garbled {token} : c.finished.error = 0 → c.result = some token →
      validUtf8 token.token = false → Tells c (.thrown .formatException)
  | late {token} : c.finished.error = 0 → c.result = some token → validUtf8 token.token →
      maxMillisecondsSinceEpoch < token.expireTimeMillis.toInt →
      Tells c (.thrown .argumentError)
  | token {token} {r : TokenRead} : c.finished.error = 0 → c.result = some token →
      validUtf8 token.token → r.token = withoutMark token.token →
      r.expiresAt.microsecondsSinceEpoch.toInt = token.expireTimeMillis.toInt * 1000 →
      r.expiresAt.isUtc = false → Tells c (.token r)

def tokenService : Service TokenCall TokenRequest TokenCompletion (CallOutcome TokenReply) where
  Suits _ c := c.Suits
  Tells _ c o := ∃ r, c.Tells r ∧ o = some (.answered r)

section Read

variable {now : UInt64} {seq : Int64} {payload : Bytes}

theorem post_seq (now : UInt64) (seq : Int64) (payload : Bytes) :
    seqOf (Dart.fdbPostBuffer now seq payload) = .ok seq := by
  have h := header_seq now.toInt64 seq payload.length 0 payload
  rw [fdbSnapshotHeader, UInt64.toUInt64_toInt64] at h
  exact h

theorem post_payload (now : UInt64) (seq : Int64) (payload : Bytes) :
    ¬ (Dart.fdbPostBuffer now seq payload).length < snapshotHeaderBytes ∧
      (Dart.fdbPostBuffer now seq payload).drop snapshotHeaderBytes = payload := by
  rw [Dart.fdbPostBuffer, ← snapshotHeader_length now seq payload.length, List.drop_left,
    List.length_append]
  exact ⟨by omega, rfl⟩

theorem readToken_garbled (h : validUtf8 payload = false) :
    readToken (Dart.fdbPostBuffer now seq payload) = .thrown .formatException := by
  simp only [readToken, post_seq, post_payload, utf8Decode, h, if_false, Bool.false_eq_true]

theorem readToken_failed (h : validUtf8 payload) (hseq : seq < 0) :
    readToken (Dart.fdbPostBuffer now seq payload) =
      .exception (-seq) (withoutMark payload) (ascii "getToken") := by
  simp only [readToken, post_seq, post_payload, utf8Decode, h, hseq, if_true, if_false]

theorem readToken_text (h : validUtf8 payload) (hseq : ¬ seq < 0) :
    readToken (Dart.fdbPostBuffer now seq payload) =
      match DateTime.fromMillisecondsSinceEpoch seq false with
      | .error t => .thrown t
      | .ok expiresAt => .token ⟨withoutMark payload, expiresAt⟩ := by
  simp only [readToken, post_seq, post_payload, utf8Decode, h, hseq, if_true, if_false]

/-- A time that is in range comes over. -/
theorem fromMilliseconds_ok {ms : Int64} (h : 0 ≤ ms) (hrange : ms.toInt ≤ maxMillisecondsSinceEpoch) :
    ∃ t, DateTime.fromMillisecondsSinceEpoch ms false = .ok t ∧
      t.microsecondsSinceEpoch.toInt = ms.toInt * 1000 ∧ t.isUtc = false := by
  have hnonneg : 0 ≤ ms.toInt := Int64.le_iff_toInt_le.mp h
  have habs : |ms.toInt| ≤ maxMillisecondsSinceEpoch := by rwa [abs_of_nonneg hnonneg]
  simp only [maxMillisecondsSinceEpoch] at hrange
  have hexact : (Int64.ofInt (ms.toInt * 1000)).toInt = ms.toInt * 1000 := by
    apply Int64.toInt_ofInt_of_le <;> omega
  have hus : |(Int64.ofInt (ms.toInt * 1000)).toInt| ≤ maxMicrosecondsSinceEpoch := by
    rw [hexact, abs_of_nonneg (by omega), maxMicrosecondsSinceEpoch]
    omega
  exact ⟨⟨_, false, hus⟩, by
    rw [DateTime.fromMillisecondsSinceEpoch, if_pos habs, DateTime.fromMicrosecondsSinceEpoch,
      dif_pos hus], hexact, rfl⟩

theorem fromMilliseconds_late {ms : Int64} (h : maxMillisecondsSinceEpoch < ms.toInt) :
    DateTime.fromMillisecondsSinceEpoch ms false = .error .argumentError := by
  rw [DateTime.fromMillisecondsSinceEpoch, if_neg]
  intro habs
  exact absurd (le_trans (le_abs_self _) habs) (not_le.mpr h)

end Read

section Provided

variable {c : TokenCompletion}

/-- The code of a failure is posted as its negative. -/
theorem postFailed_eq (h : c.Suits) {code : Int64} (hcode : c.Failed code) :
    c.postFailed = Dart.fdbPostBuffer c.postedNs.toUInt64 (-code) c.finished.text ∧ -code < 0 := by
  cases hcode with
  | error herror =>
    refine ⟨by rw [TokenCompletion.postFailed, if_neg herror], ?_⟩
    have hle : -c.finished.error ≤ 0 := (Int64.neg_nonpos_iff _).mpr (.inr h.error)
    refine Int64.lt_of_le_of_ne hle ?_
    intro hzero
    apply herror
    rw [← @Int64.neg_neg c.finished.error, hzero]
    rfl
  | missing herror => exact ⟨by rw [TokenCompletion.postFailed, if_pos herror], by decide⟩

theorem failed_told (h : c.Suits) {code : Int64} (hcode : c.Failed code) :
    c.Tells (readToken c.postFailed) := by
  obtain ⟨hpost, hneg⟩ := postFailed_eq h hcode
  rw [hpost]
  cases htext : validUtf8 c.finished.text with
  | false =>
    rw [readToken_garbled htext]
    exact .unclear hcode htext
  | true =>
    rw [readToken_failed htext hneg, Int64.neg_neg]
    exact .failed hcode htext

theorem token_told (h : c.Suits) {token : AppCheckToken} (herror : c.finished.error = 0)
    (hresult : c.result = some token) :
    c.Tells (readToken
      (Dart.fdbPostBuffer c.postedNs.toUInt64 token.expireTimeMillis token.token)) := by
  have hnonneg := h.expiry token hresult
  cases htext : validUtf8 token.token with
  | false =>
    rw [readToken_garbled htext]
    exact .garbled herror hresult htext
  | true =>
    rw [readToken_text htext (Int64.not_lt.mpr hnonneg)]
    by_cases hrange : token.expireTimeMillis.toInt ≤ maxMillisecondsSinceEpoch
    · obtain ⟨t, ht, htime, hzone⟩ := fromMilliseconds_ok hnonneg hrange
      rw [ht]
      exact .token herror hresult htext rfl htime hzone
    · rw [fromMilliseconds_late (not_le.mp hrange)]
      exact .late herror hresult htext (not_le.mp hrange)

theorem tokens_provide : tokens.Provides tokenService := by
  intro call request c _ hsuits
  refine ⟨readToken c.post, ?_, rfl⟩
  unfold TokenCompletion.post
  split
  · next hresult =>
    by_cases herror : c.finished.error = 0
    · exact failed_told hsuits (.missing herror hresult)
    · exact failed_told hsuits (.error herror)
  · next token hresult =>
    split
    · next herror => exact failed_told hsuits (.error herror)
    · next herror => exact token_told hsuits (not_not.mp herror) hresult

end Provided

end AppCheck
