import FirebaseFfi.Calls.Outcomes
import FirebaseFfi.Machine.Answering

namespace Auth
open Calls Cbor Machine Tinycbor
open Dart (ascii)

/-- What the SDK is asked for. -/
inductive AuthRequest
  | signInAnonymously
  | signInWithCustomToken (token : Bytes)
  | getToken (forceRefresh : Bool)

section Native

variable (initialized : Bool)

def fdbAuthSignInAnonymously : Except Int64 AuthRequest :=
  if !initialized then .error (-1) else .ok .signInAnonymously

def fdbAuthSignInWithCustomToken (token : Option Bytes) : Except Int64 AuthRequest :=
  if !initialized then .error (-1)
  else
    match token with
    | some (c :: token) => .ok (.signInWithCustomToken (c :: token))
    | _ => .error (-2)

/-- `signedIn` is whether the current user is valid. -/
def fdbAuthIdToken (signedIn forceRefresh : Bool) : Except Int64 AuthRequest :=
  if !initialized then .error (-1)
  else if !signedIn then .error (-2)
  else .ok (.getToken forceRefresh)

end Native

/-- What a future is completed with. A sign-in has the uid of its user, if that is
valid. -/
inductive AuthCompletion
  | signedIn (f : Finished) (uid : Option Bytes)
  | token (f : Finished) (token : Option Bytes)

/-- A message of four elements, or of three. -/
inductive AuthMessage
  | result (ok : Bool) (code : Int64) (message uid : Bytes)
  | outcome (m : OutcomeMessage)

/-- A text that is not UTF-8 makes no message. -/
def postAuthResult (ok : Bool) (code : Int64) (message uid : Bytes) : Option AuthMessage :=
  if validUtf8 (cString message) && validUtf8 (cString uid) then
    some (.result ok code (cString message) (cString uid))
  else none

def onSignInComplete (f : Finished) (uid : Option Bytes) : Option AuthMessage :=
  if f.error ≠ 0 then postAuthResult false f.error (f.message.getD []) []
  else postAuthResult true 0 [] (uid.getD [])

/-- The callback of fdb_auth_id_token. The token is in the place of the message. -/
def onToken (f : Finished) (token : Option Bytes) : Option OutcomeMessage :=
  match token with
  | none => fdbPostOutcome false f.error (f.message.getD [])
  | some t =>
    if f.error ≠ 0 then fdbPostOutcome false f.error (f.message.getD [])
    else fdbPostOutcome true 0 t

def AuthRequest.post : AuthRequest → AuthCompletion → Option AuthMessage
  | .signInAnonymously, .signedIn f uid | .signInWithCustomToken _, .signedIn f uid =>
    onSignInComplete f uid
  | .getToken _, .token f token => (onToken f token).map .outcome
  | _, _ => none

inductive AuthOperation
  | signInAnonymously
  | signInWithCustomToken (token : Bytes)
  | idToken (forceRefresh : Bool)

/-- What a future is completed with, or the AuthException that it fails with. -/
inductive AuthReply
  | outcome (uid : Bytes)
  | token (token : Bytes)
  | exception (code : Int64) (message : Bytes)

def AuthOperation.invoke (initialized signedIn : Bool) : AuthOperation → Except Int64 AuthRequest
  | .signInAnonymously => fdbAuthSignInAnonymously initialized
  | .signInWithCustomToken token => fdbAuthSignInWithCustomToken initialized (some (cString token))
  | .idToken forceRefresh => fdbAuthIdToken initialized signedIn forceRefresh

/-- The error for a code that is not zero. -/
def AuthOperation.refused (rc : Int64) : AuthOperation → Refusal
  | .signInAnonymously | .signInWithCustomToken _ =>
    .state (if rc = -1 then ascii "auth not initialized"
      else ascii "sign-in rejected: " ++ ascii (toString rc.toInt))
  | .idToken _ =>
    .state (if rc = -2 then ascii "nobody is signed in"
      else withCode (ascii "idToken before initAuth") rc)

/-- The handler of `_awaitSignIn`, and that of idToken. Either throws at a message
of the other's. -/
def AuthOperation.handle : AuthOperation → AuthMessage → Option AuthReply
  | .signInAnonymously, .result ok code message uid
  | .signInWithCustomToken _, .result ok code message uid =>
    some (if ok then .outcome uid else .exception code message)
  | .idToken _, .outcome m => some (if m.ok then .token m.message else .exception m.code m.message)
  | _, _ => none

/-- An operation, and whether there are an Auth and a user when it is called. -/
structure AuthCall where
  operation : AuthOperation
  initialized : Bool
  signedIn : Bool

def AuthCall.start (c : AuthCall) : Except (CallOutcome AuthReply) AuthRequest :=
  match c.operation.invoke c.initialized c.signedIn with
  | .ok request => .ok request
  | .error rc => .error (.refused (c.operation.refused rc))

def signIns :
    Protocol AuthCall AuthRequest AuthCompletion AuthMessage (CallOutcome AuthReply) where
  start c := c.start
  post r f := r.post f
  handle c m := (c.operation.handle m).map .answered

/-- A future has a result of the kind that was asked for. -/
inductive AuthRequest.Suits : AuthRequest → AuthCompletion → Prop
  | signInAnonymously {f uid} : Suits .signInAnonymously (.signedIn f uid)
  | signInWithCustomToken {token f uid} : Suits (.signInWithCustomToken token) (.signedIn f uid)
  | getToken {forceRefresh f token} : Suits (.getToken forceRefresh) (.token f token)

/-- A text, if it is one, and what is made of it. -/
def inText (text : Bytes) (reply : Bytes → AuthReply) : Option AuthReply :=
  if validUtf8 (cString text) then some (reply (cString text)) else none

/-- What a call is told: its user or its token, or the SDK's own error. A token that
is null has no error to tell. -/
def AuthCompletion.answer : AuthCompletion → Option AuthReply
  | .signedIn f uid =>
    if f.error = 0 then inText (uid.getD []) .outcome
    else inText (f.message.getD []) (.exception f.error)
  | .token f t =>
    if f.error = 0 ∧ t ≠ none then inText (t.getD []) .token
    else inText (f.message.getD []) (.exception f.error)

def signInService : Service AuthCall AuthRequest AuthCompletion (CallOutcome AuthReply) where
  Suits request f := request.Suits f
  Tells _ f o := o = f.answer.map .answered

section Provided

theorem validUtf8_nil : validUtf8 (cString []) = true := rfl

theorem failed_told (code : Int64) (message : Bytes) {handle : AuthMessage → Option AuthReply}
    (h : ∀ message uid, handle (.result false code message uid) = some (.exception code message)) :
    (postAuthResult false code message []).bind handle = inText message (.exception code) := by
  rw [postAuthResult, validUtf8_nil, Bool.and_true, inText]
  split
  · exact h _ _
  · rfl

theorem succeeded_told (uid : Bytes) {handle : AuthMessage → Option AuthReply}
    (h : ∀ message uid, handle (.result true 0 message uid) = some (.outcome uid)) :
    (postAuthResult true 0 [] uid).bind handle = inText uid .outcome := by
  rw [postAuthResult, validUtf8_nil, Bool.true_and, inText]
  split
  · exact h _ _
  · rfl

theorem signIn_told (f : Finished) (uid : Option Bytes) {handle : AuthMessage → Option AuthReply}
    (h : ∀ ok code message uid, handle (.result ok code message uid) =
      some (if ok then .outcome uid else .exception code message)) :
    (onSignInComplete f uid).bind handle = (AuthCompletion.signedIn f uid).answer := by
  rw [onSignInComplete, AuthCompletion.answer]
  by_cases herror : f.error = 0
  · rw [if_neg (not_not.mpr herror), if_pos herror]
    exact succeeded_told _ fun message uid => h true 0 message uid
  · rw [if_pos herror, if_neg herror]
    exact failed_told _ _ fun message uid => h false f.error message uid

theorem outcome_told (ok : Bool) (code : Int64) (text : Bytes) (forceRefresh : Bool) :
    ((fdbPostOutcome ok code text).map AuthMessage.outcome).bind
      (AuthOperation.idToken forceRefresh).handle =
      inText text fun text => if ok then .token text else .exception code text := by
  rw [fdbPostOutcome, inText]
  split <;> rfl

theorem token_told (f : Finished) (token : Option Bytes) (forceRefresh : Bool) :
    ((onToken f token).map AuthMessage.outcome).bind (AuthOperation.idToken forceRefresh).handle =
      (AuthCompletion.token f token).answer := by
  rw [AuthCompletion.answer]
  cases token with
  | none =>
    rw [if_neg (fun h => h.2 rfl)]
    exact outcome_told false f.error _ forceRefresh
  | some t =>
    rw [onToken]
    by_cases herror : f.error = 0
    · rw [if_neg (not_not.mpr herror), if_pos ⟨herror, Option.some_ne_none t⟩]
      exact outcome_told true 0 t forceRefresh
    · rw [if_pos herror, if_neg fun h => herror h.1]
      exact outcome_told false f.error _ forceRefresh

/-- A request is of the call it was made for. -/
theorem start_operation {c : AuthCall} {request : AuthRequest} (h : c.start = .ok request) :
    c.operation.invoke c.initialized c.signedIn = .ok request := by
  unfold AuthCall.start at h
  split at h
  · next hinvoke =>
    cases h
    exact hinvoke
  · cases h

theorem signIns_provide : signIns.Provides signInService := by
  intro c request f hstart hsuits
  have hinvoke := start_operation hstart
  suffices h : (request.post f).bind c.operation.handle = f.answer by
    show (request.post f).bind (fun m => (c.operation.handle m).map _) = _
    rw [← h, Option.map_bind]
    rfl
  cases hoperation : c.operation with
  | signInAnonymously =>
    rw [hoperation, AuthOperation.invoke, fdbAuthSignInAnonymously] at hinvoke
    split at hinvoke
    · cases hinvoke
    · cases hinvoke
      cases hsuits
      exact signIn_told _ _ fun _ _ _ _ => rfl
  | signInWithCustomToken token =>
    rw [hoperation, AuthOperation.invoke] at hinvoke
    unfold fdbAuthSignInWithCustomToken at hinvoke
    split at hinvoke
    · cases hinvoke
    · split at hinvoke
      · cases hinvoke
        cases hsuits
        exact signIn_told _ _ fun _ _ _ _ => rfl
      · cases hinvoke
  | idToken forceRefresh =>
    rw [hoperation, AuthOperation.invoke, fdbAuthIdToken] at hinvoke
    split at hinvoke
    · cases hinvoke
    · split at hinvoke
      · cases hinvoke
      · cases hinvoke
        cases hsuits
        exact token_told _ _ forceRefresh

end Provided

end Auth
