import FirebaseFfi.Calls.Outcomes
import FirebaseFfi.Database.ReportsRead
import FirebaseFfi.Firebase.VariantSent
import FirebaseFfi.Machine.Answering
import FirebaseFfi.Storage.StorageMetadata

namespace RemoteConfig
open Calls Cbor Dart Firebase Machine Tinycbor
open Database (CText Posted QuerySpec emplace_perm parseVariantMap)
open Firestore (maxSize textItem)

/-- A std::map from strings to values. -/
abbrev ConfigMap := QuerySpec

/-- What the SDK is asked for. -/
inductive ConfigRequest
  | ensureInitialized
  | setDefaults (defaults : ConfigMap)
  | getAll
  | fetch (expiration : Option UInt64)
  | activate
  | fetchAndActivate
  | setConfigSettings (fetchTimeout minimumInterval : UInt64)

section Native

variable (config : Bool)

/-- `created` is whether GetInstance gives one. -/
def fdbRcInit (app created : Bool) : Except Int64 ConfigRequest :=
  if !app then .error (-1)
  else if !config && !created then .error (-2)
  else .ok .ensureInitialized

def fdbRcSetDefaults (less : Less) (cbor : Bytes) : Except Int64 ConfigRequest :=
  if !config then .error (-1)
  else
    match parseVariantMap less cbor with
    | some defaults => .ok (.setDefaults defaults)
    | none => .error (-3)

/-- The calls without arguments. -/
def fdbRcOn (request : ConfigRequest) : Except Int64 ConfigRequest :=
  if !config then .error (-1) else .ok request

def fdbRcGetAll : Except Int64 ConfigRequest := fdbRcOn config .getAll

def fdbRcActivate : Except Int64 ConfigRequest := fdbRcOn config .activate

def fdbRcFetchAndActivate : Except Int64 ConfigRequest := fdbRcOn config .fetchAndActivate

/-- A negative number of seconds is the interval that is configured. -/
def fdbRcFetch (cacheExpirationSeconds : Int64) : Except Int64 ConfigRequest :=
  fdbRcOn config (.fetch
    (if cacheExpirationSeconds < 0 then none else some cacheExpirationSeconds.toUInt64))

def fdbRcSetSettings (fetchTimeoutMs minimumIntervalMs : Int64) : Except Int64 ConfigRequest :=
  if !config then .error (-1)
  else if fetchTimeoutMs < 0 ∨ minimumIntervalMs < 0 then .error (-2)
  else .ok (.setConfigSettings fetchTimeoutMs.toUInt64 minimumIntervalMs.toUInt64)

end Native

/-- What a future is completed with. The values are there at once, at the time that
goes into their buffer. -/
inductive ConfigCompletion
  | finished (f : Finished)
  | activated (f : Finished) (result : Option Bool)
  | values (postedNs : Int64) (all : ConfigMap)

inductive ConfigMessage
  | outcome (m : OutcomeMessage)
  | buffer (bytes : Bytes)

/-- The callback of fdb_rc_activate, and of fdb_rc_fetch_and_activate. -/
def postActivated (f : Finished) (result : Option Bool) : Option OutcomeMessage :=
  if f.error ≠ 0 then fdbPostOutcome false f.error (f.message.getD [])
  else fdbPostOutcome true (if result = some true then 1 else 0) []

/-- The end of fdb_rc_get_all. -/
def postValues (less : Less) (postedNs : Int64) (all : ConfigMap) : Bytes :=
  match serializeVariantMap less all.entries with
  | none => fdbPostBuffer postedNs.toUInt64 (-2) []
  | some payload => fdbPostBuffer postedNs.toUInt64 1 payload

def ConfigRequest.post (less : Less) : ConfigRequest → ConfigCompletion → Option ConfigMessage
  | .ensureInitialized, .finished f | .setDefaults _, .finished f | .fetch _, .finished f
  | .setConfigSettings .., .finished f => f.post.map .outcome
  | .activate, .activated f result | .fetchAndActivate, .activated f result =>
    (postActivated f result).map .outcome
  | .getAll, .values postedNs all => some (.buffer (postValues less postedNs all))
  | _, _ => none

/-- The functions of the library that await one answer, with durations in
milliseconds, and that of a cache in seconds. -/
inductive ConfigOperation
  | initRemoteConfig
  | setConfigDefaults (defaults : List (Bytes × Object))
  | configValues
  | setConfigSettings (fetchTimeout minimumFetchInterval : Int64)
  | fetchConfig (cacheExpiration : Option Int64)
  | activateConfig
  | fetchAndActivateConfig

/-- The operation as its exceptions have it. -/
def ConfigOperation.what : ConfigOperation → Bytes
  | .initRemoteConfig => ascii "initRemoteConfig"
  | .setConfigDefaults _ => ascii "setConfigDefaults"
  | .configValues => ascii "get"
  | .setConfigSettings .. => ascii "setConfigSettings"
  | .fetchConfig _ => ascii "fetchConfig"
  | .activateConfig => ascii "activate"
  | .fetchAndActivateConfig => ascii "fetchAndActivate"

/-- The error for a code that is not zero. -/
def ConfigOperation.refused (op : ConfigOperation) (rc : Int64) : Refusal :=
  match op with
  | .configValues => .state (withCode (ascii "configValues failed") rc)
  | .activateConfig | .fetchAndActivateConfig => .state (withCode (op.what ++ ascii " failed") rc)
  | _ =>
    if rc = -1 then .state (op.what ++ ascii " before the Firebase app was initialized")
    else if rc = -2 then .state (ascii "Remote Config instance could not be created")
    else if rc = -3 then .argument (ascii "these defaults cannot be encoded")
    else .state (withCode (op.what ++ ascii " failed to start") rc)

/-- What a future is completed with. -/
inductive ConfigReply
  | completed
  | activated (b : Bool)
  | reply (r : Reply)

/-- An operation, with whether there are an app and a Remote Config when it is
called, or one is created then. -/
structure ConfigCall where
  operation : ConfigOperation
  app : Bool
  config : Bool
  created : Bool

section Protocol

variable (package : CborPackage) (less : Less)

def ConfigCall.invoke (c : ConfigCall) : Except Thrown (Except Int64 ConfigRequest) :=
  match c.operation with
  | .initRemoteConfig => .ok (fdbRcInit c.config c.app c.created)
  | .setConfigDefaults defaults => do
    let cbor ← Dart.encodeVariant package (.map (defaults.map fun e => (.string e.1, e.2)))
    return fdbRcSetDefaults c.config less cbor
  | .configValues => .ok (fdbRcGetAll c.config)
  | .setConfigSettings fetchTimeout minimumFetchInterval =>
    .ok (fdbRcSetSettings c.config fetchTimeout minimumFetchInterval)
  | .fetchConfig cacheExpiration => .ok (fdbRcFetch c.config (cacheExpiration.getD (-1)))
  | .activateConfig => .ok (fdbRcActivate c.config)
  | .fetchAndActivateConfig => .ok (fdbRcFetchAndActivate c.config)

def ConfigCall.start (c : ConfigCall) : Except (CallOutcome ConfigReply) ConfigRequest :=
  match c.invoke package less with
  | .error thrown => .error (.threw thrown)
  | .ok (.ok request) => .ok request
  | .ok (.error rc) => .error (.refused (c.operation.refused rc))

/-- The handler of `_awaitOutcome`, and of those that have a bool in the place of
the code. -/
def awaited (what : Bytes) (next : Int64 → ConfigReply) (m : OutcomeMessage) : ConfigReply :=
  if m.ok then next m.code else .reply (.error m.code m.message what)

def ConfigOperation.handle (op : ConfigOperation) (m : ConfigMessage) : Option ConfigReply :=
  match op, m with
  | .configValues, .buffer bytes => (Calls.configValues package bytes).toOption.map .reply
  | .configValues, .outcome _ | _, .buffer _ => none
  | .activateConfig, .outcome m | .fetchAndActivateConfig, .outcome m =>
    some (awaited op.what (fun code => .activated (code = 1)) m)
  | _, .outcome m => some (awaited op.what (fun _ => .completed) m)

def configCalls : Protocol ConfigCall ConfigRequest ConfigCompletion ConfigMessage
    (CallOutcome ConfigReply) where
  start c := c.start package less
  post r f := r.post less f
  handle c m := (c.operation.handle package m).map .answered

end Protocol

/-- The values as the map that is written. -/
def written (less : Less) (all : ConfigMap) : Variant :=
  .map (all.entries.foldl (fun out e => emplace less out (.string e.1) e.2) [])

/-- Values that can be written, and read. -/
structure Sendable (less : Less) (all : ConfigMap) : Prop where
  keys : ∀ e ∈ all.entries, CText e.1
  values : ∀ e ∈ all.entries, e.2.Tree less ∧ Readable (itemOf e.2)
  count : all.entries.length ≤ maxSize
  length : (itemOf (written less all)).bytes.length < 2 ^ 32

/-- A future has a result of the kind that was asked for. -/
inductive ConfigRequest.Suits (less : Less) : ConfigRequest → ConfigCompletion → Prop
  | ensureInitialized {f} : Suits less .ensureInitialized (.finished f)
  | setDefaults {defaults f} : Suits less (.setDefaults defaults) (.finished f)
  | fetch {expiration f} : Suits less (.fetch expiration) (.finished f)
  | setConfigSettings {a b f} : Suits less (.setConfigSettings a b) (.finished f)
  | activate {f result} : Suits less .activate (.activated f result)
  | fetchAndActivate {f result} : Suits less .fetchAndActivate (.activated f result)
  | getAll {postedNs all} : Sendable less all → Suits less .getAll (.values postedNs all)

/-- An exception with the text of an error, unless that is not UTF-8. -/
def exceptionOf (what : Bytes) (f : Finished) : Option ConfigReply :=
  if validUtf8 f.text then some (.reply (.error f.error f.text what)) else none

/-- What an operation is to be told: every value under its key, or how its future
has ended. -/
inductive ConfigOperation.Tells (op : ConfigOperation) : ConfigCompletion → Option ConfigReply → Prop
  | failed {f} : f.error ≠ 0 → Tells op (.finished f) (exceptionOf op.what f)
  | completed {f} : f.error = 0 →
      Tells op (.finished f) (if validUtf8 f.text then some .completed else none)
  | failedActivation {f result} : f.error ≠ 0 →
      Tells op (.activated f result) (exceptionOf op.what f)
  | activated {f result} : f.error = 0 →
      Tells op (.activated f result) (some (.activated (result = some true)))
  | values {postedNs all} {values : List (Bytes × Object)} :
      values.Perm (all.entries.map fun e => (e.1, e.2.shown)) →
      Tells op (.values postedNs all)
        (some (.reply (.value (.map (values.map fun e => (.string e.1, e.2))))))

def configService (less : Less) : Service ConfigCall ConfigRequest ConfigCompletion
    (CallOutcome ConfigReply) where
  Suits request f := request.Suits less f
  Tells c f o := ∃ r, c.operation.Tells f r ∧ o = r.map .answered

section Requests

variable {config : Bool} {request : ConfigRequest}

theorem fdbRcInit_ok {app created : Bool} (h : fdbRcInit config app created = .ok request) :
    request = .ensureInitialized := by
  unfold fdbRcInit at h
  split at h
  · cases h
  · split at h
    · cases h
    · cases h
      rfl

theorem fdbRcSetDefaults_ok {less : Less} {cbor : Bytes}
    (h : fdbRcSetDefaults config less cbor = .ok request) :
    ∃ defaults, request = .setDefaults defaults := by
  unfold fdbRcSetDefaults at h
  split at h
  · cases h
  · split at h
    · cases h
      exact ⟨_, rfl⟩
    · cases h

theorem fdbRcOn_ok {asked : ConfigRequest} (h : fdbRcOn config asked = .ok request) :
    request = asked := by
  unfold fdbRcOn at h
  split at h
  · cases h
  · cases h
    rfl

theorem fdbRcSetSettings_ok {timeout interval : Int64}
    (h : fdbRcSetSettings config timeout interval = .ok request) :
    ∃ a b, request = .setConfigSettings a b := by
  unfold fdbRcSetSettings at h
  split at h
  · cases h
  · split at h
    · cases h
    · cases h
      exact ⟨_, _, rfl⟩

end Requests

section Written

variable {less : Less}

/-- The entries of a std::map are all copied, and to the order of the values. -/
theorem texts_emplaced (hless : OrdersTexts less) {es : List (Bytes × Variant)} {out : VariantMap}
    (hd : (es.map Prod.fst).Nodup) (hnul : ∀ e ∈ es, (0 : UInt8) ∉ e.1) (hkeys : TextKeys out)
    (hfresh : ∀ e ∈ es, ∀ f ∈ out, f.1 ≠ .string e.1) (hasc : Ascending less out) :
    (es.foldl (fun out e => emplace less out (.string e.1) e.2) out).Perm
        ((es.map fun e => (.string e.1, e.2)) ++ out) ∧
      Ascending less (es.foldl (fun out e => emplace less out (.string e.1) e.2) out) := by
  induction es generalizing out with
  | nil => exact ⟨.refl _, hasc⟩
  | cons e es ih =>
    obtain ⟨hk, hd⟩ := List.nodup_cons.mp hd
    have hknul := hnul e List.mem_cons_self
    have hperm : (emplace less out (.string e.1) e.2).Perm ((.string e.1, e.2) :: out) := by
      apply emplace_perm
      intro f hf
      obtain ⟨t, ht, htnul⟩ := hkeys f hf
      have hne := hfresh e List.mem_cons_self f hf
      rw [ht] at hne ⊢
      exact hless.total t _ htnul hknul fun heq => hne (heq ▸ rfl)
    have hkeys' : TextKeys (emplace less out (.string e.1) e.2) := by
      intro f hf
      rcases emplace_mem hf with hf | rfl
      · exact hkeys f hf
      · exact ⟨_, rfl, hknul⟩
    have hfresh' : ∀ d ∈ es, ∀ f ∈ emplace less out (.string e.1) e.2, f.1 ≠ .string d.1 := by
      intro d hd f hf
      rcases emplace_mem hf with hf | rfl
      · exact hfresh d (List.mem_cons_of_mem _ hd) f hf
      · intro heq
        exact hk (List.mem_map.mpr ⟨d, hd, (Variant.string.inj heq).symm⟩)
    obtain ⟨hall, hallasc⟩ := ih hd (fun d hd => hnul d (List.mem_cons_of_mem _ hd)) hkeys' hfresh'
      (emplace_ascending hless hasc hkeys _ _)
    exact ⟨hall.trans ((hperm.append_left _).trans List.perm_middle), hallasc⟩

variable {all : ConfigMap}

/-- The map that is written, with its entries. -/
theorem Sendable.written (hless : OrdersTexts less) (h : Sendable less all) :
    ∃ map, written less all = .map map ∧
      map.Perm (all.entries.map fun e => (.string e.1, e.2)) ∧ Ascending less map := by
  obtain ⟨hperm, hasc⟩ := @texts_emplaced _ hless _ [] all.distinct
    (fun e he => (h.keys e he).whole) (by simp [TextKeys]) (by simp) List.Pairwise.nil
  rw [List.append_nil] at hperm
  exact ⟨_, rfl, hperm, hasc⟩

/-- An entry that is written is one of the SDK. -/
theorem entry_of {map : VariantMap} (h : map.Perm (all.entries.map fun e => (.string e.1, e.2)))
    {f : Variant × Variant} (hf : f ∈ map) : ∃ e ∈ all.entries, f = (.string e.1, e.2) := by
  obtain ⟨e, he, heq⟩ := List.mem_map.mp (h.mem_iff.mp hf)
  exact ⟨e, he, heq.symm⟩

theorem Sendable.posted (hless : OrdersTexts less) (h : Sendable less all) :
    Posted less (RemoteConfig.written less all) := by
  obtain ⟨map, hmap, hperm, hasc⟩ := h.written hless
  refine ⟨?_, ?_, h.length⟩
  · rw [hmap]
    refine .map ?_ hasc ?_ ?_
    · rw [hperm.length_eq, List.length_map]
      exact h.count
    · intro f hf
      obtain ⟨e, he, rfl⟩ := entry_of hperm hf
      exact ⟨e.1, rfl, (h.keys e he).length⟩
    · intro f hf
      obtain ⟨e, he, rfl⟩ := entry_of hperm hf
      exact (h.values e he).1
  · rw [hmap, itemOf, entriesOf_eq_map]
    refine .map ?_ ?_
    · intro x hx
      obtain ⟨f, hf, rfl⟩ := List.mem_map.mp hx
      obtain ⟨e, he, rfl⟩ := entry_of hperm hf
      rw [keyItem_string, cString_eq_self.mpr (h.keys e he).whole]
      exact .text (h.keys e he).utf8
    · intro x hx
      obtain ⟨f, hf, rfl⟩ := List.mem_map.mp hx
      obtain ⟨e, he, rfl⟩ := entry_of hperm hf
      exact (h.values e he).2

/-- Every value under its key, in the order of the map. -/
theorem Sendable.shown (hless : OrdersTexts less) (h : Sendable less all) :
    ∃ values : List (Bytes × Object), values.Perm (all.entries.map fun e => (e.1, e.2.shown)) ∧
      (RemoteConfig.written less all).shown = .map (values.map fun e => (.string e.1, e.2)) := by
  obtain ⟨map, hmap, hperm, hasc⟩ := h.written hless
  refine ⟨map.map fun e => (keyText e.1, e.2.shown), ?_, ?_⟩
  · have hvalues := hperm.map fun e => (keyText e.1, e.2.shown)
    rw [List.map_map] at hvalues
    exact hvalues
  · rw [hmap, Variant.shown, shownEntries_eq_map, assignAll_shown hasc]
    · intro f hf
      obtain ⟨e, he, rfl⟩ := entry_of hperm hf
      exact ⟨e.1, rfl, (h.keys e he).length⟩
    · intro f hf
      obtain ⟨e, he, rfl⟩ := entry_of hperm hf
      exact (h.keys e he).whole

end Written

section Provided

variable {package : CborPackage} {less : Less} {what : Bytes}

theorem failure_told {f : Finished} {ok : Bool} (hok : ok = false) {next : Int64 → ConfigReply} :
    (fdbPostOutcome ok f.error (f.message.getD [])).map (awaited what next) =
      exceptionOf what f := by
  subst hok
  rw [fdbPostOutcome, exceptionOf, Finished.text]
  split <;> rfl

/-- An operation without a result. -/
theorem finished_told (op : ConfigOperation) (f : Finished) :
    op.Tells (.finished f) (f.post.map (awaited op.what fun _ => .completed)) := by
  by_cases herror : f.error = 0
  · have htold : f.post.map (awaited op.what fun _ => ConfigReply.completed) =
        if validUtf8 f.text then some .completed else none := by
      rw [Finished.post, fdbPostOutcome, decide_eq_true herror, Finished.text]
      split <;> rfl
    rw [htold]
    exact .completed herror
  · rw [Finished.post, failure_told (decide_eq_false herror)]
    exact .failed herror

theorem activated_told (op : ConfigOperation) (f : Finished) (result : Option Bool) :
    op.Tells (.activated f result)
      ((postActivated f result).map (awaited op.what fun code => .activated (code = 1))) := by
  by_cases herror : f.error = 0
  · have htold : (postActivated f result).map (awaited op.what fun code => .activated (code = 1)) =
        some (.activated (result = some true)) := by
      rw [postActivated, if_neg (not_not.mpr herror)]
      by_cases hresult : result = some true
      · subst hresult
        rfl
      · rw [if_neg hresult, decide_eq_false hresult]
        rfl
    rw [htold]
    exact .activated herror
  · rw [postActivated, if_pos herror, failure_told rfl]
    exact .failedActivation herror

/-- Every value comes over under its key. -/
theorem values_told (hp : package.Reads) (hless : OrdersTexts less) (op : ConfigOperation)
    (postedNs : Int64) {all : ConfigMap} (h : Sendable less all) :
    op.Tells (.values postedNs all)
      ((Calls.configValues package (postValues less postedNs all)).toOption.map .reply) := by
  have hposted := h.posted hless
  obtain ⟨values, hvalues, hshown⟩ := h.shown hless
  have hback := (posts_read_back postedNs 1 hposted.length (by decide : ([] : Bytes).length < _)).2.1
  have hpost : postValues less postedNs all =
      fdbPostBuffer postedNs.toUInt64 1 (itemOf (written less all)).bytes := by
    have hserialized : serializeVariantMap less all.entries = _ := hposted.serialized
    rw [postValues, hserialized]
  have hnodup : ((([] : List (Bytes × Object)) ++ values).map Prod.fst).Nodup := by
    have hkeys : (values.map Prod.fst).Perm (all.entries.map Prod.fst) := by
      have hfst := hvalues.map Prod.fst
      rw [List.map_map] at hfst
      exact hfst
    exact hkeys.nodup_iff.mpr all.distinct
  have hreply : Calls.configValues package (postValues less postedNs all) =
      .ok (.value (.map (values.map fun e => (.string e.1, e.2)))) := by
    rw [hpost, Calls.configValues, hback.readsSeq, ok_bind, if_neg (by decide), decodeValues,
      hposted.decoded hp hback, hshown, ok_bind, mapOrEmpty, ok_bind,
      Storage.textKeys_strings package [] hnodup]
    rfl
  rw [hreply]
  exact .values hvalues

theorem start_invoke {c : ConfigCall} {request : ConfigRequest}
    (h : c.start package less = .ok request) : c.invoke package less = .ok (.ok request) := by
  unfold ConfigCall.start at h
  split at h
  · cases h
  · next hinvoke =>
    cases h
    exact hinvoke
  · cases h

theorem outcome_handled {op : ConfigOperation} {answer : OutcomeMessage → ConfigReply}
    (h : ∀ m, op.handle package (.outcome m) = some (answer m)) (m : Option OutcomeMessage) :
    (m.map .outcome).bind (op.handle package) = m.map answer := by
  cases m with
  | none => rfl
  | some m => exact h m

theorem finished_provided {op : ConfigOperation}
    (h : ∀ m, op.handle package (.outcome m) = some (awaited op.what (fun _ => .completed) m))
    (f : Finished) :
    op.Tells (.finished f) ((f.post.map .outcome).bind (op.handle package)) := by
  rw [outcome_handled h]
  exact finished_told op f

theorem activation_provided {op : ConfigOperation}
    (h : ∀ m, op.handle package (.outcome m) =
      some (awaited op.what (fun code => .activated (code = 1)) m))
    (f : Finished) (result : Option Bool) :
    op.Tells (.activated f result)
      (((postActivated f result).map .outcome).bind (op.handle package)) := by
  rw [outcome_handled h]
  exact activated_told op f result

theorem configCalls_provide (hp : package.Reads) (hless : OrdersTexts less) :
    (configCalls package less).Provides (configService less) := by
  intro c request f hstart hsuits
  suffices h : c.operation.Tells f ((request.post less f).bind (c.operation.handle package)) by
    refine ⟨_, h, ?_⟩
    show (request.post less f).bind (fun m => (c.operation.handle package m).map _) = _
    rw [Option.map_bind]
    rfl
  obtain ⟨op, app, config, created⟩ := c
  have hinvoke := start_invoke hstart
  cases op with
  | initRemoteConfig =>
    obtain rfl := fdbRcInit_ok (Except.ok.inj hinvoke)
    cases hsuits
    exact finished_provided (fun _ => rfl) _
  | setConfigDefaults defaults =>
    obtain ⟨cbor, -, hcall⟩ := bind_ok hinvoke
    obtain ⟨defaults, rfl⟩ := fdbRcSetDefaults_ok (Except.ok.inj hcall)
    cases hsuits
    exact finished_provided (fun _ => rfl) _
  | configValues =>
    obtain rfl := fdbRcOn_ok (Except.ok.inj hinvoke)
    cases hsuits with
    | getAll hall => exact values_told hp hless _ _ hall
  | setConfigSettings timeout interval =>
    obtain ⟨a, b, rfl⟩ := fdbRcSetSettings_ok (Except.ok.inj hinvoke)
    cases hsuits
    exact finished_provided (fun _ => rfl) _
  | fetchConfig expiration =>
    obtain rfl := fdbRcOn_ok (Except.ok.inj hinvoke)
    cases hsuits
    exact finished_provided (fun _ => rfl) _
  | activateConfig =>
    obtain rfl := fdbRcOn_ok (Except.ok.inj hinvoke)
    cases hsuits
    exact activation_provided (fun _ => rfl) _ _
  | fetchAndActivateConfig =>
    obtain rfl := fdbRcOn_ok (Except.ok.inj hinvoke)
    cases hsuits
    exact activation_provided (fun _ => rfl) _ _

end Provided

end RemoteConfig
