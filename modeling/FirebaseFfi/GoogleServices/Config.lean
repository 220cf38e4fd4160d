import FirebaseFfi.Assoc.Assign
import FirebaseFfi.Dart.Value
import FirebaseFfi.Json.RoundTrip

namespace GoogleServices
open Dart Json

section Model

structure GoogleServicesConfig where
  appId : CodeUnits
  apiKey : CodeUnits
  projectId : CodeUnits
  databaseUrl : Option CodeUnits
  storageBucket : Option CodeUnits
  messagingSenderId : Option CodeUnits
  deriving DecidableEq

/-- An exception that a library words has no message here. -/
inductive Thrown
  | formatException (message : Option CodeUnits)
  | fileSystemException (message : Option CodeUnits)
  | typeError
  | argumentError (cause : Thrown)
  deriving DecidableEq

/-- The last two are errors. -/
def Thrown.isException : Thrown → Bool
  | .formatException _ => true
  | .fileSystemException _ => true
  | .typeError => false
  | .argumentError _ => false

abbrev Members := List (CodeUnits × Value)

/-- `from[key]` of the map that the members are assigned to. -/
def get (members : Members) (key : CodeUnits) : Value :=
  (Assoc.last members key).getD .null

variable (source : CodeUnits)

def formatError {α : Type} (message : CodeUnits) : Except Thrown α :=
  .error (.formatException (some (source ++ units ": " ++ message)))

def obj (members : Members) (key : CodeUnits) : Except Thrown Members :=
  match get members key with
  | .object v => .ok v
  | _ => formatError source (units "missing object \"" ++ key ++ units "\"")

def str (members : Members) (key : CodeUnits) : Except Thrown CodeUnits :=
  match get members key with
  | .string (c :: v) => .ok (c :: v)
  | _ => formatError source (units "missing string \"" ++ key ++ units "\"")

/-- `as String?` -/
def asNullableString : Value → Except Thrown (Option CodeUnits)
  | .null => .ok none
  | .string s => .ok (some s)
  | _ => .error .typeError

def jsonDecode (text : CodeUnits) : Except Thrown Value :=
  match decode text with
  | some v => .ok v
  | none => .error (.formatException none)

def asObject : Value → Except Thrown Members
  | .object members => .ok members
  | _ => formatError source (units "expected a JSON object")

def firstClient (decoded : Members) : Except Thrown Members :=
  match get decoded (units "client") with
  | .array [.object client] => .ok client
  | .array [_] => formatError source (units "malformed \"client\" entry")
  | .array (first :: second :: more) =>
    formatError source (units (toString (first :: second :: more).length) ++
      units " clients registered; this loader needs " ++
      units "exactly one to pick without ambiguity")
  | _ => formatError source (units "no \"client\" entries")

def firstKey (client : Members) : Except Thrown Members :=
  match get client (units "api_key") with
  | .array (.object key :: _) => .ok key
  | _ => formatError source (units "no \"api_key\" for the client")

/-- `project_info` and the fields that have to be there. -/
def required (decoded : Members) :
    Except Thrown (Members × CodeUnits × CodeUnits × CodeUnits) := do
  let info ← obj source decoded (units "project_info")
  let client ← firstClient source decoded
  let key ← firstKey source client
  let clientInfo ← obj source client (units "client_info")
  let appId ← str source clientInfo (units "mobilesdk_app_id")
  let apiKey ← str source key (units "current_key")
  let projectId ← str source info (units "project_id")
  return (info, appId, apiKey, projectId)

def databaseUrl : Value → Option CodeUnits
  | .string (c :: v) => some (c :: v)
  | _ => none

/-- The call of the constructor, with its casts. -/
def config (info : Members) (appId apiKey projectId : CodeUnits) :
    Except Thrown GoogleServicesConfig := do
  let storageBucket ← asNullableString (get info (units "storage_bucket"))
  let messagingSenderId ← asNullableString (get info (units "project_number"))
  return ⟨appId, apiKey, projectId, databaseUrl (get info (units "firebase_url")),
    storageBucket, messagingSenderId⟩

def parse (text : CodeUnits) : Except Thrown GoogleServicesConfig := do
  let decoded ← asObject source (← jsonDecode text)
  let (info, appId, apiKey, projectId) ← required source decoded
  config info appId apiKey projectId

/-- What a path names: nothing, a file that cannot be read as text, or a text. -/
abbrev Files := CodeUnits → Option (Option CodeUnits)

def resolvePath (environment path : Option CodeUnits) : CodeUnits :=
  (path <|> environment).getD (units "google-services.json")

def load (files : Files) (environment path : Option CodeUnits) :
    Except Thrown GoogleServicesConfig :=
  match files (resolvePath environment path) with
  | none => .error (.fileSystemException (some (units "no google-services.json")))
  | some none => .error (.fileSystemException none)
  | some (some text) => parse (resolvePath environment path) text

structure FirebaseOptions where
  apiKey : CodeUnits
  appId : CodeUnits
  messagingSenderId : CodeUnits
  projectId : CodeUnits
  databaseURL : Option CodeUnits
  storageBucket : Option CodeUnits

/-- `_optionsFromGoogleServices`. Only exceptions are caught. -/
def optionsFromGoogleServices (files : Files) (environment : Option CodeUnits) :
    Except Thrown FirebaseOptions :=
  match load files environment none with
  | .ok cfg => .ok ⟨cfg.apiKey, cfg.appId, cfg.messagingSenderId.getD [], cfg.projectId,
      cfg.databaseUrl, cfg.storageBucket⟩
  | .error e => .error (if e.isException then .argumentError e else e)

end Model

section Fields

variable {source key : CodeUnits} {members value : Members} {s : CodeUnits}

/-- The function throws nothing but a `FormatException`. -/
def Formats {α : Type} (r : Except Thrown α) : Prop :=
  ∀ e, r = .error e → ∃ message, e = .formatException message

theorem Formats.ok {α : Type} (a : α) : Formats (.ok a) := by
  rintro e ⟨⟩

theorem Formats.error {α : Type} (message : CodeUnits) :
    Formats (formatError source message : Except Thrown α) := by
  rintro e ⟨⟩
  exact ⟨_, rfl⟩

theorem Formats.bind {α β : Type} {r : Except Thrown α} {f : α → Except Thrown β}
    (hr : Formats r) (hf : ∀ a, Formats (f a)) : Formats (r >>= f) := by
  intro e he
  cases r with
  | error e' =>
    obtain rfl := Except.error.inj he
    exact hr e' rfl
  | ok a => exact hf a e he

theorem bind_of_ok {α β : Type} {r : Except Thrown α} {f : α → Except Thrown β} {a : α}
    (h : r = .ok a) : r >>= f = f a := by
  rw [h]
  rfl

theorem obj_formats : Formats (obj source members key) := by
  unfold obj
  split
  · exact .ok _
  · exact .error _

theorem obj_ok : obj source members key = .ok value ↔ get members key = .object value := by
  unfold obj
  cases get members key <;> simp [formatError]

theorem str_formats : Formats (str source members key) := by
  unfold str
  split
  · exact .ok _
  · exact .error _

theorem str_ok : str source members key = .ok s ↔ get members key = .string s ∧ s ≠ [] := by
  unfold str
  cases get members key with
  | string t =>
    cases t with
    | nil =>
      simp [formatError]
    | cons c t =>
      constructor
      · rintro ⟨⟩
        exact ⟨rfl, List.cons_ne_nil c t⟩
      · rintro ⟨⟨⟩, -⟩
        rfl
  | _ => simp [formatError]

theorem asObject_formats {v : Value} : Formats (asObject source v) := by
  cases v with
  | object members => exact .ok members
  | _ => exact .error _

theorem asObject_ok {v : Value} : asObject source v = .ok value ↔ v = .object value := by
  cases v <;> simp [asObject, formatError]

theorem firstClient_formats : Formats (firstClient source members) := by
  unfold firstClient
  split
  · exact .ok _
  all_goals exact .error _

theorem firstClient_ok : firstClient source members = .ok value ↔
    get members (units "client") = .array [.object value] := by
  unfold firstClient
  split
  · rename_i h
    simp [h]
  · rename_i h
    simp_all [formatError]
  · rename_i h
    simp [formatError, h]
  · rename_i h _ _
    constructor
    · rintro ⟨⟩
    · intro hclient
      exact absurd hclient (h value)

theorem firstKey_formats : Formats (firstKey source members) := by
  unfold firstKey
  split
  · exact .ok _
  · exact .error _

theorem firstKey_ok : firstKey source members = .ok value ↔
    ∃ more, get members (units "api_key") = .array (.object value :: more) := by
  unfold firstKey
  split
  · rename_i h
    simp [h]
  · rename_i h
    constructor
    · rintro ⟨⟩
    · rintro ⟨more, hkey⟩
      exact absurd hkey (h value more)

end Fields

section Parse

variable {source text : CodeUnits} {decoded info : Members} {appId apiKey projectId : CodeUnits}

/-- What a document has to say, by its single client. -/
structure Required (decoded info : Members) (appId apiKey projectId : CodeUnits) : Prop where
  projectInfo : get decoded (units "project_info") = .object info
  client : ∃ client clientInfo key more,
    get decoded (units "client") = .array [.object client] ∧
    get client (units "client_info") = .object clientInfo ∧
    get clientInfo (units "mobilesdk_app_id") = .string appId ∧
    get client (units "api_key") = .array (.object key :: more) ∧
    get key (units "current_key") = .string apiKey
  project : get info (units "project_id") = .string projectId
  nonempty : appId ≠ [] ∧ apiKey ≠ [] ∧ projectId ≠ []

theorem required_formats : Formats (required source decoded) := by
  refine obj_formats.bind fun info => ?_
  refine firstClient_formats.bind fun client => ?_
  refine firstKey_formats.bind fun key => ?_
  refine obj_formats.bind fun clientInfo => ?_
  refine str_formats.bind fun appId => ?_
  refine str_formats.bind fun apiKey => ?_
  exact str_formats.bind fun projectId => .ok _

theorem required_ok : required source decoded = .ok (info, appId, apiKey, projectId) ↔
    Required decoded info appId apiKey projectId := by
  constructor
  · intro h
    obtain ⟨_, hinfo, h⟩ := bind_ok h
    obtain ⟨client, hclient, h⟩ := bind_ok h
    obtain ⟨key, hkey, h⟩ := bind_ok h
    obtain ⟨clientInfo, hclientInfo, h⟩ := bind_ok h
    obtain ⟨_, happId, h⟩ := bind_ok h
    obtain ⟨_, hapiKey, h⟩ := bind_ok h
    obtain ⟨_, hprojectId, h⟩ := bind_ok h
    cases h
    obtain ⟨more, hkey⟩ := firstKey_ok.mp hkey
    obtain ⟨happId, hne⟩ := str_ok.mp happId
    obtain ⟨hapiKey, hne'⟩ := str_ok.mp hapiKey
    obtain ⟨hprojectId, hne''⟩ := str_ok.mp hprojectId
    exact ⟨obj_ok.mp hinfo, ⟨client, clientInfo, key, more, firstClient_ok.mp hclient,
      obj_ok.mp hclientInfo, happId, hkey, hapiKey⟩, hprojectId, hne, hne', hne''⟩
  · rintro ⟨hinfo, ⟨client, clientInfo, key, more, hclient, hclientInfo, happId, hkey, hapiKey⟩,
      hprojectId, hne, hne', hne''⟩
    rw [required, bind_of_ok (obj_ok.mpr hinfo), bind_of_ok (firstClient_ok.mpr hclient),
      bind_of_ok (firstKey_ok.mpr ⟨more, hkey⟩), bind_of_ok (obj_ok.mpr hclientInfo),
      bind_of_ok (str_ok.mpr ⟨happId, hne⟩), bind_of_ok (str_ok.mpr ⟨hapiKey, hne'⟩),
      bind_of_ok (str_ok.mpr ⟨hprojectId, hne''⟩)]
    rfl

/-- A field is the document's string, unless there is none or it is empty. -/
def FieldOf (v : Value) (field : Option CodeUnits) : Prop :=
  (∀ s, field = some s → v = .string s) ∧ ∀ s, v = .string s → s ≠ [] → field = some s

structure Describes (decoded info : Members) (c : GoogleServicesConfig) : Prop where
  required : Required decoded info c.appId c.apiKey c.projectId
  databaseUrl : FieldOf (get info (units "firebase_url")) c.databaseUrl
  storageBucket : FieldOf (get info (units "storage_bucket")) c.storageBucket
  messagingSenderId : FieldOf (get info (units "project_number")) c.messagingSenderId

/-- The document's configuration, or a `FormatException`. -/
def Answered (source text : CodeUnits) : Prop :=
  (∃ c decoded info, parse source text = .ok c ∧ decode text = some (.object decoded) ∧
    Describes decoded info c) ∨
  ∃ message, parse source text = .error (.formatException message)

def IsNullableString (v : Value) : Prop := v = .null ∨ ∃ s, v = .string s

/-- Where a document has all that is required, what it says of the two fields can be cast. -/
def Castable (text : CodeUnits) : Prop :=
  ∀ decoded info appId apiKey projectId, decode text = some (.object decoded) →
    Required decoded info appId apiKey projectId →
    IsNullableString (get info (units "storage_bucket")) ∧
      IsNullableString (get info (units "project_number"))

theorem databaseUrl_fieldOf (v : Value) : FieldOf v (databaseUrl v) := by
  cases v with
  | string s => cases s <;> simp [FieldOf, databaseUrl]
  | _ => simp [FieldOf, databaseUrl]

theorem asNullableString_cases (v : Value) :
    (∃ field, asNullableString v = .ok field ∧ FieldOf v field ∧ IsNullableString v) ∨
      asNullableString v = .error .typeError ∧ ¬IsNullableString v := by
  cases v with
  | null => exact .inl ⟨none, rfl, by simp [FieldOf], .inl rfl⟩
  | string s => exact .inl ⟨some s, rfl, by simp [FieldOf], .inr ⟨s, rfl⟩⟩
  | _ => exact .inr ⟨rfl, by simp [IsNullableString]⟩

/-- Both casts succeed, or one throws what is no exception. -/
theorem config_cases (h : Required decoded info appId apiKey projectId) :
    (∃ c, config info appId apiKey projectId = .ok c ∧ Describes decoded info c ∧
      IsNullableString (get info (units "storage_bucket")) ∧
      IsNullableString (get info (units "project_number"))) ∨
    config info appId apiKey projectId = .error .typeError ∧
      ¬(IsNullableString (get info (units "storage_bucket")) ∧
        IsNullableString (get info (units "project_number"))) := by
  obtain ⟨bucket, hbucket, hfield, hnullable⟩ | ⟨hbucket, hnot⟩ :=
    asNullableString_cases (get info (units "storage_bucket"))
  · obtain ⟨sender, hsender, hfield', hnullable'⟩ | ⟨hsender, hnot⟩ :=
      asNullableString_cases (get info (units "project_number"))
    · refine .inl ⟨⟨appId, apiKey, projectId, databaseUrl (get info (units "firebase_url")),
        bucket, sender⟩, ?_, ⟨h, databaseUrl_fieldOf _, hfield, hfield'⟩, hnullable, hnullable'⟩
      rw [config, bind_of_ok hbucket, bind_of_ok hsender]
      rfl
    · refine .inr ⟨?_, fun hboth => hnot hboth.2⟩
      rw [config, bind_of_ok hbucket, hsender]
      rfl
  · refine .inr ⟨?_, fun hboth => hnot hboth.1⟩
    rw [config, hbucket]
    rfl

theorem parse_of_required (hdecode : decode text = some (.object decoded))
    (h : Required decoded info appId apiKey projectId) :
    parse source text = config info appId apiKey projectId := by
  have hjson : jsonDecode text = .ok (.object decoded) := by rw [jsonDecode, hdecode]
  have hobject : asObject source (.object decoded) = .ok decoded := rfl
  rw [parse, bind_of_ok hjson, bind_of_ok hobject, bind_of_ok (required_ok.mpr h)]

/-- Whatever comes before the casts throws a `FormatException`. -/
theorem parse_cases (source text : CodeUnits) :
    (∃ message, parse source text = .error (.formatException message)) ∨
    ∃ decoded info appId apiKey projectId, decode text = some (.object decoded) ∧
      Required decoded info appId apiKey projectId := by
  cases hdecode : decode text with
  | none =>
    have hjson : jsonDecode text = .error (.formatException none) := by rw [jsonDecode, hdecode]
    exact .inl ⟨none, by rw [parse, hjson]; rfl⟩
  | some v =>
    have hjson : jsonDecode text = .ok v := by rw [jsonDecode, hdecode]
    cases hobject : asObject source v with
    | error e =>
      obtain ⟨message, rfl⟩ := asObject_formats e hobject
      exact .inl ⟨message, by rw [parse, bind_of_ok hjson, hobject]; rfl⟩
    | ok decoded =>
      obtain rfl := asObject_ok.mp hobject
      cases hrequired : required source decoded with
      | error e =>
        obtain ⟨message, rfl⟩ := required_formats e hrequired
        exact .inl ⟨message, by rw [parse, bind_of_ok hjson, bind_of_ok hobject, hrequired]; rfl⟩
      | ok fields =>
        obtain ⟨info, appId, apiKey, projectId⟩ := fields
        exact .inr ⟨decoded, info, appId, apiKey, projectId, rfl, required_ok.mp hrequired⟩

theorem not_answered (h : parse source text = .error .typeError) : ¬Answered source text := by
  rintro (⟨c, _, _, hok, -⟩ | ⟨message, hformat⟩)
  · cases h.symm.trans hok
  · cases h.symm.trans hformat

theorem answered_iff_castable (source text : CodeUnits) :
    Answered source text ↔ Castable text := by
  constructor
  · intro h decoded info appId apiKey projectId hdecode hrequired
    obtain ⟨_, _, _, hnullable⟩ | ⟨herror, -⟩ := config_cases hrequired
    · exact hnullable
    · have hparse : parse source text = .error .typeError :=
        (parse_of_required hdecode hrequired).trans herror
      exact absurd h (not_answered hparse)
  · intro h
    obtain hformat | ⟨decoded, info, appId, apiKey, projectId, hdecode, hrequired⟩ :=
      parse_cases source text
    · exact .inr hformat
    · obtain ⟨c, hok, hdescribes, -⟩ | ⟨-, hnot⟩ := config_cases hrequired
      · exact .inl ⟨c, decoded, info, (parse_of_required hdecode hrequired).trans hok, hdecode,
          hdescribes⟩
      · exact absurd (h decoded info appId apiKey projectId hdecode hrequired) hnot

/-- A document whose project number is written as a number. -/
def numbered : Value :=
  .object [(units "project_info", .object [
      (units "project_number", .number ⟨units "1234", by decide⟩),
      (units "project_id", .string (units "p"))]),
    (units "client", .array [.object [
      (units "client_info", .object [
        (units "mobilesdk_app_id", .string (units "1:1234:android:abcd"))]),
      (units "api_key", .array [.object [
        (units "current_key", .string (units "AIzaTESTKEY"))]])]])]

theorem numbered_not_answered : ¬Answered (units "<memory>") (encode numbered) := by
  have hparse : parse (units "<memory>") (encode numbered) = .error .typeError := by
    rw [parse, jsonDecode, decode_encode]
    rfl
  exact not_answered hparse

theorem parse_error {e : Thrown} (h : parse source text = .error e) :
    (∃ message, e = .formatException message) ∨ e = .typeError ∧ ¬Castable text := by
  obtain ⟨message, hformat⟩ | ⟨decoded, info, appId, apiKey, projectId, hdecode, hrequired⟩ :=
    parse_cases source text
  · exact .inl ⟨message, Except.error.inj (h.symm.trans hformat)⟩
  · rw [parse_of_required hdecode hrequired] at h
    obtain ⟨c, hok, -⟩ | ⟨herror, hnot⟩ := config_cases hrequired
    · cases h.symm.trans hok
    · refine .inr ⟨Except.error.inj (h.symm.trans herror), fun hcast => hnot ?_⟩
      exact hcast decoded info appId apiKey projectId hdecode hrequired

/-- Of every document that can be written, those that make `parse` throw an error. -/
theorem parse_encode_typeError (source : CodeUnits) (v : Value) :
    parse source (encode v) = .error .typeError ↔
      ∃ decoded info appId apiKey projectId, v = .object decoded ∧
        Required decoded info appId apiKey projectId ∧
        ¬(IsNullableString (get info (units "storage_bucket")) ∧
          IsNullableString (get info (units "project_number"))) := by
  constructor
  · intro h
    obtain ⟨message, hformat⟩ | ⟨decoded, info, appId, apiKey, projectId, hdecode, hrequired⟩ :=
      parse_cases source (encode v)
    · cases h.symm.trans hformat
    · refine ⟨decoded, info, appId, apiKey, projectId, ?_, hrequired, ?_⟩
      · exact Option.some.inj ((decode_encode v).symm.trans hdecode)
      · rw [parse_of_required hdecode hrequired] at h
        obtain ⟨c, hok, -⟩ | ⟨-, hnot⟩ := config_cases hrequired
        · cases h.symm.trans hok
        · exact hnot
  · rintro ⟨decoded, info, appId, apiKey, projectId, rfl, hrequired, hnot⟩
    rw [parse_of_required (decode_encode _) hrequired]
    obtain ⟨c, -, -, hboth⟩ | ⟨herror, -⟩ := config_cases hrequired
    · exact absurd hboth hnot
    · exact herror

end Parse

section Options

variable {files : Files} {environment : Option CodeUnits} {e : Thrown}

theorem load_error {path : Option CodeUnits} (h : load files environment path = .error e) :
    e.isException ∨ e = .typeError ∧
      ∃ text, files (resolvePath environment path) = some (some text) ∧ ¬Castable text := by
  unfold load at h
  cases hfile : files (resolvePath environment path) with
  | none =>
    rw [hfile] at h
    cases h
    exact .inl rfl
  | some contents =>
    rw [hfile] at h
    cases contents with
    | none =>
      cases h
      exact .inl rfl
    | some text =>
      obtain ⟨message, rfl⟩ | ⟨htype, hnot⟩ := parse_error h
      · exact .inl rfl
      · exact .inr ⟨htype, text, rfl, hnot⟩

/-- What is not caught is the error of a cast. -/
theorem options_error (h : optionsFromGoogleServices files environment = .error e) :
    (∃ cause, e = .argumentError cause ∧ cause.isException) ∨ e = .typeError ∧
      ∃ text, files (resolvePath environment none) = some (some text) ∧ ¬Castable text := by
  unfold optionsFromGoogleServices at h
  cases hload : load files environment none with
  | ok cfg =>
    rw [hload] at h
    cases h
  | error cause =>
    rw [hload] at h
    obtain hexception | ⟨rfl, htext⟩ := load_error hload
    · obtain rfl := Except.error.inj h
      exact .inl ⟨cause, if_pos hexception, hexception⟩
    · cases h
      exact .inr ⟨rfl, htext⟩

end Options

end GoogleServices
