import FirebaseFfi.Firestore.FfiQuery

namespace Firestore
open Assoc Cbor Dart

/-- A FieldPath of the plugin, as its constructor asserts. -/
structure FieldPath where
  components : List Bytes
  nonempty : components ≠ []
  filled : ∀ c ∈ components, c ≠ []

def dot : UInt8 := 0x2e

/-- `components.join('.')` -/
def FieldPath.name (p : FieldPath) : Bytes := fieldName (.fieldPath p.components)

/-- What the SDK makes of a field name that is given as a string. -/
def sdkPath (name : Bytes) : List Bytes := name.splitOn dot

/-- The components, each split where the SDK splits the name. -/
def FieldPath.parts (p : FieldPath) : List Bytes := p.components.flatMap sdkPath

def FieldPath.Undotted (p : FieldPath) : Prop := ∀ c ∈ p.components, dot ∉ c

/-- What a name denotes in a query. -/
inductive Denoted
  | documentId
  | path (components : List Bytes)
  deriving DecidableEq

def denoted (name : Bytes) : Denoted :=
  match fieldOf name with
  | .documentId => .documentId
  | .path name => .path (sdkPath name)

/-- The data of an update, `{for (final e in data.entries) e.key.components.join('.'): …}`,
on a document, in a batch and in a transaction. -/
def updateData (data : List (FieldPath × PluginValue)) : List (Bytes × Object) :=
  assignAll [] (data.map fun e => (e.1.name, valueToFfi e.2))

/-- What a path denotes: the document id, for the one name that is its own, and else
its parts. -/
def FieldPath.target (p : FieldPath) : Denoted :=
  if p.components = [ascii "__name__"] then .documentId else .path p.parts

section Names

variable {p q : FieldPath}

theorem join_parts : ∀ cs : List Bytes, cs ≠ [] →
    sdkPath ((ascii ".").intercalate cs) = cs.flatMap sdkPath
  | [], h => absurd rfl h
  | [c], _ => by
    rw [List.intercalate_singleton, List.flatMap_singleton]
  | c :: d :: cs, _ => by
    rw [List.intercalate_cons_cons, List.flatMap_cons, ← join_parts (d :: cs) nofun, List.append_assoc]
    exact List.splitOn_append_cons_self _ _

/-- The SDK splits a path's name into its parts. -/
theorem sdkPath_name : sdkPath p.name = p.parts := join_parts p.components p.nonempty

theorem join_sdkPath (name : Bytes) : (ascii ".").intercalate (sdkPath name) = name :=
  List.intercalate_splitOn dot

theorem undotted_parts (h : p.Undotted) : p.parts = p.components := by
  rw [← sdkPath_name]
  exact List.splitOn_intercalate dot h p.nonempty

theorem sdkPath_ne (c : Bytes) : sdkPath c ≠ [] := List.splitOn_ne_nil _ _

/-- Components of one part in all are one component. -/
theorem parts_single {c : Bytes} {cs : List Bytes} (h : cs.flatMap sdkPath = [c]) : cs = [c] := by
  cases cs with
  | nil => cases h
  | cons d rest =>
    rw [List.flatMap_cons] at h
    rcases List.append_eq_singleton_iff.mp h with ⟨hnil, -⟩ | ⟨hd, hrest⟩
    · exact absurd hnil (sdkPath_ne d)
    · cases rest with
      | nil => rw [← join_sdkPath d, hd, List.intercalate_singleton]
      | cons e rest =>
        rw [List.flatMap_cons, List.append_eq_nil_iff] at hrest
        exact absurd hrest.1 (sdkPath_ne e)

/-- The name that is the document id's is the name of one path only. -/
theorem documentId_name : isDocumentId p.name = true ↔ p.components = [ascii "__name__"] := by
  rw [isDocumentId, decide_eq_true_iff]
  constructor
  · intro h
    apply parts_single
    show p.parts = _
    rw [← sdkPath_name, h]
    rfl
  · intro h
    rw [FieldPath.name, fieldName, h, List.intercalate_singleton]

theorem denoted_name : denoted p.name = p.target := by
  unfold denoted fieldOf FieldPath.target
  by_cases h : p.components = [ascii "__name__"]
  · rw [if_pos h, documentId_name.mpr h, if_pos rfl]
  · rw [if_neg h, Bool.eq_false_iff.mpr (mt documentId_name.mp h), if_neg nofun]
    dsimp only
    rw [sdkPath_name]

theorem fieldName_denoted {field : PluginField} (h : field = .fieldPath p.components) :
    denoted (fieldName field) = p.target := by
  rw [h]
  exact denoted_name

theorem target_eq : p.target = q.target ↔ p.parts = q.parts := by
  have hparts : ∀ {r : FieldPath}, r.components = [ascii "__name__"] → r.parts = [ascii "__name__"] := by
    intro r hr
    rw [FieldPath.parts, hr]
    rfl
  unfold FieldPath.target
  constructor
  · intro h
    split at h
    · next hp =>
      split at h
      · next hq => rw [hparts hp, hparts hq]
      · cases h
    · split at h
      · cases h
      · exact Denoted.path.inj h
  · intro h
    have hiff : p.components = [ascii "__name__"] ↔ q.components = [ascii "__name__"] := by
      constructor
      · intro hp
        exact parts_single (h.symm.trans (hparts hp))
      · intro hq
        exact parts_single (h.trans (hparts hq))
    simp only [hiff, h]

end Names

section Updates

/-- Entries whose paths have different parts are all there, under their names. -/
theorem updateData_kept {data : List (FieldPath × PluginValue)}
    (h : (data.map fun e => e.1.parts).Nodup) :
    updateData data = data.map fun e => (e.1.name, valueToFfi e.2) := by
  apply assignAll_new
  rw [List.nil_append, List.map_map]
  refine List.Nodup.of_map sdkPath ?_
  rw [List.map_map]
  have heq : (sdkPath ∘ Prod.fst ∘ fun e : FieldPath × PluginValue => (e.1.name, valueToFfi e.2)) =
      fun e => e.1.parts := funext fun e => sdkPath_name
  rw [heq]
  exact h

end Updates

/-- What the fields of queries and updates come to, when paths are given as dotted
names. -/
structure DottedNames : Prop where
  denotes : ∀ p : FieldPath, denoted p.name = p.target
  same : ∀ p q : FieldPath, denoted p.name = denoted q.name ↔ p.parts = q.parts
  undotted : ∀ p q : FieldPath, p.Undotted → q.Undotted → p.components ≠ q.components →
    denoted p.name ≠ denoted q.name
  itself : ∀ p : FieldPath, p.Undotted → p.components ≠ [ascii "__name__"] →
    denoted p.name = .path p.components
  documentId : ∀ p : FieldPath, denoted p.name = .documentId ↔ p.components = [ascii "__name__"]
  wheres : ∀ q : FfiQuery, List.Forall₂ (fun (c : Condition) (w : Where) =>
    (∀ p : FieldPath, c.field = .fieldPath p.components → denoted w.field = p.target) ∧
      w.op = c.op ∧ w.value = valueToFfi c.value) q.parameters.wheres q.whereClauses
  orders : ∀ q : FfiQuery, List.Forall₂ (fun (o : Order) (w : OrderBy) =>
    (∀ p : FieldPath, o.field = .fieldPath p.components → denoted w.field = p.target) ∧
      w.descending = o.descending) q.parameters.orderBy q.orderClauses
  updates : ∀ data : List (FieldPath × PluginValue), (data.map fun e => e.1.parts).Nodup →
    (updateData data).map (fun e => (sdkPath e.1, e.2)) =
      data.map fun e => (e.1.parts, valueToFfi e.2)

/-- A path is addressed as its components split at their dots, so paths without dots
are told apart, and only the path of the one reserved name is the document id. -/
theorem paths_denoted : DottedNames where
  denotes p := denoted_name
  same p q := by rw [denoted_name, denoted_name, target_eq]
  undotted p q hp hq hne := by
    rw [denoted_name, denoted_name, Ne, target_eq, undotted_parts hp, undotted_parts hq]
    exact hne
  itself p hp hne := by rw [denoted_name, FieldPath.target, if_neg hne, undotted_parts hp]
  documentId p := by
    rw [denoted_name]
    unfold FieldPath.target
    split
    · next h => exact iff_of_true rfl h
    · next h => exact iff_of_false nofun h
  wheres q := by
    rw [FfiQuery.whereClauses, List.forall₂_map_right_iff, List.forall₂_same]
    intro c _
    exact ⟨fun _ => fieldName_denoted, rfl, rfl⟩
  orders q := by
    rw [FfiQuery.orderClauses, List.forall₂_map_right_iff, List.forall₂_same]
    intro o _
    exact ⟨fun _ => fieldName_denoted, rfl⟩
  updates data h := by
    rw [updateData_kept h, List.map_map]
    apply List.map_congr_left
    intro e _
    exact Prod.ext sdkPath_name rfl

/-- One component with a dot, and two without. -/
def oneDotted : FieldPath := ⟨[ascii "a.b"], nofun, by decide⟩

def twoUndotted : FieldPath := ⟨[ascii "a", ascii "b"], nofun, by decide⟩

def reserved : FieldPath := ⟨[ascii "__name__"], nofun, by decide⟩

/-- They are one field, and one entry of an update. -/
theorem paths_confused : oneDotted.components ≠ twoUndotted.components ∧
    denoted oneDotted.name = denoted twoUndotted.name ∧
    updateData [(oneDotted, .int 1), (twoUndotted, .null)] = [(ascii "a.b", .null)] ∧
    denoted reserved.name = .documentId := by
  have hname : oneDotted.name = ascii "a.b" := rfl
  have hname' : twoUndotted.name = ascii "a.b" := rfl
  refine ⟨nofun, ?_, ?_, rfl⟩
  · rw [hname, hname']
  · unfold updateData
    rw [List.map_cons, List.map_cons, hname, hname']
    rfl

end Firestore
