/-
  ModelCatalog/Proofs/Descriptor/Encoding.lean
  ============================================
  **What is encoded is well formed and flat.**

  Every structure is written with its members in ascending order, so a request and a
  record are well formed, whatever they hold.  Their containers stand at fixed places, no
  more than four of them open at once.  So the text that one of them is written as can
  be read, and is read as it was written but for the target value, which is rounded once
  more (`ModelRecord.read?_render`).
-/
import ModelCatalog.Descriptor.Encoding
import ModelCatalog.Proofs.Json.Reading

namespace ModelCatalog

namespace Json

/-- A value whose text can be read, with no more than so many containers open at once. -/
structure Readable (v : Json) (levels : Nat) : Prop where
  wellFormed : v.WellFormed
  depth_le : v.depth ≤ levels

theorem Readable.read?_render {v : Json} {levels : Nat} (h : v.Readable levels)
    (hlevels : levels ≤ maxDepth) : read? v.render = some v.reread :=
  Json.read?_render h.wellFormed (Nat.le_trans h.depth_le hlevels)

theorem readable_string (s : String) (levels : Nat) : (Json.string s).Readable levels :=
  ⟨trivial, Nat.zero_le levels⟩

theorem readable_bool (b : Bool) (levels : Nat) : (Json.bool b).Readable levels :=
  ⟨trivial, Nat.zero_le levels⟩

theorem readable_ofCount (n : UInt32) (levels : Nat) : (Json.ofCount n).Readable levels := by
  refine ⟨?_, Nat.zero_le levels⟩
  have hlt := n.toNat_lt
  constructor <;> omega

theorem readable_ofDouble (d : Double) (levels : Nat) : (Json.ofDouble d).Readable levels := by
  unfold ofDouble
  split
  · rename_i hfinite
    exact ⟨hfinite, Nat.zero_le levels⟩
  · exact ⟨trivial, Nat.zero_le levels⟩

/-- A list takes one level more than its items. -/
theorem readable_map {α : Type} {encode : α → Json} {levels : Nat}
    (h : ∀ a, (encode a).Readable levels) (as : List α) :
    (Json.array (as.map encode)).Readable (levels + 1) := by
  induction as with
  | nil => exact ⟨trivial, Nat.le_add_left 1 levels⟩
  | cons a as ih =>
    obtain ⟨hwellFormed, hdepth⟩ := ih
    simp only [depth] at hdepth
    refine ⟨⟨(h a).wellFormed, hwellFormed⟩, ?_⟩
    have hhead := (h a).depth_le
    simp only [List.map_cons, depth, itemsDepth]
    omega

/-- An object takes one level more than its members, whose names have to ascend. -/
theorem readable_object {members : Members} {levels : Nat}
    (hnames : Entries.Ascending members) (h : ∀ e ∈ members, e.2.Readable levels) :
    (Json.object members).Readable (levels + 1) := by
  have hmembers : MembersWellFormed members ∧ membersDepth members ≤ levels := by
    clear hnames
    induction members with
    | nil => exact ⟨trivial, Nat.zero_le levels⟩
    | cons e rest ih =>
      obtain ⟨hhead, hrest⟩ := List.forall_mem_cons.mp h
      obtain ⟨hwellFormed, hdepth⟩ := ih hrest
      exact ⟨⟨hhead.wellFormed, hwellFormed⟩, Nat.max_le.mpr ⟨hhead.depth_le, hdepth⟩⟩
  exact ⟨⟨hnames, hmembers.1⟩, Nat.succ_le_succ hmembers.2⟩

theorem Readable.mono {v : Json} {levels levels' : Nat} (h : v.Readable levels)
    (hle : levels ≤ levels') : v.Readable levels' :=
  ⟨h.wellFormed, Nat.le_trans h.depth_le hle⟩

end Json

open Json (readable_string readable_bool readable_ofCount readable_ofDouble readable_map
  readable_object)

/-! ### The parts of a descriptor -/

theorem ContainerImage.readable_toJson (i : ContainerImage) : i.toJson.Readable 1 := by
  apply readable_object
  · apply Entries.Ascending.of_names
    simp only [List.map]
    decide
  · simp [readable_string]

theorem ContainerHealthCheck.readable_toJson (h : ContainerHealthCheck) : h.toJson.Readable 2 := by
  have hcommand : (Json.ofStrings h.command).Readable 1 :=
    readable_map (fun s => readable_string s 0) h.command
  apply readable_object
  · apply Entries.Ascending.of_names
    simp only [List.map]
    decide
  · simp [readable_ofCount, hcommand]

theorem EnvironmentVariable.readable_toJson (e : EnvironmentVariable) : e.toJson.Readable 1 := by
  apply readable_object
  · apply Entries.Ascending.of_names
    simp only [List.map]
    decide
  · simp [readable_string]

theorem ContainerConfig.readable_toJson (c : ContainerConfig) : c.toJson.Readable 3 := by
  have henvironment := readable_map EnvironmentVariable.readable_toJson c.environment
  have himage := c.image.readable_toJson.mono (Nat.le_succ 1)
  apply readable_object
  · apply Entries.Ascending.of_names
    simp only [List.map]
    decide
  · simp [readable_ofCount, henvironment, himage, c.healthCheck.readable_toJson]

theorem ScalingMetric.readable_toJson (s : ScalingMetric) : s.toJson.Readable 1 := by
  apply readable_object
  · apply Entries.Ascending.of_names
    simp only [List.map]
    decide
  · simp [readable_string, readable_ofCount, readable_ofDouble]

theorem ScalingConfig.readable_toJson (s : ScalingConfig) : s.toJson.Readable 2 := by
  apply readable_object
  · apply Entries.Ascending.of_names
    simp only [List.map]
    decide
  · simp [readable_ofCount, s.metric.readable_toJson]

theorem BalancerHealthCheck.readable_toJson (h : BalancerHealthCheck) : h.toJson.Readable 1 := by
  apply readable_object
  · apply Entries.Ascending.of_names
    simp only [List.map]
    decide
  · simp [readable_string, readable_ofCount]

theorem BalancerConfig.readable_toJson (b : BalancerConfig) : b.toJson.Readable 2 := by
  apply readable_object
  · apply Entries.Ascending.of_names
    simp only [List.map]
    decide
  · simp [b.healthCheck.readable_toJson]

/-! ### The members of a request -/

/-- The members of a request, each at its place. -/
theorem ModelRequest.toMembers_eq (r : ModelRequest) : r.toMembers =
    [("autoScalingConfig", r.descriptor.scaling.toJson),
      ("containerConfig", r.descriptor.container.toJson)] ++
    (r.descriptor.inferenceContainer.map fun c => ("inferenceContainer", .ofNamed c)).toList ++
    [("instanceType", .string r.descriptor.instanceType),
      ("lisaHostedModel", .bool r.lisaHosted),
      ("loadBalancerConfig", r.descriptor.balancer.toJson),
      ("modelId", .string r.descriptor.modelId),
      ("modelName", .string r.descriptor.modelName),
      ("modelType", .ofNamed r.descriptor.modelType),
      ("modelUrl", .string r.descriptor.modelUrl),
      ("streaming", .bool r.descriptor.streaming)] := by
  unfold ModelRequest.toMembers Descriptor.toMembers
  cases r.descriptor.inferenceContainer <;> rfl

theorem ModelRequest.get?_inferenceContainer (r : ModelRequest) :
    Entries.get? r.toMembers "inferenceContainer" =
      r.descriptor.inferenceContainer.map Json.ofNamed := by
  rw [toMembers_eq]
  cases r.descriptor.inferenceContainer <;> rfl

/-- Every other member is there whether or not an inference container is. -/
theorem ModelRequest.get?_toMembers {r : ModelRequest} {name : String} {v : Json}
    (hname : name ≠ "inferenceContainer")
    (h : Entries.get? { r with descriptor.inferenceContainer := none }.toMembers name = some v) :
    Entries.get? r.toMembers name = some v := by
  have hbeq : (name == "inferenceContainer") = false := beq_eq_false_iff_ne.mpr hname
  rw [toMembers_eq] at h ⊢
  cases r.descriptor.inferenceContainer with
  | none => exact h
  | some c => simpa [Entries.get?, List.lookup_append, List.lookup_cons, hbeq] using h

/-! ### Descriptors, requests and records -/

/-- A request is written without a status. -/
theorem ModelRequest.get?_status (r : ModelRequest) :
    Entries.get? r.toMembers statusKey = none := by
  rw [r.toMembers_eq]
  cases r.descriptor.inferenceContainer <;> rfl

theorem Descriptor.ascending_toMembers (d : Descriptor) : Entries.Ascending d.toMembers := by
  apply Entries.Ascending.of_names
  simp only [toMembers, List.map_append, List.map]
  cases d.inferenceContainer with
  | none => simp only [Option.map_none, Option.toList_none, List.map]; decide
  | some c => simp only [Option.map_some, Option.toList_some, List.map]; decide

theorem Descriptor.readable_of_mem (d : Descriptor) : ∀ e ∈ d.toMembers, e.2.Readable 3 := by
  have hscaling := d.scaling.readable_toJson.mono (Nat.le_succ 2)
  have hbalancer := d.balancer.readable_toJson.mono (Nat.le_succ 2)
  unfold toMembers
  cases d.inferenceContainer <;>
    simp [Json.ofNamed, readable_string, readable_bool, hscaling, hbalancer,
      d.container.readable_toJson]

theorem ModelRequest.readable_of_mem (r : ModelRequest) : ∀ e ∈ r.toMembers, e.2.Readable 3 := by
  intro e he
  rcases Entries.mem_insert he with rfl | he
  · exact readable_bool _ 3
  · exact r.descriptor.readable_of_mem e he

theorem ModelRequest.ascending_toMembers (r : ModelRequest) : Entries.Ascending r.toMembers :=
  r.descriptor.ascending_toMembers.insert _ _

theorem ModelRequest.readable_toJson (r : ModelRequest) : r.toJson.Readable 4 :=
  readable_object r.ascending_toMembers r.readable_of_mem

theorem ModelRecord.readable_toJson (record : ModelRecord) : record.toJson.Readable 4 := by
  apply readable_object
  · exact record.request.ascending_toMembers.insert _ _
  · intro e he
    rcases Entries.mem_insert he with rfl | he
    · exact readable_string _ 3
    · exact record.request.readable_of_mem e he

/-! ### Texts -/

/-- A list is read back as it was written if its items are. -/
theorem Json.reread_map {α : Type} {encode : α → Json} (h : ∀ a, (encode a).reread = encode a)
    (as : List α) : (Json.array (as.map encode)).reread = .array (as.map encode) := by
  rw [reread, rereadItems_eq_map, List.map_map]
  exact congrArg Json.array (List.map_congr_left fun a _ => h a)

theorem Json.rereadMembers_insert (name : String) (v : Json) (members : Json.Members) :
    rereadMembers (Entries.insert name v members) =
      Entries.insert name v.reread (rereadMembers members) := by
  induction members with
  | nil => rfl
  | cons e rest ih =>
    simp only [Entries.insert, rereadMembers]
    split_ifs
    · rfl
    · rfl
    · rw [rereadMembers, ih]

theorem ContainerConfig.reread_toJson (c : ContainerConfig) : c.toJson.reread = c.toJson := by
  have hcommand (ss : List String) : (Json.ofStrings ss).reread = .ofStrings ss :=
    Json.reread_map (fun _ => rfl) ss
  have henvironment (vars : List EnvironmentVariable) :
      (Json.array (vars.map EnvironmentVariable.toJson)).reread =
        .array (vars.map EnvironmentVariable.toJson) :=
    Json.reread_map (fun _ => rfl) vars
  rw [toJson, Json.reread, Json.rereadMembers, henvironment]
  simp only [ContainerHealthCheck.toJson, Json.reread, Json.rereadMembers, hcommand]
  rfl

/-- A request as it is read when its text is: the target value is rounded once more. -/
def ModelRequest.reread (r : ModelRequest) : ModelRequest :=
  { r with descriptor.scaling.metric.targetValue := r.descriptor.scaling.metric.targetValue.reread }

def ModelRecord.reread (record : ModelRecord) : ModelRecord :=
  { record with request := record.request.reread }

theorem Json.reread_ofDouble {d : Double} (hfinite : d.isFinite = true) :
    (Json.ofDouble d).reread = .ofDouble d.reread := by
  rw [ofDouble, ofDouble, if_pos hfinite, if_pos (Double.isFinite_reread hfinite)]
  rfl

theorem ModelRequest.rereadMembers_toMembers {r : ModelRequest}
    (hfinite : r.descriptor.scaling.metric.targetValue.isFinite = true) :
    Json.rereadMembers r.toMembers = r.reread.toMembers := by
  have hscaling : r.descriptor.scaling.toJson.reread = r.reread.descriptor.scaling.toJson := by
    simp only [ScalingConfig.toJson, ScalingMetric.toJson, Json.reread, Json.rereadMembers,
      Json.reread_ofDouble hfinite]
    rfl
  have hcontainer := r.descriptor.container.reread_toJson
  rw [toMembers_eq, toMembers_eq, Json.rereadMembers_eq_map, List.map_append, List.map_append]
  simp only [List.map_cons, List.map_nil, hscaling, hcontainer]
  have hsame : r.reread.descriptor.inferenceContainer = r.descriptor.inferenceContainer := rfl
  rw [hsame]
  cases r.descriptor.inferenceContainer <;> rfl

theorem ModelRequest.reread_toJson {r : ModelRequest}
    (hfinite : r.descriptor.scaling.metric.targetValue.isFinite = true) :
    r.toJson.reread = r.reread.toJson :=
  congrArg Json.object (rereadMembers_toMembers hfinite)

theorem ModelRecord.reread_toJson {record : ModelRecord}
    (hfinite : record.request.descriptor.scaling.metric.targetValue.isFinite = true) :
    record.toJson.reread = record.reread.toJson := by
  have hmembers := ModelRequest.rereadMembers_toMembers hfinite
  refine congrArg Json.object ?_
  rw [toMembers, Json.rereadMembers_insert, hmembers]
  rfl

/-- **What the text of a request is read as**, -/
theorem ModelRequest.read?_render {r : ModelRequest}
    (hfinite : r.descriptor.scaling.metric.targetValue.isFinite = true) :
    Json.read? r.toJson.render = some r.reread.toJson := by
  rw [r.readable_toJson.read?_render (by decide), reread_toJson hfinite]

/-- **and that of a record.** -/
theorem ModelRecord.read?_render {record : ModelRecord}
    (hfinite : record.request.descriptor.scaling.metric.targetValue.isFinite = true) :
    Json.read? record.toJson.render = some record.reread.toJson := by
  rw [record.readable_toJson.read?_render (by decide), reread_toJson hfinite]

end ModelCatalog
