/-
  ModelCatalog/Proofs/Descriptor/Decoding.lean
  ============================================
  **What is encoded is decoded as it was.**

  The encoding keeps members in the order of their names and the decoding asks for them in
  the order of the declarations, so the two meet name by name (`withDefault_of_get?`).  No
  field is left to its default that the encoding wrote, and the one member that may be
  missing has a default that says so.  A request is read off the members with its names
  alone (`ModelRequest.ofFields?_of_get?`); a record has these among its members.
-/
import ModelCatalog.Descriptor.Decoding
import ModelCatalog.Proofs.Descriptor.Encoding
import ModelCatalog.Proofs.Violation

namespace ModelCatalog

namespace Json

/-! ### Leaves -/

theorem text?_string (s : String) : text? (.string s) = some s := rfl

theorem bool?_bool (b : Bool) : bool? (.bool b) = some b := rfl

theorem count?_ofCount (n : UInt32) : count? (.ofCount n) = some n := by
  have hlt : n.toNat < UInt32.size := n.toNat_lt
  simp [count?, ofCount, ofNat, hlt]

theorem double?_ofDouble {d : Double} (h : d.isFinite = true) :
    double? (.ofDouble d) = some d := by
  rw [ofDouble, if_pos h]
  rfl

theorem named?_modelType (spelling : Spelling) (t : ModelType) :
    named? spelling (.ofNamed t) = some t := by
  cases t <;> rfl

theorem named?_inferenceContainer (spelling : Spelling) (c : InferenceContainer) :
    named? spelling (.ofNamed c) = some c := by
  cases c <;> rfl

theorem named?_status (spelling : Spelling) (status : Status) :
    named? spelling (.ofNamed status) = some status := by
  cases status <;> rfl

namespace Fields

variable {α : Type} {m : Json.Members} {position : Nat} {name : String} {v : Json} {a : α}
  {read : Json → Option α}

/-- A member that is there is read, and its default does not matter. -/
theorem withDefault_of_get? {initial : α} (hget : Entries.get? m name = some v)
    (hread : read v = some a) :
    (Fields.ofObject m).withDefault position name initial read = some a := by
  rw [withDefault, get?, hget]
  exact hread

theorem required_of_get? (hget : Entries.get? m name = some v) (hread : read v = some a) :
    (Fields.ofObject m).required position name read = some a := by
  rw [required, get?, hget]
  exact hread

/-- A value that may be missing is written exactly if it is there. -/
theorem withDefault_of_map {encode : α → Json} {o : Option α}
    (hget : Entries.get? m name = o.map encode)
    (hread : ∀ a, read (encode a) = some a) (hnull : ∀ a, encode a ≠ .null) :
    (Fields.ofObject m).withDefault position name none (optional? read) = some o := by
  rw [withDefault, get?, hget]
  rcases o with _ | a
  · rfl
  · have hvalue : optional? read (encode a) = (read (encode a)).map some := by
      cases h : encode a with
      | null => exact absurd h (hnull a)
      | _ => rfl
    rw [hread] at hvalue
    exact hvalue

end Fields

end Json

open Json (text? text?_string bool?_bool count?_ofCount double?_ofDouble named?_modelType
  named?_inferenceContainer named?_status list?_map)
open Json.Fields (withDefault_of_get? withDefault_of_map required_of_get?)

/-! ### The parts of a descriptor -/

theorem ContainerImage.ofJson?_toJson (i : ContainerImage) : ofJson? i.toJson = some i := rfl

theorem ContainerHealthCheck.ofJson?_toJson (h : ContainerHealthCheck) :
    ofJson? h.toJson = some h := by
  have hcommand : Json.list? text? (.ofStrings h.command) = some h.command :=
    list?_map text?_string h.command
  unfold ofJson? toJson Json.fields?
  dsimp only [Option.bind_eq_bind, Option.bind_some]
  rw [withDefault_of_get? rfl hcommand,
    withDefault_of_get? rfl (count?_ofCount h.interval),
    withDefault_of_get? rfl (count?_ofCount h.startPeriod),
    withDefault_of_get? rfl (count?_ofCount h.timeout),
    withDefault_of_get? rfl (count?_ofCount h.retries)]
  rfl

theorem EnvironmentVariable.ofJson?_toJson (e : EnvironmentVariable) :
    ofJson? e.toJson = some e := rfl

theorem ContainerConfig.ofJson?_toJson (c : ContainerConfig) : ofJson? c.toJson = some c := by
  have henvironment : Json.list? EnvironmentVariable.ofJson?
      (.array (c.environment.map EnvironmentVariable.toJson)) = some c.environment :=
    list?_map EnvironmentVariable.ofJson?_toJson c.environment
  unfold ofJson? toJson Json.fields?
  dsimp only [Option.bind_eq_bind, Option.bind_some]
  rw [withDefault_of_get? rfl c.image.ofJson?_toJson,
    withDefault_of_get? rfl (count?_ofCount c.sharedMemorySize),
    withDefault_of_get? rfl c.healthCheck.ofJson?_toJson,
    withDefault_of_get? rfl henvironment]
  rfl

theorem ScalingMetric.ofJson?_toJson {s : ScalingMetric} (h : s.targetValue.isFinite = true) :
    ofJson? s.toJson = some s := by
  unfold ofJson? toJson Json.fields?
  dsimp only [Option.bind_eq_bind, Option.bind_some]
  rw [withDefault_of_get? rfl (text?_string s.albMetricName),
    withDefault_of_get? rfl (double?_ofDouble h),
    withDefault_of_get? rfl (count?_ofCount s.duration),
    withDefault_of_get? rfl (count?_ofCount s.estimatedInstanceWarmup)]
  rfl

theorem ScalingConfig.ofJson?_toJson {s : ScalingConfig}
    (h : s.metric.targetValue.isFinite = true) : ofJson? s.toJson = some s := by
  unfold ofJson? toJson Json.fields?
  dsimp only [Option.bind_eq_bind, Option.bind_some]
  rw [withDefault_of_get? rfl (count?_ofCount s.minCapacity),
    withDefault_of_get? rfl (count?_ofCount s.maxCapacity),
    withDefault_of_get? rfl (count?_ofCount s.cooldown),
    withDefault_of_get? rfl (count?_ofCount s.defaultInstanceWarmup),
    withDefault_of_get? rfl (ScalingMetric.ofJson?_toJson h)]
  rfl

theorem BalancerHealthCheck.ofJson?_toJson (h : BalancerHealthCheck) :
    ofJson? h.toJson = some h := by
  unfold ofJson? toJson Json.fields?
  dsimp only [Option.bind_eq_bind, Option.bind_some]
  rw [withDefault_of_get? rfl (text?_string h.path),
    withDefault_of_get? rfl (count?_ofCount h.interval),
    withDefault_of_get? rfl (count?_ofCount h.timeout),
    withDefault_of_get? rfl (count?_ofCount h.healthyThresholdCount),
    withDefault_of_get? rfl (count?_ofCount h.unhealthyThresholdCount)]
  rfl

theorem BalancerConfig.ofJson?_toJson (b : BalancerConfig) : ofJson? b.toJson = some b := by
  unfold ofJson? toJson Json.fields?
  dsimp only [Option.bind_eq_bind, Option.bind_some]
  rw [withDefault_of_get? rfl b.healthCheck.ofJson?_toJson]
  rfl

/-! ### Requests and records -/

/-- **A request is read off the members that have its names**, whatever else stands beside
    them. -/
theorem ModelRequest.ofFields?_of_get? {r : ModelRequest} {m : Json.Members}
    (hfinite : r.descriptor.scaling.metric.targetValue.isFinite = true)
    (hm : ∀ name ∈ ModelRequest.keys, Entries.get? m name = Entries.get? r.toMembers name) :
    ofFields? (.ofObject m) = some r := by
  have hcontainer : Entries.get? m "inferenceContainer" =
      r.descriptor.inferenceContainer.map Json.ofNamed :=
    (hm _ (by decide)).trans r.get?_inferenceContainer
  have hget : ∀ {name : String} {v : Json}, name ∈ ModelRequest.keys ∧ name ≠ "inferenceContainer" →
      Entries.get? { r with descriptor.inferenceContainer := none }.toMembers name = some v →
      Entries.get? m name = some v := by
    rintro name v ⟨hkey, hne⟩ h
    exact (hm name hkey).trans (get?_toMembers hne h)
  unfold ofFields? Descriptor.ofFields?
  dsimp only [Option.bind_eq_bind, Option.bind_some]
  rw [withDefault_of_get? (hget (by decide) rfl) (text?_string r.descriptor.modelId),
    withDefault_of_get? (hget (by decide) rfl) (text?_string r.descriptor.modelName),
    withDefault_of_get? (hget (by decide) rfl) (text?_string r.descriptor.modelUrl),
    withDefault_of_get? (hget (by decide) rfl) (bool?_bool r.descriptor.streaming),
    withDefault_of_get? (hget (by decide) rfl) (named?_modelType .merged r.descriptor.modelType),
    withDefault_of_get? (hget (by decide) rfl) (text?_string r.descriptor.instanceType),
    withDefault_of_map hcontainer (named?_inferenceContainer .merged) (fun _ => nofun),
    withDefault_of_get? (hget (by decide) rfl) r.descriptor.container.ofJson?_toJson,
    withDefault_of_get? (hget (by decide) rfl) (ScalingConfig.ofJson?_toJson hfinite),
    withDefault_of_get? (hget (by decide) rfl) r.descriptor.balancer.ofJson?_toJson,
    withDefault_of_get? (hget (by decide) rfl) (bool?_bool r.lisaHosted)]
  rfl

/-- **A request is decoded as it was encoded.** -/
theorem ModelRequest.ofJson?_toJson {r : ModelRequest}
    (hfinite : r.descriptor.scaling.metric.targetValue.isFinite = true) :
    ofJson? r.toJson = some r :=
  ofFields?_of_get? hfinite fun _ _ => rfl

theorem ModelRecord.get?_toMembers (record : ModelRecord) (name : String) :
    Entries.get? record.toMembers name =
      if statusKey = name then some (.ofNamed record.status)
      else Entries.get? record.request.toMembers name :=
  Entries.get?_insert _ _ _ name

/-- **And so is a record.** -/
theorem ModelRecord.ofJson?_toJson {record : ModelRecord}
    (hfinite : record.request.descriptor.scaling.metric.targetValue.isFinite = true) :
    ofJson? record.toJson = some record := by
  have hrequest : ModelRequest.ofFields? (.ofObject record.toMembers) = some record.request := by
    apply ModelRequest.ofFields?_of_get? hfinite
    intro name hname
    rw [record.get?_toMembers, if_neg]
    rintro rfl
    exact absurd hname (by decide)
  have hstatus : Entries.get? record.toMembers statusKey = some (.ofNamed record.status) := by
    rw [record.get?_toMembers, if_pos rfl]
  unfold ofJson? toJson Json.mergedFields?
  dsimp only [Option.bind_eq_bind, Option.bind_some]
  rw [hrequest, required_of_get? hstatus (named?_status .plain record.status)]
  rfl

end ModelCatalog
