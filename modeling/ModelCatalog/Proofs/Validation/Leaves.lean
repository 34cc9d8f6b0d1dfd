/-
  ModelCatalog/Proofs/Validation/Leaves.lean
  ==========================================
  **A request as its leaves, each at its path.**

  A leaf is a field that holds no fields of its own; the command and the environment are
  leaves as a whole.  The paths of the leaves are the same for every request, and each is
  the path of one leaf (`ModelRequest.paths_leaves`, `ModelRequest.nodup_paths`), and a
  request is all of its leaves (`ModelRequest.leaves_injective`).  They are the paths at
  which the leaves are written (`ModelRequest.written_toJson`).
-/
import ModelCatalog.Proofs.Entries
import ModelCatalog.Proofs.Validation.Resubmission

namespace ModelCatalog

/-! ### Leaves -/

/-- What a leaf holds. -/
inductive LeafValue where
  | text (s : String)
  | flag (b : Bool)
  | modelType (t : ModelType)
  | inferenceContainer (c : Option InferenceContainer)
  | texts (ss : List String)
  | count (n : UInt32)
  | number (x : Double)
  | environment (vars : List EnvironmentVariable)
deriving DecidableEq

/-- Leaves, each with the names of the members on its path. -/
abbrev Leaves := List (List String × LeafValue)

/-- Moves leaves one step further from the root. -/
def Leaves.under (name : String) (ls : Leaves) : Leaves :=
  ls.map fun l => (name :: l.1, l.2)

def ContainerImage.leaves (i : ContainerImage) : Leaves := [
  (["baseImage"], .text i.baseImage),
  (["path"], .text i.path),
  (["type"], .text i.imageType)]

def ContainerHealthCheck.leaves (h : ContainerHealthCheck) : Leaves := [
  (["command"], .texts h.command),
  (["interval"], .count h.interval),
  (["startPeriod"], .count h.startPeriod),
  (["timeout"], .count h.timeout),
  (["retries"], .count h.retries)]

def ContainerConfig.leaves (c : ContainerConfig) : Leaves :=
  c.image.leaves.under "image" ++
  c.healthCheck.leaves.under "healthCheckConfig" ++ [
    (["sharedMemorySize"], .count c.sharedMemorySize),
    (["environment"], .environment c.environment)]

def ScalingMetric.leaves (m : ScalingMetric) : Leaves := [
  (["albMetricName"], .text m.albMetricName),
  (["targetValue"], .number m.targetValue),
  (["duration"], .count m.duration),
  (["estimatedInstanceWarmup"], .count m.estimatedInstanceWarmup)]

def ScalingConfig.leaves (s : ScalingConfig) : Leaves :=
  s.metric.leaves.under "metricConfig" ++ [
    (["minCapacity"], .count s.minCapacity),
    (["maxCapacity"], .count s.maxCapacity),
    (["cooldown"], .count s.cooldown),
    (["defaultInstanceWarmup"], .count s.defaultInstanceWarmup)]

def BalancerHealthCheck.leaves (h : BalancerHealthCheck) : Leaves := [
  (["path"], .text h.path),
  (["interval"], .count h.interval),
  (["timeout"], .count h.timeout),
  (["healthyThresholdCount"], .count h.healthyThresholdCount),
  (["unhealthyThresholdCount"], .count h.unhealthyThresholdCount)]

def BalancerConfig.leaves (b : BalancerConfig) : Leaves :=
  b.healthCheck.leaves.under "healthCheckConfig"

def Descriptor.leaves (d : Descriptor) : Leaves :=
  d.container.leaves.under "containerConfig" ++
  d.scaling.leaves.under "autoScalingConfig" ++
  d.balancer.leaves.under "loadBalancerConfig" ++ [
    (["modelId"], .text d.modelId),
    (["modelName"], .text d.modelName),
    (["modelUrl"], .text d.modelUrl),
    (["streaming"], .flag d.streaming),
    (["modelType"], .modelType d.modelType),
    (["instanceType"], .text d.instanceType),
    (["inferenceContainer"], .inferenceContainer d.inferenceContainer)]

def ModelRequest.leaves (r : ModelRequest) : Leaves :=
  r.descriptor.leaves ++ [(["lisaHostedModel"], .flag r.lisaHosted)]

/-- The leaf of a request at a path. -/
def ModelRequest.leaf? (r : ModelRequest) (path : List String) : Option LeafValue :=
  r.leaves.lookup path

/-! ### Paths -/

/-- The paths of the leaves of a request. -/
def ModelRequest.paths : List (List String) := ({} : ModelRequest).leaves.map Prod.fst

/-- Every request has its leaves at the same paths. -/
theorem ModelRequest.paths_leaves (r : ModelRequest) : r.leaves.map Prod.fst = paths := rfl

theorem ModelRequest.nodup_paths : paths.Nodup := by decide

/-- No path is that of two leaves. -/
theorem ModelRequest.leaf?_eq_some_iff {r : ModelRequest} {path : List String}
    {value : LeafValue} : r.leaf? path = some value ↔ (path, value) ∈ r.leaves := by
  have hnodup : (r.leaves.map Prod.fst).Nodup := nodup_paths
  exact Entries.lookup_eq_some_iff_of_nodup hnodup

/-- Every request has a leaf at each path. -/
theorem ModelRequest.exists_leaf? (r : ModelRequest) {path : List String} (h : path ∈ paths) :
    ∃ value, r.leaf? path = some value := by
  rw [← r.paths_leaves] at h
  obtain ⟨⟨_, value⟩, hmem, rfl⟩ := List.mem_map.mp h
  exact ⟨value, leaf?_eq_some_iff.mpr hmem⟩

theorem Leaves.under_injective (name : String) : Function.Injective (Leaves.under name) := by
  intro ls ls' h
  refine List.map_injective_iff.mpr ?_ h
  rintro ⟨path, value⟩ ⟨path', value'⟩ heq
  simpa using heq

theorem ContainerImage.leaves_injective : Function.Injective ContainerImage.leaves := by
  rintro ⟨⟩ ⟨⟩ h
  simpa [leaves] using h

theorem ContainerHealthCheck.leaves_injective :
    Function.Injective ContainerHealthCheck.leaves := by
  rintro ⟨⟩ ⟨⟩ h
  simpa [leaves] using h

theorem ContainerConfig.leaves_injective : Function.Injective ContainerConfig.leaves := by
  rintro ⟨image, size, health, env⟩ ⟨image', size', health', env'⟩ h
  obtain ⟨hparts, hown⟩ := List.append_inj h rfl
  obtain ⟨himage, hhealth⟩ := List.append_inj hparts rfl
  obtain rfl := ContainerImage.leaves_injective (Leaves.under_injective _ himage)
  obtain rfl := ContainerHealthCheck.leaves_injective (Leaves.under_injective _ hhealth)
  simpa using hown

theorem ScalingMetric.leaves_injective : Function.Injective ScalingMetric.leaves := by
  rintro ⟨⟩ ⟨⟩ h
  simpa [leaves] using h

theorem ScalingConfig.leaves_injective : Function.Injective ScalingConfig.leaves := by
  rintro ⟨min, max, cooldown, warmup, metric⟩ ⟨min', max', cooldown', warmup', metric'⟩ h
  obtain ⟨hmetric, hown⟩ := List.append_inj h rfl
  obtain rfl := ScalingMetric.leaves_injective (Leaves.under_injective _ hmetric)
  simpa using hown

theorem BalancerHealthCheck.leaves_injective : Function.Injective BalancerHealthCheck.leaves := by
  rintro ⟨⟩ ⟨⟩ h
  simpa [leaves] using h

theorem BalancerConfig.leaves_injective : Function.Injective BalancerConfig.leaves := by
  rintro ⟨health⟩ ⟨health'⟩ h
  obtain rfl := BalancerHealthCheck.leaves_injective (Leaves.under_injective _ h)
  rfl

theorem Descriptor.leaves_injective : Function.Injective Descriptor.leaves := by
  intro d d' h
  obtain ⟨hparts, hown⟩ := List.append_inj h rfl
  obtain ⟨hparts, hbalancer⟩ := List.append_inj hparts rfl
  obtain ⟨hcontainer, hscaling⟩ := List.append_inj hparts rfl
  have hcontainer := ContainerConfig.leaves_injective (Leaves.under_injective _ hcontainer)
  have hscaling := ScalingConfig.leaves_injective (Leaves.under_injective _ hscaling)
  have hbalancer := BalancerConfig.leaves_injective (Leaves.under_injective _ hbalancer)
  cases d
  cases d'
  simp_all

/-- **A request is all of its leaves.** -/
theorem ModelRequest.leaves_injective : Function.Injective ModelRequest.leaves := by
  rintro ⟨d, hosted⟩ ⟨d', hosted'⟩ h
  obtain ⟨hdescriptor, hown⟩ := List.append_inj h rfl
  obtain rfl := Descriptor.leaves_injective hdescriptor
  simpa using hown

namespace Validation

/-! ### What is given at a path -/

/-- What a value gives at a path: every step before the end leads through an object, and
    null gives nothing. -/
def givenAt : Option Json → List String → Option Json
  | v, [] => v
  | some (.object m), name :: path => givenAt (given m name) path
  | _, _ :: _ => none

@[simp] theorem givenAt_none (path : List String) : givenAt none path = none := by
  cases path <;> rfl

@[simp] theorem givenAt_object (m : Json.Members) (name : String) (path : List String) :
    givenAt (some (.object m)) (name :: path) = givenAt (given m name) path := rfl

end Validation

open Validation

/-- A leaf as it is written, if it is written at all. -/
def LeafValue.written : LeafValue → Option Json
  | .text s => some (.string s)
  | .flag b => some (.bool b)
  | .modelType t => some (.ofNamed t)
  | .inferenceContainer c => c.map .ofNamed
  | .texts ss => some (.ofStrings ss)
  | .count n => some (.ofCount n)
  | .number x => if x.isFinite then some (.number (.double x)) else none
  | .environment vars => some (.array (vars.map EnvironmentVariable.toJson))

/-- Leaves are written where their paths lead. -/
def Leaves.WrittenIn (ls : Leaves) (v : Json) : Prop :=
  ∀ l ∈ ls, givenAt (some v) l.1 = l.2.written

namespace Leaves

variable {ls ls' : Leaves} {v : Json}

theorem writtenIn_nil : Leaves.WrittenIn [] v := List.forall_mem_nil _

theorem writtenIn_cons {path : List String} {value : LeafValue} :
    Leaves.WrittenIn ((path, value) :: ls) v ↔
      givenAt (some v) path = value.written ∧ ls.WrittenIn v :=
  List.forall_mem_cons

theorem writtenIn_append : Leaves.WrittenIn (ls ++ ls') v ↔ ls.WrittenIn v ∧ ls'.WrittenIn v :=
  List.forall_mem_append

theorem WrittenIn.under {name : String} {m : Json.Members} (h : ls.WrittenIn v)
    (hgiven : given m name = some v) : (ls.under name).WrittenIn (.object m) := by
  intro l hl
  obtain ⟨l', hl', rfl⟩ := List.mem_map.mp hl
  rw [givenAt_object, hgiven]
  exact h l' hl'

end Leaves

open Leaves

theorem ContainerImage.written_toJson (i : ContainerImage) : i.leaves.WrittenIn i.toJson := by
  simp only [leaves, writtenIn_cons]
  exact ⟨rfl, rfl, rfl, writtenIn_nil⟩

theorem ContainerHealthCheck.written_toJson (h : ContainerHealthCheck) :
    h.leaves.WrittenIn h.toJson := by
  simp only [leaves, writtenIn_cons]
  exact ⟨rfl, rfl, rfl, rfl, rfl, writtenIn_nil⟩

theorem ContainerConfig.written_toJson (c : ContainerConfig) : c.leaves.WrittenIn c.toJson := by
  simp only [leaves, writtenIn_append, writtenIn_cons]
  exact ⟨⟨c.image.written_toJson.under rfl, c.healthCheck.written_toJson.under rfl⟩,
    rfl, rfl, writtenIn_nil⟩

theorem ScalingMetric.written_toJson (m : ScalingMetric) : m.leaves.WrittenIn m.toJson := by
  simp only [leaves, writtenIn_cons]
  refine ⟨rfl, ?_, rfl, rfl, writtenIn_nil⟩
  -- what is not finite is written as null, and null gives nothing
  cases hfinite : m.targetValue.isFinite <;>
    simp only [toJson, Json.ofDouble, LeafValue.written, hfinite] <;> rfl

theorem ScalingConfig.written_toJson (s : ScalingConfig) : s.leaves.WrittenIn s.toJson := by
  simp only [leaves, writtenIn_append, writtenIn_cons]
  exact ⟨s.metric.written_toJson.under rfl, rfl, rfl, rfl, rfl, writtenIn_nil⟩

theorem BalancerHealthCheck.written_toJson (h : BalancerHealthCheck) :
    h.leaves.WrittenIn h.toJson := by
  simp only [leaves, writtenIn_cons]
  exact ⟨rfl, rfl, rfl, rfl, rfl, writtenIn_nil⟩

theorem BalancerConfig.written_toJson (b : BalancerConfig) : b.leaves.WrittenIn b.toJson :=
  b.healthCheck.written_toJson.under rfl

/-- **A leaf is written at its path.** -/
theorem ModelRequest.written_toJson (r : ModelRequest) : r.leaves.WrittenIn r.toJson := by
  have hgiven : ∀ {name v}, name ≠ "inferenceContainer" →
      given { r with descriptor.inferenceContainer := none }.toMembers name = some v →
      given r.toMembers name = some v := fun hname h => given_toMembers hname h
  simp only [leaves, Descriptor.leaves, writtenIn_append, writtenIn_cons]
  refine ⟨⟨⟨⟨r.descriptor.container.written_toJson.under (hgiven (by decide) rfl),
    r.descriptor.scaling.written_toJson.under (hgiven (by decide) rfl)⟩,
    r.descriptor.balancer.written_toJson.under (hgiven (by decide) rfl)⟩,
    hgiven (by decide) rfl, hgiven (by decide) rfl, hgiven (by decide) rfl,
    hgiven (by decide) rfl, hgiven (by decide) rfl, hgiven (by decide) rfl,
    given_inferenceContainer r, writtenIn_nil⟩, hgiven (by decide) rfl, writtenIn_nil⟩

end ModelCatalog
