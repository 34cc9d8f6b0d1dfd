/-
  ModelCatalog/Validation/Request.lean
  ====================================
  **Reading a submitted model, and judging it.**

  Every field of a descriptor is surveyed where it stands, in the order of the
  declarations.  What is not given takes its initial value: a field of an object that
  is there, and all fields of an object that is not.  Members without a meaning are
  noted before the fields of their object.
-/
import ModelCatalog.Descriptor.Basic
import ModelCatalog.Validation.Leaf

namespace ModelCatalog.Validation

/-! ### Objects -/

/-- Notes each member whose name is not among the known ones. -/
def noteUnrecognized (known : List String) (members : Json.Members) : Survey Unit :=
  ⟨(), (members.filter fun m => !known.contains m.1).map fun m =>
    ⟨[.key m.1], .unrecognized⟩⟩

/-- A group of fields: an object with the known members, whose fields `read` reads. -/
def group {α : Type} (known : List String) (initial : α) (read : Json.Members → Survey α) :
    Option Json → Survey α
  | none => pure initial
  | some (.object members) => do
    noteUnrecognized known members
    read members
  | some v => .flawed initial (.expected .object v.kind)

/-! ### The environment -/

def environmentEntry : Json → Survey (Option EnvironmentVariable)
  | .object members => do
    noteUnrecognized EnvironmentVariable.keys members
    let key ← field members "key" requiredText
    let value ← field members "value" requiredText
    if key = some "" then
      (Survey.flaw .empty).under (.key "key")
      return none
    else
      return match key, value with
        | some key, some value => some ⟨key, value⟩
        | _, _ => none
  | v => .flawed none (.expected .pair v.kind)

/-- The entries of an environment given as a list, from a position on. -/
def environmentEntries (position : Nat) : List Json → Survey (List EnvironmentVariable)
  | [] => pure []
  | v :: rest => do
    let entry ← (environmentEntry v).under (.index position)
    let entries ← environmentEntries (position + 1) rest
    return entry.toList ++ entries

/-- One member of an environment given as an object: its name is the key. -/
def environmentMember (key : String) : Json → Survey (Option EnvironmentVariable)
  | v =>
    if key.isEmpty then .flawed none .empty
    else
      match v with
      | .string s => pure (some ⟨key, s⟩)
      | v => .flawed none (.expected .string v.kind)

def environmentMembers : List (String × Json) → Survey (List EnvironmentVariable)
  | [] => pure []
  | (key, v) :: rest => do
    let entry ← (environmentMember key v).under (.key key)
    let entries ← environmentMembers rest
    return entry.toList ++ entries

/-- An environment: a list of pairs, or an object with the keys for names. -/
def environment (initial : List EnvironmentVariable) :
    Option Json → Survey (List EnvironmentVariable)
  | none => pure initial
  | some (.array entries) => environmentEntries 0 entries
  | some (.object members) => environmentMembers members
  | some v => .flawed initial (.expected .pairList v.kind)

/-! ### The container -/

def containerImage : Option Json → Survey ContainerImage :=
  let d : ContainerImage := {}
  group ContainerImage.keys d fun members => do
    let baseImage ← field members "baseImage" (text d.baseImage)
    let path ← field members "path" (text d.path)
    let imageType ← field members "type" (text d.imageType)
    return { baseImage, path, imageType }

def containerHealthCheck : Option Json → Survey ContainerHealthCheck :=
  let d : ContainerHealthCheck := {}
  group ContainerHealthCheck.keys d fun members => do
    let command ← field members "command" (texts d.command)
    let interval ← field members "interval" (count d.interval 0)
    let startPeriod ← field members "startPeriod" (count d.startPeriod 0)
    let timeout ← field members "timeout" (count d.timeout 0)
    let retries ← field members "retries" (count d.retries 0)
    return { command, interval, startPeriod, timeout, retries }

def container : Option Json → Survey ContainerConfig :=
  let d : ContainerConfig := {}
  group ContainerConfig.keys d fun members => do
    let image ← field members "image" containerImage
    let sharedMemorySize ← field members "sharedMemorySize" (count d.sharedMemorySize 0)
    let healthCheck ← field members "healthCheckConfig" containerHealthCheck
    let environment ← field members "environment" (environment d.environment)
    return { image, sharedMemorySize, healthCheck, environment }

/-! ### Scaling -/

def scalingMetric : Option Json → Survey ScalingMetric :=
  let d : ScalingMetric := {}
  group ScalingMetric.keys d fun members => do
    let albMetricName ← field members "albMetricName" (text d.albMetricName)
    let targetValue ← field members "targetValue" (number d.targetValue 0)
    let duration ← field members "duration" (count d.duration 0)
    let estimatedInstanceWarmup ←
      field members "estimatedInstanceWarmup" (count d.estimatedInstanceWarmup 0)
    return { albMetricName, targetValue, duration, estimatedInstanceWarmup }

/-- Notes that the bounds of scaling are out of order, at the lower one.  Bounds that
    are themselves at fault are not compared; every place whose path ends in Capacity
    passes for a bound here. -/
def checkCapacityOrder (x : Survey ScalingConfig) : Survey ScalingConfig :=
  let bounds := x.findings.filter fun f => f.location.EndsWith "Capacity"
  let masked := bounds.any fun f => f.fault = .unrecognized
  let faulty := bounds.any fun f => f.fault ≠ .unrecognized
  if !faulty && x.value.maxCapacity < x.value.minCapacity then do
    let config ← x
    (Survey.flaw (.capacityOrder config.maxCapacity masked)).under (.key "minCapacity")
    return config
  else x

/-- The fields of scaling, each on its own. -/
def scalingFields (members : Json.Members) : Survey ScalingConfig := do
  let d : ScalingConfig := {}
  let minCapacity ← field members "minCapacity" (count d.minCapacity 1)
  let maxCapacity ← field members "maxCapacity" (count d.maxCapacity 1)
  let cooldown ← field members "cooldown" (count d.cooldown 1)
  let defaultInstanceWarmup ←
    field members "defaultInstanceWarmup" (count d.defaultInstanceWarmup 0)
  let metric ← field members "metricConfig" scalingMetric
  return { minCapacity, maxCapacity, cooldown, defaultInstanceWarmup, metric }

def scaling : Option Json → Survey ScalingConfig :=
  group ScalingConfig.keys {} fun members => checkCapacityOrder (scalingFields members)

/-! ### The load balancer -/

def balancerHealthCheck : Option Json → Survey BalancerHealthCheck :=
  let d : BalancerHealthCheck := {}
  group BalancerHealthCheck.keys d fun members => do
    let path ← field members "path" (text d.path)
    let interval ← field members "interval" (count d.interval 0)
    let timeout ← field members "timeout" (count d.timeout 0)
    let healthyThresholdCount ←
      field members "healthyThresholdCount" (count d.healthyThresholdCount 0)
    let unhealthyThresholdCount ←
      field members "unhealthyThresholdCount" (count d.unhealthyThresholdCount 0)
    return { path, interval, timeout, healthyThresholdCount, unhealthyThresholdCount }

def balancer : Option Json → Survey BalancerConfig :=
  group BalancerConfig.keys {} fun members => do
    let healthCheck ← field members "healthCheckConfig" balancerHealthCheck
    return { healthCheck }

/-! ### The model -/

def descriptor (members : Json.Members) : Survey Descriptor := do
  let d : Descriptor := {}
  let modelId ← field members "modelId" (identifier d.modelId)
  let modelName ← field members "modelName" (identifier d.modelName)
  let modelUrl ← field members "modelUrl" (text d.modelUrl)
  let streaming ← field members "streaming" (flag d.streaming)
  let modelType ← field members "modelType" named
  let instanceType ← field members "instanceType" (text d.instanceType)
  let inferenceContainer ← field members "inferenceContainer" named
  let container ← field members "containerConfig" container
  let scaling ← field members "autoScalingConfig" scaling
  let balancer ← field members "loadBalancerConfig" balancer
  return {
    modelId, modelName, modelUrl, streaming
    modelType := modelType.getD d.modelType
    instanceType, inferenceContainer, container, scaling, balancer }

def request (members : Json.Members) : Survey ModelRequest := do
  let d : ModelRequest := {}
  let descriptor ← descriptor members
  let lisaHosted ← field members "lisaHostedModel" (flag d.lisaHosted)
  return { descriptor, lisaHosted }

/-- A whole input: an object with the known members, without a status. -/
def root {α : Type} (known : List String) (initial : α) (read : Json.Members → Survey α) :
    Json → Survey α
  | .object members => do
    if Entries.contains members statusKey then
      (Survey.flaw .outputOnly).under (.key statusKey)
    noteUnrecognized (statusKey :: known) members
    read members
  | v => .flawed initial (.expected .object v.kind)

/-! ### Verdicts -/

def surveyRequest (input : Json) : Survey ModelRequest :=
  root ModelRequest.keys {} request input

/-- Surveys an input as a bare descriptor, where the members that only a request has
    mean nothing. -/
def surveyDescriptor (input : Json) : Survey Descriptor :=
  root Descriptor.keys {} descriptor input

/-- The request that an input is, or everything that is wrong with it. -/
def validateRequest (p : Policy) (input : Json) : Verdict ModelRequest :=
  (surveyRequest input).judge p

/-- The descriptor that an input is, or everything that is wrong with it. -/
def validateDescriptor (p : Policy) (input : Json) : Verdict Descriptor :=
  (surveyDescriptor input).judge p

end ModelCatalog.Validation
