/-
  ModelCatalog/Descriptor/Encoding.lean
  =====================================
  **Models as JSON.**

  Every field is written under its name, and every list of members is in ascending
  order.  Nothing is left out but the inference container of a model that has none.
  A request has the members of its descriptor and its own beside them; a record has
  those of its request and the status.
-/
import ModelCatalog.Descriptor.Basic
import ModelCatalog.Json.Basic

namespace ModelCatalog

/-! ### Leaves -/

def Json.ofCount (n : UInt32) : Json := .ofNat n.toNat

def Json.ofNamed {α : Type} [Named α] (a : α) : Json := .string (Named.name a)

/-! ### The parts of a descriptor -/

def ContainerImage.toJson (i : ContainerImage) : Json :=
  .object [
    ("baseImage", .string i.baseImage),
    ("path", .string i.path),
    ("type", .string i.imageType)]

def ContainerHealthCheck.toJson (h : ContainerHealthCheck) : Json :=
  .object [
    ("command", .ofStrings h.command),
    ("interval", .ofCount h.interval),
    ("retries", .ofCount h.retries),
    ("startPeriod", .ofCount h.startPeriod),
    ("timeout", .ofCount h.timeout)]

def EnvironmentVariable.toJson (v : EnvironmentVariable) : Json :=
  .object [("key", .string v.key), ("value", .string v.value)]

def ContainerConfig.toJson (c : ContainerConfig) : Json :=
  .object [
    ("environment", .array (c.environment.map EnvironmentVariable.toJson)),
    ("healthCheckConfig", c.healthCheck.toJson),
    ("image", c.image.toJson),
    ("sharedMemorySize", .ofCount c.sharedMemorySize)]

def ScalingMetric.toJson (m : ScalingMetric) : Json :=
  .object [
    ("albMetricName", .string m.albMetricName),
    ("duration", .ofCount m.duration),
    ("estimatedInstanceWarmup", .ofCount m.estimatedInstanceWarmup),
    ("targetValue", .ofDouble m.targetValue)]

def ScalingConfig.toJson (s : ScalingConfig) : Json :=
  .object [
    ("cooldown", .ofCount s.cooldown),
    ("defaultInstanceWarmup", .ofCount s.defaultInstanceWarmup),
    ("maxCapacity", .ofCount s.maxCapacity),
    ("metricConfig", s.metric.toJson),
    ("minCapacity", .ofCount s.minCapacity)]

def BalancerHealthCheck.toJson (h : BalancerHealthCheck) : Json :=
  .object [
    ("healthyThresholdCount", .ofCount h.healthyThresholdCount),
    ("interval", .ofCount h.interval),
    ("path", .string h.path),
    ("timeout", .ofCount h.timeout),
    ("unhealthyThresholdCount", .ofCount h.unhealthyThresholdCount)]

def BalancerConfig.toJson (b : BalancerConfig) : Json :=
  .object [("healthCheckConfig", b.healthCheck.toJson)]

/-! ### Descriptors, requests and records -/

def Descriptor.toMembers (d : Descriptor) : Json.Members :=
  [("autoScalingConfig", d.scaling.toJson), ("containerConfig", d.container.toJson)] ++
  (d.inferenceContainer.map fun c => ("inferenceContainer", Json.ofNamed c)).toList ++
  [("instanceType", .string d.instanceType),
    ("loadBalancerConfig", d.balancer.toJson),
    ("modelId", .string d.modelId),
    ("modelName", .string d.modelName),
    ("modelType", .ofNamed d.modelType),
    ("modelUrl", .string d.modelUrl),
    ("streaming", .bool d.streaming)]

def Descriptor.toJson (d : Descriptor) : Json := .object d.toMembers

def ModelRequest.toMembers (r : ModelRequest) : Json.Members :=
  Entries.insert "lisaHostedModel" (.bool r.lisaHosted) r.descriptor.toMembers

def ModelRequest.toJson (r : ModelRequest) : Json := .object r.toMembers

def ModelRecord.toMembers (r : ModelRecord) : Json.Members :=
  Entries.insert statusKey (.ofNamed r.status) r.request.toMembers

def ModelRecord.toJson (r : ModelRecord) : Json := .object r.toMembers

end ModelCatalog
