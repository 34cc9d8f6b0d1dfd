/-
  ModelCatalog/Descriptor/Decoding.lean
  =====================================
  **Models read back from JSON.**

  The counterpart of the encoding: it takes what the encoding writes, and beside that
  only structures as lists of their fields, members with other names, and settings
  left out, which take their initial values.  It checks no bounds and corrects
  nothing; a submitted model is read by the validation instead.
-/
import ModelCatalog.Descriptor.Basic
import ModelCatalog.Json.Fields

namespace ModelCatalog

open Json (text? bool? count? double? list? optional? named? fields? mergedFields?)

/-! ### The parts of a descriptor -/

def ContainerImage.ofJson? (v : Json) : Option ContainerImage := do
  let d : ContainerImage := {}
  let fields ← fields? 3 v
  let baseImage ← fields.withDefault 0 "baseImage" d.baseImage text?
  let path ← fields.withDefault 1 "path" d.path text?
  let imageType ← fields.withDefault 2 "type" d.imageType text?
  return { baseImage, path, imageType }

def ContainerHealthCheck.ofJson? (v : Json) : Option ContainerHealthCheck := do
  let d : ContainerHealthCheck := {}
  let fields ← fields? 5 v
  let command ← fields.withDefault 0 "command" d.command (list? text?)
  let interval ← fields.withDefault 1 "interval" d.interval count?
  let startPeriod ← fields.withDefault 2 "startPeriod" d.startPeriod count?
  let timeout ← fields.withDefault 3 "timeout" d.timeout count?
  let retries ← fields.withDefault 4 "retries" d.retries count?
  return { command, interval, startPeriod, timeout, retries }

def EnvironmentVariable.ofJson? (v : Json) : Option EnvironmentVariable := do
  let fields ← fields? 2 v
  let key ← fields.required 0 "key" text?
  let value ← fields.required 1 "value" text?
  return { key, value }

def ContainerConfig.ofJson? (v : Json) : Option ContainerConfig := do
  let d : ContainerConfig := {}
  let fields ← fields? 4 v
  let image ← fields.withDefault 0 "image" d.image ContainerImage.ofJson?
  let sharedMemorySize ← fields.withDefault 1 "sharedMemorySize" d.sharedMemorySize count?
  let healthCheck ←
    fields.withDefault 2 "healthCheckConfig" d.healthCheck ContainerHealthCheck.ofJson?
  let environment ←
    fields.withDefault 3 "environment" d.environment (list? EnvironmentVariable.ofJson?)
  return { image, sharedMemorySize, healthCheck, environment }

def ScalingMetric.ofJson? (v : Json) : Option ScalingMetric := do
  let d : ScalingMetric := {}
  let fields ← fields? 4 v
  let albMetricName ← fields.withDefault 0 "albMetricName" d.albMetricName text?
  let targetValue ← fields.withDefault 1 "targetValue" d.targetValue double?
  let duration ← fields.withDefault 2 "duration" d.duration count?
  let estimatedInstanceWarmup ←
    fields.withDefault 3 "estimatedInstanceWarmup" d.estimatedInstanceWarmup count?
  return { albMetricName, targetValue, duration, estimatedInstanceWarmup }

def ScalingConfig.ofJson? (v : Json) : Option ScalingConfig := do
  let d : ScalingConfig := {}
  let fields ← fields? 5 v
  let minCapacity ← fields.withDefault 0 "minCapacity" d.minCapacity count?
  let maxCapacity ← fields.withDefault 1 "maxCapacity" d.maxCapacity count?
  let cooldown ← fields.withDefault 2 "cooldown" d.cooldown count?
  let defaultInstanceWarmup ←
    fields.withDefault 3 "defaultInstanceWarmup" d.defaultInstanceWarmup count?
  let metric ← fields.withDefault 4 "metricConfig" d.metric ScalingMetric.ofJson?
  return { minCapacity, maxCapacity, cooldown, defaultInstanceWarmup, metric }

def BalancerHealthCheck.ofJson? (v : Json) : Option BalancerHealthCheck := do
  let d : BalancerHealthCheck := {}
  let fields ← fields? 5 v
  let path ← fields.withDefault 0 "path" d.path text?
  let interval ← fields.withDefault 1 "interval" d.interval count?
  let timeout ← fields.withDefault 2 "timeout" d.timeout count?
  let healthyThresholdCount ←
    fields.withDefault 3 "healthyThresholdCount" d.healthyThresholdCount count?
  let unhealthyThresholdCount ←
    fields.withDefault 4 "unhealthyThresholdCount" d.unhealthyThresholdCount count?
  return { path, interval, timeout, healthyThresholdCount, unhealthyThresholdCount }

def BalancerConfig.ofJson? (v : Json) : Option BalancerConfig := do
  let d : BalancerConfig := {}
  let fields ← fields? 1 v
  let healthCheck ←
    fields.withDefault 0 "healthCheckConfig" d.healthCheck BalancerHealthCheck.ofJson?
  return { healthCheck }

/-! ### Descriptors, requests and records -/

def Descriptor.ofFields? (spelling : Json.Spelling) (fields : Json.Fields) :
    Option Descriptor := do
  let d : Descriptor := {}
  let modelId ← fields.withDefault 0 "modelId" d.modelId text?
  let modelName ← fields.withDefault 1 "modelName" d.modelName text?
  let modelUrl ← fields.withDefault 2 "modelUrl" d.modelUrl text?
  let streaming ← fields.withDefault 3 "streaming" d.streaming bool?
  let modelType ← fields.withDefault 4 "modelType" d.modelType (named? spelling)
  let instanceType ← fields.withDefault 5 "instanceType" d.instanceType text?
  let inferenceContainer ← fields.withDefault 6 "inferenceContainer" d.inferenceContainer
    (optional? (named? spelling))
  let container ← fields.withDefault 7 "containerConfig" d.container ContainerConfig.ofJson?
  let scaling ← fields.withDefault 8 "autoScalingConfig" d.scaling ScalingConfig.ofJson?
  let balancer ← fields.withDefault 9 "loadBalancerConfig" d.balancer BalancerConfig.ofJson?
  return {
    modelId, modelName, modelUrl, streaming, modelType, instanceType
    inferenceContainer, container, scaling, balancer }

def Descriptor.ofJson? (v : Json) : Option Descriptor :=
  (fields? 10 v).bind (Descriptor.ofFields? .plain)

/-- The request in the fields at hand: its own, with its descriptor merged into
    them. -/
def ModelRequest.ofFields? (fields : Json.Fields) : Option ModelRequest := do
  let d : ModelRequest := {}
  let descriptor ← Descriptor.ofFields? .merged fields
  let lisaHosted ← fields.withDefault 10 "lisaHostedModel" d.lisaHosted bool?
  return { descriptor, lisaHosted }

def ModelRequest.ofJson? (v : Json) : Option ModelRequest :=
  (mergedFields? v).bind ModelRequest.ofFields?

def ModelRecord.ofJson? (v : Json) : Option ModelRecord := do
  let fields ← mergedFields? v
  let request ← ModelRequest.ofFields? fields
  let status ← fields.required 11 statusKey (named? .plain)
  return { request, status }

end ModelCatalog
