/-
  ModelCatalog/Schema.lean
  ========================
  **The JSON Schema of a request.**

  The document describes a request with every field in its place: the type of each
  field, the bounds of numbers, the names of alternatives, and the value that a field
  takes when it is not given.  Parts with a name of their own stand under
  `definitions` and are referred to from there.  The initial values are the encodings
  of those of the structures, so the two cannot disagree.
-/
import ModelCatalog.Descriptor.Encoding

namespace ModelCatalog.Schema

/-! ### Building blocks -/

def described (description : String) : Json → Json
  | .object members => .object (Entries.insert "description" (.string description) members)
  | v => v

def reference (name : String) : Json :=
  .object [("$ref", .string ("#/definitions/" ++ name))]

def anyText : Json := .object [("type", .string "string")]

def text (initial : String) : Json :=
  .object [("default", .string initial), ("type", .string "string")]

def flag (initial : Bool) : Json :=
  .object [("default", .bool initial), ("type", .string "boolean")]

def count (initial : UInt32) : Json :=
  .object [
    ("default", .ofCount initial),
    ("format", .string "uint32"),
    ("minimum", .ofDouble Double.zero),
    ("type", .string "integer")]

def double (initial : Double) : Json :=
  .object [
    ("default", .ofDouble initial),
    ("format", .string "double"),
    ("type", .string "number")]

def list (initial items : Json) : Json :=
  .object [("default", initial), ("items", items), ("type", .string "array")]

def part (name : String) (initial : Json) : Json :=
  .object [("allOf", .array [reference name]), ("default", initial)]

def nullablePart (name : String) : Json :=
  .object [("anyOf", .array [reference name, .object [("type", .string "null")]])]

def object (properties : List (String × Json)) : Json :=
  .object [("properties", .ofMembers properties), ("type", .string "object")]

/-- An object with these properties, all of which it must have. -/
def fullObject (properties : List (String × Json)) : Json :=
  .object [
    ("properties", .ofMembers properties),
    ("required", .ofStrings (properties.map Prod.fst)),
    ("type", .string "object")]

def alternatives (α : Type) [Named α] : Json :=
  .object [
    ("enum", .ofStrings ((Named.all : List α).map Named.name)),
    ("type", .string "string")]

/-! ### Definitions -/

def containerImage : Json :=
  let d : ContainerImage := {}
  described "Location of the build artifact for a model's container" <| object [
    ("baseImage", text d.baseImage),
    ("path", text d.path),
    ("type", text d.imageType)]

def containerHealthCheck : Json :=
  let d : ContainerHealthCheck := {}
  described "Container-level liveness check, run by the container runtime" <| object [
    ("command", list (.ofStrings d.command) anyText),
    ("interval", count d.interval),
    ("startPeriod", count d.startPeriod),
    ("timeout", count d.timeout),
    ("retries", count d.retries)]

def environmentVariable : Json :=
  fullObject [("key", anyText), ("value", anyText)]

def container : Json :=
  let d : ContainerConfig := {}
  object [
    ("image", part "ContainerConfigImage" d.image.toJson),
    ("sharedMemorySize", count d.sharedMemorySize),
    ("healthCheckConfig", part "ContainerHealthCheckConfig" d.healthCheck.toJson),
    ("environment", list (.array (d.environment.map EnvironmentVariable.toJson))
      (reference "EnvironmentVariable"))]

def scalingMetric : Json :=
  let d : ScalingMetric := {}
  described "Load-balancer metric driving the scaling policy" <| object [
    ("albMetricName", text d.albMetricName),
    ("targetValue", double d.targetValue),
    ("duration", count d.duration),
    ("estimatedInstanceWarmup", count d.estimatedInstanceWarmup)]

def scaling : Json :=
  let d : ScalingConfig := {}
  object [
    ("minCapacity", count d.minCapacity),
    ("maxCapacity", count d.maxCapacity),
    ("cooldown", count d.cooldown),
    ("defaultInstanceWarmup", count d.defaultInstanceWarmup),
    ("metricConfig", part "MetricConfig" d.metric.toJson)]

def balancerHealthCheck : Json :=
  let d : BalancerHealthCheck := {}
  described
    "Health check the load balancer uses to decide if an instance may take traffic" <|
  object [
    ("path", text d.path),
    ("interval", count d.interval),
    ("timeout", count d.timeout),
    ("healthyThresholdCount", count d.healthyThresholdCount),
    ("unhealthyThresholdCount", count d.unhealthyThresholdCount)]

def balancer : Json :=
  let d : BalancerConfig := {}
  object [("healthCheckConfig", part "LoadBalancerHealthCheckConfig" d.healthCheck.toJson)]

def definitions : List (String × Json) := [
  ("AutoScalingConfig", scaling),
  ("ContainerConfig", container),
  ("ContainerConfigImage", containerImage),
  ("ContainerHealthCheckConfig", containerHealthCheck),
  ("EnvironmentVariable", environmentVariable),
  ("InferenceContainer",
    described "Serving runtime implemented by a model's container image"
      (alternatives InferenceContainer)),
  ("LoadBalancerConfig", balancer),
  ("LoadBalancerHealthCheckConfig", balancerHealthCheck),
  ("MetricConfig", scalingMetric),
  ("ModelType", described "Inference task family of a model" (alternatives ModelType))]

/-! ### The document -/

def requestProperties : List (String × Json) :=
  let d : Descriptor := {}
  let r : ModelRequest := {}
  [ ("modelId", text d.modelId),
    ("modelName", text d.modelName),
    ("modelUrl", text d.modelUrl),
    ("streaming", flag d.streaming),
    ("modelType", part "ModelType" (.ofNamed d.modelType)),
    ("instanceType", text d.instanceType),
    ("inferenceContainer", nullablePart "InferenceContainer"),
    ("containerConfig", part "ContainerConfig" d.container.toJson),
    ("autoScalingConfig", part "AutoScalingConfig" d.scaling.toJson),
    ("loadBalancerConfig", part "LoadBalancerConfig" d.balancer.toJson),
    ("lisaHostedModel",
      described "Distinguishes self-hosted models from externally hosted ones"
        (flag r.lisaHosted))]

def document : Json :=
  .object [
    ("$schema", .string "http://json-schema.org/draft-07/schema#"),
    ("definitions", .object definitions),
    ("description", .string "A descriptor as submitted to the model-management API"),
    ("properties", .ofMembers requestProperties),
    ("title", .string "ModelRequest"),
    ("type", .string "object")]

end ModelCatalog.Schema
