/-
  ModelCatalog/Descriptor/Basic.lean
  ==================================
  **What there is to say about a model.**

  A descriptor says how to run one model: what it is, which container serves it, how
  it scales and how its load balancer checks it.  Every field has a value that it
  takes when nothing is given, written beside it; `{}` is the structure in which
  nothing is given.  Beside each structure stands the list of the names that its
  fields have in JSON, in their order: the only members of an object that mean
  anything there.
-/
import ModelCatalog.Descriptor.Names
import ModelCatalog.Number.Double

namespace ModelCatalog

/-! ### The container -/

structure ContainerImage where
  baseImage : String := ""
  path : String := ""
  imageType : String := ""
deriving DecidableEq, Repr, Inhabited

def ContainerImage.keys : List String := ["baseImage", "path", "type"]

structure ContainerHealthCheck where
  command : List String := ["CMD-SHELL", "exit 0"]
  interval : UInt32 := 10
  startPeriod : UInt32 := 30
  timeout : UInt32 := 5
  retries : UInt32 := 2
deriving DecidableEq, Repr

def ContainerHealthCheck.keys : List String :=
  ["command", "interval", "startPeriod", "timeout", "retries"]

structure EnvironmentVariable where
  key : String
  value : String
deriving DecidableEq, Repr

def EnvironmentVariable.keys : List String := ["key", "value"]

structure ContainerConfig where
  image : ContainerImage := {}
  sharedMemorySize : UInt32 := 0
  healthCheck : ContainerHealthCheck := {}
  environment : List EnvironmentVariable := []
deriving DecidableEq, Repr

def ContainerConfig.keys : List String :=
  ["image", "sharedMemorySize", "healthCheckConfig", "environment"]

/-! ### Scaling -/

structure ScalingMetric where
  albMetricName : String := ""
  targetValue : Double := Double.zero
  duration : UInt32 := 60
  estimatedInstanceWarmup : UInt32 := 180
deriving DecidableEq, Repr

def ScalingMetric.keys : List String :=
  ["albMetricName", "targetValue", "duration", "estimatedInstanceWarmup"]

/-- Between which bounds, and how fast, the number of instances follows the load. -/
structure ScalingConfig where
  minCapacity : UInt32 := 1
  maxCapacity : UInt32 := 2
  cooldown : UInt32 := 420
  defaultInstanceWarmup : UInt32 := 180
  metric : ScalingMetric := {}
deriving DecidableEq, Repr

def ScalingConfig.keys : List String :=
  ["minCapacity", "maxCapacity", "cooldown", "defaultInstanceWarmup", "metricConfig"]

/-! ### The load balancer -/

/-- How the load balancer finds out whether an instance may take traffic. -/
structure BalancerHealthCheck where
  path : String := ""
  interval : UInt32 := 60
  timeout : UInt32 := 30
  healthyThresholdCount : UInt32 := 2
  unhealthyThresholdCount : UInt32 := 10
deriving DecidableEq, Repr

def BalancerHealthCheck.keys : List String :=
  ["path", "interval", "timeout", "healthyThresholdCount", "unhealthyThresholdCount"]

structure BalancerConfig where
  healthCheck : BalancerHealthCheck := {}
deriving DecidableEq, Repr

def BalancerConfig.keys : List String := ["healthCheckConfig"]

/-! ### The model -/

/-- The identifier of a model that has been given none: it is not empty, and it
    names nothing. -/
def placeholderIdentifier : String := " "

structure Descriptor where
  modelId : String := placeholderIdentifier
  modelName : String := placeholderIdentifier
  modelUrl : String := ""
  streaming : Bool := false
  modelType : ModelType := .textgen
  instanceType : String := ""
  inferenceContainer : Option InferenceContainer := none
  container : ContainerConfig := {}
  scaling : ScalingConfig := {}
  balancer : BalancerConfig := {}
deriving DecidableEq, Repr

def Descriptor.keys : List String :=
  ["modelId", "modelName", "modelUrl", "streaming", "modelType", "instanceType",
    "inferenceContainer", "containerConfig", "autoScalingConfig", "loadBalancerConfig"]

/-- A descriptor as it is submitted, with the mark of a model hosted here. -/
structure ModelRequest where
  descriptor : Descriptor := {}
  lisaHosted : Bool := false
deriving DecidableEq, Repr

/-- The members that a request has beside those of its descriptor. -/
def ModelRequest.ownKeys : List String := ["lisaHostedModel"]

def ModelRequest.keys : List String := Descriptor.keys ++ ModelRequest.ownKeys

/-- A submitted model and the status last reported for it. -/
structure ModelRecord where
  request : ModelRequest
  status : Status
deriving DecidableEq, Repr

/-- The member that a record has beside those of its request. -/
def statusKey : String := "status"

def ModelRequest.id (r : ModelRequest) : String := r.descriptor.modelId

def ModelRecord.id (r : ModelRecord) : String := r.request.id

/-! ### Sameness -/

/-- A request with its one double set to zero: all of it that is compared bit by
    bit. -/
def ModelRequest.withoutTarget (r : ModelRequest) : ModelRequest :=
  { r with descriptor.scaling.metric.targetValue := Double.zero }

/-- Whether two requests say the same, their target values compared as numbers. -/
def ModelRequest.same (a b : ModelRequest) : Bool :=
  a.withoutTarget == b.withoutTarget &&
    a.descriptor.scaling.metric.targetValue.numEq b.descriptor.scaling.metric.targetValue

end ModelCatalog
