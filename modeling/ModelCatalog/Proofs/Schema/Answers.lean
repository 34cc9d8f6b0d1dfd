/-
  ModelCatalog/Proofs/Schema/Answers.lean
  =======================================
  **Every encoded request fits the published document.**

  One lemma for each structure: its encoding fits the schema that the document has for it.
  The references are resolved in the definitions of the document itself, and the members
  are matched with the properties by name, for the two stand in different orders.
-/
import ModelCatalog.Proofs.Descriptor.Encoding
import ModelCatalog.Proofs.Schema.Conformance

namespace ModelCatalog.Schema

/-! ### The parts of a descriptor -/

theorem fits_containerImage (i : ContainerImage) : Fits definitions containerImage i.toJson := by
  apply Fits.described
  apply Matches.fits_object (by decide)
  exact .cons (fits_text _ i.baseImage) rfl <|
    .cons (fits_text _ i.path) rfl <|
    .cons (fits_text _ i.imageType) rfl .nil

theorem fits_texts (initial : Json) (ss : List String) :
    Fits definitions (list initial anyText) (.ofStrings ss) := by
  apply fits_list
  intro v hv
  obtain ⟨s, -, rfl⟩ := List.mem_map.mp hv
  exact fits_anyText s

theorem fits_containerHealthCheck (h : ContainerHealthCheck) :
    Fits definitions containerHealthCheck h.toJson := by
  apply Fits.described
  apply Matches.fits_object (by decide)
  exact .cons (fits_texts _ h.command) rfl <|
    .cons (fits_count _ h.interval) rfl <|
    .cons (fits_count _ h.retries) rfl <|
    .cons (fits_count _ h.startPeriod) rfl <|
    .cons (fits_count _ h.timeout) rfl .nil

theorem fits_environmentVariable (e : EnvironmentVariable) :
    Fits definitions environmentVariable e.toJson := by
  apply Matches.fits_fullObject (by decide)
  · exact .cons (fits_anyText e.key) rfl <| .cons (fits_anyText e.value) rfl .nil
  · exact fun _ h => h

theorem fits_environment (initial : Json) (es : List EnvironmentVariable) :
    Fits definitions (list initial (reference "EnvironmentVariable"))
      (.array (es.map EnvironmentVariable.toJson)) := by
  apply fits_list
  intro v hv
  obtain ⟨e, -, rfl⟩ := List.mem_map.mp hv
  exact Fits.reference rfl (fits_environmentVariable e)

theorem fits_container (c : ContainerConfig) : Fits definitions container c.toJson := by
  apply Matches.fits_object (by decide)
  exact .cons (fits_environment _ c.environment) rfl <|
    .cons (Fits.part _ rfl (fits_containerHealthCheck c.healthCheck)) rfl <|
    .cons (Fits.part _ rfl (fits_containerImage c.image)) rfl <|
    .cons (fits_count _ c.sharedMemorySize) rfl .nil

/-- Only the target value has to be looked at: what is not finite would be written as a
    null, which is no number. -/
theorem fits_scalingMetric {s : ScalingMetric} (h : s.targetValue.isFinite = true) :
    Fits definitions scalingMetric s.toJson := by
  apply Fits.described
  apply Matches.fits_object (by decide)
  exact .cons (fits_text _ s.albMetricName) rfl <|
    .cons (fits_count _ s.duration) rfl <|
    .cons (fits_count _ s.estimatedInstanceWarmup) rfl <|
    .cons (fits_double _ h) rfl .nil

theorem fits_scaling {s : ScalingConfig} (h : s.metric.targetValue.isFinite = true) :
    Fits definitions scaling s.toJson := by
  apply Matches.fits_object (by decide)
  exact .cons (fits_count _ s.cooldown) rfl <|
    .cons (fits_count _ s.defaultInstanceWarmup) rfl <|
    .cons (fits_count _ s.maxCapacity) rfl <|
    .cons (Fits.part _ rfl (fits_scalingMetric h)) rfl <|
    .cons (fits_count _ s.minCapacity) rfl .nil

theorem fits_balancerHealthCheck (h : BalancerHealthCheck) :
    Fits definitions balancerHealthCheck h.toJson := by
  apply Fits.described
  apply Matches.fits_object (by decide)
  exact .cons (fits_count _ h.healthyThresholdCount) rfl <|
    .cons (fits_count _ h.interval) rfl <|
    .cons (fits_text _ h.path) rfl <|
    .cons (fits_count _ h.timeout) rfl <|
    .cons (fits_count _ h.unhealthyThresholdCount) rfl .nil

theorem fits_balancer (b : BalancerConfig) : Fits definitions balancer b.toJson := by
  apply Matches.fits_object (by decide)
  exact .cons (Fits.part _ rfl (fits_balancerHealthCheck b.healthCheck)) rfl .nil

/-! ### Requests -/

theorem fits_modelType (initial : Json) (t : ModelType) :
    Fits definitions (part "ModelType" initial) (.ofNamed t) := by
  have hall : t ∈ (Named.all : List ModelType) := by cases t <;> decide
  exact Fits.part initial rfl ((fits_alternatives hall).described _)

theorem fits_inferenceContainer (c : InferenceContainer) :
    Fits definitions (nullablePart "InferenceContainer") (.ofNamed c) := by
  have hall : c ∈ (Named.all : List InferenceContainer) := by cases c <;> decide
  exact Fits.nullablePart rfl ((fits_alternatives hall).described _) nofun nofun

/-- **The members of a request are those of the properties of the document.** -/
theorem matches_toMembers {r : ModelRequest}
    (h : r.descriptor.scaling.metric.targetValue.isFinite = true) :
    Matches definitions requestProperties r.toMembers := by
  have hcontainer : Matches definitions requestProperties
      (r.descriptor.inferenceContainer.map fun c =>
        ("inferenceContainer", Json.ofNamed c)).toList := by
    cases r.descriptor.inferenceContainer with
    | none => exact .nil
    | some c => exact .cons (fits_inferenceContainer c) rfl .nil
  rw [r.toMembers_eq]
  refine .append (.append ?_ hcontainer) ?_
  · exact .cons (Fits.part _ rfl (fits_scaling h)) rfl <|
      .cons (Fits.part _ rfl (fits_container r.descriptor.container)) rfl .nil
  · exact .cons (fits_text _ r.descriptor.instanceType) rfl <|
      .cons ((fits_flag _ r.lisaHosted).described _) rfl <|
      .cons (Fits.part _ rfl (fits_balancer r.descriptor.balancer)) rfl <|
      .cons (fits_text _ r.descriptor.modelId) rfl <|
      .cons (fits_text _ r.descriptor.modelName) rfl <|
      .cons (fits_modelType _ r.descriptor.modelType) rfl <|
      .cons (fits_text _ r.descriptor.modelUrl) rfl <|
      .cons (fits_flag _ r.descriptor.streaming) rfl .nil

/-- **A request fits the document.** -/
theorem fits_document {r : ModelRequest}
    (h : r.descriptor.scaling.metric.targetValue.isFinite = true) :
    Fits definitions document r.toJson := by
  have hmatches := matches_toMembers h
  have hnames : (requestProperties.map Prod.fst).Nodup := by decide
  have hremark : ∀ keyword ∈ annotations, ∀ argument,
      Meets definitions keyword argument r.toJson := fun _ hk _ => .remark hk
  constructor
  · refine conforms_object_iff.mpr ?_
    simp only [List.forall_mem_cons, List.not_mem_nil, false_imp_iff, implies_true, and_true]
    exact ⟨hremark _ (by decide) _, hremark _ (by decide) _,
      hremark _ (by decide) _, hmatches.meets_properties hnames,
      hremark _ (by decide) _, .type (.object r.toMembers)⟩
  · exact hmatches.covered hnames (.own rfl)

/-- A double conforms as a number only if it is finite: no other is written as one. -/
theorem isFinite_of_conforms {initial d : Double}
    (h : Conforms definitions (double initial) (.ofDouble d)) : d.isFinite = true := by
  have htype : Meets definitions "type" (.string "number") (.ofDouble d) :=
    conforms_object_iff.mp h ("type", .string "number") (by simp)
  have hnumber : HasType "number" (.ofDouble d) := htype.meaning.type rfl _ rfl
  by_contra hfinite
  rw [Json.ofDouble, if_neg hfinite] at hnumber
  generalize hname : "number" = name at hnumber
  cases hnumber
  simp at hname

/-- **The requests that conform to the document are those with a finite target value**, so
    that every other field may hold whatever it can hold. -/
theorem conforms_document_iff {r : ModelRequest} :
    Conforms definitions document r.toJson ↔
      r.descriptor.scaling.metric.targetValue.isFinite = true := by
  constructor
  · intro h
    have hscaling : Conforms definitions scaling r.descriptor.scaling.toJson :=
      (h.member "autoScalingConfig" rfl (by decide) rfl
        (ModelRequest.get?_toMembers (by decide) rfl)).of_part rfl
    have hmetric : Conforms definitions scalingMetric r.descriptor.scaling.metric.toJson :=
      (hscaling.member "metricConfig" rfl (by decide) rfl rfl).of_part rfl
    have htarget := hmetric.member "targetValue" rfl (by decide) rfl rfl
    exact isFinite_of_conforms htarget
  · intro h
    exact (fits_document h).conforms

end ModelCatalog.Schema
