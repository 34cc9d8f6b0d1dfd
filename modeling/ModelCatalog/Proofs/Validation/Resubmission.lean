/-
  ModelCatalog/Proofs/Validation/Resubmission.lean
  ================================================
  **What is written out is read back.**

  The encoding of a request and the readers of its fields keep their names apart from
  each other, so each reader is held against the encoding that it meets
  (`count_ofCount`, `container_toJson`, `scaling_toJson`).  A valid request comes back as
  it was, whatever the policy.  Only what a policy may hold against a valid request is
  found with it: an identifier or a name that is blank, and bounds that are out of
  order (`surveyRequest_toJson`).
-/
import ModelCatalog.Log
import ModelCatalog.Proofs.Descriptor.Encoding
import ModelCatalog.Proofs.Validation.Soundness

namespace ModelCatalog

namespace Validation

open Survey

/-! ### Members -/

/-- A member that is not null is given. -/
theorem given_eq_some_iff {members : Json.Members} {name : String} {v : Json} :
    given members name = some v ↔ Entries.get? members name = some v ∧ v ≠ .null := by
  unfold given
  rcases members.get? name with _ | x
  · simp
  · cases x <;> simp +contextual [eq_comm]

theorem field_given {α : Type} {members : Json.Members} {name : String} {v : Json}
    (read : Option Json → Survey α) (hgiven : given members name = some v) :
    field members name read = (read (some v)).under (.key name) := by
  rw [field, hgiven]

theorem field_of_given {α : Type} {members : Json.Members} {name : String} {v : Json}
    {read : Option Json → Survey α} {a : α} (hgiven : given members name = some v)
    (hread : read (some v) = pure a) : field members name read = pure a := by
  rw [field_given read hgiven, hread]
  rfl

/-! ### Leaves -/

theorem text_string (initial s : String) : text initial (some (.string s)) = pure s := rfl

theorem requiredText_string (s : String) : requiredText (some (.string s)) = pure (some s) := rfl

theorem flag_bool (initial b : Bool) : flag initial (some (.bool b)) = pure b := rfl

theorem texts_ofStrings (initial ss : List String) :
    texts initial (some (.ofStrings ss)) = pure ss := by
  have hitems : ∀ position, textItems position (ss.map .string) = pure ss := by
    induction ss with
    | nil => exact fun _ => rfl
    | cons s ss ih =>
      intro position
      simp only [List.map_cons, textItems, ih]
      rfl
  exact hitems 0

theorem number_ofDouble {initial d : Double} (hfinite : d.isFinite = true)
    (hnonneg : 0 ≤ d.rank) : number initial 0 (some (.ofDouble d)) = pure d := by
  have hread : double? (.ofDouble d) = some d := by
    rw [Json.ofDouble, if_pos hfinite]
    exact Option.filter_eq_some_iff.mpr ⟨rfl, hfinite⟩
  have hlt : d.lt (.ofNat 0) = false := (Double.lt_zero_eq_false_iff hfinite).mpr hnonneg
  simp only [number, hread, hlt]
  rfl

theorem double?_ofCount (n : UInt32) : double? (.ofCount n) = some (.ofNat n.toNat) := by
  have hfinite : (Double.ofNat n.toNat).isFinite = true :=
    Double.isFinite_ofNat (Nat.lt_trans n.toNat_lt (by decide))
  change (some (Double.ofInt n.toNat)).filter Double.isFinite = _
  rw [Double.ofInt_natCast]
  exact Option.filter_eq_some_iff.mpr ⟨rfl, hfinite⟩

theorem count_of_natural? {initial : UInt32} {least n : Nat} {v : Json} {x : Double}
    (hread : double? v = some x) (hwhole : x.natural? = some n) (hleast : least ≤ n)
    (hsize : n < UInt32.size) : count initial least (some v) = pure (.ofNat n) := by
  have hsmall : least < 2 ^ 53 := Nat.lt_of_le_of_lt hleast (Nat.lt_trans hsize (by decide))
  have hlt : x.lt (.ofNat least) = false := by
    rw [← Bool.not_eq_true, Double.lt_ofNat_iff hwhole hsmall]
    exact Nat.not_lt.mpr hleast
  simp [count, hread, hlt, hwhole, hsize]

/-- **A count survives its way through a double**: 32 bits fit the significand. -/
theorem count_ofCount {initial : UInt32} {least : Nat} {n : UInt32} (h : least ≤ n.toNat) :
    count initial least (some (.ofCount n)) = pure n := by
  have hwhole : (Double.ofNat n.toNat).natural? = some n.toNat :=
    Double.natural?_ofNat (Nat.lt_trans n.toNat_lt (by decide))
  have hcount : count initial least (some (.ofCount n)) = pure (.ofNat n.toNat) :=
    count_of_natural? (double?_ofCount n) hwhole h n.toNat_lt
  rwa [UInt32.ofNat_toNat] at hcount

/-! ### The container -/

theorem containerImage_toJson (i : ContainerImage) : containerImage (some i.toJson) = pure i :=
  rfl

theorem containerHealthCheck_toJson (h : ContainerHealthCheck) :
    containerHealthCheck (some h.toJson) = pure h := by
  unfold containerHealthCheck ContainerHealthCheck.toJson group
  dsimp only
  rw [field_of_given rfl (texts_ofStrings _ h.command),
    field_of_given rfl (count_ofCount (Nat.zero_le h.interval.toNat)),
    field_of_given rfl (count_ofCount (Nat.zero_le h.startPeriod.toNat)),
    field_of_given rfl (count_ofCount (Nat.zero_le h.timeout.toNat)),
    field_of_given rfl (count_ofCount (Nat.zero_le h.retries.toNat))]
  rfl

theorem environmentEntry_toJson {e : EnvironmentVariable} (h : e.key ≠ "") :
    environmentEntry e.toJson = pure (some e) := by
  unfold environmentEntry EnvironmentVariable.toJson
  dsimp only
  rw [field_of_given rfl (requiredText_string e.key),
    field_of_given rfl (requiredText_string e.value)]
  apply Survey.ext
  · simp only [value_bind, value_pure, Option.some.injEq, h, if_false]
  · simp only [findings_bind, value_pure, Option.some.injEq, h, if_false]
    rfl

theorem environmentEntries_toJson {es : List EnvironmentVariable} (h : ∀ e ∈ es, e.key ≠ "")
    (position : Nat) :
    environmentEntries position (es.map EnvironmentVariable.toJson) = pure es := by
  induction es generalizing position with
  | nil => rfl
  | cons e es ih =>
    have he : environmentEntry e.toJson = pure (some e) :=
      environmentEntry_toJson (h e List.mem_cons_self)
    have hes := ih (fun e' he' => h e' (List.mem_cons_of_mem _ he')) (position + 1)
    simp only [List.map_cons, environmentEntries, he, hes]
    rfl

theorem container_toJson {c : ContainerConfig} (h : ∀ e ∈ c.environment, e.key ≠ "") :
    container (some c.toJson) = pure c := by
  have henvironment (initial : List EnvironmentVariable) : environment initial
      (some (.array (c.environment.map EnvironmentVariable.toJson))) = pure c.environment :=
    environmentEntries_toJson h 0
  unfold container ContainerConfig.toJson group
  dsimp only
  rw [field_of_given rfl (containerImage_toJson c.image),
    field_of_given rfl (count_ofCount (Nat.zero_le c.sharedMemorySize.toNat)),
    field_of_given rfl (containerHealthCheck_toJson c.healthCheck),
    field_of_given rfl (henvironment _)]
  rfl

/-! ### Scaling -/

theorem scalingMetric_toJson {s : ScalingMetric} (hfinite : s.targetValue.isFinite = true)
    (hnonneg : 0 ≤ s.targetValue.rank) : scalingMetric (some s.toJson) = pure s := by
  -- only a finite target is written as a number
  have htarget : Json.ofDouble s.targetValue = .number (.double s.targetValue) :=
    if_pos hfinite
  have hread (initial : Double) :
      number initial 0 (some (.number (.double s.targetValue))) = pure s.targetValue := by
    rw [← htarget]
    exact number_ofDouble hfinite hnonneg
  unfold scalingMetric ScalingMetric.toJson group
  dsimp only
  rw [htarget, field_of_given rfl (text_string _ s.albMetricName),
    field_of_given rfl (hread _),
    field_of_given rfl (count_ofCount (Nat.zero_le s.duration.toNat)),
    field_of_given rfl (count_ofCount (Nat.zero_le s.estimatedInstanceWarmup.toNat))]
  rfl

/-- The lower bound above the upper one. -/
def boundFindings (s : ScalingConfig) : List Finding :=
  if s.maxCapacity < s.minCapacity then
    [⟨[.key "minCapacity"], .capacityOrder s.maxCapacity false⟩]
  else []

theorem checkCapacityOrder_pure (s : ScalingConfig) :
    checkCapacityOrder (pure s) = ⟨s, boundFindings s⟩ := by
  apply Survey.ext
  · rw [value_checkCapacityOrder, value_pure]
  · rw [findings_checkCapacityOrder, findings_pure, List.nil_append]
    simp [orderFindings, boundFindings]

theorem scaling_toJson {s : ScalingConfig} (hmin : 1 ≤ s.minCapacity.toNat)
    (hmax : 1 ≤ s.maxCapacity.toNat) (hcooldown : 1 ≤ s.cooldown.toNat)
    (hfinite : s.metric.targetValue.isFinite = true)
    (hnonneg : 0 ≤ s.metric.targetValue.rank) :
    scaling (some s.toJson) = ⟨s, boundFindings s⟩ := by
  have hfields : scalingFields [
      ("cooldown", .ofCount s.cooldown),
      ("defaultInstanceWarmup", .ofCount s.defaultInstanceWarmup),
      ("maxCapacity", .ofCount s.maxCapacity),
      ("metricConfig", s.metric.toJson),
      ("minCapacity", .ofCount s.minCapacity)] = pure s := by
    unfold scalingFields
    dsimp only
    rw [field_of_given rfl (count_ofCount hmin),
      field_of_given rfl (count_ofCount hmax),
      field_of_given rfl (count_ofCount hcooldown),
      field_of_given rfl (count_ofCount (Nat.zero_le s.defaultInstanceWarmup.toNat)),
      field_of_given rfl (scalingMetric_toJson hfinite hnonneg)]
    rfl
  unfold scaling ScalingConfig.toJson group
  dsimp only
  rw [hfields, checkCapacityOrder_pure]
  rfl

/-! ### The load balancer -/

theorem balancerHealthCheck_toJson (h : BalancerHealthCheck) :
    balancerHealthCheck (some h.toJson) = pure h := by
  unfold balancerHealthCheck BalancerHealthCheck.toJson group
  dsimp only
  rw [field_of_given rfl (text_string _ h.path),
    field_of_given rfl (count_ofCount (Nat.zero_le h.interval.toNat)),
    field_of_given rfl (count_ofCount (Nat.zero_le h.timeout.toNat)),
    field_of_given rfl (count_ofCount (Nat.zero_le h.healthyThresholdCount.toNat)),
    field_of_given rfl (count_ofCount (Nat.zero_le h.unhealthyThresholdCount.toNat))]
  rfl

theorem balancer_toJson (b : BalancerConfig) : balancer (some b.toJson) = pure b := by
  unfold balancer BalancerConfig.toJson group
  dsimp only
  rw [field_of_given rfl (balancerHealthCheck_toJson b.healthCheck)]
  rfl

/-! ### The request -/

/-- Nothing but blank characters. -/
def blankFindings (s : String) : List Finding :=
  if Text.isAllBlank s = true then [⟨[], .blank⟩] else []

theorem identifier_string {initial s : String} (h : s ≠ "") :
    identifier initial (some (.string s)) = ⟨s, blankFindings s⟩ := by
  by_cases hblank : Text.isAllBlank s = true
  · simp [identifier, blankFindings, h, hblank, Survey.flawed]
  · simp [identifier, blankFindings, h, hblank]
    rfl

theorem alternative_map_ofNamed {name : String} {members : Json.Members}
    (c : Option InferenceContainer) (h : given members name = c.map Json.ofNamed) :
    field members name named = pure c := by
  rw [field, h]
  cases c with
  | none => rfl
  | some c => cases c <;> rfl

theorem alternative_ofNamed (t : ModelType) : named (some (.ofNamed t)) = pure (some t) := by
  cases t <;> rfl

theorem given_inferenceContainer (r : ModelRequest) :
    given r.toMembers "inferenceContainer" =
      r.descriptor.inferenceContainer.map Json.ofNamed := by
  rw [given, r.get?_inferenceContainer]
  cases r.descriptor.inferenceContainer <;> rfl

/-- Every other member is there whether or not an inference container is. -/
theorem given_toMembers {r : ModelRequest} {name : String} {v : Json}
    (hname : name ≠ "inferenceContainer")
    (h : given { r with descriptor.inferenceContainer := none }.toMembers name = some v) :
    given r.toMembers name = some v := by
  obtain ⟨hget, hnull⟩ := given_eq_some_iff.mp h
  exact given_eq_some_iff.mpr ⟨ModelRequest.get?_toMembers hname hget, hnull⟩

/-- What is found with a valid request that is read back. -/
def remarks (r : ModelRequest) : List Finding :=
  (blankFindings r.descriptor.modelId).map (Finding.under (.key "modelId")) ++
  (blankFindings r.descriptor.modelName).map (Finding.under (.key "modelName")) ++
  (boundFindings r.descriptor.scaling).map (Finding.under (.key "autoScalingConfig"))

theorem request_toMembers {r : ModelRequest} (h : r.Valid) :
    request r.toMembers = ⟨r, remarks r⟩ := by
  unfold request descriptor
  dsimp only
  rw [field_given _ (given_toMembers (by decide) rfl),
    identifier_string h.modelId_ne_empty,
    field_given _ (given_toMembers (by decide) rfl),
    identifier_string h.modelName_ne_empty,
    field_of_given (given_toMembers (by decide) rfl) (text_string _ r.descriptor.modelUrl),
    field_of_given (given_toMembers (by decide) rfl) (flag_bool _ r.descriptor.streaming),
    field_of_given (given_toMembers (by decide) rfl)
      (alternative_ofNamed r.descriptor.modelType),
    field_of_given (given_toMembers (by decide) rfl) (text_string _ r.descriptor.instanceType),
    alternative_map_ofNamed _ (given_inferenceContainer r),
    field_of_given (given_toMembers (by decide) rfl) (container_toJson h.keys_ne_empty),
    field_given _ (given_toMembers (by decide) rfl),
    scaling_toJson h.one_le_minCapacity h.one_le_maxCapacity h.one_le_cooldown
      h.targetValue_finite h.targetValue_nonneg,
    field_of_given (given_toMembers (by decide) rfl) (balancer_toJson r.descriptor.balancer),
    field_of_given (given_toMembers (by decide) rfl) (flag_bool _ r.lisaHosted)]
  apply Survey.ext
  · rfl
  · simp only [remarks, findings_bind, findings_under, findings_pure, List.append_nil,
      List.nil_append, List.append_assoc]

/-- A request is written without a status. -/
theorem contains_status_toMembers (r : ModelRequest) :
    Entries.contains r.toMembers statusKey = false := by
  rw [ModelRequest.toMembers_eq]
  cases r.descriptor.inferenceContainer <;> rfl

theorem surveyRequest_toJson {r : ModelRequest} (h : r.Valid) :
    surveyRequest r.toJson = ⟨r, remarks r⟩ := by
  have hstatus : Entries.contains r.toMembers statusKey = false := contains_status_toMembers r
  have hknown :
      (noteUnrecognized (statusKey :: ModelRequest.keys) r.toMembers).findings = [] := by
    rw [ModelRequest.toMembers_eq]
    cases r.descriptor.inferenceContainer <;> rfl
  apply Survey.ext
  · rw [ModelRequest.toJson, value_surveyRequest, request_toMembers h]
  · rw [ModelRequest.toJson, findings_surveyRequest, Part.findings, statusFindings, hknown,
      request_toMembers h, hstatus]
    rfl

end Validation

/-! ### What a policy holds against a valid request -/

/-- The violations of a valid request that is submitted again, in order. -/
def ModelRequest.objections (p : Policy) (r : ModelRequest) : Violations :=
  (if p.identifiers = .strict ∧ Text.isAllBlank r.descriptor.modelId = true then
    [⟨"modelId", .shape, "must not be blank"⟩] else []) ++
  (if p.identifiers = .strict ∧ Text.isAllBlank r.descriptor.modelName = true then
    [⟨"modelName", .shape, "must not be blank"⟩] else []) ++
  (if p.enforceCapacityOrder = true ∧
      r.descriptor.scaling.maxCapacity < r.descriptor.scaling.minCapacity then
    [⟨"autoScalingConfig.minCapacity", .range, "must be less than or equal to maxCapacity (" ++
      toString r.descriptor.scaling.maxCapacity.toNat ++ ")"⟩] else [])

/-- Nothing is held against a request that meets the policy, and only then. -/
theorem ModelRequest.objections_eq_nil_iff {p : Policy} {r : ModelRequest} :
    r.objections p = [] ↔ r.Meets p := by
  simp only [objections, List.append_eq_nil_iff, ite_eq_right_iff, List.cons_ne_nil, imp_false,
    not_and, Bool.not_eq_true, UInt32.not_lt, and_assoc]
  constructor
  · rintro ⟨hid, hname, horder⟩
    exact ⟨hid, hname, horder⟩
  · rintro ⟨hid, hname, horder⟩
    exact ⟨hid, hname, horder⟩

namespace Validation

open Survey

variable {p : Policy}

theorem violations_blankFindings {name : String} (htext : Location.text [.key name] = name)
    (s : String) :
    ((blankFindings s).map (Finding.under (.key name))).filterMap (Finding.violation? p) =
      if p.identifiers = .strict ∧ Text.isAllBlank s = true then
        [⟨name, .shape, "must not be blank"⟩] else [] := by
  unfold blankFindings
  by_cases hblank : Text.isAllBlank s = true
  · by_cases hp : p.identifiers = .strict
    · simp [hblank, hp, Finding.violation?, Finding.under, Fault.counts, htext]
      exact ⟨rfl, rfl⟩
    · simp [hblank, hp, Finding.violation?, Fault.counts]
  · simp [hblank]

theorem violations_boundFindings (s : ScalingConfig) :
    ((boundFindings s).map (Finding.under (.key "autoScalingConfig"))).filterMap
        (Finding.violation? p) =
      if p.enforceCapacityOrder = true ∧ s.maxCapacity < s.minCapacity then
        [⟨"autoScalingConfig.minCapacity", .range,
          "must be less than or equal to maxCapacity (" ++ toString s.maxCapacity.toNat ++ ")"⟩]
      else [] := by
  have htext : Location.text [.key "autoScalingConfig", .key "minCapacity"] =
      "autoScalingConfig.minCapacity" := by decide
  unfold boundFindings
  by_cases horder : s.maxCapacity < s.minCapacity
  · by_cases hp : p.enforceCapacityOrder = true
    · simp [horder, hp, Finding.violation?, Finding.under, Fault.counts, htext]
      exact ⟨rfl, rfl⟩
    · simp [horder, hp, Finding.violation?, Fault.counts]
  · simp [horder]

theorem violations_remarks (r : ModelRequest) :
    (remarks r).filterMap (Finding.violation? p) = r.objections p := by
  unfold remarks ModelRequest.objections
  rw [List.filterMap_append, List.filterMap_append, violations_blankFindings (by decide),
    violations_blankFindings (by decide), violations_boundFindings]

theorem outcome_toJson {r : ModelRequest} (h : r.Valid) :
    (validateRequest p r.toJson).outcome =
      if r.objections p = [] then .ok r else .error (r.objections p) := by
  rw [validateRequest, outcome_judge, surveyRequest_toJson h, Survey.violations,
    violations_remarks]

/-- No member of a request that was written out is without a meaning. -/
theorem log_toJson {r : ModelRequest} (h : r.Valid) :
    (validateRequest p r.toJson).log = [] := by
  have hremarks : ∀ f ∈ remarks r, f.fault ≠ .unrecognized := by
    intro f hf
    simp only [remarks, blankFindings, boundFindings, List.mem_append, List.mem_map] at hf
    rcases hf with (⟨f', hf', rfl⟩ | ⟨f', hf', rfl⟩) | ⟨f', hf', rfl⟩
    all_goals
      split at hf'
      · simp [List.mem_singleton.mp hf']
      · simp at hf'
  rw [Verdict.log, List.map_eq_nil_iff, validateRequest, surveyRequest_toJson h]
  apply List.filterMap_eq_nil_iff.mpr
  intro f hf
  apply if_neg
  rintro ⟨hunrecognized, -⟩
  exact hremarks f hf hunrecognized

/-- **A valid request that is submitted again comes back as it was.**  Nothing is
    dropped, and the violations are what the policy objects to.  So a policy accepts once
    more what it has accepted, and the strictest one accepts the valid requests whose
    identifiers are not blank and whose bounds are in order. -/
theorem validateRequest_toJson (p : Policy) :
    (∀ r : ModelRequest, r.Valid →
      (validateRequest p r.toJson).log = [] ∧
      (validateRequest p r.toJson).outcome =
        if r.objections p = [] then .ok r else .error (r.objections p)) ∧
    (∀ (v : Json) (r : ModelRequest), (validateRequest p v).outcome = .ok r →
      (validateRequest p r.toJson).outcome = .ok r) ∧
    ∀ r : ModelRequest, r.Valid →
      ((validateRequest .strict r.toJson).outcome = .ok r ↔
        Text.isAllBlank r.descriptor.modelId = false ∧
        Text.isAllBlank r.descriptor.modelName = false ∧
        r.descriptor.scaling.minCapacity ≤ r.descriptor.scaling.maxCapacity) := by
  refine ⟨?_, ?_, ?_⟩
  · intro r hr
    exact ⟨log_toJson hr, outcome_toJson hr⟩
  · intro v r hv
    obtain ⟨hpasses, rfl⟩ := outcome_judge_eq_ok_iff.mp hv
    obtain ⟨-, hvalid, hmeets⟩ := valid_surveyRequest hpasses
    rw [outcome_toJson hvalid, if_pos (ModelRequest.objections_eq_nil_iff.mpr hmeets)]
  · intro r hr
    rw [outcome_toJson hr]
    have hmeets : r.objections .strict = [] ↔ r.Meets .strict :=
      ModelRequest.objections_eq_nil_iff
    constructor
    · intro h
      split at h
      · rename_i hnil
        obtain ⟨hid, hname, horder⟩ := hmeets.mp hnil
        exact ⟨hid rfl, hname rfl, horder rfl⟩
      · simp at h
    · rintro ⟨hid, hname, horder⟩
      exact if_pos (hmeets.mpr ⟨fun _ => hid, fun _ => hname, fun _ => horder⟩)

/-- A request without a name of its own and with its bounds out of order. -/
theorem validateRequest_toJson_unordered :
    ∃ r : ModelRequest, r.Valid ∧
      (validateRequest {} r.toJson).outcome = .ok r ∧
      (validateRequest .strict r.toJson).outcome = .error [
        ⟨"modelName", .shape, "must not be blank"⟩,
        ⟨"autoScalingConfig.minCapacity", .range,
          "must be less than or equal to maxCapacity (2)"⟩] := by
  let r : ModelRequest := { descriptor := { modelId := "m", scaling := { minCapacity := 3 } } }
  have hr : r.Valid := by constructor <;> decide
  have hlenient : r.objections {} = [] := by decide
  have hstrict : r.objections .strict = [
      ⟨"modelName", .shape, "must not be blank"⟩,
      ⟨"autoScalingConfig.minCapacity", .range,
        "must be less than or equal to maxCapacity (2)"⟩] := by decide +kernel
  refine ⟨r, hr, ?_, ?_⟩
  · rw [((validateRequest_toJson {}).1 r hr).2, if_pos hlenient]
  · rw [((validateRequest_toJson .strict).1 r hr).2, hstrict]
    rfl

end Validation

end ModelCatalog
