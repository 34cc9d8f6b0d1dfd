/-
  ModelCatalog/Proofs/Validation/Policies.lean
  ============================================
  **Each choice of a policy filters what the lenient policy accepts.**

  A survey does not know the policy, so a stricter one can only turn findings into
  violations, and it does so by cause (`passes_of_causes`).  What remains is to read
  these causes off the accepted request: the survey of an accepted input has a finding
  about an identifier exactly if the identifier is blank (`named_request_iff`), for the
  placeholder is blank as well, and one about the order of bounds exactly if they are
  out of order (`ordered_request_iff`).  The three choices meet in one place only, where
  a member without a meaning keeps the bounds from being compared; the policy that
  would not compare them refuses that member.
-/
import ModelCatalog.Log
import ModelCatalog.Proofs.Validation.Soundness

namespace ModelCatalog

/-- One policy asks for everything that another asks for. -/
structure Policy.Tightens (q p : Policy) : Prop where
  unknownFields : p.unknownFields = .strict → q.unknownFields = .strict
  identifiers : p.identifiers = .strict → q.identifiers = .strict
  enforceCapacityOrder : p.enforceCapacityOrder = true → q.enforceCapacityOrder = true

/-! ### Causes -/

/-- No policy is more lenient than the lenient one. -/
theorem Fault.counts_lenient {fault : Fault} {p : Policy} (h : fault.counts p = false) :
    fault.counts {} = false := by
  by_contra hcertain
  rw [Bool.not_eq_false, ← certain_iff] at hcertain
  simp [hcertain p] at h

/-- Beside what the lenient policy holds against an input a policy adds three causes. -/
theorem Fault.counts_of_causes {fault : Fault} {p : Policy} (hlenient : fault.counts {} = false)
    (hunknown : p.unknownFields = .strict → fault ≠ .unrecognized)
    (hidentifiers : p.identifiers = .strict → ¬ fault.IsNameless)
    (horder : p.enforceCapacityOrder = true → ¬ fault.IsOrder) : fault.counts p = false := by
  cases fault with
  | unrecognized => simpa [counts] using hunknown
  | unidentified | blank => simpa [counts, IsNameless] using hidentifiers
  | capacityOrder maxCapacity masked =>
    have hoff : p.enforceCapacityOrder = false := by simpa [IsOrder] using horder
    simp [counts, hoff]
  | _ => simp [counts] at hlenient

namespace Survey

variable {α : Type} {p : Policy}

theorem Passes.lenient {x : Survey α} (h : x.Passes p) : x.Passes {} :=
  fun f hf => Fault.counts_lenient (h f hf)

theorem Passes.recognized {x : Survey α} (h : x.Passes p) (hp : p.unknownFields = .strict) :
    x.Only (· ≠ .unrecognized) := by
  intro f hf hunrecognized
  have hcounts := h f hf
  simp [hunrecognized, Fault.counts, hp] at hcounts

theorem passes_of_causes {x : Survey α} (hlenient : x.Passes {})
    (hunknown : p.unknownFields = .strict → x.Only (· ≠ .unrecognized))
    (hidentifiers : p.identifiers = .strict → x.Only fun fault => ¬ fault.IsNameless)
    (horder : p.enforceCapacityOrder = true → x.Only fun fault => ¬ fault.IsOrder) :
    x.Passes p := by
  intro f hf
  apply Fault.counts_of_causes (hlenient f hf)
  · intro hp
    exact hunknown hp f hf
  · intro hp
    exact hidentifiers hp f hf
  · intro hp
    exact horder hp f hf

end Survey

namespace Validation

open Survey

/-! ### Causes within a request -/

/-- What no plain finding breaks holds throughout a request as soon as it holds of the
    identifiers and of scaling. -/
theorem only_request_iff {P : Fault → Prop} (hP : ∀ fault : Fault, fault.Plain → P fault)
    (m : Json.Members) :
    (request m).Only P ↔
      (identifier placeholderIdentifier (given m "modelId")).Only P ∧
      (identifier placeholderIdentifier (given m "modelName")).Only P ∧
      (scaling (given m "autoScalingConfig")).Only P := by
  have hform : ∀ (form : Form), form.Ordinary → ∀ {α : Type} {x : Survey α} (v : Option Json),
      x.findings = form.findings v → x.Only P := by
    intro form hordinary α x v hx f hf
    rw [hx] at hf
    exact hP f.fault (plain_form hordinary v f hf)
  have hnames : ∀ names, (Form.leaf (.alternative names)).Ordinary := by simp [Form.Ordinary]
  have htext := fun v => hform (.leaf .text) (by decide) v (findings_text "" v)
  have hflag := fun v => hform (.leaf .flag) (by decide) v (findings_flag false v)
  have htype := fun v => hform _ (hnames _) v (findings_named (α := ModelType) v)
  have hserver := fun v => hform _ (hnames _) v (findings_named (α := InferenceContainer) v)
  have hcontainer := fun v => hform (.part .container) (by decide) v (findings_container v)
  have hbalancer := fun v => hform (.part .balancer) (by decide) v (findings_balancer v)
  simp only [request, descriptor, only_bind, only_field, only_pure, and_true, value_field,
    htext, hflag, htype, hserver, hcontainer, hbalancer, true_and]

/-- What no plain finding breaks holds of compared bounds exactly if it holds of the
    order of the bounds. -/
theorem only_checkCapacityOrder_iff {P : Fault → Prop}
    (hP : ∀ fault : Fault, fault.Plain → P fault) {x : Survey ScalingConfig}
    (hx : x.Only Fault.Plain) :
    (checkCapacityOrder x).Only P ↔ ∀ f ∈ orderFindings x, P f.fault := by
  simp only [Only, findings_checkCapacityOrder, List.mem_append, or_imp, forall_and]
  exact and_iff_right fun f hf => hP f.fault (hx f hf)

theorem only_noteUnrecognized {P : Fault → Prop} (hP : P .unrecognized) (known : List String)
    (m : Json.Members) : (noteUnrecognized known m).Only P := by
  intro f hf
  obtain ⟨e, -, rfl⟩ := List.mem_map.mp hf
  exact hP

/-- What neither a plain finding nor the order of bounds breaks holds throughout
    scaling. -/
theorem only_scaling {P : Fault → Prop} (hP : ∀ fault : Fault, fault.Plain → P fault)
    (horder : ∀ maxCapacity masked, P (.capacityOrder maxCapacity masked)) (v : Option Json) :
    (scaling v).Only P := by
  refine group_cases (motive := fun x : Survey ScalingConfig => x.Only P) v ?nothing ?object
    ?other
  case nothing => exact only_pure _
  case other =>
    intro kind
    rw [only_flawed]
    exact hP _ (Or.inr fun _ => rfl)
  case object =>
    intro m
    rw [only_bind, only_checkCapacityOrder_iff hP (plain_scalingFields m)]
    constructor
    · exact only_noteUnrecognized (hP _ (Or.inl rfl)) _ m
    · intro f hf
      obtain ⟨-, -, rfl⟩ := mem_orderFindings.mp hf
      exact horder _ _

/-- What neither a plain finding nor one about identifiers breaks holds of an
    identifier. -/
theorem only_identifier {P : Fault → Prop} (hP : ∀ fault : Fault, fault.Plain → P fault)
    (hnameless : ∀ fault : Fault, fault.IsNameless → P fault) (initial : String)
    (v : Option Json) : (identifier initial v).Only P := by
  have hexpected : ∀ kind, P (.expected .string kind) := fun _ => hP _ (Or.inr fun _ => rfl)
  rcases v with _ | v
  · exact (only_flawed _ _).mpr (hnameless _ (Or.inl rfl))
  cases v with
  | string s =>
    simp only [identifier]
    split
    · exact (only_flawed _ _).mpr (hP _ (Or.inr fun _ => rfl))
    · split
      · exact (only_flawed _ _).mpr (hnameless _ (Or.inr rfl))
      · exact only_pure _
  | _ => exact (only_flawed _ _).mpr (hexpected _)

/-! ### Identifiers -/

/-- An identifier that passes leniently has a finding exactly if it is blank. -/
theorem nameless_identifier_iff {v : Option Json}
    (h : (identifier placeholderIdentifier v).Passes {}) :
    ((identifier placeholderIdentifier v).Only fun fault => ¬ fault.IsNameless) ↔
      Text.isAllBlank (identifier placeholderIdentifier v).value = false := by
  rcases v with _ | v
  · -- the placeholder is blank too
    have hblank : Text.isAllBlank placeholderIdentifier = true := by decide
    simp [identifier, Fault.IsNameless, hblank]
  cases v with
  | string s =>
    by_cases hempty : s = ""
    · simp [identifier, hempty, Fault.counts] at h
    · by_cases hblank : Text.isAllBlank s = true
      · simp [identifier, hempty, hblank, Fault.IsNameless]
      · simp [identifier, hempty, hblank]
  | _ => simp [identifier, Fault.counts] at h

/-- Identifiers have no finding in what passes leniently exactly if neither is blank. -/
theorem named_request_iff {m : Json.Members} (h : (request m).Passes {}) :
    ((request m).Only fun fault => ¬ fault.IsNameless) ↔
      Text.isAllBlank (request m).value.descriptor.modelId = false ∧
      Text.isAllBlank (request m).value.descriptor.modelName = false := by
  have hscaling : (scaling (given m "autoScalingConfig")).Only fun fault =>
      ¬ fault.IsNameless :=
    only_scaling (fun _ => Fault.Plain.not_nameless) (by simp [Fault.IsNameless]) _
  rw [only_request_iff (fun _ => Fault.Plain.not_nameless)]
  simp only [request, descriptor, passes_bind, passes_field, value_field] at h
  obtain ⟨⟨hid, hname, -⟩, -⟩ := h
  rw [nameless_identifier_iff hid, nameless_identifier_iff hname]
  simp only [hscaling, and_true]
  rfl

/-! ### The order of bounds -/

/-- Bounds that pass leniently have a finding exactly if they are out of order: what
    passes for a bound and is at fault would count. -/
theorem ordered_checkCapacityOrder_iff {x : Survey ScalingConfig} (hplain : x.Only Fault.Plain)
    (h : x.Passes {}) :
    (∀ f ∈ orderFindings x, ¬ f.fault.IsOrder) ↔ x.value.minCapacity ≤ x.value.maxCapacity := by
  constructor
  · intro horder
    by_contra hgt
    have hbounds : ∀ g ∈ x.findings, g.location.EndsWith "Capacity" →
        g.fault = .unrecognized := by
      intro g hg _
      exact (not_masked hplain h hg).1
    exact horder _ (mem_orderFindings.mpr ⟨UInt32.not_le.mp hgt, hbounds, rfl⟩) ⟨_, _, rfl⟩
  · intro hle f hf
    obtain ⟨hlt, -⟩ := mem_orderFindings.mp hf
    exact absurd hle (UInt32.not_le.mpr hlt)

theorem ordered_scaling_iff (v : Option Json) : (scaling v).Passes {} →
    (((scaling v).Only fun fault => ¬ fault.IsOrder) ↔
      (scaling v).value.minCapacity ≤ (scaling v).value.maxCapacity) := by
  refine group_cases (motive := fun x : Survey ScalingConfig => x.Passes {} →
    ((x.Only fun fault => ¬ fault.IsOrder) ↔ x.value.minCapacity ≤ x.value.maxCapacity)) v
    ?nothing ?object ?other
  case nothing =>
    intro _
    exact iff_of_true (only_pure _) (by decide)
  case other =>
    intro kind h
    simp [Fault.counts] at h
  case object =>
    intro m h
    obtain ⟨-, hcheck⟩ := (passes_bind _ _).mp h
    rw [only_bind, only_checkCapacityOrder_iff (fun _ => Fault.Plain.not_order)
      (plain_scalingFields m), value_bind, value_checkCapacityOrder,
      ordered_checkCapacityOrder_iff (plain_scalingFields m)
        (passes_of_checkCapacityOrder hcheck)]
    exact and_iff_right (only_noteUnrecognized (by simp [Fault.IsOrder]) _ m)

/-- Bounds have no finding about their order in what passes leniently exactly if they
    are in order. -/
theorem ordered_request_iff {m : Json.Members} (h : (request m).Passes {}) :
    ((request m).Only fun fault => ¬ fault.IsOrder) ↔
      (request m).value.descriptor.scaling.minCapacity ≤
        (request m).value.descriptor.scaling.maxCapacity := by
  have hidentifier : ∀ v, (identifier placeholderIdentifier v).Only fun fault =>
      ¬ fault.IsOrder :=
    only_identifier (fun _ => Fault.Plain.not_order) (by simp [Fault.IsNameless, Fault.IsOrder]) _
  rw [only_request_iff (fun _ => Fault.Plain.not_order)]
  simp only [request, descriptor, passes_bind, passes_field, value_field] at h
  obtain ⟨⟨-, -, -, -, -, -, -, -, hscaling, -⟩, -⟩ := h
  rw [ordered_scaling_iff _ hscaling]
  simp only [hidentifier, true_and]
  rfl

/-! ### Verdicts -/

theorem only_surveyRequest_iff {P : Fault → Prop} (hP : ∀ fault : Fault, fault.Plain → P fault)
    (m : Json.Members) :
    (surveyRequest (.object m)).Only P ↔ (request m).Only P := by
  have hstatus : ∀ f ∈ statusFindings m, P f.fault := by
    intro f hf
    obtain ⟨-, rfl⟩ := mem_statusFindings.mp hf
    exact hP _ (Or.inr fun _ => rfl)
  have hunrecognized := only_noteUnrecognized (hP _ (Or.inl rfl)) (statusKey :: ModelRequest.keys) m
  simp only [Only, findings_surveyRequest, Part.findings, List.mem_append, or_imp, forall_and]
  constructor
  · rintro ⟨-, -, h⟩
    exact h
  · intro h
    exact ⟨hstatus, hunrecognized, h⟩

/-- What passes a policy is what passes the lenient one and meets the policy's own
    conditions. -/
theorem passes_surveyRequest_iff (p : Policy) (v : Json) :
    (surveyRequest v).Passes p ↔
      (surveyRequest v).Passes {} ∧
      (p.unknownFields = .strict → (surveyRequest v).Only (· ≠ .unrecognized)) ∧
      (surveyRequest v).value.Meets p := by
  constructor
  · intro h
    exact ⟨h.lenient, h.recognized, (valid_surveyRequest h).2.2⟩
  · rintro ⟨hlenient, hunknown, hmeets⟩
    obtain ⟨⟨m, rfl, -⟩, -⟩ := valid_surveyRequest hlenient
    have hrequest : (request m).Passes {} := by
      intro f hf
      apply hlenient
      rw [findings_surveyRequest]
      exact List.mem_append_right _ (List.mem_append_right _ hf)
    rw [value_surveyRequest] at hmeets
    apply passes_of_causes hlenient hunknown
    · intro hp
      rw [only_surveyRequest_iff (fun _ => Fault.Plain.not_nameless),
        named_request_iff hrequest]
      exact ⟨hmeets.modelId_not_blank hp, hmeets.modelName_not_blank hp⟩
    · intro hp
      rw [only_surveyRequest_iff (fun _ => Fault.Plain.not_order),
        ordered_request_iff hrequest]
      exact hmeets.capacities_ordered hp

theorem passes_of_tightens {p q : Policy} (hq : q.Tightens p) {v : Json}
    (h : (surveyRequest v).Passes q) : (surveyRequest v).Passes p := by
  obtain ⟨hlenient, hunknown, hmeets⟩ := (passes_surveyRequest_iff q v).mp h
  refine (passes_surveyRequest_iff p v).mpr ⟨hlenient, ?_, ?_⟩
  · intro hp
    exact hunknown (hq.unknownFields hp)
  · constructor
    · intro hp
      exact hmeets.modelId_not_blank (hq.identifiers hp)
    · intro hp
      exact hmeets.modelName_not_blank (hq.identifiers hp)
    · intro hp
      exact hmeets.capacities_ordered (hq.enforceCapacityOrder hp)

theorem log_eq_nil_iff (v : Json) :
    (validateRequest {} v).log = [] ↔ (surveyRequest v).Only (· ≠ .unrecognized) := by
  rw [Verdict.log, List.map_eq_nil_iff]
  exact dropped_judge_eq_nil_iff (surveyRequest v) rfl

/-- **The choices of a policy are filters on what the lenient policy accepts**, each on
    its own: strict about members, a policy refuses what would be dropped; strict about
    identifiers, blank ones; and enforcing the order of bounds, bounds out of order.  So
    a policy that asks for more accepts nothing new, and changes no accepted request. -/
theorem validateRequest_filters (v : Json) :
    (∀ (p : Policy) (r : ModelRequest), (validateRequest p v).outcome = .ok r ↔
      (validateRequest {} v).outcome = .ok r ∧
      (p.unknownFields = .strict → (validateRequest {} v).log = []) ∧
      (p.identifiers = .strict → Text.isAllBlank r.descriptor.modelId = false ∧
        Text.isAllBlank r.descriptor.modelName = false) ∧
      (p.enforceCapacityOrder = true →
        r.descriptor.scaling.minCapacity ≤ r.descriptor.scaling.maxCapacity)) ∧
    ∀ (p q : Policy) (r : ModelRequest), q.Tightens p →
      (validateRequest q v).outcome = .ok r → (validateRequest p v).outcome = .ok r := by
  constructor
  · intro p r
    simp only [validateRequest, outcome_judge_eq_ok_iff]
    rw [passes_surveyRequest_iff, ← log_eq_nil_iff]
    constructor
    · rintro ⟨⟨hlenient, hlog, hmeets⟩, rfl⟩
      exact ⟨⟨hlenient, rfl⟩, hlog,
        fun hp => ⟨hmeets.modelId_not_blank hp, hmeets.modelName_not_blank hp⟩,
        hmeets.capacities_ordered⟩
    · rintro ⟨⟨hlenient, rfl⟩, hlog, hnamed, hordered⟩
      exact ⟨⟨hlenient, hlog, fun hp => (hnamed hp).1, fun hp => (hnamed hp).2, hordered⟩, rfl⟩
  · intro p q r hq h
    obtain ⟨hpasses, hvalue⟩ := outcome_judge_eq_ok_iff.mp h
    exact outcome_judge_eq_ok_iff.mpr ⟨passes_of_tightens hq hpasses, hvalue⟩

end Validation

end ModelCatalog
