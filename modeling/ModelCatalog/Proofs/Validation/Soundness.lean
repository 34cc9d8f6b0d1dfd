/-
  ModelCatalog/Proofs/Validation/Soundness.lean
  =============================================
  **What is accepted is valid.**

  A reader that finds something wrong goes on with a value all the same, so no field
  can be judged from the input alone.  Each reader gives a value within its bounds
  whatever it is given (`le_value_count`, `value_number`, `keys_environment`), because
  the value of a field that is not given is within them as well; only an identifier
  may be empty and only bounds may be out of order, and then a finding counts
  (`value_identifier`, `ordered_scaling`).  The order of bounds is not looked at beside
  a member that passes for one of them; every such member is at fault itself, and so
  no pair of bounds slips through (`not_masked`).
-/
import ModelCatalog.Proofs.Validation.Certainty
import ModelCatalog.Proofs.Validation.Denotation

namespace ModelCatalog

/-! ### Valid requests -/

/-- What holds of a request whatever the policy it was accepted under. -/
structure ModelRequest.Valid (r : ModelRequest) : Prop where
  modelId_ne_empty : r.descriptor.modelId ≠ ""
  modelName_ne_empty : r.descriptor.modelName ≠ ""
  one_le_minCapacity : 1 ≤ r.descriptor.scaling.minCapacity
  one_le_maxCapacity : 1 ≤ r.descriptor.scaling.maxCapacity
  one_le_cooldown : 1 ≤ r.descriptor.scaling.cooldown
  targetValue_finite : r.descriptor.scaling.metric.targetValue.isFinite = true
  targetValue_nonneg : 0 ≤ r.descriptor.scaling.metric.targetValue.rank
  keys_ne_empty : ∀ e ∈ r.descriptor.container.environment, e.key ≠ ""

/-- What a policy asks of a request beside that. -/
structure ModelRequest.Meets (r : ModelRequest) (p : Policy) : Prop where
  modelId_not_blank : p.identifiers = .strict → Text.isAllBlank r.descriptor.modelId = false
  modelName_not_blank :
    p.identifiers = .strict → Text.isAllBlank r.descriptor.modelName = false
  capacities_ordered : p.enforceCapacityOrder = true →
    r.descriptor.scaling.minCapacity ≤ r.descriptor.scaling.maxCapacity

namespace Validation

open Survey

variable {p : Policy}

/-! ### Identifiers -/

theorem value_identifier {initial : String} (hinitial : initial ≠ "") {v : Option Json}
    (h : (identifier initial v).Passes p) :
    (identifier initial v).value ≠ "" ∧
      (p.identifiers = .strict → Text.isAllBlank (identifier initial v).value = false) := by
  rcases v with _ | v
  · -- not given: the placeholder stands only if identifiers are lenient
    have hlenient : p.identifiers ≠ .strict := by simpa [identifier, Fault.counts] using h
    exact ⟨hinitial, fun hstrict => absurd hstrict hlenient⟩
  cases v with
  | string s =>
    by_cases hempty : s = ""
    · simp [identifier, hempty, Fault.counts] at h
    · by_cases hblank : Text.isAllBlank s = true
      · have hlenient : p.identifiers ≠ .strict := by
          simpa [identifier, hempty, hblank, Fault.counts] using h
        have hvalue : (identifier initial (some (.string s))).value = s := by
          simp [identifier, hempty, hblank]
        rw [hvalue]
        exact ⟨hempty, fun hstrict => absurd hstrict hlenient⟩
      · simp [identifier, hempty, hblank]
  | _ => simp [identifier, Fault.counts] at h

/-! ### Numbers -/

theorem value_number {initial : Double} (hfinite : initial.isFinite = true)
    (hnonneg : 0 ≤ initial.rank) (v : Option Json) :
    (number initial 0 v).value.isFinite = true ∧ 0 ≤ (number initial 0 v).value.rank := by
  unfold number
  split
  · exact ⟨hfinite, hnonneg⟩
  · split
    · exact ⟨hfinite, hnonneg⟩
    · rename_i x hx
      have hx := isFinite_of_double? hx
      split
      · exact ⟨hfinite, hnonneg⟩
      · rename_i hlt
        exact ⟨hx, (Double.lt_zero_eq_false_iff hx).mp (Bool.not_eq_true _ ▸ hlt)⟩

theorem le_value_count {initial : UInt32} {least : Nat} (hinitial : least ≤ initial.toNat)
    (hleast : least < 2 ^ 53) (v : Option Json) :
    least ≤ (count initial least v).value.toNat := by
  unfold count
  split
  · exact hinitial
  · split
    · exact hinitial
    · split
      · exact hinitial
      · rename_i x _ hlt
        split
        · exact hinitial
        · rename_i n hn
          split
          · rename_i hsize
            have hle : least ≤ n := by
              rw [Double.lt_ofNat_iff hn hleast] at hlt
              exact Nat.le_of_not_lt hlt
            simpa [UInt32.toNat_ofNat', Nat.mod_eq_of_lt hsize] using hle
          · exact hinitial

/-! ### Environments -/

theorem value_environmentEntries (position : Nat) (entries : List Json) :
    (environmentEntries position entries).value =
      entries.flatMap fun v => (environmentEntry v).value.toList := by
  induction entries generalizing position with
  | nil => rfl
  | cons v entries ih => simp [environmentEntries, ih]

theorem value_environmentMembers (m : Json.Members) :
    (environmentMembers m).value =
      m.flatMap fun e => (environmentMember e.1 e.2).value.toList := by
  induction m with
  | nil => rfl
  | cons e m ih => simp [environmentMembers, ih]

/-- An entry without a key is no variable, whatever its value. -/
theorem key_environmentEntry {v : Json} {e : EnvironmentVariable}
    (h : (environmentEntry v).value = some e) : e.key ≠ "" := by
  cases v with
  | object m =>
    by_cases hkey : (requiredText (given m "key")).value = some ""
    · simp [environmentEntry, hkey] at h
    · simp only [environmentEntry, value_bind, value_field, hkey, if_false, value_pure] at h
      split at h
      · rename_i key value hk _
        cases h
        rintro rfl
        exact hkey hk
      · simp at h
  | _ => simp [environmentEntry] at h

theorem key_environmentMember {key : String} {v : Json} {e : EnvironmentVariable}
    (h : (environmentMember key v).value = some e) : e.key ≠ "" := by
  by_cases hkey : key = ""
  · simp [environmentMember, hkey] at h
  · cases v with
    | string s =>
      have he : (⟨key, s⟩ : EnvironmentVariable) = e := by
        simpa [environmentMember, hkey] using h
      exact he ▸ hkey
    | _ => simp [environmentMember, hkey] at h

theorem keys_environment (v : Option Json) : ∀ e ∈ (environment [] v).value, e.key ≠ "" := by
  intro e he
  rcases v with _ | v
  · simp [environment] at he
  cases v with
  | array entries =>
    simp only [environment, value_environmentEntries, List.mem_flatMap,
      Option.mem_toList] at he
    obtain ⟨x, -, hx⟩ := he
    exact key_environmentEntry hx
  | object m =>
    simp only [environment, value_environmentMembers, List.mem_flatMap,
      Option.mem_toList] at he
    obtain ⟨x, -, hx⟩ := he
    exact key_environmentMember hx
  | _ => simp [environment] at he

/-! ### Groups -/

/-- The value of a group is that of its fields, or the one that it takes when nothing
    is given; so what holds of both holds of it. -/
theorem value_group {α : Type} {P : α → Prop} {known : List String} {initial : α}
    {read : Json.Members → Survey α} (hinitial : P initial) (hread : ∀ m, P (read m).value)
    (v : Option Json) : P (group known initial read v).value :=
  group_cases (motive := fun x => P x.value) v hinitial hread fun _ => hinitial

theorem keys_container (v : Option Json) :
    ∀ e ∈ (container v).value.environment, e.key ≠ "" := by
  refine value_group (P := fun c : ContainerConfig => ∀ e ∈ c.environment, e.key ≠ "") ?_ ?_ v
  · simp
  · intro m
    exact keys_environment (given m "environment")

theorem value_scalingMetric (v : Option Json) :
    (scalingMetric v).value.targetValue.isFinite = true ∧
      0 ≤ (scalingMetric v).value.targetValue.rank := by
  refine value_group (P := fun s : ScalingMetric => s.targetValue.isFinite = true ∧
    0 ≤ s.targetValue.rank) (by decide) ?_ v
  intro m
  exact value_number (by decide) (by decide) (given m "targetValue")

theorem value_scaling (v : Option Json) :
    1 ≤ (scaling v).value.minCapacity ∧ 1 ≤ (scaling v).value.maxCapacity ∧
      1 ≤ (scaling v).value.cooldown ∧
      (scaling v).value.metric.targetValue.isFinite = true ∧
      0 ≤ (scaling v).value.metric.targetValue.rank := by
  refine value_group (P := fun s : ScalingConfig => 1 ≤ s.minCapacity ∧ 1 ≤ s.maxCapacity ∧
    1 ≤ s.cooldown ∧ s.metric.targetValue.isFinite = true ∧
    0 ≤ s.metric.targetValue.rank) (by decide) ?_ v
  intro m
  rw [value_checkCapacityOrder]
  simp only [UInt32.le_iff_toNat_le]
  exact ⟨le_value_count (by decide) (by decide) (given m "minCapacity"),
    le_value_count (by decide) (by decide) (given m "maxCapacity"),
    le_value_count (by decide) (by decide) (given m "cooldown"),
    value_scalingMetric (given m "metricConfig")⟩

/-! ### The order of bounds -/

/-- A member that keeps the bounds from being compared is itself at fault. -/
theorem not_masked {x : Survey ScalingConfig} (hplain : x.Only Fault.Plain)
    (hx : x.Passes p) {g : Finding} (hg : g ∈ x.findings) :
    g.fault = .unrecognized ∧ p.unknownFields ≠ .strict := by
  have hcounts := hx g hg
  rcases hplain g hg with hunrecognized | hcertain
  · exact ⟨hunrecognized, by simpa [hunrecognized, Fault.counts] using hcounts⟩
  · simp [hcertain p] at hcounts

/-- The bounds are compared beside what is found in the fields. -/
theorem passes_of_checkCapacityOrder {x : Survey ScalingConfig}
    (h : (checkCapacityOrder x).Passes p) : x.Passes p := by
  intro f hf
  apply h
  rw [findings_checkCapacityOrder]
  exact List.mem_append_left _ hf

/-- **Bounds that pass are in order**, if the policy asks for it. -/
theorem ordered_checkCapacityOrder {x : Survey ScalingConfig} (hplain : x.Only Fault.Plain)
    (h : (checkCapacityOrder x).Passes p) (hp : p.enforceCapacityOrder = true) :
    x.value.minCapacity ≤ x.value.maxCapacity := by
  simp only [Passes, Only, findings_checkCapacityOrder, List.mem_append, or_imp,
    forall_and] at h
  obtain ⟨hfields, horder⟩ := h
  by_contra hgt
  have hbounds : ∀ g ∈ x.findings, g.location.EndsWith "Capacity" → g.fault = .unrecognized :=
    fun g hg _ => (not_masked hplain hfields hg).1
  have hcounts := horder _ (mem_orderFindings.mpr ⟨UInt32.not_le.mp hgt, hbounds, rfl⟩)
  -- the finding is there, so it can only fail to count because a member masks it
  simp only [Fault.counts, hp, Bool.true_and, Bool.not_eq_false', Bool.and_eq_true,
    decide_eq_true_eq] at hcounts
  obtain ⟨⟨g, hg, -, -⟩, hstrict⟩ := hcounts
  exact (not_masked hplain hfields hg).2 hstrict

theorem ordered_scaling {v : Option Json} (hp : p.enforceCapacityOrder = true) :
    (scaling v).Passes p → (scaling v).value.minCapacity ≤ (scaling v).value.maxCapacity := by
  refine group_cases (motive := fun x : Survey ScalingConfig => x.Passes p →
    x.value.minCapacity ≤ x.value.maxCapacity) v ?nothing ?object ?other
  case nothing =>
    intro _
    decide
  case other =>
    intro kind _
    rw [value_flawed]
    decide
  case object =>
    intro m h
    rw [value_bind, value_checkCapacityOrder]
    exact ordered_checkCapacityOrder (plain_scalingFields m) ((passes_bind _ _).mp h).2 hp

/-! ### Requests -/

theorem valid_request {m : Json.Members} (h : (request m).Passes p) :
    (request m).value.Valid ∧ (request m).value.Meets p := by
  simp only [request, descriptor, passes_bind, passes_field, value_field, passes_pure] at h
  obtain ⟨⟨hid, hname, -, -, -, -, -, -, hscaling, -⟩, -⟩ := h
  obtain ⟨hid, hidBlank⟩ := value_identifier (by decide) hid
  obtain ⟨hname, hnameBlank⟩ := value_identifier (by decide) hname
  obtain ⟨hmin, hmax, hcooldown, hfinite, hnonneg⟩ := value_scaling (given m "autoScalingConfig")
  exact ⟨⟨hid, hname, hmin, hmax, hcooldown, hfinite, hnonneg,
    keys_container (given m "containerConfig")⟩,
    ⟨hidBlank, hnameBlank, fun hp => ordered_scaling hp hscaling⟩⟩

/-- A survey that passes is one of an object without a status whose fields pass, and its
    value is theirs. -/
theorem request_of_surveyRequest {v : Json} (h : (surveyRequest v).Passes p) :
    ∃ m, v = .object m ∧ Entries.contains m statusKey = false ∧ (request m).Passes p ∧
      (surveyRequest v).value = (request m).value := by
  cases v with
  | object m =>
    simp only [Passes, Only, findings_surveyRequest, Part.findings, List.mem_append, or_imp,
      forall_and] at h
    obtain ⟨hstatus, -, hrequest⟩ := h
    refine ⟨m, rfl, ?_, hrequest, value_surveyRequest m⟩
    by_contra hcontains
    simp [statusFindings, Bool.not_eq_false _ ▸ hcontains, Fault.counts] at hstatus
  | _ => simp [surveyRequest, root, Fault.counts] at h

/-- What passes gives a valid request. -/
theorem valid_surveyRequest {v : Json} (h : (surveyRequest v).Passes p) :
    (∃ m, v = .object m ∧ Entries.contains m statusKey = false) ∧
      (surveyRequest v).value.Valid ∧ (surveyRequest v).value.Meets p := by
  obtain ⟨m, rfl, hstatus, hrequest, hvalue⟩ := request_of_surveyRequest h
  rw [hvalue]
  exact ⟨⟨m, rfl, hstatus⟩, valid_request hrequest⟩

/-- **What is accepted is valid.**  Whatever the input and the policy: it is an object
    without a status, and the request is valid and meets the policy. -/
theorem validateRequest_sound {v : Json} {r : ModelRequest}
    (h : (validateRequest p v).outcome = .ok r) :
    (∃ m, v = .object m ∧ Entries.contains m statusKey = false) ∧ r.Valid ∧ r.Meets p := by
  obtain ⟨hpasses, rfl⟩ := outcome_judge_eq_ok_iff.mp h
  exact valid_surveyRequest hpasses

/-- A count may be spelled as a text, and an environment as an object. -/
theorem validateRequest_sound_strict :
    ∃ v r, (validateRequest .strict v).outcome = .ok r ∧
      (∃ m, v = .object m ∧ Entries.contains m statusKey = false) ∧
      r.Valid ∧ r.Meets .strict ∧ r.descriptor.scaling.minCapacity = 2 := by
  let v : Json := .object [
    ("autoScalingConfig", .object [("minCapacity", .string " 2 ")]),
    ("containerConfig", .object [("environment", .object [("A", .string "1")])]),
    ("modelId", .string "m"),
    ("modelName", .string "n")]
  let r : ModelRequest := { descriptor := {
    modelId := "m"
    modelName := "n"
    container := { environment := [⟨"A", "1"⟩] }
    scaling := { minCapacity := 2 } } }
  have h : (validateRequest .strict v).outcome = .ok r := by decide +kernel
  obtain ⟨hobject, hvalid, hmeets⟩ := validateRequest_sound h
  exact ⟨v, r, h, hobject, hvalid, hmeets, rfl⟩

end Validation

end ModelCatalog
