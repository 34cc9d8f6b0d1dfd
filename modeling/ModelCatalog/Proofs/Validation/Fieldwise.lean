/-
  ModelCatalog/Proofs/Validation/Fieldwise.lean
  =============================================
  **A request is validated field by field.**

  What is held against an object is said of it as a whole, which is a status and the
  members without a meaning, and then of each field, in the order of the fields
  (`violations_object`).  What is said of a field depends on what is given for it alone,
  and leniently nothing is said of a field that is not given; so it is what would be said
  of an object with this one member (`violations_member`).  The fields of an accepted
  request are its parts as well: each has the value that it has in the object with this
  one member.
-/
import ModelCatalog.Proofs.Entries
import ModelCatalog.Proofs.Text.Utf8
import ModelCatalog.Proofs.Validation.Layout

namespace ModelCatalog

/-! ### The fields of a request -/

/-- The fields of a request, in the order in which they are read. -/
inductive RequestField where
  | modelId | modelName | modelUrl | streaming | modelType | instanceType
  | inferenceContainer | container | scaling | balancer | lisaHosted
deriving DecidableEq

namespace RequestField

/-- The name that a field has in JSON. -/
def key : RequestField → String
  | modelId => "modelId"
  | modelName => "modelName"
  | modelUrl => "modelUrl"
  | streaming => "streaming"
  | modelType => "modelType"
  | instanceType => "instanceType"
  | inferenceContainer => "inferenceContainer"
  | container => "containerConfig"
  | scaling => "autoScalingConfig"
  | balancer => "loadBalancerConfig"
  | lisaHosted => "lisaHostedModel"

/-- What a field holds. -/
def Value : RequestField → Type
  | modelId | modelName | modelUrl | instanceType => String
  | streaming | lisaHosted => Bool
  | modelType => ModelType
  | inferenceContainer => Option InferenceContainer
  | container => ContainerConfig
  | scaling => ScalingConfig
  | balancer => BalancerConfig

def get : (f : RequestField) → ModelRequest → f.Value
  | modelId, r => r.descriptor.modelId
  | modelName, r => r.descriptor.modelName
  | modelUrl, r => r.descriptor.modelUrl
  | streaming, r => r.descriptor.streaming
  | modelType, r => r.descriptor.modelType
  | instanceType, r => r.descriptor.instanceType
  | inferenceContainer, r => r.descriptor.inferenceContainer
  | container, r => r.descriptor.container
  | scaling, r => r.descriptor.scaling
  | balancer, r => r.descriptor.balancer
  | lisaHosted, r => r.lisaHosted

/-- **The value of a field is read off what is given for it alone.** -/
theorem get_request_congr (f : RequestField) {m m' : Json.Members}
    (h : Validation.given m f.key = Validation.given m' f.key) :
    f.get (Validation.request m).value = f.get (Validation.request m').value := by
  cases f <;>
    · simp only [key] at h
      simp only [get, Validation.request, Validation.descriptor, Survey.value_bind,
        Survey.value_field, Survey.value_pure, h]
      rfl

end RequestField

namespace Validation

open Survey

variable {p : Policy}

/-! ### The violations of an object -/

/-- What a policy holds against a field of the root. -/
def fieldViolations (p : Policy) (f : String × Form) (v : Option Json) : Violations :=
  ((f.2.findings v).map (Finding.under (.key f.1))).filterMap (Finding.violation? p)

/-- What is said of a whole object: a status, and the members without a meaning. -/
def rootViolations (p : Policy) (m : Json.Members) : Violations :=
  (if Entries.contains m statusKey then
    [⟨"status", .shape, "is output-only and cannot be submitted"⟩] else []) ++
  if p.unknownFields = .strict then
    (strangers Part.request.known m).map fun name => ⟨name, .shape, "is not a recognized field"⟩
  else []

theorem text_key (name : String) : Location.text [.key name] = name := by
  simp [Location.text, Location.joined, Location.append, Segment.text]

/-- What a finding with a member of the root is held to be. -/
theorem violation?_key (p : Policy) (name : String) (fault : Fault) :
    Finding.violation? p ⟨[.key name], fault⟩ =
      if fault.counts p then some ⟨name, fault.kind, fault.reason⟩ else none := by
  rw [Finding.violation?, text_key]

theorem filterMap_statusFindings (p : Policy) (m : Json.Members) :
    (statusFindings m).filterMap (Finding.violation? p) =
      if Entries.contains m statusKey then
        [⟨"status", .shape, "is output-only and cannot be submitted"⟩] else [] := by
  have hone : Finding.violation? p ⟨[.key statusKey], .outputOnly⟩ =
      some ⟨"status", .shape, "is output-only and cannot be submitted"⟩ :=
    violation?_key p statusKey .outputOnly
  by_cases h : Entries.contains m statusKey
  · rw [statusFindings, if_pos h, if_pos h, List.filterMap_cons_some hone, List.filterMap_nil]
  · rw [statusFindings, if_neg h, if_neg h, List.filterMap_nil]

theorem filterMap_strangers (p : Policy) (names : List String) :
    (gather (names.map fun name => (.key name, [⟨[], .unrecognized⟩]))).filterMap
        (Finding.violation? p) =
      if p.unknownFields = .strict then
        names.map fun name => ⟨name, .shape, "is not a recognized field"⟩
      else [] := by
  have hone : ∀ name, Finding.violation? p ⟨[.key name], .unrecognized⟩ =
      if p.unknownFields = .strict then
        some ⟨name, .shape, "is not a recognized field"⟩ else none := by
    intro name
    rw [violation?_key]
    simp only [Fault.counts, decide_eq_true_eq]
    rfl
  have hgather : gather (names.map fun name => (.key name, [⟨[], .unrecognized⟩])) =
      names.map fun name => ⟨[.key name], .unrecognized⟩ := by
    rw [gather, List.flatMap_map, List.map_eq_flatMap]
    rfl
  rw [hgather, List.filterMap_map]
  split
  · rename_i hp
    simp [hone, hp]
  · rename_i hp
    simp [hone, hp]

/-- **An object is judged as a whole and then field by field.** -/
theorem violations_object (p : Policy) (m : Json.Members) :
    (validateRequest p (.object m)).violations =
      rootViolations p m ++
        Part.request.fields.flatMap fun f => fieldViolations p f (given m f.1) := by
  have hfields : ∀ fields : List (String × Form),
      (gather (fields.map fun f => (.key f.1, f.2.findings (given m f.1)))).filterMap
          (Finding.violation? p) =
        fields.flatMap fun f => fieldViolations p f (given m f.1) := by
    intro fields
    simp [gather, fieldViolations, List.filterMap_flatMap, List.flatMap_map]
  have htail : Part.request.tail m = [] := rfl
  rw [validateRequest, violations_judge, Survey.violations, findings_surveyRequest, findings_part,
    htail, List.append_nil, Part.branches, gather_append, List.filterMap_append,
    List.filterMap_append, filterMap_statusFindings, filterMap_strangers, hfields,
    ← List.append_assoc]
  rfl

/-! ### The violations of a member -/

/-- Leniently nothing is held against a field that is not given. -/
theorem fieldViolations_none (hp : p.identifiers = .lenient) :
    ∀ f ∈ Part.request.fields, fieldViolations p f none = [] := by
  have hnothing : ∀ f ∈ Part.request.fields,
      f.2.findings none = [] ∨ f.2.findings none = [⟨[], .unidentified⟩] := by decide
  intro f hf
  unfold fieldViolations
  rcases hnothing f hf with h | h
  · rw [h]
    rfl
  · have hcounts : Fault.unidentified.counts p = false := by simp [Fault.counts, hp]
    rw [h]
    simp [Finding.violation?, hcounts]

/-- A list of which only one element gives something gives what that one gives. -/
theorem flatMap_eq_of_unique {α β : Type} {l : List α} {f : α → List β} {a : α}
    (hl : l.Nodup) (ha : a ∈ l) (h : ∀ b ∈ l, b ≠ a → f b = []) : l.flatMap f = f a := by
  induction l with
  | nil => exact absurd ha List.not_mem_nil
  | cons b l ih =>
    obtain ⟨hb, hl⟩ := List.nodup_cons.mp hl
    rw [List.flatMap_cons]
    by_cases hba : b = a
    · subst hba
      have hrest : l.flatMap f = [] := by
        apply List.flatMap_eq_nil_iff.mpr
        intro c hc
        apply h c (List.mem_cons_of_mem _ hc)
        rintro rfl
        exact hb hc
      rw [hrest, List.append_nil]
    · have hmem : a ∈ l := (List.mem_cons.mp ha).resolve_left (Ne.symm hba)
      rw [h b List.mem_cons_self hba, List.nil_append,
        ih hl hmem fun c hc => h c (List.mem_cons_of_mem _ hc)]

theorem given_of_get? {m : Json.Members} {name : String} {v : Json}
    (h : Entries.get? m name = some v) : given m name = given [(name, v)] name := by
  simp [given, Entries.get?_cons, h]

theorem given_of_get?_none {m : Json.Members} {name : String}
    (h : Entries.get? m name = none) : given m name = none := by
  simp [given, h]

theorem given_singleton_of_ne {name wanted : String} (v : Json) (h : name ≠ wanted) :
    given [(name, v)] wanted = none := by
  apply given_of_get?_none
  rw [Entries.get?_cons, if_neg h]
  rfl

/-- Nothing is said of an object as a whole whose one member has a meaning. -/
theorem rootViolations_member {name : String} (h : name ∈ ModelRequest.keys) (v : Json) :
    rootViolations p [(name, v)] = [] := by
  have hstatus : name ≠ statusKey := by
    rintro rfl
    exact absurd h (by decide)
  have hcontains : Entries.contains [(name, v)] statusKey = false := by
    simp [Entries.contains, Entries.names, Ne.symm hstatus]
  have hstrangers : strangers Part.request.known [(name, v)] = [] := by
    simp [strangers, Part.mem_known (q := .request) h]
  simp [rootViolations, hcontains, hstrangers]

/-- **Leniently an object with one member is judged as that field.** -/
theorem violations_member (hp : p.identifiers = .lenient) {f : String × Form}
    (hf : f ∈ Part.request.fields) (v : Json) :
    (validateRequest p (.object [(f.1, v)])).violations =
      fieldViolations p f (given [(f.1, v)] f.1) := by
  have hkeys : f.1 ∈ ModelRequest.keys := List.mem_map_of_mem (f := Prod.fst) hf
  have hnames : (Part.request.fields.map Prod.fst).Nodup := Part.request.nodup_keys
  rw [violations_object, rootViolations_member hkeys, List.nil_append]
  apply flatMap_eq_of_unique hnames.of_map hf
  intro g hg hne
  have hname : f.1 ≠ g.1 := by
    intro heq
    exact hne (List.inj_on_of_nodup_map hnames hg hf heq.symm)
  rw [given_singleton_of_ne v hname]
  exact fieldViolations_none hp g hg

/-- The violations of the members that a request has, each validated alone, in the order
    of the fields. -/
theorem violations_members (hp : p.identifiers = .lenient) (m : Json.Members) :
    (Part.request.fields.flatMap fun f => fieldViolations p f (given m f.1)) =
      ModelRequest.keys.flatMap fun name =>
        match Entries.get? m name with
        | none => []
        | some v => (validateRequest p (.object [(name, v)])).violations := by
  have hkeys : ModelRequest.keys = Part.request.fields.map Prod.fst := rfl
  rw [hkeys, List.flatMap_map]
  apply List.flatMap_congr
  intro f hf
  rcases hget : Entries.get? m f.1 with _ | v
  · rw [given_of_get?_none hget]
    exact fieldViolations_none hp f hf
  · dsimp only
    rw [violations_member hp hf, given_of_get? hget]

/-! ### Accepted requests -/

/-- What is accepted is what nothing is held against. -/
theorem violations_eq_nil_of_ok {v : Json} {r : ModelRequest}
    (h : (validateRequest p v).outcome = .ok r) : (validateRequest p v).violations = [] := by
  rw [Verdict.violations, h]

theorem exists_ok {m : Json.Members} (h : (validateRequest p (.object m)).violations = []) :
    ∃ r, (validateRequest p (.object m)).outcome = .ok r ∧ r = (request m).value := by
  rw [validateRequest, violations_judge, violations_eq_nil_iff] at h
  exact ⟨_, outcome_judge_eq_ok_iff.mpr ⟨h, rfl⟩, value_surveyRequest m⟩

theorem value_of_ok {m : Json.Members} {r : ModelRequest}
    (h : (validateRequest p (.object m)).outcome = .ok r) : r = (request m).value := by
  obtain ⟨-, rfl⟩ := outcome_judge_eq_ok_iff.mp h
  exact value_surveyRequest m

/-- **Each member of an accepted object is accepted alone**, with or without a meaning. -/
theorem violations_member_of_ok (hp : p.identifiers = .lenient) {m : Json.Members}
    (h : (validateRequest p (.object m)).violations = []) {name : String} {v : Json}
    (hget : Entries.get? m name = some v) :
    (validateRequest p (.object [(name, v)])).violations = [] := by
  rw [violations_object, violations_members hp, List.append_eq_nil_iff] at h
  obtain ⟨hroot, hmembers⟩ := h
  by_cases hkeys : name ∈ ModelRequest.keys
  · have hone := List.flatMap_eq_nil_iff.mp hmembers name hkeys
    simpa only [hget] using hone
  · -- such a member is neither a status nor, under this policy, refused
    have hname : name ∈ Entries.names m := by
      rw [Entries.mem_names_iff, hget]
      rfl
    have hfields : (Part.request.fields.flatMap fun f =>
        fieldViolations p f (given [(name, v)] f.1)) = [] := by
      apply List.flatMap_eq_nil_iff.mpr
      intro f hf
      have hne : name ≠ f.1 := by
        rintro rfl
        exact hkeys (List.mem_map_of_mem (f := Prod.fst) hf)
      rw [given_singleton_of_ne v hne]
      exact fieldViolations_none hp f hf
    rw [violations_object, hfields, List.append_nil]
    simp only [rootViolations, List.append_eq_nil_iff, ite_eq_right_iff, List.cons_ne_nil,
      imp_false, List.map_eq_nil_iff] at hroot ⊢
    obtain ⟨hstatus, hstrangers⟩ := hroot
    have hne : name ≠ statusKey := by
      rintro rfl
      exact hstatus (List.contains_iff_mem.mpr hname)
    constructor
    · simp [Entries.contains, Entries.names, Ne.symm hne]
    · intro hstrict
      have hmem : name ∈ strangers Part.request.known m := by
        apply List.mem_filter.mpr
        exact ⟨hname, by simpa [Part.known] using ⟨hne, hkeys⟩⟩
      rw [hstrangers hstrict] at hmem
      exact absurd hmem List.not_mem_nil

/-- The members without a meaning are noted in the order of their names. -/
theorem pairwise_strangers {m : Json.Members} (hm : Entries.Ascending m) (known : List String) :
    (strangers known m).Pairwise fun a b => Text.octets a < Text.octets b := by
  have hnames : (m.map Prod.fst).Pairwise (· < ·) := List.pairwise_map.mpr hm
  exact (hnames.filter _).imp Text.octets_lt_iff.mpr

theorem mem_strangers_request {m : Json.Members} {name : String} :
    name ∈ strangers Part.request.known m ↔
      name ∈ Entries.names m ∧ name ∉ ModelRequest.keys ∧ name ≠ statusKey := by
  simp only [strangers, List.mem_filter, Part.known, Entries.names]
  simp [and_comm]

/-- **Validation is made of the validations of the members.**

    Where identifiers are lenient, what is held against an object is a status, then the
    members without a meaning in the order of the octets of their names, if they are
    refused, and then, in the order of the fields, what is held against the objects that
    have one of its members each.  If an object is accepted, so is every one of these, and
    each field has the value that it has in the object with its member alone. -/
theorem validateRequest_fieldwise (hp : p.identifiers = .lenient) {m : Json.Members}
    (hm : Entries.Ascending m) :
    (∃ unknown : List String,
      unknown.Pairwise (fun a b => Text.octets a < Text.octets b) ∧
      (∀ name, name ∈ unknown ↔
        name ∈ Entries.names m ∧ name ∉ ModelRequest.keys ∧ name ≠ statusKey) ∧
      (validateRequest p (.object m)).violations =
        (if Entries.contains m statusKey then
          [⟨"status", .shape, "is output-only and cannot be submitted"⟩] else []) ++
        (if p.unknownFields = .strict then
          unknown.map fun name => ⟨name, .shape, "is not a recognized field"⟩ else []) ++
        ModelRequest.keys.flatMap fun name =>
          match Entries.get? m name with
          | none => []
          | some v => (validateRequest p (.object [(name, v)])).violations) ∧
    ∀ r, (validateRequest p (.object m)).outcome = .ok r → ∀ name v,
      Entries.get? m name = some v →
        ∃ r', (validateRequest p (.object [(name, v)])).outcome = .ok r' ∧
          ∀ f : RequestField, f.key = name → f.get r = f.get r' := by
  constructor
  · refine ⟨strangers Part.request.known m, pairwise_strangers hm _,
      fun _ => mem_strangers_request, ?_⟩
    rw [violations_object, violations_members hp]
    rfl
  · intro r h name v hget
    obtain ⟨r', hr', hvalue⟩ :=
      exists_ok (violations_member_of_ok hp (violations_eq_nil_of_ok h) hget)
    refine ⟨r', hr', ?_⟩
    rintro f rfl
    rw [value_of_ok h, hvalue]
    exact f.get_request_congr (given_of_get? hget)

/-- Beside a status and two members without a meaning the bounds are found out of order as
    if they were submitted alone. -/
theorem validateRequest_fieldwise_strict :
    let p : Policy := { unknownFields := .strict, enforceCapacityOrder := true }
    let bounds : Json := .object [("minCapacity", .number (.integer 3))]
    let m : Json.Members := [
      ("aCapacity", .null), ("autoScalingConfig", bounds), ("status", .null), ("é", .null)]
    p.identifiers = .lenient ∧ Entries.Ascending m ∧
      ∃ unknown : List String, (∀ name, name ∈ unknown ↔ name = "aCapacity" ∨ name = "é") ∧
        (validateRequest p (.object m)).violations =
          ⟨"status", .shape, "is output-only and cannot be submitted"⟩ ::
            (unknown.map fun name => ⟨name, .shape, "is not a recognized field"⟩) ++
            [⟨"autoScalingConfig.minCapacity", .range,
              "must be less than or equal to maxCapacity (2)"⟩] := by
  intro p bounds m
  have hm : Entries.Ascending m := by
    simp only [m, Entries.Ascending]
    decide
  obtain ⟨⟨unknown, -, hmem, hviolations⟩, -⟩ := validateRequest_fieldwise (p := p) rfl hm
  have hmembers : (ModelRequest.keys.flatMap fun name =>
      match Entries.get? m name with
      | none => []
      | some v => (validateRequest p (.object [(name, v)])).violations) =
        [⟨"autoScalingConfig.minCapacity", .range,
          "must be less than or equal to maxCapacity (2)"⟩] := by
    decide +kernel
  refine ⟨rfl, hm, unknown, ?_, ?_⟩
  · intro name
    have hnames : name ∈ Entries.names m ↔
        name = "aCapacity" ∨ name = "autoScalingConfig" ∨ name = "status" ∨ name = "é" := by
      simp [m, Entries.names]
    rw [hmem, hnames]
    constructor
    · rintro ⟨rfl | rfl | rfl | rfl, hkeys, hstatus⟩
      · exact Or.inl rfl
      · exact absurd (by decide) hkeys
      · exact absurd rfl hstatus
      · exact Or.inr rfl
    · rintro (rfl | rfl) <;> decide
  · rw [hviolations, hmembers]
    rfl

end Validation

end ModelCatalog
