/-
  ModelCatalog/Proofs/Validation/WireFormat.lean
  ==============================================
  **The names that are written are the names that mean something.**

  The encoding and the validation each know the objects of a request on their own.  Where
  the validation would look for a part, the encoding has written one (`Written.part`), so
  every object that is visited in an encoded request encodes the part that it is visited
  as (`written_of_visited`); and such an object has exactly the names of that part, but
  for the inference container of a model that has none.
-/
import ModelCatalog.Proofs.Descriptor.Decoding
import ModelCatalog.Proofs.Validation.Coverage
import ModelCatalog.Proofs.Validation.Resubmission

namespace ModelCatalog

namespace Validation

/-! ### Encoded parts -/

/-- A value encodes something as a part. -/
def Part.Written : Part → Json → Prop
  | .request, v => ∃ r : ModelRequest, r.toJson = v
  | .container, v => ∃ c : ContainerConfig, c.toJson = v
  | .image, v => ∃ i : ContainerImage, i.toJson = v
  | .containerHealthCheck, v => ∃ h : ContainerHealthCheck, h.toJson = v
  | .entry, v => ∃ e : EnvironmentVariable, e.toJson = v
  | .scaling, v => ∃ s : ScalingConfig, s.toJson = v
  | .metric, v => ∃ s : ScalingMetric, s.toJson = v
  | .balancer, v => ∃ b : BalancerConfig, b.toJson = v
  | .balancerHealthCheck, v => ∃ h : BalancerHealthCheck, h.toJson = v

theorem written_of_given {α : Type} {encode : α → Json} {m : Json.Members} {name : String}
    {v : Json} {a : α} (hwritten : given m name = some (encode a))
    (hgiven : given m name = some v) : ∃ a, encode a = v :=
  ⟨a, Option.some.inj (hwritten.symm.trans hgiven)⟩

/-- **Where a part is looked for, a part is written.** -/
theorem Part.Written.part {q q' : Part} {m : Json.Members} {name : String} {v : Json}
    (h : q.Written (.object m)) (hfield : (name, Form.part q') ∈ q.fields)
    (hgiven : given m name = some v) : q'.Written v := by
  cases q with
  | request =>
    obtain ⟨r, hr⟩ := h
    obtain rfl : r.toMembers = m := Json.object.inj hr
    have hparts : (name = "containerConfig" ∧ q' = .container) ∨
        (name = "autoScalingConfig" ∧ q' = .scaling) ∨
        (name = "loadBalancerConfig" ∧ q' = .balancer) := by simpa [fields] using hfield
    rcases hparts with ⟨rfl, rfl⟩ | ⟨rfl, rfl⟩ | ⟨rfl, rfl⟩
    · have hwritten : given r.toMembers "containerConfig" = some r.descriptor.container.toJson :=
        given_toMembers (by decide) rfl
      exact written_of_given hwritten hgiven
    · have hwritten : given r.toMembers "autoScalingConfig" = some r.descriptor.scaling.toJson :=
        given_toMembers (by decide) rfl
      exact written_of_given hwritten hgiven
    · have hwritten : given r.toMembers "loadBalancerConfig" = some r.descriptor.balancer.toJson :=
        given_toMembers (by decide) rfl
      exact written_of_given hwritten hgiven
  | container =>
    obtain ⟨c, hc⟩ := h
    cases hc
    have hparts : (name = "image" ∧ q' = .image) ∨
        (name = "healthCheckConfig" ∧ q' = .containerHealthCheck) := by
      simpa [fields] using hfield
    rcases hparts with ⟨rfl, rfl⟩ | ⟨rfl, rfl⟩
    · exact written_of_given (a := c.image) rfl hgiven
    · exact written_of_given (a := c.healthCheck) rfl hgiven
  | scaling =>
    obtain ⟨s, hs⟩ := h
    cases hs
    obtain ⟨rfl, rfl⟩ : name = "metricConfig" ∧ q' = .metric := by simpa [fields] using hfield
    exact written_of_given (a := s.metric) rfl hgiven
  | balancer =>
    obtain ⟨b, hb⟩ := h
    cases hb
    obtain ⟨rfl, rfl⟩ : name = "healthCheckConfig" ∧ q' = .balancerHealthCheck := by
      simpa [fields] using hfield
    exact written_of_given (a := b.healthCheck) rfl hgiven
  | image | containerHealthCheck | entry | metric | balancerHealthCheck =>
    simp [fields] at hfield

/-- **And where entries are, each is written as one.** -/
theorem Part.Written.entry {q : Part} {m : Json.Members} {name : String} {entries : List Json}
    {i : Nat} {v : Json} (h : q.Written (.object m)) (hfield : (name, Form.environment) ∈ q.fields)
    (hgiven : given m name = some (.array entries)) (hi : entries[i]? = some v) :
    Part.entry.Written v := by
  cases q with
  | container =>
    obtain ⟨c, hc⟩ := h
    cases hc
    obtain rfl : name = "environment" := by simpa [fields] using hfield
    obtain rfl : c.environment.map EnvironmentVariable.toJson = entries :=
      Json.array.inj (Option.some.inj hgiven)
    obtain ⟨e, -, he⟩ := List.mem_map.mp (List.mem_of_getElem? hi)
    exact ⟨e, he⟩
  | _ => simp [fields] at hfield

theorem written_of_visited {r : ModelRequest} {l : Location} {q : Part} {m : Json.Members}
    (h : Visited r.toMembers l q m) : q.Written (.object m) := by
  induction h with
  | root => exact ⟨r, rfl⟩
  | part _ hfield hgiven ih => exact ih.part hfield hgiven
  | entry _ hfield hgiven hi ih => exact ih.entry hfield hgiven hi

/-! ### The names of an encoded part -/

/-- The names of a part that stand in an encoded request: all of them, but for the
    inference container of a model that has none. -/
def Part.writtenKeys (q : Part) (r : ModelRequest) : List String :=
  q.keys.filter fun name => name ≠ "inferenceContainer" ∨ r.descriptor.inferenceContainer.isSome

theorem mem_writtenKeys {q : Part} {r : ModelRequest} {name : String} :
    name ∈ q.writtenKeys r ↔ name ∈ q.keys ∧
      (name = "inferenceContainer" → r.descriptor.inferenceContainer.isSome = true) := by
  simp [Part.writtenKeys, Classical.or_iff_not_imp_left]

theorem Part.writtenKeys_eq_keys {q : Part} (h : "inferenceContainer" ∉ q.keys)
    (r : ModelRequest) : q.writtenKeys r = q.keys := by
  apply List.filter_eq_self.mpr
  intro name hname
  have hne : name ≠ "inferenceContainer" := by
    rintro rfl
    exact h hname
  simp [hne]

theorem perm_names_request (r : ModelRequest) :
    (Entries.names r.toMembers).Perm (Part.request.writtenKeys r) := by
  rw [r.toMembers_eq, Part.writtenKeys]
  cases r.descriptor.inferenceContainer with
  | none =>
    simp only [Option.map_none, Option.toList_none, Entries.names, List.map_append, List.map,
      Option.isSome_none]
    decide
  | some c =>
    simp only [Option.map_some, Option.toList_some, Entries.names, List.map_append, List.map,
      Option.isSome_some]
    decide

/-- A part other than the request is written with all of its names. -/
theorem Part.Written.perm_names {q : Part} (hq : q ≠ .request) {m : Json.Members}
    (h : q.Written (.object m)) : (Entries.names m).Perm q.keys := by
  cases q with
  | request => exact absurd rfl hq
  | _ =>
    obtain ⟨a, ha⟩ := h
    cases ha
    simp only [Entries.names, List.map]
    decide

/-- **An encoded part has the names that mean something in it**, each of them once. -/
theorem perm_names_of_visited {r : ModelRequest} {l : Location} {q : Part} {m : Json.Members}
    (h : Visited r.toMembers l q m) : (Entries.names m).Perm (q.writtenKeys r) := by
  by_cases hq : q = .request
  · subst hq
    cases h with
    | root => exact perm_names_request r
    | part _ hfield _ => exact absurd rfl (Part.field_ne_request hfield)
  · have hkeys : "inferenceContainer" ∉ q.keys := by
      cases q <;> first | exact absurd rfl hq | decide
    rw [Part.writtenKeys_eq_keys hkeys]
    exact (written_of_visited h).perm_names hq

/-- A request in which every part is written. -/
def fullRequest : ModelRequest := { descriptor := {
  inferenceContainer := some .tgi
  container := { environment := [⟨"", ""⟩] } } }

theorem exists_visited (q : Part) : ∃ l m, Visited fullRequest.toMembers l q m := by
  have hcontainer : Visited fullRequest.toMembers [.key "containerConfig"] .container _ :=
    .part .root (by decide) rfl
  have hscaling : Visited fullRequest.toMembers [.key "autoScalingConfig"] .scaling _ :=
    .part .root (by decide) rfl
  have hbalancer : Visited fullRequest.toMembers [.key "loadBalancerConfig"] .balancer _ :=
    .part .root (by decide) rfl
  cases q with
  | request => exact ⟨_, _, .root⟩
  | container => exact ⟨_, _, hcontainer⟩
  | scaling => exact ⟨_, _, hscaling⟩
  | balancer => exact ⟨_, _, hbalancer⟩
  | image =>
    have himage : Visited fullRequest.toMembers [.key "containerConfig", .key "image"] .image _ :=
      .part hcontainer (by decide) rfl
    exact ⟨_, _, himage⟩
  | containerHealthCheck =>
    have hhealth : Visited fullRequest.toMembers
        [.key "containerConfig", .key "healthCheckConfig"] .containerHealthCheck _ :=
      .part hcontainer (by decide) rfl
    exact ⟨_, _, hhealth⟩
  | entry =>
    have hentry : Visited fullRequest.toMembers
        [.key "containerConfig", .key "environment", .index 0] .entry _ :=
      .entry hcontainer (by decide) rfl rfl
    exact ⟨_, _, hentry⟩
  | metric =>
    have hmetric : Visited fullRequest.toMembers
        [.key "autoScalingConfig", .key "metricConfig"] .metric _ :=
      .part hscaling (by decide) rfl
    exact ⟨_, _, hmetric⟩
  | balancerHealthCheck =>
    have hhealth : Visited fullRequest.toMembers
        [.key "loadBalancerConfig", .key "healthCheckConfig"] .balancerHealthCheck _ :=
      .part hbalancer (by decide) rfl
    exact ⟨_, _, hhealth⟩

/-- **The names that are written in a part, over all requests, are its keys.** -/
theorem exists_written_iff {q : Part} {name : String} :
    (∃ r l m, Visited (ModelRequest.toMembers r) l q m ∧ name ∈ Entries.names m) ↔
      name ∈ q.keys := by
  constructor
  · rintro ⟨r, l, m, hvisited, hname⟩
    exact (mem_writtenKeys.mp ((perm_names_of_visited hvisited).mem_iff.mp hname)).1
  · intro hname
    obtain ⟨l, m, hvisited⟩ := exists_visited q
    refine ⟨fullRequest, l, m, hvisited, (perm_names_of_visited hvisited).mem_iff.mpr ?_⟩
    exact mem_writtenKeys.mpr ⟨hname, fun _ => rfl⟩

end Validation

/-! ### Round trips -/

/-- No member of a request is called as the status is. -/
theorem ModelRequest.statusKey_notMem (r : ModelRequest) :
    statusKey ∉ Entries.names r.toMembers := by
  rw [Entries.mem_names_iff, r.get?_status]
  exact Bool.false_ne_true

/-- **A record has the members of its request and the status.** -/
theorem ModelRecord.mem_toMembers (record : ModelRecord) (e : String × Json) :
    e ∈ record.toMembers ↔
      e = (statusKey, .ofNamed record.status) ∨ e ∈ record.request.toMembers := by
  obtain ⟨name, v⟩ := e
  have hrequest := record.request.ascending_toMembers
  have hrecord : Entries.Ascending record.toMembers := hrequest.insert _ _
  rw [← hrecord.get?_eq_some_iff, ← hrequest.get?_eq_some_iff, record.get?_toMembers,
    Prod.mk.injEq]
  by_cases h : statusKey = name
  · subst h
    simp [record.request.get?_status, eq_comm]
  · simp [h, Ne.symm h]

theorem ModelRequest.inferenceContainer_notMem_iff (r : ModelRequest) :
    "inferenceContainer" ∉ Entries.names r.toMembers ↔
      r.descriptor.inferenceContainer = none := by
  rw [Entries.mem_names_iff, r.get?_inferenceContainer]
  simp

open Validation in
/-- **The wire format loses nothing.**

    A request and a record are decoded as they were encoded, whatever they hold, if the
    target value is finite, for JSON has no other numbers; and so is a report.  A record
    has the members of its request and the status beside them; the inference container is
    left out exactly if there is none.  Wherever the validation looks into what was written,
    it finds the names that mean something there, each of them once, and over all requests
    every one of them. -/
theorem wireFormat_lossless :
    (∀ r : ModelRequest, r.descriptor.scaling.metric.targetValue.isFinite = true →
      ModelRequest.ofJson? r.toJson = some r) ∧
    (∀ record : ModelRecord,
      record.request.descriptor.scaling.metric.targetValue.isFinite = true →
      ModelRecord.ofJson? record.toJson = some record) ∧
    (∀ vs : Violations, Violations.ofJson? (Violations.toJson vs) = some vs) ∧
    (∀ record : ModelRecord,
      statusKey ∉ Entries.names record.request.toMembers ∧
      ∀ e, e ∈ record.toMembers ↔
        e = (statusKey, .ofNamed record.status) ∨ e ∈ record.request.toMembers) ∧
    (∀ r : ModelRequest, "inferenceContainer" ∉ Entries.names r.toMembers ↔
      r.descriptor.inferenceContainer = none) ∧
    (∀ (r : ModelRequest) (l : Location) (q : Part) (m : Json.Members),
      Visited r.toMembers l q m → (Entries.names m).Perm (q.writtenKeys r)) ∧
    ∀ (q : Part) (name : String),
      (∃ r l m, Visited (ModelRequest.toMembers r) l q m ∧ name ∈ Entries.names m) ↔
        name ∈ q.keys := by
  refine ⟨fun _ => ModelRequest.ofJson?_toJson, fun _ => ModelRecord.ofJson?_toJson,
    Violations.ofJson?_toJson, ?_, ModelRequest.inferenceContainer_notMem_iff, ?_, ?_⟩
  · intro record
    exact ⟨record.request.statusKey_notMem, record.mem_toMembers⟩
  · intro r l q m hvisited
    exact perm_names_of_visited hvisited
  · intro q name
    exact exists_written_iff

/-- Nothing is lost of what the validation would refuse: an empty identifier, bounds out of
    order, a variable without a name and a target value just below zero. -/
theorem wireFormat_lossless_refused :
    let record : ModelRecord := {
      status := .failed
      request := { lisaHosted := true, descriptor := {
        modelId := ""
        modelName := "\n"
        inferenceContainer := some .vllm
        container := { environment := [⟨"", "é"⟩] }
        scaling := {
          minCapacity := 4294967295
          metric := { targetValue := ⟨true, 1, by decide⟩ } } } } }
    record.request.descriptor.scaling.metric.targetValue.isFinite = true ∧
      ModelRecord.ofJson? record.toJson = some record := by
  intro record
  have hfinite : record.request.descriptor.scaling.metric.targetValue.isFinite = true := by
    decide
  exact ⟨hfinite, wireFormat_lossless.2.1 record hfinite⟩

end ModelCatalog
