/-
  ModelCatalog/Proofs/Validation/Regions.lean
  ===========================================
  **What is held against a part of an input, and what against the rest.**

  A location cuts the violations of an input in two: those at the location or below it, and
  those outside (`perm_violations`).  What is found at a field of a visited object or below
  it is found with what is given for the field, but for what may be noted beside all fields
  (`Visited.mem_within_iff`, `mem_findings_field`): no other way through the table leads
  there.
-/
import ModelCatalog.Proofs.Validation.Coverage

namespace ModelCatalog.Validation

open Survey

/-! ### Regions -/

/-- The violations at a location or below it. -/
def violationsWithin (p : Policy) (place : Location) (v : Json) : Violations :=
  ((surveyRequest v).findings.filter fun f => place <+: f.location).filterMap
    (Finding.violation? p)

/-- The violations at all other places. -/
def violationsOutside (p : Policy) (place : Location) (v : Json) : Violations :=
  ((surveyRequest v).findings.filter fun f => ¬ place <+: f.location).filterMap
    (Finding.violation? p)

/-- The two regions together hold every violation once. -/
theorem perm_violations (p : Policy) (place : Location) (v : Json) :
    (violationsWithin p place v ++ violationsOutside p place v).Perm
      (validateRequest p v).violations := by
  have hsplit := List.filter_append_perm (fun f : Finding => place <+: f.location)
    (surveyRequest v).findings
  have hviolations := hsplit.filterMap (Finding.violation? p)
  rw [List.filterMap_append] at hviolations
  rw [validateRequest, violations_judge, Survey.violations]
  simpa [violationsWithin, violationsOutside] using hviolations

variable {root : Json.Members}

/-- If no two findings of a region are different, only one is there. -/
theorem filter_eq_singleton (hroot : (Json.object root).WellFormed) {place : Location}
    {f : Finding} (hf : f ∈ (surveyRequest (.object root)).findings)
    (hplace : place <+: f.location)
    (honly : ∀ g ∈ (surveyRequest (.object root)).findings, place <+: g.location → g = f) :
    ((surveyRequest (.object root)).findings.filter fun g => place <+: g.location) = [f] := by
  have hplaces := nodup_surveyRequest hroot
  have hnodup := (hplaces.of_map _).filter fun g : Finding => decide (place <+: g.location)
  apply List.perm_singleton.mp
  rw [List.perm_ext_iff_of_nodup hnodup (List.nodup_singleton f)]
  intro g
  rw [List.mem_filter, List.mem_singleton, decide_eq_true_eq]
  constructor
  · rintro ⟨hg, hwithin⟩
    exact honly g hg hwithin
  · rintro rfl
    exact ⟨hf, hplace⟩

/-! ### What is found at a field -/

/-- What is found at a field or below it is found with what is given for it, or beside all
    fields. -/
theorem mem_findings_field {q : Part} {m : Json.Members} {name : String} {form : Form}
    (hfield : (name, form) ∈ q.fields) {f : Finding} (hf : f ∈ q.findings m)
    (hplace : [.key name] <+: f.location) :
    (∃ f' ∈ form.findings (given m name), f'.under (.key name) = f) ∨ f ∈ q.tail m := by
  obtain ⟨rest, hrest⟩ := hplace
  rw [findings_part] at hf
  rcases List.mem_append.mp hf with hf | hf
  · obtain ⟨f', hf', rfl, hfault⟩ := mem_gather_of_field hfield hf hrest.symm
    left
    obtain ⟨place, fault⟩ := f
    obtain ⟨place', fault'⟩ := f'
    cases hrest
    cases hfault
    exact ⟨_, hf', rfl⟩
  · exact Or.inr hf

/-- A way that leads through a field does not end beside the fields. -/
theorem mem_findings_beyond {q : Part} {m : Json.Members} {name : String} {form : Form}
    (hfield : (name, form) ∈ q.fields) {s : Segment} {rest : Location} {fault : Fault}
    (hf : (⟨.key name :: s :: rest, fault⟩ : Finding) ∈ q.findings m) :
    (⟨s :: rest, fault⟩ : Finding) ∈ form.findings (given m name) := by
  rcases mem_findings_field hfield hf ⟨s :: rest, rfl⟩ with ⟨f', hf', heq⟩ | hf
  · obtain ⟨place', fault'⟩ := f'
    cases heq
    exact hf'
  · rcases mem_tail_location hf with hlocation | hlocation <;> simp at hlocation

/-- **What is found at a field of a visited object is found with the object.** -/
theorem Visited.mem_of_finding {l : Location} {q : Part} {m : Json.Members}
    (h : Visited root l q m) {name : String} (hname : name ∈ q.keys) {rest : Location}
    {fault : Fault}
    (hf : (⟨l ++ .key name :: rest, fault⟩ : Finding) ∈ (surveyRequest (.object root)).findings) :
    (⟨.key name :: rest, fault⟩ : Finding) ∈ q.findings m := by
  induction h generalizing name rest with
  | root =>
    rw [findings_surveyRequest] at hf
    rcases List.mem_append.mp hf with hf | hf
    · -- the status of the root is no field
      obtain ⟨-, heq⟩ := mem_statusFindings.mp hf
      have hstatus : name = statusKey := by
        simpa using (List.cons.inj (congrArg Finding.location heq)).1
      exact absurd (hstatus ▸ hname) (by decide)
    · exact hf
  | part _ hfield hgiven ih =>
    rw [List.append_assoc, List.singleton_append] at hf
    have hbeyond := mem_findings_beyond hfield (ih (Part.mem_keys hfield) hf)
    rw [hgiven] at hbeyond
    exact hbeyond
  | @entry l q m m' parent entries i _ hfield hgiven hi ih =>
    rw [List.append_assoc, List.cons_append, List.singleton_append] at hf
    have hbeyond := mem_findings_beyond hfield (ih (Part.mem_keys hfield) hf)
    rw [hgiven] at hbeyond
    rcases mem_environment.mp hbeyond with ⟨x, -, -, -, heq⟩ |
      ⟨entries', j, x, hentries, hj, f', hf', heq⟩ | ⟨m'', key, x, hm, -, f', -, heq⟩
    · cases heq
    · obtain ⟨place, fault'⟩ := f'
      cases heq
      cases hentries
      rw [hi] at hj
      cases hj
      exact hf'
    · cases hm

/-- **What is found at a field of a visited object or below it.** -/
theorem Visited.mem_within_iff {l : Location} {q : Part} {m : Json.Members}
    (h : Visited root l q m) {name : String} (hname : name ∈ q.keys) {f : Finding} :
    f ∈ (surveyRequest (.object root)).findings ∧ l ++ [.key name] <+: f.location ↔
      ∃ g ∈ q.findings m, [.key name] <+: g.location ∧ f = ⟨l ++ g.location, g.fault⟩ := by
  constructor
  · rintro ⟨hf, rest, hrest⟩
    obtain ⟨place, fault⟩ := f
    obtain rfl : l ++ .key name :: rest = place := by simpa using hrest
    exact ⟨_, h.mem_of_finding hname hf, ⟨rest, rfl⟩, rfl⟩
  · rintro ⟨g, hg, hprefix, rfl⟩
    exact ⟨h.finding hg, (List.prefix_append_right_inj l).mpr hprefix⟩

end ModelCatalog.Validation
