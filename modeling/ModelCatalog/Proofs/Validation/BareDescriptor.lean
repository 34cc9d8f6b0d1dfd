/-
  ModelCatalog/Proofs/Validation/BareDescriptor.lean
  ==================================================
  **An input is validated alike as a descriptor and as a request.**

  A request has one member more than a descriptor, the mark of a model hosted here.  An
  input without it is read alike both ways (`surveyRequest_without`).  With it, a request
  reads the mark after everything else (`surveyRequest_object`), and for a descriptor it is
  one unknown member more, noted in its place among the others (`findings_descriptor`).
-/
import ModelCatalog.Proofs.Validation.Absence
import ModelCatalog.Proofs.Validation.Fieldwise
import ModelCatalog.Proofs.Validation.OneUnknown

namespace ModelCatalog

/-- A value without its member of a name, if it is an object that has one. -/
def Json.without (name : String) : Json → Json
  | .object m => .object (Entries.remove m name)
  | v => v

namespace Validation

open Survey

variable {p : Policy}

/-! ### Without the mark -/

theorem strangers_unmarked (m : Json.Members) :
    strangers (statusKey :: ModelRequest.keys) (Entries.remove m "lisaHostedModel") =
      strangers (statusKey :: Descriptor.keys) (Entries.remove m "lisaHostedModel") := by
  apply List.filter_congr
  intro name hname
  have hne : name ≠ "lisaHostedModel" := by
    obtain ⟨e, he, rfl⟩ := List.mem_map.mp hname
    exact bne_iff_ne.mp (List.mem_filter.mp he).2
  simp [ModelRequest.keys, ModelRequest.ownKeys, hne]

theorem descriptor_unmarked (m : Json.Members) :
    descriptor (Entries.remove m "lisaHostedModel") = descriptor m := by
  apply descriptor_congr
  intro name hname
  have hne : "lisaHostedModel" ≠ name := by
    rintro rfl
    exact absurd hname (by decide)
  rw [given_remove, if_neg hne]

/-- **An input without the mark is read alike both ways.** -/
theorem surveyRequest_without (v : Json) :
    surveyRequest (v.without "lisaHostedModel") =
      ⟨⟨(surveyDescriptor (v.without "lisaHostedModel")).value, false⟩,
        (surveyDescriptor (v.without "lisaHostedModel")).findings⟩ := by
  cases v with
  | object m =>
    have hmark : given (Entries.remove m "lisaHostedModel") "lisaHostedModel" = none := by
      rw [given_remove, if_pos rfl]
    simp only [Json.without, surveyRequest, surveyDescriptor]
    apply Survey.ext
    · rw [value_root, value_root]
      simp only [request, field, hmark]
      rfl
    · rw [findings_root, findings_root, findings_noteUnrecognized, findings_noteUnrecognized,
        strangers_unmarked]
      simp only [request, field, hmark]
      simp [flag]
  | _ => rfl

/-- Without the mark a request is a descriptor that is not marked. -/
theorem outcome_without (p : Policy) (v : Json) :
    (validateRequest p (v.without "lisaHostedModel")).outcome =
      (validateDescriptor p (v.without "lisaHostedModel")).outcome.map (fun d => ⟨d, false⟩) := by
  rw [validateRequest, validateDescriptor, outcome_judge, outcome_judge, surveyRequest_without]
  by_cases hnone : (surveyDescriptor (v.without "lisaHostedModel")).violations p = []
  · rw [if_pos hnone]
    exact if_pos hnone
  · rw [if_neg hnone]
    exact if_neg hnone

/-! ### With the mark -/

/-- What is held against a mark. -/
def markViolations (x : Json) : Violations :=
  if x.kind = .null ∨ x.kind = .boolean then []
  else [⟨"lisaHostedModel", .shape, "expected a boolean, found " ++ x.kind.phrase⟩]

/-- A request reads the mark after everything else. -/
theorem surveyRequest_object (m : Json.Members) :
    surveyRequest (.object m) =
      ⟨⟨(surveyRequest (.object (Entries.remove m "lisaHostedModel"))).value.descriptor,
          (flag false (given m "lisaHostedModel")).value⟩,
        (surveyRequest (.object (Entries.remove m "lisaHostedModel"))).findings ++
          (field m "lisaHostedModel" (flag false)).findings⟩ := by
  have hmark : given (Entries.remove m "lisaHostedModel") "lisaHostedModel" = none := by
    rw [given_remove, if_pos rfl]
  have hknown : "lisaHostedModel" ∈ statusKey :: ModelRequest.keys := by decide
  have hstatus : statusFindings (Entries.remove m "lisaHostedModel") = statusFindings m := by
    rw [statusFindings, statusFindings, contains_remove_of_ne (by decide)]
  apply Survey.ext
  · rw [value_surveyRequest, value_surveyRequest]
    simp only [request, descriptor_unmarked]
    rfl
  · simp only [surveyRequest, findings_root, findings_noteUnrecognized, strangers_remove hknown,
      hstatus, request, descriptor_unmarked, findings_bind, findings_pure, List.append_nil,
      List.append_assoc]
    simp [field, hmark, flag]

theorem violations_mark {m : Json.Members} {x : Json}
    (hget : Entries.get? m "lisaHostedModel" = some x) :
    (field m "lisaHostedModel" (flag false)).violations p = markViolations x := by
  have hrefused : ∀ kind, Finding.violation? p ⟨[.key "lisaHostedModel"], .expected .boolean kind⟩ =
      some ⟨"lisaHostedModel", .shape, "expected a boolean, found " ++ kind.phrase⟩ := by
    intro kind
    exact violation?_key p "lisaHostedModel" (.expected .boolean kind)
  rw [field, given, hget]
  cases x with
  | null => rfl
  | bool b => rfl
  | _ => exact List.filterMap_cons_some (hrefused _)

/-- What is held against the mark comes last. -/
theorem violations_request {m : Json.Members} {x : Json}
    (hget : Entries.get? m "lisaHostedModel" = some x) :
    (validateRequest p (.object m)).violations =
      (validateRequest p (.object (Entries.remove m "lisaHostedModel"))).violations ++
        markViolations x := by
  rw [validateRequest, validateRequest, violations_judge, violations_judge, surveyRequest_object,
    ← violations_mark hget]
  exact List.filterMap_append

/-- The mark is not logged. -/
theorem log_request {m : Json.Members} {x : Json}
    (hget : Entries.get? m "lisaHostedModel" = some x) :
    (validateRequest p (.object m)).log =
      (validateRequest p (.object (Entries.remove m "lisaHostedModel"))).log := by
  have hmark : (field m "lisaHostedModel" (flag false)).findings.filterMap
      (Finding.dropped? p) = [] := by
    rw [field, given, hget]
    cases x <;> simp [flag, Finding.dropped?]
  rw [validateRequest, validateRequest, surveyRequest_object]
  simp only [Verdict.log, Survey.judge, List.filterMap_append, hmark, List.append_nil]

/-- The descriptor of an accepted request is accepted. -/
theorem descriptor_of_ok {m : Json.Members} {x : Json}
    (hget : Entries.get? m "lisaHostedModel" = some x) {r : ModelRequest}
    (h : (validateRequest p (.object m)).outcome = .ok r) :
    (validateDescriptor p (.object (Entries.remove m "lisaHostedModel"))).outcome =
      .ok r.descriptor := by
  have hboth : surveyRequest (.object (Entries.remove m "lisaHostedModel")) = _ :=
    surveyRequest_without (.object m)
  have hpasses := violations_eq_nil_of_ok h
  rw [violations_request hget] at hpasses
  have hnone := (List.append_eq_nil_iff.mp hpasses).1
  rw [validateRequest, violations_judge, hboth] at hnone
  have hvalue : (surveyRequest (.object m)).value = r := (outcome_judge_eq_ok_iff.mp h).2
  rw [surveyRequest_object, hboth] at hvalue
  rw [validateDescriptor, outcome_judge, ← hvalue]
  exact if_pos hnone

/-! ### The mark as an unknown member -/

theorem mem_strangers_descriptor {m : Json.Members} {name : String} :
    name ∈ strangers (statusKey :: Descriptor.keys) m ↔
      name ∈ Entries.names m ∧ name ∉ Descriptor.keys ∧ name ≠ statusKey := by
  simp only [strangers, List.mem_filter, Entries.names]
  simp [and_comm]

/-- A descriptor is judged as a whole and then field by field. -/
theorem violations_descriptor (p : Policy) (m : Json.Members) :
    (validateDescriptor p (.object m)).violations =
      (if Entries.contains m statusKey then
        [⟨"status", .shape, "is output-only and cannot be submitted"⟩] else []) ++
      (if p.unknownFields = .strict then
        (strangers (statusKey :: Descriptor.keys) m).map fun name =>
          ⟨name, .shape, "is not a recognized field"⟩ else []) ++
      (descriptor m).violations p := by
  rw [validateDescriptor, violations_judge, Survey.violations, surveyDescriptor, findings_root,
    List.filterMap_append, List.filterMap_append, filterMap_statusFindings,
    findings_noteUnrecognized, filterMap_strangers, List.append_assoc, Survey.violations]

/-- **For a descriptor the mark is one unknown member more.** -/
theorem descriptor_notesUnknown (p : Policy) {m : Json.Members} (hm : Entries.Ascending m)
    {x : Json} (hget : Entries.get? m "lisaHostedModel" = some x) :
    Verdict.NotesUnknown p "lisaHostedModel"
      (validateDescriptor p (.object (Entries.remove m "lisaHostedModel")))
      (validateDescriptor p (.object m)) := by
  have hunknown : "lisaHostedModel" ∉ statusKey :: Descriptor.keys := by decide
  have hstatus : statusFindings (Entries.remove m "lisaHostedModel") = statusFindings m := by
    rw [statusFindings, statusFindings, contains_remove_of_ne (by decide)]
  have hnoted : Inserts ⟨[.key "lisaHostedModel"], .unrecognized⟩
      (surveyDescriptor (.object (Entries.remove m "lisaHostedModel"))).findings
      (surveyDescriptor (.object m)).findings := by
    rw [surveyDescriptor, surveyDescriptor, findings_root, findings_root, hstatus,
      descriptor_unmarked]
    apply Inserts.append_left
    apply Inserts.append_right
    exact inserts_noteUnrecognized (hm.inserts_remove hget) hunknown
  rw [← text_key "lisaHostedModel"]
  refine Survey.notesUnknown_judge ?_ hnoted p
  rw [surveyDescriptor, surveyDescriptor, value_root, value_root, descriptor_unmarked]

/-! ### Both ways -/

/-- **An input is validated alike as a descriptor and as a request**, but for the mark of a
    model hosted here: a request reads it last, and to a descriptor it is unknown. -/
theorem validateDescriptor_agrees (p : Policy) {v : Json} (hv : v.WellFormed) :
    let unmarked := v.without "lisaHostedModel"
    (validateRequest p unmarked).outcome =
      (validateDescriptor p unmarked).outcome.map (fun d => ⟨d, false⟩) ∧
    (validateRequest p unmarked).log = (validateDescriptor p unmarked).log ∧
    ∀ m x, v = .object m → Entries.get? m "lisaHostedModel" = some x →
      (validateRequest p v).violations =
        (validateRequest p unmarked).violations ++ markViolations x ∧
      (validateRequest p v).log = (validateRequest p unmarked).log ∧
      (∀ r, (validateRequest p v).outcome = .ok r →
        (validateDescriptor p unmarked).outcome = .ok r.descriptor) ∧
      Verdict.NotesUnknown p "lisaHostedModel" (validateDescriptor p unmarked)
        (validateDescriptor p v) ∧
      (p.unknownFields = .strict → ∃ lesser greater : List String, ∃ status rest : Violations,
        (status = if Entries.contains m statusKey then
          [⟨"status", .shape, "is output-only and cannot be submitted"⟩] else []) ∧
        (∀ name, name ∈ lesser ++ "lisaHostedModel" :: greater ↔
          name ∈ Entries.names m ∧ name ∉ Descriptor.keys ∧ name ≠ statusKey) ∧
        (lesser ++ "lisaHostedModel" :: greater).Pairwise
          (fun a b => Text.octets a < Text.octets b) ∧
        (validateDescriptor p unmarked).violations = status ++
          (lesser ++ greater).map (⟨·, .shape, "is not a recognized field"⟩) ++ rest ∧
        (validateDescriptor p v).violations = status ++
          (lesser ++ "lisaHostedModel" :: greater).map
            (⟨·, .shape, "is not a recognized field"⟩) ++ rest) := by
  intro unmarked
  have hlog : (validateRequest p unmarked).log = (validateDescriptor p unmarked).log :=
    congrArg (fun x => (Survey.judge p x).log) (surveyRequest_without v)
  refine ⟨outcome_without p v, hlog, ?_⟩
  rintro m x rfl hget
  have hm : Entries.Ascending m := hv.1
  refine ⟨violations_request hget, log_request hget, fun r hr => descriptor_of_ok hget hr,
    descriptor_notesUnknown p hm hget, ?_⟩
  intro hp
  have hunknown : "lisaHostedModel" ∉ statusKey :: Descriptor.keys := by decide
  have hunmarked : unmarked = .object (Entries.remove m "lisaHostedModel") := rfl
  obtain ⟨lesser, greater, hwithout, hwith⟩ :=
    inserts_strangers (hm.inserts_remove hget) hunknown
  refine ⟨lesser, greater, _, (descriptor m).violations p, rfl, ?_, ?_, ?_, ?_⟩
  · intro name
    rw [← hwith, mem_strangers_descriptor]
  · rw [← hwith]
    exact pairwise_strangers hm _
  · rw [hunmarked, violations_descriptor, contains_remove_of_ne (by decide), if_pos hp, hwithout,
      descriptor_unmarked]
  · rw [violations_descriptor, if_pos hp, hwith]

/-- A mark that is no boolean is held against a request, and refused in a descriptor
    whatever it is. -/
theorem validateDescriptor_agrees_text :
    let m : Json.Members := [
      ("aside", .null), ("lisaHostedModel", .string "yes"), ("status", .null), ("zone", .null)]
    (Json.object m).WellFormed ∧
    (validateRequest .strict (.object m)).violations =
      (validateRequest .strict (.object (Entries.remove m "lisaHostedModel"))).violations ++
        [⟨"lisaHostedModel", .shape, "expected a boolean, found a string"⟩] ∧
    Verdict.NotesUnknown .strict "lisaHostedModel"
      (validateDescriptor .strict (.object (Entries.remove m "lisaHostedModel")))
      (validateDescriptor .strict (.object m)) := by
  intro m
  have hm : (Json.object m).WellFormed := by
    refine ⟨?_, ?_⟩
    · simp only [m, Entries.Ascending]
      decide
    · simp [m, Json.MembersWellFormed, Json.WellFormed]
  obtain ⟨-, -, hmarked⟩ := validateDescriptor_agrees .strict hm
  obtain ⟨hviolations, -, -, hnotes, -⟩ := hmarked m (.string "yes") rfl rfl
  exact ⟨hm, hviolations, hnotes⟩

end Validation

end ModelCatalog
