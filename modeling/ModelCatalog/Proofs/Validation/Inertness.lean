/-
  ModelCatalog/Proofs/Validation/Inertness.lean
  =============================================
  **Members without a meaning are inert.**

  An input and what is left of it without its strays are read alike but for the strays
  (`agreement_surveyRequest`): a stray can only be found itself, or hide that the bounds of
  scaling are out of order, and a lenient policy takes no notice of either
  (`outcome_of_agreement`).  So the two policies about such members see the same ones, one
  in its log and the other in its report (`validateRequest_strip`).
-/
import ModelCatalog.Log
import ModelCatalog.Proofs.Validation.Congruence
import ModelCatalog.Proofs.Validation.Strays

namespace ModelCatalog

/-- A fault as it is without the members that mean nothing: none of them masks the order
    of bounds. -/
def Fault.unmasked : Fault → Fault
  | .capacityOrder maxCapacity _ => .capacityOrder maxCapacity false
  | fault => fault

def Finding.unmasked (f : Finding) : Finding := ⟨f.location, f.fault.unmasked⟩

/-- Only a member without a meaning is reported in its words. -/
theorem Fault.reason_eq_iff {fault : Fault} :
    fault.reason = "is not a recognized field" ↔ fault = .unrecognized := by
  have hopening : ∀ {s rest : String}, s ++ rest = "is not a recognized field" →
      s.toList.head? = none ∨ s.toList.head? = some 'i' := by
    intro s rest h
    have hhead : (s ++ rest).toList.head? = some 'i' := by simp [h]
    rw [String.toList_append] at hhead
    -- an empty opening says nothing, and any other brings the first letter
    cases hs : s.toList with
    | nil => exact Or.inl rfl
    | cons c cs =>
      rw [hs] at hhead
      exact Or.inr hhead
  constructor
  · intro h
    cases fault with
    | unrecognized => rfl
    | expected what found =>
      have hreason : (Fault.expected what found).reason =
          "expected " ++ what.phrase ++ ", found " ++ found.phrase := rfl
      rw [hreason, String.append_assoc, String.append_assoc] at h
      exact absurd (hopening h) (by decide)
    | unknownName u =>
      have hreason : (Fault.unknownName u).reason =
          "'" ++ u.given ++ "' is not one of: " ++ ", ".intercalate u.expected := rfl
      rw [hreason, String.append_assoc, String.append_assoc] at h
      exact absurd (hopening h) (by decide)
    | tooSmall least => exact absurd (hopening h) (by decide)
    | capacityOrder maxCapacity masked =>
      have hreason : (Fault.capacityOrder maxCapacity masked).reason =
          "must be less than or equal to maxCapacity (" ++ toString maxCapacity.toNat ++ ")" := rfl
      rw [hreason, String.append_assoc] at h
      exact absurd (hopening h) (by decide)
    | _ => exact absurd h (by decide)
  · rintro rfl
    rfl

namespace Validation

open Survey

/-! ### Alike but for the strays -/

/-- What is found beside the strays. -/
def settled (found : List Finding) : List Finding :=
  (found.filter fun f => f.fault ≠ .unrecognized).map Finding.unmasked

theorem settled_append (found found' : List Finding) :
    settled (found ++ found') = settled found ++ settled found' := by
  simp [settled]

theorem settled_under (s : Segment) (found : List Finding) :
    settled (found.map (Finding.under s)) = (settled found).map (Finding.under s) := by
  simp only [settled, List.filter_map, List.map_map]
  rfl

theorem settled_noteUnrecognized (known : List String) (m : Json.Members) :
    settled (noteUnrecognized known m).findings = [] := by
  rw [settled, List.map_eq_nil_iff, List.filter_eq_nil_iff, findings_noteUnrecognized]
  intro f hf
  obtain ⟨b, hb, f', hf', rfl⟩ := mem_gather.mp hf
  obtain ⟨name, -, rfl⟩ := List.mem_map.mp hb
  simp [List.mem_singleton.mp hf']

/-- Whether the bounds are compared, and what is found then, does not depend on strays. -/
theorem settled_orderFindings (x : Survey ScalingConfig) :
    settled (orderFindings x) =
      if !((settled x.findings).any fun f => f.location.EndsWith "Capacity") &&
          x.value.maxCapacity < x.value.minCapacity then
        [⟨[.key "minCapacity"], .capacityOrder x.value.maxCapacity false⟩]
      else [] := by
  -- only what is at fault beside the strays keeps the bounds from being compared
  have hfaulty : ((x.findings.filter fun f => f.location.EndsWith "Capacity").any
      fun f => f.fault ≠ .unrecognized) =
        (settled x.findings).any fun f => f.location.EndsWith "Capacity" := by
    simp only [settled, List.any_map, List.any_filter]
    congr 1
    funext f
    exact Bool.and_comm _ _
  unfold orderFindings
  simp only [hfaulty]
  split
  · simp [settled, Finding.unmasked, Fault.unmasked]
  · simp [settled]

/-- Two surveys agree if they read the same, and find the same but for strays. -/
def agreement : Survey.Congruence where
  Alike x y := x.value = y.value ∧ settled x.findings = settled y.findings
  refl _ := ⟨rfl, rfl⟩
  bind := by
    rintro α β x y f g ⟨hvalue, hfindings⟩ h
    obtain ⟨hvalue', hfindings'⟩ := h x.value
    constructor
    · rw [value_bind, value_bind, hvalue', hvalue]
    · rw [findings_bind, findings_bind, settled_append, settled_append, hfindings, hfindings',
        hvalue]
  under := by
    rintro α x y s ⟨hvalue, hfindings⟩
    refine ⟨hvalue, ?_⟩
    rw [findings_under, findings_under, settled_under, settled_under, hfindings]
  checked := by
    rintro x y ⟨hvalue, hfindings⟩
    constructor
    · rw [value_checkCapacityOrder, value_checkCapacityOrder, hvalue]
    · rw [findings_checkCapacityOrder, findings_checkCapacityOrder, settled_append, settled_append,
        settled_orderFindings, settled_orderFindings, hfindings, hvalue]

theorem agreement_noteUnrecognized (known : List String) (m m' : Json.Members) :
    agreement.Alike (noteUnrecognized known m) (noteUnrecognized known m') := by
  refine ⟨rfl, ?_⟩
  rw [settled_noteUnrecognized, settled_noteUnrecognized]

/-- The entries of an environment are read alike without their strays, if that is so of
    entries that are objects. -/
theorem agreement_entries
    (hentry : ∀ m, agreement.Alike (environmentEntry (.object (Part.entry.strip m)))
      (environmentEntry (.object m))) (entries : List Json) :
    agreement.Given .environment (some (.array (stripEntries entries)))
      (some (.array entries)) := by
  refine Survey.Congruence.entries ?_ 0
  induction entries with
  | nil => exact .nil
  | cons x entries ih =>
    refine .cons ?_ ih
    cases x with
    | object m =>
      simp only [Form.strip]
      exact hentry m
    | _ =>
      simp only [Form.strip]
      exact agreement.refl _

/-- A field is read alike without its strays, if that is so of the parts below it. -/
theorem agreement_form_of_parts {form : Form} (v : Option Json)
    (hpart : ∀ q, form = .part q → ∀ m,
      agreement.Alike (q.read (some (.object (q.strip m)))) (q.read (some (.object m))))
    (hentry : form = .environment → ∀ m, agreement.Alike
      (environmentEntry (.object (Part.entry.strip m))) (environmentEntry (.object m))) :
    agreement.Given form (v.map form.strip) v := by
  rcases v with _ | v
  · exact agreement.given_refl form none
  rw [Option.map_some]
  cases form with
  | leaf l =>
    simp only [Form.strip]
    exact agreement.given_refl _ _
  | part q =>
    cases v with
    | object m =>
      simp only [Form.strip]
      exact hpart q rfl m
    | _ =>
      simp only [Form.strip]
      exact agreement.given_refl _ _
  | environment =>
    cases v with
    | array entries =>
      simp only [Form.strip]
      exact agreement_entries (hentry rfl) entries
    | _ =>
      simp only [Form.strip]
      exact agreement.given_refl _ _

/-- **A part is read alike without its strays.** -/
theorem agreement_strip (q : Part) : ∀ m,
    agreement.Alike (q.read (some (.object (q.strip m)))) (q.read (some (.object m))) := by
  induction q using Part.induction with
  | step q ihpart ihentry =>
    intro m
    apply Survey.Congruence.object
    constructor
    case strangers => exact agreement_noteUnrecognized _ _ _
    case status =>
      rintro rfl
      rw [Bool.eq_iff_iff, Entries.contains, Entries.contains, List.contains_iff_mem,
        List.contains_iff_mem, names_strip]
      simp [Part.known]
    case fields =>
      intro name form hfield
      rw [given_strip hfield]
      apply agreement_form_of_parts
      · rintro q' rfl
        exact ihpart name q' hfield
      · rintro rfl
        exact ihentry name hfield

/-- **An input and what is left of it are read alike.** -/
theorem agreement_surveyRequest (v : Json) :
    agreement.Alike (surveyRequest (strip v)) (surveyRequest v) := by
  cases v with
  | object m =>
    simp only [strip, Form.strip]
    exact agreement_strip .request m
  | _ =>
    simp only [strip, Form.strip]
    exact agreement.refl _

/-! ### Verdicts -/

variable {p : Policy}

theorem counts_unmasked (hp : p.unknownFields = .permissive) (fault : Fault) :
    fault.unmasked.counts p = fault.counts p := by
  cases fault with
  | capacityOrder maxCapacity masked => simp [Fault.unmasked, Fault.counts, hp]
  | _ => rfl

/-- A lenient policy takes no notice of strays. -/
theorem violations_settled {α : Type} (hp : p.unknownFields = .permissive) (x : Survey α) :
    x.violations p = (settled x.findings).filterMap (Finding.violation? p) := by
  have hone : ∀ f : Finding, f.unmasked.violation? p = f.violation? p := by
    intro f
    have hkind : f.fault.unmasked.kind = f.fault.kind := by cases f.fault <;> rfl
    have hreason : f.fault.unmasked.reason = f.fault.reason := by cases f.fault <;> rfl
    simp only [Finding.violation?, Finding.unmasked, counts_unmasked hp, hkind, hreason]
  have hcounts : Fault.unrecognized.counts p = false := by simp [Fault.counts, hp]
  -- what `settled` leaves out is no violation, and what it changes is the same violation
  rw [Survey.violations, settled, List.filterMap_map, List.filterMap_filter]
  apply List.filterMap_congr
  intro f _
  by_cases h : f.fault = .unrecognized
  · simp [Finding.violation?, h, hcounts]
  · simp [h, hone]

/-- **Surveys that agree come to the same under a lenient policy.** -/
theorem outcome_of_agreement {α : Type} (hp : p.unknownFields = .permissive) {x y : Survey α}
    (h : agreement.Alike x y) : (x.judge p).outcome = (y.judge p).outcome := by
  obtain ⟨hvalue, hfindings⟩ := h
  rw [outcome_judge, outcome_judge, violations_settled hp, violations_settled hp, hfindings,
    hvalue]

/-- A lenient policy drops the strays, and says so in the order in which they are found. -/
theorem log_judge {α : Type} (hp : p.unknownFields = .permissive) (x : Survey α) :
    (x.judge p).log =
      (x.findings.filterMap Finding.stray?).map fun l => .dropped (Location.text l) := by
  have hone : ∀ f : Finding, f.dropped? p = f.stray?.map Location.text := by
    intro f
    by_cases h : f.fault = .unrecognized <;> simp [Finding.dropped?, Finding.stray?, h, hp]
  rw [Verdict.log, Survey.judge, funext hone, ← List.map_filterMap, List.map_map]
  rfl

/-- Violations are told apart by their reasons as findings are by their faults. -/
theorem filter_reason (found : List Finding) (wanted : Bool) :
    ((found.filterMap (Finding.violation? p)).filter fun x =>
      decide (x.reason = "is not a recognized field") == wanted) =
        (found.filter fun f => decide (f.fault = .unrecognized) == wanted).filterMap
          (Finding.violation? p) := by
  rw [List.filter_filterMap, List.filterMap_filter]
  apply List.filterMap_congr
  intro f _
  have hreason : decide (f.fault.reason = "is not a recognized field") =
      decide (f.fault = .unrecognized) := decide_eq_decide.mpr Fault.reason_eq_iff
  by_cases hcounts : f.fault.counts p = true
  · simp only [Finding.violation?, if_pos hcounts, Option.filter_some, hreason]
  · simp only [Finding.violation?, if_neg hcounts, Option.filter_none, ite_self]

/-- A strict policy refuses the strays. -/
theorem paths_refused (hp : p.unknownFields = .strict) (found : List Finding) :
    ((found.filterMap (Finding.violation? p)).filter fun x =>
      x.reason = "is not a recognized field").map Violation.path =
        (found.filterMap Finding.stray?).map Location.text := by
  have hwanted := filter_reason (p := p) found true
  simp only [beq_true] at hwanted
  rw [hwanted, List.filterMap_filter, List.map_filterMap, List.map_filterMap]
  apply List.filterMap_congr
  intro f _
  by_cases h : f.fault = .unrecognized
  · simp [Finding.violation?, Finding.stray?, h, Fault.counts, hp]
  · simp [Finding.stray?, h]

/-- Where the order of bounds is of no account, a strict policy asks no more than a lenient
    one beside refusing the strays. -/
theorem violations_beside_refused (identifiers : IdentifierPolicy) (found : List Finding) :
    ((found.filterMap (Finding.violation? ⟨.strict, identifiers, false⟩)).filter fun x =>
      x.reason ≠ "is not a recognized field") =
        found.filterMap (Finding.violation? ⟨.permissive, identifiers, false⟩) := by
  have hwanted := filter_reason (p := ⟨.strict, identifiers, false⟩) found false
  simp only [beq_false, ← decide_not] at hwanted
  rw [hwanted, List.filterMap_filter]
  apply List.filterMap_congr
  intro f _
  by_cases h : f.fault = .unrecognized
  · simp [Finding.violation?, h, Fault.counts]
  · have hcounts : f.fault.counts ⟨.permissive, identifiers, false⟩ =
        f.fault.counts ⟨.strict, identifiers, false⟩ := by
      cases hfault : f.fault with
      | unrecognized => exact absurd hfault h
      | _ => simp [Fault.counts]
    simp [Finding.violation?, h, hcounts]

/-- **Members without a meaning are inert, and both policies see the same ones.** -/
theorem validateRequest_strip (identifiers : IdentifierPolicy) (order : Bool) (v : Json) :
    (validateRequest ⟨.permissive, identifiers, order⟩ v).outcome =
        (validateRequest ⟨.permissive, identifiers, order⟩ (strip v)).outcome ∧
    (validateRequest ⟨.permissive, identifiers, order⟩ v).log =
        (strays v).map (fun l => .dropped (Location.text l)) ∧
    (validateRequest ⟨.permissive, identifiers, order⟩ (strip v)).log = [] ∧
    ((validateRequest ⟨.strict, identifiers, order⟩ v).violations.filter fun x =>
        x.reason = "is not a recognized field").map Violation.path =
          (strays v).map Location.text ∧
    ((validateRequest ⟨.strict, identifiers, false⟩ v).violations.filter fun x =>
        x.reason ≠ "is not a recognized field") =
          (validateRequest ⟨.permissive, identifiers, false⟩ v).violations ∧
    (∀ root, v = .object root → ∀ l, l ∈ strays v ↔ ∃ l' q m name, Visited root l' q m ∧
        name ∈ Entries.names m ∧ name ∉ q.known ∧ l = l' ++ [.key name]) ∧
    (v.WellFormed → (strays v).Nodup) := by
  refine ⟨?_, ?_, ?_, ?_, ?_, ?_, ?_⟩
  · exact (outcome_of_agreement rfl (agreement_surveyRequest v)).symm
  · rw [validateRequest, log_judge rfl, stray?_surveyRequest]
  · rw [validateRequest, log_judge rfl, stray?_surveyRequest, strays_strip, List.map_nil]
  · rw [validateRequest, violations_judge, Survey.violations, paths_refused rfl,
      stray?_surveyRequest]
  · rw [validateRequest, validateRequest, violations_judge, violations_judge, Survey.violations,
      Survey.violations, violations_beside_refused]
  · rintro root rfl l
    exact mem_strays_iff
  · intro hv
    cases v with
    | object root => exact nodup_strays hv
    | _ => simp [strays, Form.strays, Form.visits]

/-- An object notes its own strays first, and then those within its fields in their order. -/
theorem validateRequest_strip_nested :
    let entry : Json := .object [("key", .string "A"), ("note", .null), ("value", .string "B")]
    let v : Json := .object [
      ("autoScalingConfig", .object [("status", .null)]),
      ("containerConfig", .object [("environment", .array [entry])]),
      ("extra", .null)]
    (validateRequest {} v).outcome = .ok { descriptor := { container := {
      environment := [⟨"A", "B"⟩] } } } ∧
    (validateRequest {} v).log = [
      .dropped "extra", .dropped "containerConfig.environment[0].note",
      .dropped "autoScalingConfig.status"] := by
  intro entry v
  obtain ⟨houtcome, hlog, -⟩ := validateRequest_strip .lenient false v
  refine ⟨houtcome.trans ?_, hlog.trans ?_⟩
  · rfl
  · rw [← stray?_surveyRequest]
    decide

end Validation

end ModelCatalog
