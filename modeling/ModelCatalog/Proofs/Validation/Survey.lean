/-
  ModelCatalog/Proofs/Validation/Survey.lean
  ==========================================
  **The algebra of surveys, and what a verdict says about one.**

  What is true of all findings of a survey (`Only`) is true of the findings of its
  parts, so it is proved reader by reader.  A survey `Passes` a policy if none of its
  findings counts under it; a verdict is good exactly then, and its value is that of
  the survey (`outcome_judge_eq_ok_iff`).
-/
import ModelCatalog.Validation.Leaf

namespace ModelCatalog

/-- Moves a finding one step further from the root. -/
def Finding.under (s : Segment) (f : Finding) : Finding := ⟨s :: f.location, f.fault⟩

@[simp] theorem Finding.location_under (s : Segment) (f : Finding) :
    (f.under s).location = s :: f.location := rfl

@[simp] theorem Finding.fault_under (s : Segment) (f : Finding) :
    (f.under s).fault = f.fault := rfl

namespace Survey

variable {α β : Type}

/-! ### Findings of composed surveys -/

theorem ext {x y : Survey α} (hvalue : x.value = y.value) (hfindings : x.findings = y.findings) :
    x = y := by
  cases x
  cases y
  cases hvalue
  cases hfindings
  rfl

@[simp] theorem value_flawed (a : α) (fault : Fault) : (flawed a fault).value = a := rfl

@[simp] theorem findings_flawed (a : α) (fault : Fault) :
    (flawed a fault).findings = [⟨[], fault⟩] := rfl

@[simp] theorem findings_flaw (fault : Fault) : (flaw fault).findings = [⟨[], fault⟩] := rfl

@[simp] theorem findings_under (s : Segment) (x : Survey α) :
    (x.under s).findings = x.findings.map (Finding.under s) := rfl

@[simp] theorem value_field (members : Json.Members) (name : String)
    (read : Option Json → Survey α) :
    (Validation.field members name read).value = (read (Validation.given members name)).value :=
  rfl

@[simp] theorem findings_field (members : Json.Members) (name : String)
    (read : Option Json → Survey α) :
    (Validation.field members name read).findings =
      (read (Validation.given members name)).findings.map (Finding.under (.key name)) := rfl

/-! ### What holds of every finding -/

/-- The fault of every finding has a property. -/
def Only (P : Fault → Prop) (x : Survey α) : Prop := ∀ f ∈ x.findings, P f.fault

variable {P : Fault → Prop}

@[simp] theorem only_pure (a : α) : (pure a : Survey α).Only P := by
  simp [Only]

@[simp] theorem only_flawed (a : α) (fault : Fault) : (flawed a fault).Only P ↔ P fault := by
  simp [Only]

@[simp] theorem only_flaw (fault : Fault) : (flaw fault).Only P ↔ P fault := by
  simp [Only]

@[simp] theorem only_bind (x : Survey α) (f : α → Survey β) :
    (x >>= f).Only P ↔ x.Only P ∧ (f x.value).Only P := by
  simp only [Only, findings_bind, List.mem_append, or_imp, forall_and]

@[simp] theorem only_under (s : Segment) (x : Survey α) : (x.under s).Only P ↔ x.Only P := by
  simp [Only]

@[simp] theorem only_field (members : Json.Members) (name : String)
    (read : Option Json → Survey α) :
    (Validation.field members name read).Only P ↔
      (read (Validation.given members name)).Only P :=
  only_under _ _

/-! ### Passing a policy -/

/-- No finding counts under a policy. -/
def Passes (p : Policy) (x : Survey α) : Prop := x.Only fun fault => fault.counts p = false

variable {p : Policy}

@[simp] theorem passes_pure (a : α) : (pure a : Survey α).Passes p := only_pure a

@[simp] theorem passes_flawed (a : α) (fault : Fault) :
    (flawed a fault).Passes p ↔ fault.counts p = false := only_flawed a fault

@[simp] theorem passes_flaw (fault : Fault) :
    (flaw fault).Passes p ↔ fault.counts p = false := only_flaw fault

@[simp] theorem passes_bind (x : Survey α) (f : α → Survey β) :
    (x >>= f).Passes p ↔ x.Passes p ∧ (f x.value).Passes p := only_bind x f

@[simp] theorem passes_under (s : Segment) (x : Survey α) :
    (x.under s).Passes p ↔ x.Passes p := only_under s x

@[simp] theorem passes_field (members : Json.Members) (name : String)
    (read : Option Json → Survey α) :
    (Validation.field members name read).Passes p ↔
      (read (Validation.given members name)).Passes p := only_field members name read

end Survey

/-! ### Verdicts -/

/-- Everything that a verdict holds against the input. -/
def Verdict.violations {α : Type} (v : Verdict α) : Violations :=
  match v.outcome with
  | .ok _ => []
  | .error violations => violations

namespace Survey

variable {α : Type} {p : Policy}

/-- What a policy makes of the findings of a survey. -/
def violations (p : Policy) (x : Survey α) : Violations :=
  x.findings.filterMap (Finding.violation? p)

theorem violations_eq_nil_iff (x : Survey α) : x.violations p = [] ↔ x.Passes p := by
  simp [violations, Passes, Only, Finding.violation?, List.filterMap_eq_nil_iff]

theorem outcome_judge (x : Survey α) :
    (x.judge p).outcome =
      if x.violations p = [] then .ok x.value else .error (x.violations p) := by
  by_cases h : x.violations p = []
  · rw [if_pos h]
    exact if_pos (List.isEmpty_iff.mpr h)
  · rw [if_neg h]
    exact if_neg (mt List.isEmpty_iff.mp h)

theorem violations_judge (x : Survey α) : (x.judge p).violations = x.violations p := by
  simp only [Verdict.violations, outcome_judge]
  by_cases h : x.violations p = []
  · simp only [h, if_true]
  · simp only [h, if_false]

/-- **A survey is accepted exactly if it passes, and then with its value.** -/
theorem outcome_judge_eq_ok_iff {x : Survey α} {a : α} :
    (x.judge p).outcome = .ok a ↔ x.Passes p ∧ x.value = a := by
  rw [outcome_judge, ← violations_eq_nil_iff]
  by_cases h : x.violations p = []
  · simp [h]
  · simp [h]

/-- A lenient verdict drops nothing exactly if every member has a meaning. -/
theorem dropped_judge_eq_nil_iff (x : Survey α) (hp : p.unknownFields = .permissive) :
    (x.judge p).dropped = [] ↔ x.Only (· ≠ .unrecognized) := by
  simp [judge, Only, Finding.dropped?, List.filterMap_eq_nil_iff, hp]

end Survey

end ModelCatalog
