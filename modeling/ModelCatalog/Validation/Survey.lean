/-
  ModelCatalog/Validation/Survey.lean
  ===================================
  **Reading a value and noting everything that is wrong with it.**

  A survey is what was read and what was found on the way, in order.  It never
  stops: where nothing fit to use was found it reads what the field takes when
  nothing is given, and goes on.  What was found is the same under every policy; a
  policy decides afterwards which findings are violations (`Survey.judge`).
-/
import ModelCatalog.Validation.Fault
import ModelCatalog.Validation.Location

namespace ModelCatalog

/-! ### Surveys -/

/-- A fault and the place where it was found. -/
structure Finding where
  location : Location
  fault : Fault
deriving DecidableEq, Repr

/-- What was read, and what was found on the way. -/
structure Survey (α : Type) where
  value : α
  findings : List Finding
deriving DecidableEq, Repr

namespace Survey

variable {α β : Type}

instance : Monad Survey where
  pure a := ⟨a, []⟩
  bind x f := ⟨(f x.value).value, x.findings ++ (f x.value).findings⟩

/-- Reads a value and finds one fault with it, where the survey stands. -/
def flawed (value : α) (fault : Fault) : Survey α :=
  ⟨value, [⟨[], fault⟩]⟩

def flaw (fault : Fault) : Survey Unit :=
  flawed () fault

/-- Moves a survey one step further from the root. -/
def under (s : Segment) (x : Survey α) : Survey α :=
  ⟨x.value, x.findings.map fun f => ⟨s :: f.location, f.fault⟩⟩

@[simp] theorem value_pure (a : α) : (pure a : Survey α).value = a := rfl

@[simp] theorem findings_pure (a : α) : (pure a : Survey α).findings = [] := rfl

@[simp] theorem value_bind (x : Survey α) (f : α → Survey β) :
    (x >>= f).value = (f x.value).value := rfl

@[simp] theorem findings_bind (x : Survey α) (f : α → Survey β) :
    (x >>= f).findings = x.findings ++ (f x.value).findings := rfl

@[simp] theorem value_under (s : Segment) (x : Survey α) : (x.under s).value = x.value := rfl

end Survey

/-! ### Judging -/

/-- The violation that a finding is under a policy, if it is one. -/
def Finding.violation? (p : Policy) (f : Finding) : Option Violation :=
  if f.fault.counts p then some ⟨f.location.text, f.fault.kind, f.fault.reason⟩ else none

/-- The path of the member that a policy drops because of a finding, if it does. -/
def Finding.dropped? (p : Policy) (f : Finding) : Option String :=
  if f.fault = .unrecognized ∧ p.unknownFields = .permissive then some f.location.text
  else none

/-- What comes of an input: what was read, or everything that is wrong with it; and
    the paths of the members that were dropped. -/
structure Verdict (α : Type) where
  outcome : Except Violations α
  dropped : List String

/-- Judges a survey: the value stands if no finding is a violation. -/
def Survey.judge {α : Type} (p : Policy) (x : Survey α) : Verdict α :=
  let violations := x.findings.filterMap (Finding.violation? p)
  ⟨if violations.isEmpty then .ok x.value else .error violations,
    x.findings.filterMap (Finding.dropped? p)⟩

end ModelCatalog
