/-
  ModelCatalog/Metrics.lean
  =========================
  **Counting validations.**

  The counters tell how many submitted models were accepted and rejected, and how
  many violations of each kind the rejected ones had.  A registry makes the two
  families of counters known under their names, once.
-/
import ModelCatalog.Failure

namespace ModelCatalog

/-! ### Counters -/

structure Counters where
  accepted : Nat := 0
  rejected : Nat := 0
  shape : Nat := 0
  range : Nat := 0
  enumeration : Nat := 0
deriving DecidableEq, Repr

namespace Counters

/-- Counts a model that was accepted. -/
def accept (c : Counters) : Counters :=
  { c with accepted := c.accepted + 1 }

/-- Counts a model that was rejected, and each of its violations by kind. -/
def reject (c : Counters) (violations : Violations) : Counters :=
  { accepted := c.accepted
    rejected := c.rejected + 1
    shape := c.shape + violations.count .shape
    range := c.range + violations.count .range
    enumeration := c.enumeration + violations.count .enumeration }

end Counters

/-! ### The registry -/

structure CounterFamily where
  name : String
  help : String
deriving DecidableEq, Repr

/-- The families that the library counts in, in the order of their names. -/
def counterFamilies : List CounterFamily :=
  [⟨"model_inventory_validations", "model-inventory validation requests by outcome"⟩,
    ⟨"model_inventory_violations", "model-inventory validation violations by kind"⟩]

structure Registry where
  families : List CounterFamily := []
deriving DecidableEq, Repr

/-- Registers the families of the library; no family is registered twice. -/
def Registry.register (r : Registry) : Except Failure Registry :=
  if counterFamilies.any r.families.contains then
    .error (.metrics "Duplicate metrics collector registration attempted")
  else .ok ⟨r.families ++ counterFamilies⟩

end ModelCatalog
