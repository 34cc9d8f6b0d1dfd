/-
  ModelCatalog/Proofs/Descriptor/Names.lean
  =========================================
  **A name stands for one alternative.**

  What is found under a text has that text for its name (`Named.name_of_ofName`).  Where
  all alternatives are listed and no two have the same name, each is found under its own
  name, so what a text names is what has it for a name (`Named.ofName_eq_ok_iff`).
-/
import Mathlib.Data.List.Nodup
import ModelCatalog.Descriptor.Names

namespace ModelCatalog

/-- All alternatives are listed, and no two of them have the same name. -/
class LawfulNamed (α : Type) [Named α] : Prop where
  mem_all (a : α) : a ∈ (Named.all : List α)
  name_injective : Function.Injective (Named.name : α → String)

namespace LawfulNamed

theorem of_nodup {α : Type} [Named α] (hall : ∀ a : α, a ∈ (Named.all : List α))
    (hnames : ((Named.all : List α).map Named.name).Nodup) : LawfulNamed α :=
  ⟨hall, fun a b h => List.inj_on_of_nodup_map hnames (hall a) (hall b) h⟩

instance : LawfulNamed ModelType := of_nodup (by intro a; cases a <;> decide) (by decide)

instance : LawfulNamed Status := of_nodup (by intro a; cases a <;> decide) (by decide)

end LawfulNamed

namespace Named

variable {α : Type} [Named α] {s : String} {a : α}

theorem name_of_ofName (h : ofName s = .ok a) : name a = s := by
  unfold ofName at h
  split at h
  · rename_i b hb
    cases h
    have hname := List.find?_some hb
    exact beq_iff_eq.mp hname
  · cases h

theorem ofName_name [LawfulNamed α] (a : α) : ofName (name a) = .ok a := by
  have hfound : ((all : List α).find? fun b => name b == name a).isSome :=
    List.find?_isSome.mpr ⟨a, LawfulNamed.mem_all a, beq_self_eq_true _⟩
  obtain ⟨b, hb⟩ := Option.isSome_iff_exists.mp hfound
  have hname : name b = name a := by simpa using List.find?_some hb
  rw [ofName, hb, LawfulNamed.name_injective hname]

/-- **A text names what has it for a name.** -/
theorem ofName_eq_ok_iff [LawfulNamed α] : ofName s = .ok a ↔ name a = s := by
  constructor
  · exact name_of_ofName
  · rintro rfl
    exact ofName_name a

theorem ofName?_eq_some_iff [LawfulNamed α] : ofName? s = some a ↔ name a = s := by
  rw [← ofName_eq_ok_iff, ofName?]
  cases (ofName s : Except UnknownName α) <;> simp [Except.toOption]

/-- A text that names nothing is answered with the names that there are. -/
theorem ofName_eq_error [LawfulNamed α] (h : ∀ a : α, name a ≠ s) :
    (ofName s : Except UnknownName α) = .error ⟨s, (all : List α).map name⟩ := by
  have hnone : (all : List α).find? (fun a => name a == s) = none := by
    rw [List.find?_eq_none]
    intro a _
    simpa using h a
  rw [ofName, hnone]

end Named

end ModelCatalog
