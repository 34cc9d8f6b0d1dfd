/-
  ModelCatalog/Proofs/Catalog/Lookup.lean
  =======================================
  **A catalog is what it holds for each identifier.**

  Two catalogs that hold the same records are equal (`Catalog.ext`), so an operation is
  told by what it does to each single record: `get?_put` and `get?_takeOut` say that it
  changes that of one identifier and leaves the others alone.
-/
import Mathlib.Data.Finset.Card
import ModelCatalog.Catalog.Basic
import ModelCatalog.Proofs.Entries

namespace ModelCatalog

@[simp] theorem ModelRecord.id_withStatus (record : ModelRecord) (status : Status) :
    ModelRecord.id { record with status } = record.id := rfl

namespace Catalog

variable {c c' : Catalog} {id : String} {record : ModelRecord}

/-- **A catalog is what it holds for each identifier.** -/
theorem ext (h : ∀ id, c.get? id = c'.get? id) : c = c' := by
  have hentries : c.entries = c'.entries := c.ascending.ext c'.ascending h
  cases c
  cases c'
  cases hentries
  rfl

@[simp] theorem get?_empty (id : String) : empty.get? id = none := rfl

@[simp] theorem get?_put (c : Catalog) (r : ModelRecord) (id : String) :
    (c.put r).get? id = if r.id = id then some r else c.get? id :=
  Entries.get?_insert r.id r c.entries id

@[simp] theorem get?_takeOut (c : Catalog) (removed id : String) :
    (c.takeOut removed).get? id = if removed = id then none else c.get? id :=
  Entries.get?_remove c.entries removed id

/-- A record is held under its own identifier. -/
theorem id_of_get? (h : c.get? id = some record) : record.id = id :=
  (c.own _ (Entries.mem_of_get? h)).symm

/-- The size is the number of the identifiers that are present. -/
theorem exists_present (c : Catalog) :
    ∃ present : Finset String,
      (∀ id, id ∈ present ↔ (c.get? id).isSome) ∧ c.size = present.card := by
  refine ⟨⟨Entries.names c.entries, Multiset.coe_nodup.mpr c.ascending.nodup_names⟩, ?_, ?_⟩
  · intro id
    exact Entries.mem_names_iff
  · simp [size, Entries.names]

theorem isEmpty_iff_size (c : Catalog) : c.isEmpty = true ↔ c.size = 0 := by
  simp [isEmpty, size]

end Catalog

end ModelCatalog
