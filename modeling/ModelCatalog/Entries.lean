/-
  ModelCatalog/Entries.lean
  =========================
  **Named entries in ascending order of their names.**

  The members of a JSON object and the models of a catalog are both kept as a list
  of pairs, a name and what it names.  Names ascend by code point, which is also
  the order of their UTF-8 octets.  Every way of building such a list goes through
  `insert` and `remove`, which keep it ascending (`Ascending.insert`,
  `Ascending.remove`); so a name occurs once, and looking one up finds the only
  entry there is.
-/

namespace ModelCatalog

abbrev Entries (α : Type) := List (String × α)

namespace Entries

variable {α : Type}

/-! ### Operations -/

def get? (entries : Entries α) (name : String) : Option α :=
  entries.lookup name

def names (entries : Entries α) : List String :=
  entries.map Prod.fst

def contains (entries : Entries α) (name : String) : Bool :=
  entries.names.contains name

/-- Puts an entry in its place, in the stead of the entry of that name if there
    is one. -/
def insert (name : String) (value : α) : Entries α → Entries α
  | [] => [(name, value)]
  | (n, v) :: rest =>
    if name < n then (name, value) :: (n, v) :: rest
    else if name = n then (name, value) :: rest
    else (n, v) :: insert name value rest

def remove (entries : Entries α) (name : String) : Entries α :=
  entries.filter fun entry => entry.1 != name

/-- Each name stands before all that follow it. -/
def Ascending (entries : Entries α) : Prop :=
  entries.Pairwise fun a b => a.1 < b.1

/-! ### The order is kept -/

/-- Of two names that are neither equal nor in order, the second comes first. -/
theorem name_lt_of_not_lt {a b : String} (hlt : ¬ a < b) (hne : a ≠ b) : b < a := by
  rcases String.le_total a b with h | h
  · exact absurd (String.le_antisymm h (String.not_lt.mp hlt)) hne
  · exact Decidable.byContradiction fun hba =>
      hne (String.le_antisymm (String.not_lt.mp hba) h)

/-- What an insertion holds: the entry itself, or one that was there. -/
theorem mem_insert {name : String} {value : α} {entries : Entries α} {e : String × α}
    (h : e ∈ insert name value entries) : e = (name, value) ∨ e ∈ entries := by
  induction entries with
  | nil => simpa [insert] using h
  | cons head rest ih =>
    obtain ⟨n, v⟩ := head
    unfold insert at h
    split at h
    · simpa using h
    · split at h
      · rcases List.mem_cons.mp h with h | h
        · exact Or.inl h
        · exact Or.inr (List.mem_cons_of_mem _ h)
      · rcases List.mem_cons.mp h with h | h
        · exact Or.inr (h ▸ List.mem_cons_self)
        · exact (ih h).imp_right (List.mem_cons_of_mem _)

theorem Ascending.insert {entries : Entries α} (h : Ascending entries) (name : String)
    (value : α) : Ascending (Entries.insert name value entries) := by
  induction entries with
  | nil => simp [Entries.insert, Ascending]
  | cons head rest ih =>
    obtain ⟨n, v⟩ := head
    obtain ⟨hhead, hrest⟩ := List.pairwise_cons.mp h
    unfold Entries.insert
    split
    · rename_i hlt
      refine List.pairwise_cons.mpr ⟨?_, h⟩
      intro e he
      rcases List.mem_cons.mp he with rfl | he
      · exact hlt
      · exact String.lt_trans hlt (hhead e he)
    · rename_i hlt
      split
      · rename_i heq
        exact List.pairwise_cons.mpr ⟨fun e he => heq ▸ hhead e he, hrest⟩
      · rename_i hne
        refine List.pairwise_cons.mpr ⟨?_, ih hrest⟩
        intro e he
        rcases mem_insert he with rfl | he
        · exact name_lt_of_not_lt hlt hne
        · exact hhead e he

theorem Ascending.remove {entries : Entries α} (h : Ascending entries) (name : String) :
    Ascending (Entries.remove entries name) :=
  h.sublist List.filter_sublist

end Entries

end ModelCatalog
