/-
  ModelCatalog/Proofs/Entries.lean
  ================================
  **What is found under a name.**

  Names ascend, so each stands once, and what is found under a name is the entry of that
  name (`Ascending.get?_eq_some_iff`).  An insertion changes what is found under one name
  and a removal clears it (`get?_insert`, `get?_remove`).  Two lists under whose names the
  same is found are the same list (`Ascending.ext`).
-/
import Mathlib.Data.List.Nodup
import ModelCatalog.Entries

namespace ModelCatalog

namespace Entries

variable {α : Type} {entries : Entries α}

/-! ### Look-ups -/

theorem get?_cons (name : String) (value : α) (entries : Entries α) (wanted : String) :
    get? ((name, value) :: entries) wanted =
      if name = wanted then some value else get? entries wanted := by
  by_cases h : name = wanted
  · simp [get?, h]
  · have hbeq : (wanted == name) = false := beq_eq_false_iff_ne.mpr (Ne.symm h)
    simp [get?, List.lookup_cons, h, hbeq]

theorem get?_insert (name : String) (value : α) (entries : Entries α) (wanted : String) :
    get? (insert name value entries) wanted =
      if name = wanted then some value else get? entries wanted := by
  induction entries with
  | nil => exact get?_cons name value [] wanted
  | cons head rest ih =>
    obtain ⟨n, v⟩ := head
    unfold insert
    split
    · exact get?_cons name value _ wanted
    · split
      · -- the entry of that name gives way
        rename_i heq
        subst heq
        by_cases h : name = wanted <;> simp [get?_cons, h]
      · rename_i hne
        rw [get?_cons, get?_cons, ih]
        by_cases h : n = wanted
        · have hname : name ≠ wanted := fun heq => hne (heq.trans h.symm)
          simp [h, hname]
        · simp [h]

/-- Entries that are put in their places one by one are found by their names, if these
    differ. -/
theorem get?_foldl_insert {added : List (String × α)} (hnames : (added.map Prod.fst).Nodup)
    (entries : Entries α) (name : String) :
    get? (added.foldl (fun done e => insert e.1 e.2 done) entries) name =
      (added.lookup name).or (get? entries name) := by
  induction added generalizing entries with
  | nil => rfl
  | cons e added ih =>
    obtain ⟨n, v⟩ := e
    obtain ⟨hn, hnames⟩ := List.nodup_cons.mp hnames
    rw [List.foldl_cons, ih hnames, get?_insert, List.lookup_cons]
    by_cases h : n = name
    · subst h
      have hlookup : added.lookup n = none := by
        apply List.lookup_eq_none_iff.mpr
        intro e he
        rw [bne_iff_ne]
        rintro rfl
        have hmem : e.1 ∈ added.map Prod.fst := List.mem_map_of_mem he
        exact hn hmem
      simp [hlookup]
    · have hbeq : (name == n) = false := beq_eq_false_iff_ne.mpr (Ne.symm h)
      simp [h, hbeq]

theorem get?_remove (entries : Entries α) (name wanted : String) :
    get? (remove entries name) wanted = if name = wanted then none else get? entries wanted := by
  induction entries with
  | nil => simp [remove, get?]
  | cons head rest ih =>
    obtain ⟨n, v⟩ := head
    by_cases hn : n = name
    · have hdrop : remove ((n, v) :: rest) name = remove rest name := by simp [remove, hn]
      rw [hdrop, ih, get?_cons, hn]
      by_cases h : name = wanted <;> simp [h]
    · have hkeep : remove ((n, v) :: rest) name = (n, v) :: remove rest name := by
        simp [remove, hn]
      rw [hkeep, get?_cons, get?_cons, ih]
      by_cases h : n = wanted
      · have hname : name ≠ wanted := fun heq => hn (h.trans heq.symm)
        simp [h, hname]
      · simp [h]

theorem Ascending.of_names (h : (entries.map Prod.fst).Pairwise (· < ·)) : Ascending entries :=
  List.pairwise_map.mp h

theorem Ascending.nodup_names (h : Ascending entries) : (entries.map Prod.fst).Nodup := by
  apply List.pairwise_map.mpr
  refine List.Pairwise.imp ?_ h
  intro a b hlt heq
  exact String.lt_irrefl _ (heq ▸ hlt)

theorem mem_of_get? {name : String} {value : α} (h : get? entries name = some value) :
    (name, value) ∈ entries := by
  obtain ⟨before, after, rfl, -⟩ := List.lookup_eq_some_iff.mp h
  exact List.mem_append_right _ List.mem_cons_self

/-- Where no key stands twice, an entry is what is found under its key. -/
theorem lookup_eq_some_iff_of_nodup {κ : Type} [BEq κ] [LawfulBEq κ] {entries : List (κ × α)}
    (h : (entries.map Prod.fst).Nodup) {key : κ} {value : α} :
    entries.lookup key = some value ↔ (key, value) ∈ entries := by
  induction entries with
  | nil => simp
  | cons head rest ih =>
    obtain ⟨k, v⟩ := head
    obtain ⟨hk, hrest⟩ := List.nodup_cons.mp h
    rw [List.lookup_cons, List.mem_cons, Prod.mk.injEq]
    by_cases heq : key = k
    · subst heq
      have hfree : (key, value) ∉ rest := fun hmem =>
        hk (List.mem_map.mpr ⟨_, hmem, rfl⟩)
      simp [hfree, eq_comm]
    · have hbeq : (key == k) = false := beq_eq_false_iff_ne.mpr heq
      simp [hbeq, heq, ih hrest]

/-- Names ascend, so an entry is what is found under its name. -/
theorem Ascending.get?_eq_some_iff (h : Ascending entries) {name : String} {value : α} :
    get? entries name = some value ↔ (name, value) ∈ entries :=
  lookup_eq_some_iff_of_nodup h.nodup_names

theorem mem_names_iff {name : String} : name ∈ names entries ↔ (get? entries name).isSome := by
  induction entries with
  | nil => simp [names, get?]
  | cons head rest ih =>
    obtain ⟨n, v⟩ := head
    have hnames : names ((n, v) :: rest) = n :: names rest := rfl
    rw [hnames, List.mem_cons, get?_cons, ih]
    by_cases h : n = name
    · simp [h]
    · simp [h, Ne.symm h]

/-- Two ascending lists with the same look-ups are the same list. -/
theorem Ascending.ext {entries' : Entries α} (h : Ascending entries) (h' : Ascending entries')
    (hget : ∀ name, get? entries name = get? entries' name) : entries = entries' := by
  have hmem : ∀ e, e ∈ entries ↔ e ∈ entries' := by
    rintro ⟨name, value⟩
    rw [← h.get?_eq_some_iff, ← h'.get?_eq_some_iff, hget]
  have hnodup : entries.Nodup := List.Nodup.of_map _ h.nodup_names
  have hnodup' : entries'.Nodup := List.Nodup.of_map _ h'.nodup_names
  have hperm : entries.Perm entries' := (List.perm_ext_iff_of_nodup hnodup hnodup').mpr hmem
  refine hperm.eq_of_pairwise ?_ h h'
  intro a b _ _ hab hba
  exact absurd (String.lt_trans hab hba) (String.lt_irrefl _)

end Entries

end ModelCatalog
