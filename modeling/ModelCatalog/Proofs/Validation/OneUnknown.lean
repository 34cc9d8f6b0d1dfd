/-
  ModelCatalog/Proofs/Validation/OneUnknown.lean
  ==============================================
  **One unknown member more.**

  A survey that finds one unknown member more than another, and reads the same, is judged
  like the other but for this member: a lenient policy drops it, with one more entry in the
  log, and a strict one refuses it, with one more violation (`notesUnknown_judge`).  Where
  the member is noted follows from where it stands among the others (`Inserts`).
-/
import ModelCatalog.Log
import ModelCatalog.Proofs.Entries
import ModelCatalog.Proofs.Validation.Layout

namespace ModelCatalog

/-! ### One element more -/

/-- A list is another one with an element put in somewhere. -/
def Inserts {α : Type} (a : α) (xs ys : List α) : Prop :=
  ∃ before after, xs = before ++ after ∧ ys = before ++ a :: after

namespace Inserts

variable {α β : Type} {a : α} {xs ys : List α}

theorem append_left (h : Inserts a xs ys) (zs : List α) : Inserts a (zs ++ xs) (zs ++ ys) := by
  obtain ⟨before, after, rfl, rfl⟩ := h
  exact ⟨zs ++ before, after, (List.append_assoc ..).symm, (List.append_assoc ..).symm⟩

theorem append_right (h : Inserts a xs ys) (zs : List α) : Inserts a (xs ++ zs) (ys ++ zs) := by
  obtain ⟨before, after, rfl, rfl⟩ := h
  exact ⟨before, after ++ zs, List.append_assoc .., List.append_assoc ..⟩

theorem map (f : α → β) (h : Inserts a xs ys) : Inserts (f a) (xs.map f) (ys.map f) := by
  obtain ⟨before, after, rfl, rfl⟩ := h
  refine ⟨before.map f, after.map f, List.map_append, ?_⟩
  rw [List.map_append, List.map_cons]

theorem filterMap_some {f : α → Option β} {b : β} (h : Inserts a xs ys) (hb : f a = some b) :
    Inserts b (xs.filterMap f) (ys.filterMap f) := by
  obtain ⟨before, after, rfl, rfl⟩ := h
  refine ⟨before.filterMap f, after.filterMap f, List.filterMap_append, ?_⟩
  rw [List.filterMap_append, List.filterMap_cons_some hb]

theorem filterMap_none {f : α → Option β} (h : Inserts a xs ys) (ha : f a = none) :
    ys.filterMap f = xs.filterMap f := by
  obtain ⟨before, after, rfl, rfl⟩ := h
  rw [List.filterMap_append, List.filterMap_append, List.filterMap_cons_none ha]

theorem filter_pos {p : α → Bool} (h : Inserts a xs ys) (ha : p a = true) :
    Inserts a (xs.filter p) (ys.filter p) := by
  obtain ⟨before, after, rfl, rfl⟩ := h
  refine ⟨before.filter p, after.filter p, List.filter_append .., ?_⟩
  rw [List.filter_append, List.filter_cons_of_pos ha]

theorem filter_neg {p : α → Bool} (h : Inserts a xs ys) (ha : ¬ p a) :
    ys.filter p = xs.filter p := by
  obtain ⟨before, after, rfl, rfl⟩ := h
  rw [List.filter_append, List.filter_append, List.filter_cons_of_neg ha]

end Inserts

/-! ### One member more -/

/-- A new member stands somewhere among the others. -/
theorem Entries.inserts_insert {α : Type} {name : String} {entries : Entries α}
    (hfree : get? entries name = none) (value : α) :
    Inserts (name, value) entries (insert name value entries) := by
  induction entries with
  | nil => exact ⟨[], [], rfl, rfl⟩
  | cons e entries ih =>
    obtain ⟨n, v⟩ := e
    rw [get?_cons] at hfree
    have hne : name ≠ n := by
      rintro rfl
      simp at hfree
    rw [if_neg (Ne.symm hne)] at hfree
    unfold insert
    by_cases hlt : name < n
    · rw [if_pos hlt]
      exact ⟨[], (n, v) :: entries, rfl, rfl⟩
    · rw [if_neg hlt, if_neg hne]
      exact (ih hfree).append_left [(n, v)]

/-- A member stands somewhere among those that are left without it. -/
theorem Entries.Ascending.inserts_remove {α : Type} {name : String} {entries : Entries α}
    (hentries : Ascending entries) {value : α} (hget : get? entries name = some value) :
    Inserts (name, value) (Entries.remove entries name) entries := by
  obtain ⟨before, after, rfl⟩ := List.append_of_mem (mem_of_get? hget)
  obtain ⟨-, hafter, hbetween⟩ := List.pairwise_append.mp hentries
  have hkept : ∀ e ∈ before ++ after, (e.1 != name) = true := by
    intro e he
    rw [bne_iff_ne]
    rintro rfl
    rcases List.mem_append.mp he with he | he
    · exact String.lt_irrefl _ (hbetween e he (e.1, value) List.mem_cons_self)
    · exact String.lt_irrefl _ ((List.pairwise_cons.mp hafter).1 e he)
  refine ⟨before, after, ?_, rfl⟩
  rw [Entries.remove, List.filter_append, List.filter_cons, bne_self_eq_false, if_neg (by simp),
    ← List.filter_append, List.filter_eq_self.mpr hkept]

namespace Validation

variable {known : List String} {name : String} {v : Json} {m m' : Json.Members}

/-- An unknown member is one more among those without a meaning. -/
theorem inserts_strangers (h : Inserts (name, v) m m') (hname : name ∉ known) :
    Inserts name (strangers known m) (strangers known m') :=
  (h.map Prod.fst).filter_pos (by simpa using hname)

theorem inserts_noteUnrecognized (h : Inserts (name, v) m m') (hname : name ∉ known) :
    Inserts ⟨[.key name], .unrecognized⟩ (noteUnrecognized known m).findings
      (noteUnrecognized known m').findings :=
  (h.filter_pos (by simpa using hname)).map _

end Validation

/-! ### Verdicts -/

/-- A verdict differs from another by one unknown member at a path. -/
structure Verdict.NotesUnknown {α : Type} (p : Policy) (path : String)
    (without noted : Verdict α) : Prop where
  /-- A lenient policy drops the member, and says so. -/
  dropped : p.unknownFields = .permissive →
    noted.outcome = without.outcome ∧ Inserts (.dropped path) without.log noted.log
  /-- A strict policy refuses it. -/
  refused : p.unknownFields = .strict →
    Inserts ⟨path, .shape, "is not a recognized field"⟩ without.violations noted.violations ∧
      noted.log = without.log

/-- **One unknown member more is dropped or refused**, and nothing else changes. -/
theorem Survey.notesUnknown_judge {α : Type} {x y : Survey α} {l : Location}
    (hvalue : y.value = x.value) (hfindings : Inserts ⟨l, .unrecognized⟩ x.findings y.findings)
    (p : Policy) : Verdict.NotesUnknown p l.text (x.judge p) (y.judge p) where
  dropped hp := by
    have hviolation : Finding.violation? p ⟨l, .unrecognized⟩ = none := by
      simp [Finding.violation?, Fault.counts, hp]
    have hdropped : Finding.dropped? p ⟨l, .unrecognized⟩ = some l.text := by
      simp [Finding.dropped?, hp]
    have hviolations : y.violations p = x.violations p := hfindings.filterMap_none hviolation
    refine ⟨?_, ?_⟩
    · rw [outcome_judge, outcome_judge, hviolations, hvalue]
    · exact (hfindings.filterMap_some hdropped).map LogEntry.dropped
  refused hp := by
    have hcounts : Fault.unrecognized.counts p = true := by simp [Fault.counts, hp]
    have hviolation : Finding.violation? p ⟨l, .unrecognized⟩ =
        some ⟨l.text, .shape, "is not a recognized field"⟩ := if_pos hcounts
    have hdropped : Finding.dropped? p ⟨l, .unrecognized⟩ = none := by
      simp [Finding.dropped?, hp]
    refine ⟨?_, ?_⟩
    · rw [violations_judge, violations_judge]
      exact hfindings.filterMap_some hviolation
    · exact congrArg (List.map LogEntry.dropped) (hfindings.filterMap_none hdropped)

end ModelCatalog
