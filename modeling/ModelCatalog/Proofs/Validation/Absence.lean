/-
  ModelCatalog/Proofs/Validation/Absence.lean
  ===========================================
  **A field that is not there, one that is null and one that is empty mean the same.**

  Null gives nothing.  An object without members is read as one that is not given
  (`read_empty`): the fields take the values which the whole takes then.  An environment
  without variables is the initial one.  So an object is read alike whether a field of it
  is void or missing (`fields_void`), and by `Visited.alike` the input is too, whatever
  else is in it.
-/
import ModelCatalog.Proofs.Validation.Changes
import ModelCatalog.Proofs.Validation.StatusMember

namespace ModelCatalog.Validation

open Survey

/-- The values that say no more than a missing field does. -/
def Form.voids : Form → List Json
  | .leaf _ => [.null]
  | .part _ => [.null, .object []]
  | .environment => [.null, .array [], .object []]

/-! ### Nothing in an object -/

theorem Part.field_ne_entry {q q' : Part} {name : String}
    (h : (name, Form.part q') ∈ q.fields) : q' ≠ .entry := by
  rintro rfl
  revert h
  cases q <;> simp [Part.fields]

/-- An object without members is read as one that is not given. -/
theorem read_empty {q q' : Part} {name : String} (h : (name, Form.part q') ∈ q.fields) :
    q'.read (some (.object [])) = q'.read none := by
  cases q' with
  | request => exact absurd rfl (Part.field_ne_request h)
  | entry => exact absurd rfl (Part.field_ne_entry h)
  | _ => rfl

/-- What is void is read as if nothing were given. -/
theorem given_void {q : Part} {name : String} {form : Form} {v : Json}
    (hfield : (name, form) ∈ q.fields) (hv : v ∈ form.voids) (hnull : v ≠ .null) :
    Congruence.same.Given form (some v) none := by
  cases form with
  | leaf l => exact absurd (List.mem_singleton.mp hv) hnull
  | part q' =>
    simp only [Form.voids, List.mem_cons, hnull, List.not_mem_nil, or_false, false_or] at hv
    subst hv
    exact read_empty hfield
  | environment =>
    simp only [Form.voids, List.mem_cons, hnull, List.not_mem_nil, or_false, false_or] at hv
    rcases hv with rfl | rfl
    · rfl
    · rfl

/-! ### Inserted and removed members -/

theorem given_insert_null (m : Json.Members) (name : String) :
    given (Entries.insert name .null m) name = none := by
  unfold given
  rw [Entries.get?_insert, if_pos rfl]

theorem given_insert_self {v : Json} (hnull : v ≠ .null) (m : Json.Members) (name : String) :
    given (Entries.insert name v m) name = some v := by
  unfold given
  rw [Entries.get?_insert, if_pos rfl]
  cases v with
  | null => exact absurd rfl hnull
  | _ => rfl

theorem given_remove (m : Json.Members) (name wanted : String) :
    given (Entries.remove m name) wanted = if name = wanted then none else given m wanted := by
  unfold given
  rw [Entries.get?_remove]
  by_cases h : name = wanted <;> simp [h]

/-- A known name is missed by no one. -/
theorem strangers_remove {known : List String} {removed : String} (h : removed ∈ known)
    (m : Json.Members) : strangers known (Entries.remove m removed) = strangers known m := by
  rw [strangers, strangers, Entries.remove, List.filter_map, List.filter_map, List.filter_filter]
  congr 1
  apply List.filter_congr
  intro e _
  by_cases hname : e.1 = removed
  · simp [hname, h]
  · simp [hname]

theorem contains_remove_of_ne {name wanted : String} (h : name ≠ wanted) (m : Json.Members) :
    Entries.contains (Entries.remove m name) wanted = Entries.contains m wanted := by
  rw [Bool.eq_iff_iff, Entries.contains, Entries.contains, List.contains_iff_mem,
    List.contains_iff_mem, Entries.mem_names_iff, Entries.mem_names_iff, Entries.get?_remove,
    if_neg h]

theorem contains_insert_of_ne {name wanted : String} (h : name ≠ wanted) (v : Json)
    (m : Json.Members) :
    Entries.contains (Entries.insert name v m) wanted = Entries.contains m wanted := by
  rw [Bool.eq_iff_iff, Entries.contains, Entries.contains, List.contains_iff_mem,
    List.contains_iff_mem, Entries.mem_names_iff, Entries.mem_names_iff, Entries.get?_insert,
    if_neg h]

/-! ### Void and missing fields -/

/-- **An object with a void field is read as one without it.** -/
theorem fields_void {q : Part} {name : String} {form : Form} {v : Json}
    (hfield : (name, form) ∈ q.fields) (hv : v ∈ form.voids) (m : Json.Members) :
    Congruence.same.Fields q (Entries.insert name v m) (Entries.remove m name) := by
  have hkeys : name ∈ q.keys := Part.mem_keys hfield
  constructor
  case strangers =>
    apply Survey.ext (Subsingleton.elim _ _)
    rw [findings_noteUnrecognized, findings_noteUnrecognized,
      strangers_insert (Part.mem_known hkeys), strangers_remove (Part.mem_known hkeys)]
  case status =>
    rintro rfl
    have hname : name ≠ statusKey := by
      rintro rfl
      exact absurd hkeys (by decide)
    rw [contains_insert_of_ne hname, contains_remove_of_ne hname]
  case fields =>
    intro other form' hfield'
    by_cases hother : name = other
    · subst hother
      obtain rfl := Part.form_unique hfield hfield'
      rw [given_remove, if_pos rfl]
      by_cases hnull : v = .null
      · subst hnull
        rw [given_insert_null]
        exact Congruence.same.given_refl _ _
      · rw [given_insert_self hnull]
        exact given_void hfield hv hnull
    · rw [given_insert_of_ne v hother, given_remove, if_neg hother]
      exact Congruence.same.given_refl _ _

/-- **Nothing, null and empty mean the same**, for every field of every object that is
    read, under every policy. -/
theorem validateRequest_void (p : Policy) {root : Json.Members} {l : Location} {q : Part}
    {m : Json.Members} (h : Visited root l q m) {name : String} {form : Form}
    (hfield : (name, form) ∈ q.fields) {v : Json} (hv : v ∈ form.voids) :
    validateRequest p (Json.changeAt (Entries.insert name v) l (.object root)) =
      validateRequest p (Json.changeAt (Entries.remove · name) l (.object root)) := by
  obtain ⟨r, r', hset, hremoved, halike⟩ :=
    h.alike (Entries.insert name v) (Entries.remove · name) (fields_void hfield hv m)
  have hsurvey : surveyRequest (.object r) = surveyRequest (.object r') :=
    Congruence.object halike
  rw [hset, hremoved, validateRequest, validateRequest, hsurvey]

/-- An image without any members is no image. -/
theorem validateRequest_empty_image :
    validateRequest .strict (.object [("containerConfig", .object [("image", .object [])])]) =
      validateRequest .strict (.object [("containerConfig", .object [])]) := by
  have hcontainer : Visited [("containerConfig", .object [])] [.key "containerConfig"]
      .container [] := Visited.part .root (by decide) rfl
  have himage : ("image", Form.part .image) ∈ Part.container.fields := by decide
  have hvoid : Json.object [] ∈ (Form.part .image).voids := by simp [Form.voids]
  exact validateRequest_void .strict hcontainer himage hvoid

end ModelCatalog.Validation
