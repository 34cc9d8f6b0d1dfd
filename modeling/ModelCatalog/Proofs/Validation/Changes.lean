/-
  ModelCatalog/Proofs/Validation/Changes.lean
  ===========================================
  **A change of one object, seen from the root.**

  `Json.changeAt` changes the members of the object at a location and leaves all around it
  as it was.  On the way to the root such a change stays inside one field of each object
  (`Beside`), or inside one item of an environment.  So two changes of a visited object
  can be compared at the root as soon as they can be compared where they are made, in any
  way that lasts through these two steps (`Visited.lift`); being read alike is such a way
  (`Visited.alike`).
-/
import ModelCatalog.Proofs.Validation.Congruence
import ModelCatalog.Proofs.Validation.Coverage

namespace ModelCatalog

/-! ### Changes -/

/-- Changes the value of a name. -/
def Entries.modify {α : Type} (name : String) (change : α → α) (entries : Entries α) :
    Entries α :=
  entries.map fun e => if e.1 = name then (e.1, change e.2) else e

/-- Changes the members of the object at a location, if there is one. -/
def Json.changeAt (change : Json.Members → Json.Members) : Location → Json → Json
  | [], .object m => .object (change m)
  | .key name :: l, .object m => .object (Entries.modify name (changeAt change l) m)
  | .index i :: l, .array items => .array (items.modify i (changeAt change l))
  | _, v => v

namespace Entries

variable {α : Type} (name : String) (change : α → α) (entries : Entries α)

theorem names_modify : names (modify name change entries) = names entries := by
  rw [names, modify, List.map_map]
  apply List.map_congr_left
  intro e _
  by_cases h : e.1 = name <;> simp [h]

theorem get?_modify (wanted : String) :
    get? (modify name change entries) wanted =
      if name = wanted then (get? entries wanted).map change else get? entries wanted := by
  induction entries with
  | nil => simp [modify, get?]
  | cons e entries ih =>
    obtain ⟨n, v⟩ := e
    rw [modify] at ih ⊢
    by_cases hn : n = name
    · subst hn
      rw [List.map_cons, if_pos rfl, get?_cons, get?_cons, ih]
      by_cases h : n = wanted <;> simp [h]
    · rw [List.map_cons, if_neg hn, get?_cons, get?_cons, ih]
      by_cases h : n = wanted
      · subst h
        simp [Ne.symm hn]
      · simp [h]

theorem modify_id : modify name id entries = entries := by
  rw [modify]
  simp

end Entries

namespace Json

variable (change : Members → Members)

/-- A change further on is a change of the member it lies in. -/
theorem changeAt_append_key (name : String) (l l' : Location) (v : Json) :
    changeAt change (l ++ .key name :: l') v =
      changeAt (Entries.modify name (changeAt change l')) l v := by
  induction l generalizing v with
  | nil => cases v <;> rfl
  | cons s l ih =>
    have hrest : changeAt change (l ++ .key name :: l') =
        changeAt (Entries.modify name (changeAt change l')) l := funext ih
    cases s <;> cases v <;> simp [changeAt, hrest]

theorem changeAt_id (l : Location) (v : Json) : changeAt id l v = v := by
  induction l generalizing v with
  | nil => cases v <;> rfl
  | cons s l ih =>
    have hrest : changeAt id l = id := funext ih
    cases s <;> cases v <;> simp [changeAt, hrest, Entries.modify_id]

end Json

namespace Validation

open Survey

/-! ### Changes of one field -/

/-- Two objects with the same names that differ at most in what is given for one of them. -/
structure Beside (name : String) (m m' : Json.Members) : Prop where
  names : Entries.names m = Entries.names m'
  others : ∀ other, other ≠ name → given m other = given m' other

theorem given_modify_of_ne {name other : String} (h : other ≠ name) (change : Json → Json)
    (m : Json.Members) : given (Entries.modify name change m) other = given m other := by
  unfold given
  rw [Entries.get?_modify, if_neg (Ne.symm h)]

theorem given_modify {name : String} {m : Json.Members} {v : Json}
    (hgiven : given m name = some v) {change : Json → Json} (hnull : change v ≠ .null) :
    given (Entries.modify name change m) name = some (change v) := by
  have hget : Entries.get? m name = some v := by
    unfold given at hgiven
    split at hgiven
    · simp at hgiven
    · exact hgiven
  unfold given
  rw [Entries.get?_modify, if_pos rfl, hget, Option.map_some]
  split
  · rename_i heq
    exact absurd (Option.some.inj heq) hnull
  · rfl

/-- A change of the object that a field holds. -/
theorem given_changeAt_object {m m' : Json.Members} {name : String}
    (hgiven : given m name = some (.object m')) (change : Json.Members → Json.Members) :
    given (Entries.modify name (Json.changeAt change []) m) name = some (.object (change m')) :=
  given_modify hgiven (by simp [Json.changeAt])

/-- A change of an object in the list that a field holds. -/
theorem given_changeAt_item {m m' : Json.Members} {name : String} {items : List Json} {i : Nat}
    (hgiven : given m name = some (.array items)) (hi : items[i]? = some (.object m'))
    (change : Json.Members → Json.Members) :
    given (Entries.modify name (Json.changeAt change [.index i]) m) name =
      some (.array (items.take i ++ .object (change m') :: items.drop (i + 1))) := by
  obtain ⟨hlength, hitem⟩ := List.getElem?_eq_some_iff.mp hi
  have hchange : Json.changeAt change [.index i] (.array items) =
      .array (items.take i ++ .object (change m') :: items.drop (i + 1)) := by
    simp only [Json.changeAt]
    rw [List.modify_eq_take_cons_drop hlength, hitem]
    rfl
  rw [given_modify hgiven (by simp [Json.changeAt]), hchange]

theorem beside_modify (name : String) (change change' : Json → Json) (m : Json.Members) :
    Beside name (Entries.modify name change m) (Entries.modify name change' m) where
  names := by rw [Entries.names_modify, Entries.names_modify]
  others other hother := by rw [given_modify_of_ne hother, given_modify_of_ne hother]

theorem Beside.strangers {name : String} {m m' : Json.Members} (h : Beside name m m')
    (known : List String) : strangers known m = strangers known m' := by
  have hnames : m.map Prod.fst = m'.map Prod.fst := h.names
  rw [Validation.strangers, Validation.strangers, hnames]

theorem Beside.noteUnrecognized {name : String} {m m' : Json.Members} (h : Beside name m m')
    (known : List String) :
    Validation.noteUnrecognized known m = Validation.noteUnrecognized known m' := by
  apply Survey.ext (Subsingleton.elim _ _)
  rw [findings_noteUnrecognized, findings_noteUnrecognized, h.strangers]

theorem Beside.contains {name : String} {m m' : Json.Members} (h : Beside name m m')
    (wanted : String) : Entries.contains m wanted = Entries.contains m' wanted := by
  rw [Entries.contains, Entries.contains, h.names]

/-! ### From a visited object to the root -/

/-- **A comparison of changes is made where they are made.**  A comparison that passes from
    what a field holds to the object, and from an item to the environment it stands in,
    passes from a visited object to the root. -/
theorem Visited.lift {P : Location → Part → Json.Members → Json.Members → Prop}
    (hpart : ∀ {l q q' name m m' x x'}, (name, Form.part q') ∈ q.fields →
      Beside name m m' → given m name = some (.object x) → given m' name = some (.object x') →
      P l q' x x' → P (.key name :: l) q m m')
    (hentry : ∀ {l q name m m' before x x' after}, (name, Form.environment) ∈ q.fields →
      Beside name m m' → given m name = some (.array (before ++ .object x :: after)) →
      given m' name = some (.array (before ++ .object x' :: after)) →
      P l .entry x x' → P (.key name :: .index before.length :: l) q m m')
    {root : Json.Members} {l : Location} {q : Part} {m : Json.Members}
    (h : Visited root l q m) (change change' : Json.Members → Json.Members)
    (hchange : P [] q (change m) (change' m)) :
    ∃ r r', Json.changeAt change l (.object root) = .object r ∧
      Json.changeAt change' l (.object root) = .object r' ∧ P l .request r r' := by
  -- the changes move up while the location below them grows
  suffices hsuffix : ∀ below change change', P below q (change m) (change' m) →
      ∃ r r', Json.changeAt change l (.object root) = .object r ∧
        Json.changeAt change' l (.object root) = .object r' ∧ P (l ++ below) .request r r' by
    simpa using hsuffix [] change change' hchange
  clear hchange change change'
  induction h with
  | root =>
    intro below change change' hchange
    exact ⟨change root, change' root, rfl, rfl, hchange⟩
  | @part l q q' m m' name hvisited hfield hgiven ih =>
    intro below change change' hchange
    have hparent := hpart hfield
      (beside_modify name (Json.changeAt change []) (Json.changeAt change' []) m)
      (given_changeAt_object hgiven change) (given_changeAt_object hgiven change') hchange
    rw [List.append_assoc, Json.changeAt_append_key, Json.changeAt_append_key]
    exact ih (.key name :: below) _ _ hparent
  | @entry l q m m' name entries i hvisited hfield hgiven hi ih =>
    intro below change change' hchange
    have hlength : i ≤ entries.length := Nat.le_of_lt (List.getElem?_eq_some_iff.mp hi).1
    have hparent := hentry hfield
      (beside_modify name (Json.changeAt change [.index i]) (Json.changeAt change' [.index i]) m)
      (given_changeAt_item hgiven hi change) (given_changeAt_item hgiven hi change') hchange
    rw [List.length_take_of_le hlength] at hparent
    rw [List.append_assoc, Json.changeAt_append_key, Json.changeAt_append_key]
    exact ih (.key name :: .index i :: below) _ _ hparent

theorem Part.form_unique {q : Part} {name : String} {form form' : Form}
    (h : (name, form) ∈ q.fields) (h' : (name, form') ∈ q.fields) : form' = form := by
  have hlookup := (Entries.lookup_eq_some_iff_of_nodup q.nodup_fields).mpr h
  rw [(Entries.lookup_eq_some_iff_of_nodup q.nodup_fields).mpr h'] at hlookup
  exact Option.some.inj hlookup

variable {C : Survey.Congruence}

/-- Objects that differ in one field are read alike if that field is. -/
theorem Beside.fields {q : Part} {name : String} {form : Form} {m m' : Json.Members}
    (h : Beside name m m') (hfield : (name, form) ∈ q.fields)
    (hgiven : C.Given form (given m name) (given m' name)) : C.Fields q m m' where
  strangers := h.noteUnrecognized q.known ▸ C.refl _
  status _ := h.contains statusKey
  fields other form' hfield' := by
    by_cases hother : other = name
    · subst hother
      rwa [Part.form_unique hfield hfield']
    · rw [h.others other hother]
      exact C.given_refl _ _

/-- An environment is read alike if the one entry in which it differs is. -/
theorem given_entries {before after : List Json} {x x' : Json}
    (h : C.Alike (environmentEntry x) (environmentEntry x')) :
    C.Given .environment (some (.array (before ++ x :: after)))
      (some (.array (before ++ x' :: after))) := by
  have hsame : ∀ items : List Json, List.Forall₂
      (fun y y' => C.Alike (environmentEntry y) (environmentEntry y')) items items := by
    intro items
    exact List.forall₂_same.mpr fun y _ => C.refl _
  exact Survey.Congruence.entries (List.rel_append (hsame before) (.cons h (hsame after))) 0

/-- **Changes of a visited object that are read alike are read alike as a whole.** -/
theorem Visited.alike {root : Json.Members} {l : Location} {q : Part} {m : Json.Members}
    (h : Visited root l q m) (change change' : Json.Members → Json.Members)
    (hchange : C.Fields q (change m) (change' m)) :
    ∃ r r', Json.changeAt change l (.object root) = .object r ∧
      Json.changeAt change' l (.object root) = .object r' ∧ C.Fields .request r r' := by
  refine h.lift (P := fun _ q m m' => C.Fields q m m') ?_ ?_ change change' hchange
  · intro l q q' name m m' x x' hfield hbeside hgiven hgiven' hx
    apply hbeside.fields hfield
    rw [hgiven, hgiven']
    exact Survey.Congruence.object hx
  · intro l q name m m' before x x' after hfield hbeside hgiven hgiven' hx
    apply hbeside.fields hfield
    rw [hgiven, hgiven']
    exact given_entries (Survey.Congruence.object hx)

end Validation

end ModelCatalog
