/-
  ModelCatalog/Proofs/Settings/Variables.lean
  ===========================================
  **Variables are taken in order, up to the first that will not do.**

  A variable is at fault behind others if it is a second one for its setting, or if it is
  the first one and has a value that cannot be read (`FaultAt`).  As long as none is at
  fault, what has been taken is what the variables give, each setting its own
  (`Environment.ofRow`), and the next variable is taken as well (`take_ofRow`) or is at fault
  (`take_eq_error`).  So a row without faults is taken as what it gives, by induction on
  the row (`ofVariables_eq_ok`), and any other row is answered with its first fault
  (`ofVariables_eq_error`).  What a row without faults gives does not depend on its order
  (`given?_eq_of_perm`).
-/
import Mathlib.Data.List.Induction
import Mathlib.Data.List.Nodup
import ModelCatalog.Proofs.Descriptor.Names
import ModelCatalog.Proofs.Number.Word
import ModelCatalog.Settings.Environment

namespace ModelCatalog

instance : LawfulNamed Setting := .of_nodup (by intro s; cases s <;> decide) (by decide)

/-- Names of variables with their values, in the order in which they are taken. -/
abbrev Row := List (String × String)

namespace Setting

variable {s s' : Setting} {v : String × String} {row : Row}

/-! ### Variables and settings -/

/-- A variable is for a setting if its name, in small letters, is that of the setting. -/
def IsFor (s : Setting) (v : String × String) : Prop :=
  String.ofList (v.1.toList.map smallLetter) = Named.name s

instance (s : Setting) (v : String × String) : Decidable (s.IsFor v) :=
  inferInstanceAs (Decidable (_ = _))

theorem ofVariable?_eq_some_iff : ofVariable? v.1 = some s ↔ s.IsFor v := by
  rw [ofVariable?, Named.ofName?_eq_some_iff, IsFor, eq_comm]

theorem ofVariable?_eq_none_iff : ofVariable? v.1 = none ↔ ∀ s : Setting, ¬ s.IsFor v := by
  rw [Option.eq_none_iff_forall_ne_some]
  exact forall_congr' fun s => not_congr ofVariable?_eq_some_iff

theorem IsFor.unique (h : s.IsFor v) (h' : s'.IsFor v) : s = s' :=
  LawfulNamed.name_injective (h.symm.trans h')

/-- What a row gives for a setting: the value of its first variable. -/
def given? (row : Row) (s : Setting) : Option String :=
  (row.find? fun v => s.IsFor v).map Prod.snd

theorem given?_concat (row : Row) (v : String × String) (s : Setting) :
    given? (row ++ [v]) s = (given? row s).or (if s.IsFor v then some v.2 else none) := by
  rw [given?, given?, List.find?_append]
  by_cases h : s.IsFor v <;> cases row.find? fun v => s.IsFor v <;> simp [h]

theorem given?_eq_none_iff : given? row s = none ↔ ∀ v ∈ row, ¬ s.IsFor v := by
  simp [given?]

theorem exists_of_given?_eq_some {value : String} (h : given? row s = some value) :
    ∃ v ∈ row, s.IsFor v ∧ v.2 = value := by
  obtain ⟨v, hv, hvalue⟩ := Option.map_eq_some_iff.mp h
  exact ⟨v, List.mem_of_find?_eq_some hv, by simpa using List.find?_some hv, hvalue⟩

theorem given?_concat_of_none (h : ∀ s : Setting, ¬ s.IsFor v) :
    given? (row ++ [v]) = given? row := by
  funext s
  rw [given?_concat, if_neg (h s), Option.or_none]

theorem given?_concat_of_isFor (hs : s.IsFor v) (hfirst : ∀ w ∈ row, ¬ s.IsFor w) :
    given? (row ++ [v]) = Function.update (given? row) s (some v.2) := by
  funext s'
  rw [given?_concat]
  by_cases h : s' = s
  · subst h
    rw [Function.update_self, given?_eq_none_iff.mpr hfirst, if_pos hs, Option.none_or]
  · have hother : ¬ s'.IsFor v := fun hs' => h (hs'.unique hs)
    rw [Function.update_of_ne h, if_neg hother, Option.or_none]

/-- The values that can be read for a setting.  A text is read whatever it is. -/
def Reads : Setting → String → Prop
  | .serverPort, value => ∃ w, SpellsWord value w
  | .strictIdentifiers, value | .enforceCapacityOrder, value => value = "true" ∨ value = "false"
  | .serverHost, _ | .unknownFields, _ => True

end Setting

/-! ### Faults -/

/-- What is wrong with a variable that stands behind others. -/
inductive FaultAt (before : Row) (v : String × String) : EnvironmentFault → Prop
  /-- It is a second one for its setting, whatever its value is. -/
  | again {s : Setting} {w : String × String} (hs : s.IsFor v) (hw : w ∈ before)
      (hearlier : s.IsFor w) : FaultAt before v (.duplicate (Named.name s))
  /-- It is the first one for the port and spells no number of 16 bits. -/
  | word {cause : WordFault} (hs : Setting.serverPort.IsFor v)
      (hfirst : ∀ w ∈ before, ¬ Setting.serverPort.IsFor w) (hvalue : readWord v.2 = .error cause) :
      FaultAt before v (.word cause v.1 v.2)
  /-- It is the first one for its setting and is neither of the two words. -/
  | flag {s : Setting} (hflag : s = .strictIdentifiers ∨ s = .enforceCapacityOrder)
      (hs : s.IsFor v) (hfirst : ∀ w ∈ before, ¬ s.IsFor w) (htrue : v.2 ≠ "true")
      (hfalse : v.2 ≠ "false") : FaultAt before v (.flag v.1 v.2)

/-- No variable of a row is at fault behind those before it. -/
def Faultless (row : Row) : Prop :=
  ∀ before v after fault, row = before ++ v :: after → ¬ FaultAt before v fault

/-- Two variables that are for different settings, or for none. -/
def Apart (v w : String × String) : Prop := ∀ s : Setting, s.IsFor v → ¬ s.IsFor w

section Faults

variable {row : Row} {v : String × String} {s : Setting} {fault : EnvironmentFault}

theorem faultless_concat :
    Faultless (row ++ [v]) ↔ Faultless row ∧ ∀ fault, ¬ FaultAt row v fault := by
  constructor
  · intro h
    constructor
    · intro before w after fault hrow
      exact h before w (after ++ [v]) fault (by simp [hrow])
    · intro fault
      exact h row v [] fault rfl
  · rintro ⟨hrow, hv⟩ before w after fault heq
    rcases List.eq_nil_or_concat' after with rfl | ⟨after', last, rfl⟩
    · obtain ⟨rfl, hw⟩ := List.append_inj' heq rfl
      obtain rfl := List.head_eq_of_cons_eq hw
      exact hv fault
    · rw [← List.cons_append, ← List.append_assoc] at heq
      obtain ⟨rfl, -⟩ := List.append_inj' heq rfl
      exact hrow before w after' fault rfl

theorem readFlag?_eq_none_iff {value : String} :
    readFlag? value = none ↔ value ≠ "true" ∧ value ≠ "false" := by
  unfold readFlag?
  split
  · simp [*]
  · split <;> simp [*]

theorem readFlag?_eq_some {value : String} (h : value = "true" ∨ value = "false") :
    readFlag? value = some (decide (value = "true")) := by
  rcases h with rfl | rfl <;> rfl

/-- **A variable is not at fault if it is the first one for its setting and can be read.** -/
theorem forall_not_faultAt_iff :
    (∀ fault, ¬ FaultAt row v fault) ↔
      ∀ s : Setting, s.IsFor v → (∀ w ∈ row, ¬ s.IsFor w) ∧ s.Reads v.2 := by
  constructor
  · intro h s hs
    have hfirst : ∀ w ∈ row, ¬ s.IsFor w := fun w hw hearlier => h _ (.again hs hw hearlier)
    have hflag : s = .strictIdentifiers ∨ s = .enforceCapacityOrder →
        v.2 = "true" ∨ v.2 = "false" := by
      intro hflag
      by_contra hvalue
      obtain ⟨htrue, hfalse⟩ := not_or.mp hvalue
      exact h _ (.flag hflag hs hfirst htrue hfalse)
    refine ⟨hfirst, ?_⟩
    cases s with
    | serverPort =>
      cases hvalue : readWord v.2 with
      | ok w => exact ⟨w, readWord_eq_ok_iff.mp hvalue⟩
      | error cause => exact absurd (.word hs hfirst hvalue) (h _)
    | strictIdentifiers => exact hflag (Or.inl rfl)
    | enforceCapacityOrder => exact hflag (Or.inr rfl)
    | serverHost | unknownFields => trivial
  · intro h fault hfault
    cases hfault with
    | again hs hw hearlier => exact (h _ hs).1 _ hw hearlier
    | word hs _ hvalue =>
      obtain ⟨w, hw⟩ := (h _ hs).2
      rw [readWord_eq_ok_iff.mpr hw] at hvalue
      cases hvalue
    | flag hflag hs _ htrue hfalse =>
      have hreads := (h _ hs).2
      rcases hflag with rfl | rfl <;> exact hreads.elim htrue hfalse

/-- **No variable of a row is at fault if they are apart and each can be read.** -/
theorem faultless_iff :
    Faultless row ↔ row.Pairwise Apart ∧ ∀ v ∈ row, ∀ s : Setting, s.IsFor v → s.Reads v.2 := by
  induction row using List.reverseRecOn with
  | nil => simp [Faultless]
  | append_singleton row v ih =>
    rw [faultless_concat, ih, forall_not_faultAt_iff, List.pairwise_append]
    constructor
    · rintro ⟨⟨hapart, hreads⟩, hv⟩
      refine ⟨⟨hapart, List.pairwise_singleton _ _, ?_⟩, List.forall_mem_append.mpr ⟨hreads, ?_⟩⟩
      · intro w hw v' hv' s hsw hsv
        obtain rfl := List.mem_singleton.mp hv'
        exact (hv s hsv).1 w hw hsw
      · rw [List.forall_mem_singleton]
        exact fun s hs => (hv s hs).2
    · rintro ⟨⟨hapart, -, hbehind⟩, hreads⟩
      obtain ⟨hrow, hv⟩ := List.forall_mem_append.mp hreads
      refine ⟨⟨hapart, hrow⟩, fun s hs => ⟨?_, List.forall_mem_singleton.mp hv s hs⟩⟩
      intro w hw hsw
      exact hbehind w hw v List.mem_cons_self s hsw hs

/-- A row has a first variable that is at fault, or none. -/
theorem faultless_or_exists_first (row : Row) :
    Faultless row ∨ ∃ before v after fault,
      row = before ++ v :: after ∧ Faultless before ∧ FaultAt before v fault := by
  induction row using List.reverseRecOn with
  | nil => exact Or.inl (faultless_iff.mpr (by simp))
  | append_singleton row v ih =>
    rcases ih with hrow | ⟨before, w, after, fault, rfl, hbefore, hw⟩
    · by_cases hv : ∀ fault, ¬ FaultAt row v fault
      · exact Or.inl (faultless_concat.mpr ⟨hrow, hv⟩)
      · obtain ⟨fault, hfault⟩ := not_forall_not.mp hv
        exact Or.inr ⟨row, v, [], fault, rfl, hrow, hfault⟩
    · exact Or.inr ⟨before, w, after ++ [v], fault, by simp, hbefore, hw⟩

end Faults

/-! ### Orders of a row -/

/-- A variable that is for some setting. -/
def Recognized (v : String × String) : Prop := ∃ s : Setting, s.IsFor v

instance : DecidablePred Recognized := fun v =>
  decidable_of_iff (∃ s ∈ (Named.all : List Setting), s.IsFor v)
    (by simp [Recognized, LawfulNamed.mem_all])

section Orders

variable {row row' : Row} {s : Setting}

instance : Std.Symm Apart := ⟨fun _ _ h s hw hv => h s hv hw⟩

/-- In a row of variables apart, the only one for a setting gives its value. -/
theorem given?_eq_some_iff (hrow : row.Pairwise Apart) {value : String} :
    Setting.given? row s = some value ↔ ∃ v ∈ row, s.IsFor v ∧ v.2 = value := by
  constructor
  · exact Setting.exists_of_given?_eq_some
  · rintro ⟨v, hv, hs, rfl⟩
    cases hgiven : Setting.given? row s with
    | none => exact absurd hs (Setting.given?_eq_none_iff.mp hgiven v hv)
    | some value =>
      obtain ⟨w, hw, hs', rfl⟩ := Setting.exists_of_given?_eq_some hgiven
      by_contra hne
      have hvw : v ≠ w := fun h => hne (by rw [h])
      exact hrow.forall hv hw hvw s hs hs'

theorem pairwise_apart_filter :
    (row.filter fun v => Recognized v).Pairwise Apart ↔ row.Pairwise Apart := by
  rw [List.pairwise_filter]
  apply List.Pairwise.iff
  intro v w
  constructor
  · intro h s hv hw
    exact h (decide_eq_true ⟨s, hv⟩) (decide_eq_true ⟨s, hw⟩) s hv hw
  · exact fun h _ _ => h

theorem mem_filter_recognized {v : String × String} (hs : s.IsFor v) :
    v ∈ (row.filter fun v => Recognized v) ↔ v ∈ row := by
  rw [List.mem_filter, and_iff_left (decide_eq_true ⟨s, hs⟩)]

/-- **What is given depends neither on the order nor on variables that are for no
    setting.** -/
theorem given?_eq_of_perm (hrow : row.Pairwise Apart) (hrow' : row'.Pairwise Apart)
    (h : (row'.filter fun v => Recognized v).Perm (row.filter fun v => Recognized v)) :
    Setting.given? row' = Setting.given? row := by
  funext s
  apply Option.ext
  intro value
  rw [given?_eq_some_iff hrow', given?_eq_some_iff hrow]
  apply exists_congr
  intro v
  rw [← and_assoc, ← and_assoc]
  apply and_congr_left'
  apply and_congr_left
  intro hs
  rw [← mem_filter_recognized hs, h.mem_iff, mem_filter_recognized hs]

theorem Faultless.of_perm (hrow : Faultless row)
    (h : (row'.filter fun v => Recognized v).Perm (row.filter fun v => Recognized v)) :
    Faultless row' := by
  obtain ⟨hapart, hreads⟩ := faultless_iff.mp hrow
  rw [faultless_iff, ← pairwise_apart_filter, h.pairwise_iff (Std.Symm.symm _ _),
    pairwise_apart_filter]
  refine ⟨hapart, fun v hv s hs => hreads v ?_ s hs⟩
  rwa [← mem_filter_recognized hs, ← h.mem_iff, mem_filter_recognized hs]

end Orders

/-! ### What is taken -/

namespace Environment

/-- The environment of what is given for each setting, if it can be read. -/
def ofGiven (given : Setting → Option String) : Environment where
  serverHost := given .serverHost
  serverPort := (given .serverPort).bind fun value => (readWord value).toOption
  unknownFields := given .unknownFields
  strictIdentifiers := (given .strictIdentifiers).bind readFlag?
  enforceCapacityOrder := (given .enforceCapacityOrder).bind readFlag?

/-- The environment that a row gives. -/
def ofRow (row : Row) : Environment := ofGiven (Setting.given? row)

variable {given : Setting → Option String} {row before after : Row} {v : String × String}
  {s : Setting} {fault : EnvironmentFault}

theorem has_ofGiven_of_none (h : given s = none) : (ofGiven given).has s = false := by
  cases s <;> simp [has, ofGiven, h]

theorem has_ofGiven_of_reads {value : String} (h : given s = some value) (hreads : s.Reads value) :
    (ofGiven given).has s = true := by
  cases s with
  | serverHost | unknownFields => simp [has, ofGiven, h]
  | serverPort =>
    obtain ⟨w, hw⟩ := hreads
    simp [has, ofGiven, h, readWord_eq_ok_iff.mpr hw, Except.toOption]
  | strictIdentifiers | enforceCapacityOrder =>
    simp [has, ofGiven, h, readFlag?_eq_some hreads]

theorem has_ofRow (hrow : Faultless row) {w : String × String} (hw : w ∈ row) (hs : s.IsFor w) :
    (ofRow row).has s = true := by
  cases hgiven : Setting.given? row s with
  | none => exact absurd hs (Setting.given?_eq_none_iff.mp hgiven w hw)
  | some value =>
    obtain ⟨w', hw', hs', rfl⟩ := Setting.exists_of_given?_eq_some hgiven
    exact has_ofGiven_of_reads hgiven ((faultless_iff.mp hrow).2 w' hw' s hs')

/-- What can be read is given to its setting, and the others keep theirs. -/
theorem give_ofGiven {value : String} (hreads : s.Reads value) (name : String) :
    (ofGiven given).give s name value = .ok (ofGiven (Function.update given s (some value))) := by
  cases s with
  | serverHost | unknownFields => simp [give, ofGiven, Function.update]
  | serverPort =>
    obtain ⟨w, hw⟩ := hreads
    simp [give, ofGiven, Function.update, readWord_eq_ok_iff.mpr hw, Except.toOption]
  | strictIdentifiers | enforceCapacityOrder =>
    simp [give, ofGiven, Function.update, flagOf, readFlag?_eq_some hreads, Except.map]

/-- What is not at fault is taken. -/
theorem take_ofRow (h : Faultless (row ++ [v])) :
    take (ofRow row) v = .ok (ofRow (row ++ [v])) := by
  have hv := forall_not_faultAt_iff.mp (faultless_concat.mp h).2
  rw [take]
  split
  · rename_i hnone
    rw [ofRow, ofRow, Setting.given?_concat_of_none (Setting.ofVariable?_eq_none_iff.mp hnone)]
  · rename_i s hsome
    have hs : s.IsFor v := Setting.ofVariable?_eq_some_iff.mp hsome
    obtain ⟨hfirst, hreads⟩ := hv s hs
    have hfree : (ofRow row).has s = false :=
      has_ofGiven_of_none (Setting.given?_eq_none_iff.mpr hfirst)
    rw [hfree, if_neg Bool.false_ne_true, ofRow, give_ofGiven hreads, ofRow,
      Setting.given?_concat_of_isFor hs hfirst]

theorem flagOf_eq_error {value : String} (htrue : value ≠ "true") (hfalse : value ≠ "false")
    (name : String) : flagOf name value = .error (.flag name value) := by
  rw [flagOf, readFlag?_eq_none_iff.mpr ⟨htrue, hfalse⟩]

/-- A fault is answered with what is wrong. -/
theorem take_eq_error (hrow : Faultless row) (h : FaultAt row v fault) :
    take (ofRow row) v = .error fault := by
  have hfree : ∀ s : Setting, (∀ w ∈ row, ¬ s.IsFor w) → (ofRow row).has s = false :=
    fun s hfirst => has_ofGiven_of_none (Setting.given?_eq_none_iff.mpr hfirst)
  cases h with
  | again hs hw hearlier =>
    have htaken := has_ofRow hrow hw hearlier
    rw [take, Setting.ofVariable?_eq_some_iff.mpr hs]
    simp [htaken]
  | word hs hfirst hvalue =>
    rw [take, Setting.ofVariable?_eq_some_iff.mpr hs]
    simp [hfree _ hfirst, give, hvalue]
  | flag hflag hs hfirst htrue hfalse =>
    have hbad := flagOf_eq_error htrue hfalse v.1
    rw [take, Setting.ofVariable?_eq_some_iff.mpr hs]
    rcases hflag with rfl | rfl <;> simp [hfree _ hfirst, give, hbad, Except.map]

/-- **What a row gives is taken if no variable of it is at fault.** -/
theorem ofVariables_eq_ok (h : Faultless row) : ofVariables row = .ok (ofRow row) := by
  induction row using List.reverseRecOn with
  | nil => rfl
  | append_singleton row v ih =>
    have hrow := ih (faultless_concat.mp h).1
    rw [ofVariables] at hrow ⊢
    rw [List.foldlM_append, hrow]
    exact (bind_pure _).trans (take_ofRow h)

/-- **The first fault of a row is the answer.** -/
theorem ofVariables_eq_error (hbefore : Faultless before) (h : FaultAt before v fault) :
    ofVariables (before ++ v :: after) = .error fault := by
  have hrow := ofVariables_eq_ok hbefore
  rw [ofVariables] at hrow ⊢
  rw [List.foldlM_append, hrow]
  change (ofRow before).take v >>= _ = _
  rw [take_eq_error hbefore h]
  rfl

end Environment

end ModelCatalog
