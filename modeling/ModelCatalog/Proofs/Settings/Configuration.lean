/-
  ModelCatalog/Proofs/Settings/Configuration.lean
  ===============================================
  **Each setting is taken from its own variable, or is what it is without one.**

  A row of variables makes a configuration if no two of them are for one setting and each
  has a value that its setting accepts; the configuration then is what each setting takes
  from what it is given (`ofGiven_takes`).  So it depends on what is given only, and not on
  the order of the row.  A row that makes none is answered with the first fault among its
  variables; if there is none, with the name that is no policy.
-/
import ModelCatalog.Proofs.Settings.Variables
import ModelCatalog.Settings.Configuration

namespace ModelCatalog

/-! ### Policies by name -/

namespace UnknownFieldPolicy

instance : LawfulNamed UnknownFieldPolicy :=
  .of_nodup (by intro p; cases p <;> decide) (by decide)

/-- A text names a policy, in capitals or not, blank characters around it left out. -/
def NamedBy (value : String) : Prop :=
  Text.lowerAscii (Text.trim value) = "permissive" ∨ Text.lowerAscii (Text.trim value) = "strict"

variable {value : String} {p : UnknownFieldPolicy}

theorem namedBy_iff :
    NamedBy value ↔ ∃ p : UnknownFieldPolicy, Named.name p = Text.lowerAscii (Text.trim value) := by
  constructor
  · rintro (h | h)
    · exact ⟨.permissive, h.symm⟩
    · exact ⟨.strict, h.symm⟩
  · rintro ⟨p, hp⟩
    cases p
    · exact Or.inl hp.symm
    · exact Or.inr hp.symm

theorem ofSetting_eq_ok (h : Named.name p = Text.lowerAscii (Text.trim value)) :
    ofSetting value = .ok p := by
  have hfound : ofSetting? value = some p := Named.ofName?_eq_some_iff.mpr h
  unfold ofSetting
  rw [hfound]

theorem ofSetting_eq_error (h : ¬ NamedBy value) :
    ofSetting value = .error (.unknownPolicy value) := by
  have hnone : ofSetting? value = none := by
    rw [Option.eq_none_iff_forall_ne_some]
    intro p hp
    exact h (namedBy_iff.mpr ⟨p, Named.ofName?_eq_some_iff.mp hp⟩)
  unfold ofSetting
  rw [hnone]

end UnknownFieldPolicy

/-! ### What settings accept and take -/

/-- The values that a setting accepts. -/
def Setting.Accepts : Setting → String → Prop
  | .serverHost, _ => True
  | .serverPort, value => ∃ w, SpellsWord value w
  | .unknownFields, value => UnknownFieldPolicy.NamedBy value
  | .strictIdentifiers, value | .enforceCapacityOrder, value => value = "true" ∨ value = "false"

theorem Setting.accepts_iff {s : Setting} {value : String} :
    s.Accepts value ↔ s.Reads value ∧ (s = .unknownFields → UnknownFieldPolicy.NamedBy value) := by
  cases s <;> simp [Accepts, Reads]

namespace Configuration

/-- A configuration has for a setting what the value of its variable says, or what there is
    without a variable. -/
def Takes (c : Configuration) : Setting → Option String → Prop
  | .serverHost, none => c.serverHost = "0.0.0.0"
  | .serverHost, some value => c.serverHost = value
  | .serverPort, none => c.serverPort = 8888
  | .serverPort, some value => SpellsWord value c.serverPort
  | .unknownFields, none => c.policy.unknownFields = .permissive
  | .unknownFields, some value =>
    Named.name c.policy.unknownFields = Text.lowerAscii (Text.trim value)
  | .strictIdentifiers, none => c.policy.identifiers = .lenient
  | .strictIdentifiers, some value =>
    c.policy.identifiers = if value = "true" then .strict else .lenient
  | .enforceCapacityOrder, none => c.policy.enforceCapacityOrder = false
  | .enforceCapacityOrder, some value => c.policy.enforceCapacityOrder = decide (value = "true")

variable {given : Setting → Option String} {c : Configuration} {row row' : Row}

/-- The configuration of an environment and a policy on unknown members. -/
def ofParts (e : Environment) (unknownFields : UnknownFieldPolicy) : Configuration where
  serverHost := e.serverHost.getD "0.0.0.0"
  serverPort := e.serverPort.getD 8888
  policy := {
    unknownFields
    identifiers := if e.strictIdentifiers.getD false then .strict else .lenient
    enforceCapacityOrder := e.enforceCapacityOrder.getD false }

theorem ofEnvironment_eq (e : Environment) :
    ofEnvironment e =
      (UnknownFieldPolicy.ofSetting (e.unknownFields.getD "permissive")).map (ofParts e) := by
  unfold ofEnvironment
  cases UnknownFieldPolicy.ofSetting (e.unknownFields.getD "permissive") <;> rfl

/-- **Each setting is taken from what is given for it, if that is accepted.** -/
theorem ofGiven_takes (haccepts : ∀ s value, given s = some value → s.Accepts value) :
    ∃ c, ofEnvironment (.ofGiven given) = .ok c ∧ ∀ s, c.Takes s (given s) := by
  obtain ⟨p, hp, htakes⟩ : ∃ p,
      UnknownFieldPolicy.ofSetting ((given .unknownFields).getD "permissive") = .ok p ∧
      ∀ e, (ofParts e p).Takes .unknownFields (given .unknownFields) := by
    cases hgiven : given .unknownFields with
    | none => exact ⟨.permissive, UnknownFieldPolicy.ofSetting_eq_ok (by decide), fun _ => rfl⟩
    | some value =>
      obtain ⟨p, hp⟩ := UnknownFieldPolicy.namedBy_iff.mp (haccepts _ _ hgiven)
      exact ⟨p, UnknownFieldPolicy.ofSetting_eq_ok hp, fun _ => hp⟩
  refine ⟨ofParts (.ofGiven given) p, ?_, ?_⟩
  · rw [ofEnvironment_eq]
    exact congrArg (Except.map _) hp
  · intro s
    cases h : given s with
    | none =>
      cases s with
      | unknownFields => exact h ▸ htakes _
      | serverHost | serverPort | strictIdentifiers | enforceCapacityOrder =>
        simp [Takes, ofParts, Environment.ofGiven, h]
    | some value =>
      have hvalue : s.Accepts value := haccepts s value h
      cases s with
      | unknownFields => exact h ▸ htakes _
      | serverHost => simp [Takes, ofParts, Environment.ofGiven, h]
      | serverPort =>
        obtain ⟨w, hw⟩ := hvalue
        simpa [Takes, ofParts, Environment.ofGiven, h, readWord_eq_ok_iff.mpr hw, Except.toOption]
          using hw
      | strictIdentifiers | enforceCapacityOrder =>
        simp [Takes, ofParts, Environment.ofGiven, h, readFlag?_eq_some hvalue]

/-! ### Rows of variables -/

/-- No two variables of a row are for one setting, and each has a value that is accepted. -/
def Acceptable (row : Row) : Prop :=
  row.Pairwise Apart ∧ ∀ v ∈ row, ∀ s : Setting, s.IsFor v → s.Accepts v.2

theorem acceptable_iff :
    Acceptable row ↔ Faultless row ∧
      ∀ v ∈ row, Setting.unknownFields.IsFor v → UnknownFieldPolicy.NamedBy v.2 := by
  simp only [Acceptable, faultless_iff, Setting.accepts_iff]
  constructor
  · rintro ⟨hapart, haccepts⟩
    exact ⟨⟨hapart, fun v hv s hs => (haccepts v hv s hs).1⟩,
      fun v hv hs => (haccepts v hv _ hs).2 rfl⟩
  · rintro ⟨⟨hapart, hreads⟩, hnamed⟩
    refine ⟨hapart, fun v hv s hs => ⟨hreads v hv s hs, ?_⟩⟩
    rintro rfl
    exact hnamed v hv hs

theorem ofVariables_of_ok {e : Environment} (h : Environment.ofVariables row = .ok e) :
    ofVariables row = ofEnvironment e := by
  unfold ofVariables
  rw [h]
  exact pure_bind e ofEnvironment

theorem ofVariables_of_faultless (h : Faultless row) :
    ofVariables row = ofEnvironment (.ofRow row) :=
  ofVariables_of_ok (Environment.ofVariables_eq_ok h)

/-- **An acceptable row makes a configuration that takes each setting from what is given.** -/
theorem ofVariables_of_acceptable (h : Acceptable row) :
    ∃ c, ofVariables row = .ok c ∧ ∀ s, c.Takes s (Setting.given? row s) := by
  have haccepts : ∀ s value, Setting.given? row s = some value → s.Accepts value := by
    intro s value hgiven
    obtain ⟨v, hv, hs, rfl⟩ := Setting.exists_of_given?_eq_some hgiven
    exact h.2 v hv s hs
  rw [ofVariables_of_faultless (acceptable_iff.mp h).1]
  exact ofGiven_takes haccepts

theorem ofVariables_of_fault {before after : Row} {v : String × String} {fault : EnvironmentFault}
    (hbefore : Faultless before) (h : FaultAt before v fault) :
    ofVariables (before ++ v :: after) = .error (.environment fault) := by
  unfold ofVariables
  rw [Environment.ofVariables_eq_error hbefore h]
  rfl

theorem ofVariables_of_not_named {v : String × String} (h : Faultless row) (hv : v ∈ row)
    (hs : Setting.unknownFields.IsFor v) (hnot : ¬ UnknownFieldPolicy.NamedBy v.2) :
    ofVariables row = .error (.unknownPolicy v.2) := by
  have hgiven : (Environment.ofRow row).unknownFields = some v.2 :=
    (given?_eq_some_iff (faultless_iff.mp h).1).mpr ⟨v, hv, hs, rfl⟩
  rw [ofVariables_of_faultless h, ofEnvironment_eq, hgiven, Option.getD_some,
    UnknownFieldPolicy.ofSetting_eq_error hnot]
  rfl

/-- A row is acceptable, or has a first fault, or has none but a name that is no policy. -/
theorem acceptable_or (row : Row) :
    Acceptable row ∨
    (∃ before v after fault,
      row = before ++ v :: after ∧ Faultless before ∧ FaultAt before v fault) ∨
    Faultless row ∧ ∃ v ∈ row,
      Setting.unknownFields.IsFor v ∧ ¬ UnknownFieldPolicy.NamedBy v.2 := by
  rcases faultless_or_exists_first row with hrow | hfirst
  · by_cases hnamed : ∀ v ∈ row, Setting.unknownFields.IsFor v → UnknownFieldPolicy.NamedBy v.2
    · exact Or.inl (acceptable_iff.mpr ⟨hrow, hnamed⟩)
    · push Not at hnamed
      exact Or.inr (Or.inr ⟨hrow, hnamed⟩)
  · exact Or.inr (Or.inl hfirst)

theorem acceptable_of_ok (h : ofVariables row = .ok c) : Acceptable row := by
  rcases acceptable_or row with hrow | ⟨before, v, after, fault, rfl, hbefore, hfault⟩ |
    ⟨hrow, v, hv, hs, hnot⟩
  · exact hrow
  · rw [ofVariables_of_fault hbefore hfault] at h
    cases h
  · rw [ofVariables_of_not_named hrow hv hs hnot] at h
    cases h

/-- **A configuration depends neither on the order of a row nor on variables that are for no
    setting.** -/
theorem ofVariables_of_perm (hrow : Acceptable row)
    (h : (row'.filter fun v => Recognized v).Perm (row.filter fun v => Recognized v)) :
    ofVariables row' = ofVariables row := by
  have hfaultless : Faultless row := (acceptable_iff.mp hrow).1
  have hfaultless' : Faultless row' := hfaultless.of_perm h
  have hgiven : Setting.given? row' = Setting.given? row :=
    given?_eq_of_perm hrow.1 (faultless_iff.mp hfaultless').1 h
  rw [ofVariables_of_faultless hfaultless', ofVariables_of_faultless hfaultless,
    Environment.ofRow, hgiven, Environment.ofRow]

/-- **What a row of variables makes.**

    A row makes a configuration if no two of its variables are for one setting and each has
    a value that its setting accepts.  Each setting then is taken from its own variable, or
    is what it is without one, and the configuration stays the same in another order and
    with other variables that are for no setting.  A row that makes none is answered with the
    first variable that is a second one for its setting or cannot be read; only if there is
    no such variable, with the name that is no policy. -/
theorem ofVariables_exact (row : Row) :
    ((∃ c, ofVariables row = .ok c) ↔
      row.Pairwise (fun v w => ∀ s : Setting, s.IsFor v → ¬ s.IsFor w) ∧
      ∀ v ∈ row, ∀ s : Setting, s.IsFor v → s.Accepts v.2) ∧
    (∀ c, ofVariables row = .ok c →
      (∀ s : Setting, (∀ v ∈ row, s.IsFor v → c.Takes s (some v.2)) ∧
        ((∀ v ∈ row, ¬ s.IsFor v) → c.Takes s none)) ∧
      ∀ row', (row'.filter fun v => Recognized v).Perm (row.filter fun v => Recognized v) →
        ofVariables row' = .ok c) ∧
    ∀ failure, ofVariables row = .error failure →
      (∃ before v after fault, row = before ++ v :: after ∧ Faultless before ∧
        FaultAt before v fault ∧ failure = .environment fault) ∨
      Faultless row ∧ ∃ v ∈ row, Setting.unknownFields.IsFor v ∧
        ¬ UnknownFieldPolicy.NamedBy v.2 ∧
        failure = .badSetting
          ("unknown field policy '" ++ v.2 ++ "', expected 'permissive' or 'strict'") := by
  refine ⟨⟨?_, ?_⟩, ?_, ?_⟩
  · rintro ⟨c, h⟩
    exact acceptable_of_ok h
  · intro hrow
    obtain ⟨c, h, -⟩ := ofVariables_of_acceptable hrow
    exact ⟨c, h⟩
  · intro c h
    have hrow : Acceptable row := acceptable_of_ok h
    obtain ⟨c', h', htakes⟩ := ofVariables_of_acceptable hrow
    obtain rfl : c' = c := Except.ok.inj (h'.symm.trans h)
    refine ⟨fun s => ⟨?_, ?_⟩, ?_⟩
    · intro v hv hs
      rw [← (given?_eq_some_iff hrow.1).mpr ⟨v, hv, hs, rfl⟩]
      exact htakes s
    · intro hnone
      rw [← Setting.given?_eq_none_iff.mpr hnone]
      exact htakes s
    · intro row' hperm
      rw [ofVariables_of_perm hrow hperm, h]
  · intro failure h
    rcases acceptable_or row with hrow | ⟨before, v, after, fault, rfl, hbefore, hfault⟩ |
      ⟨hrow, v, hv, hs, hnot⟩
    · obtain ⟨c, hc, -⟩ := ofVariables_of_acceptable hrow
      rw [hc] at h
      cases h
    · rw [ofVariables_of_fault hbefore hfault] at h
      exact Or.inl ⟨before, v, after, fault, rfl, hbefore, hfault, (Except.error.inj h).symm⟩
    · rw [ofVariables_of_not_named hrow hv hs hnot] at h
      exact Or.inr ⟨hrow, v, hv, hs, hnot, (Except.error.inj h).symm⟩

/-- The second variable for the port is answered, not what it holds and not the name before
    it that is no policy. -/
example : ofVariables [("server_port", "+80"), ("UNKNOWN_FIELDS", "lax"), ("SERVER_PORT", "x")] =
    .error (.environment (.duplicate "server_port")) := by
  decide

end Configuration

end ModelCatalog
