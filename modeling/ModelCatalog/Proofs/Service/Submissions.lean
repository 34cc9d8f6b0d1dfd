/-
  ModelCatalog/Proofs/Service/Submissions.lean
  ============================================
  **A dry run tells what a registration will answer.**

  A model is submitted on two routes, to be validated only or to be registered, and a
  text can be read as a model without any service.  All three come to one judgement of
  the body (`Call.judged`).  A body that is not accepted is rejected on both routes in the
  same way (`Service.handle_of_rejected`); one that is accepted is answered as it was read
  or stored, unless its identifier is taken (`Service.handle_validate`,
  `Service.handle_register`).
-/
import ModelCatalog.Proofs.Service.Bodies
import ModelCatalog.Proofs.Service.Runs
import ModelCatalog.Validation.Submission

namespace ModelCatalog

/-! ### Judging a body -/

/-- What comes of a body that is submitted as a model: one that cannot be read is wrong as
    a whole. -/
def Call.judged (c : Call) (p : Policy) : Verdict ModelRequest :=
  match c.json with
  | .ok v => Validation.validateRequest p v
  | .error fault => ⟨.error [fault.violation], []⟩

/-- The violations that are reported of a text that is no model. -/
def Failure.violations : Failure → Violations
  | .invalid violations => violations
  | _ => [BodyFault.malformed.violation]

section

variable {c : Call} {p : Policy}

theorem Call.judged_of_json {v : Json} (h : c.json = .ok v) :
    c.judged p = Validation.validateRequest p v := by
  simp only [judged, h]

theorem Call.outcome_judged_of_fault {fault : BodyFault} (h : c.json = .error fault) :
    (c.judged p).outcome = .error [fault.violation] := by
  simp only [judged, h]

/-- **A body that means JSON is judged as its text is read**, within the limit. -/
theorem Call.outcome_judged {text : String} (h : c.meansJson = true) (hwithin : c.body.Within)
    (hspells : c.body.Spells text) :
    (c.judged p).outcome = (parseRequest p text).outcome.mapError Failure.violations := by
  unfold judged parseRequest
  rw [json_of_meansJson h, Body.json_of_spells hwithin hspells]
  cases Json.read? text with
  | none => rfl
  | some v =>
    cases hv : (Validation.validateRequest p v).outcome with
    | ok r => simp only [hv, Except.mapError]
    | error violations => simp only [hv, Except.mapError, Failure.violations]

/-- A text is no model because it is no JSON, or because of what is wrong with its value. -/
theorem parseRequest_eq_error {f : Failure} {text : String}
    (h : (parseRequest p text).outcome = .error f) :
    f = .malformedJson ∨ ∃ violations, f = .invalid violations := by
  unfold parseRequest at h
  cases hread : Json.read? text with
  | none =>
    rw [hread] at h
    cases h
    exact Or.inl rfl
  | some v =>
    rw [hread] at h
    cases hv : (Validation.validateRequest p v).outcome with
    | ok r => simp [hv, Except.mapError] at h
    | error violations =>
      simp only [hv, Except.mapError, Except.error.injEq] at h
      exact Or.inr ⟨violations, h.symm⟩

end

namespace Service

variable {s : Service} {c : Call}

/-! ### Both routes -/

/-- What both routes do with a body that is not accepted. -/
theorem submit_of_error {violations : Violations} (next : Service → ModelRequest → Answer)
    (h : (c.judged s.policy).outcome = .error violations) :
    s.withBody c (fun v => s.withRequest v next) =
      ⟨{ s with counters := s.counters.reject violations }, .json 400 violations.toJson,
        (c.judged s.policy).log ++ [.rejected violations]⟩ := by
  unfold withBody
  cases hbody : c.json with
  | ok v =>
    rw [Call.judged_of_json hbody] at h ⊢
    simp only [withRequest, h]
    rfl
  | error fault =>
    rw [Call.outcome_judged_of_fault hbody] at h
    cases h
    rw [Call.judged, hbody]
    rfl

/-- What both routes do with a body that is accepted: it is counted, and then each goes
    on. -/
theorem submit_of_ok {r : ModelRequest} (next : Service → ModelRequest → Answer)
    (h : (c.judged s.policy).outcome = .ok r) :
    s.withBody c (fun v => s.withRequest v next) =
      { next { s with counters := s.counters.accept } r with
        log := (c.judged s.policy).log ++
          (next { s with counters := s.counters.accept } r).log } := by
  unfold withBody
  cases hbody : c.json with
  | ok v =>
    rw [Call.judged_of_json hbody] at h ⊢
    simp only [withRequest, h]
  | error fault =>
    rw [Call.outcome_judged_of_fault hbody] at h
    cases h

/-- **What is rejected is rejected in the same way on both routes.** -/
theorem handle_of_rejected {violations : Violations}
    (haction : c.action? = some .validate ∨ c.action? = some .register)
    (h : (c.judged s.policy).outcome = .error violations) :
    s.handle c =
      ⟨{ s with counters := s.counters.reject violations }, .json 400 violations.toJson,
        (c.judged s.policy).log ++ [.rejected violations]⟩ := by
  rcases haction with haction | haction
  · rw [handle_of_action haction, perform, submit_of_error _ h]
  · rw [handle_of_action haction, perform, submit_of_error _ h]

theorem handle_validate {r : ModelRequest} (haction : c.action? = some .validate)
    (h : (c.judged s.policy).outcome = .ok r) :
    s.handle c = ⟨{ s with counters := s.counters.accept }, .json 200 r.toJson,
      (c.judged s.policy).log⟩ := by
  rw [handle_of_action haction, perform, submit_of_ok _ h]
  simp only [answer, List.append_nil]

theorem handle_register {r : ModelRequest} (haction : c.action? = some .register)
    (h : (c.judged s.policy).outcome = .ok r) (hfree : s.catalog.get? r.id = none) :
    s.handle c =
      ⟨{ s with counters := s.counters.accept, catalog := s.catalog.put ⟨r, .creating⟩ },
        .json 201 (ModelRecord.toJson ⟨r, .creating⟩),
        (c.judged s.policy).log ++ [.changed (.registered r.id)]⟩ := by
  rw [handle_of_action haction, perform, submit_of_ok _ h]
  simp only [Catalog.register, hfree, change]

theorem handle_register_of_taken {r : ModelRequest} {record : ModelRecord}
    (haction : c.action? = some .register) (h : (c.judged s.policy).outcome = .ok r)
    (htaken : s.catalog.get? r.id = some record) :
    s.handle c = ⟨{ s with counters := s.counters.accept },
      (Failure.alreadyExists r.id).reply, (c.judged s.policy).log⟩ := by
  rw [handle_of_action haction, perform, submit_of_ok _ h]
  simp only [Catalog.register, htaken, change, answer, List.append_nil]

/-! ### Dry runs -/

/-- A dry run and a registration are rejected for the same violations: they leave the same
    service, the same reply and the same lines in the log. -/
structure BothReject (s : Service) (dry real : Call) (violations : Violations) : Prop where
  reply : (s.handle dry).reply = .json 400 violations.toJson
  counted : (s.handle dry).service = { s with counters := s.counters.reject violations }
  logged : ∃ dropped : List String,
    (s.handle dry).log = dropped.map .dropped ++ [.rejected violations]
  same : s.handle real = s.handle dry

/-- A dry run answers with a request, and a registration stores it unless its identifier is
    taken. -/
structure BothAccept (s : Service) (dry real : Call) (r : ModelRequest) : Prop where
  reply : (s.handle dry).reply = .json 200 r.toJson
  registered : s.catalog.get? r.id = none →
    (s.handle real).reply = .json 201 (ModelRecord.toJson ⟨r, .creating⟩)
  taken : s.catalog.get? r.id ≠ none → (s.handle real).reply =
    .json 409 (.object [("error", .string ("Model '" ++ r.id ++ "' already exists"))])

section

variable {dry real : Call} {p : Policy}

theorem bothReject_of_judged {violations : Violations} (hdry : dry.action? = some .validate)
    (hreal : real.action? = some .register)
    (hsame : real.judged s.policy = dry.judged s.policy)
    (h : (dry.judged s.policy).outcome = .error violations) :
    s.BothReject dry real violations := by
  have hdryAnswer := handle_of_rejected (Or.inl hdry) h
  have hrealAnswer := handle_of_rejected (Or.inr hreal) (hsame ▸ h)
  refine ⟨?_, ?_, ⟨(dry.judged s.policy).dropped, ?_⟩, ?_⟩
  · rw [hdryAnswer]
  · rw [hdryAnswer]
  · rw [hdryAnswer, Verdict.log]
  · rw [hdryAnswer, hrealAnswer, hsame]

theorem bothAccept_of_judged {r : ModelRequest} (hdry : dry.action? = some .validate)
    (hreal : real.action? = some .register)
    (hsame : real.judged s.policy = dry.judged s.policy)
    (h : (dry.judged s.policy).outcome = .ok r) : s.BothAccept dry real r := by
  constructor
  · rw [handle_validate hdry h]
  · intro hfree
    rw [handle_register hreal (hsame ▸ h) hfree]
  · intro htaken
    obtain ⟨record, hrecord⟩ := Option.ne_none_iff_exists'.mp htaken
    rw [handle_register_of_taken hreal (hsame ▸ h) hrecord]
    rfl

/-- What is rejected is not accepted as well. -/
theorem BothReject.not_accept {violations : Violations} {r : ModelRequest}
    (h : s.BothReject dry real violations) : ¬ s.BothAccept dry real r := by
  intro haccept
  have hstatus : 400 = 200 := congrArg Reply.status (h.reply.symm.trans haccept.reply)
  cases hstatus

/-- **A dry run tells what a registration will answer, and both tell what the text is.**

    Whatever was asked of the service before, a body that is submitted on both routes is
    rejected on both for the same violations, or is accepted on both.  One that means JSON,
    spells a text and is within the limit is rejected exactly if its text is no model under
    the policy of the service: for what is wrong with it, or as a whole if it is no JSON.
    Otherwise it is accepted as the model that its text is. -/
theorem handle_dry_run (hs : s.Reachable p)
    (hdry : dry.method = "POST" ∧ dry.route? = some .validate)
    (hreal : real.method = "POST" ∧ real.route? = some .models)
    (htype : real.contentType = dry.contentType) (hbody : real.body = dry.body) :
    ((∃ violations, s.BothReject dry real violations) ∨ ∃ r, s.BothAccept dry real r) ∧
    ∀ text, dry.meansJson = true → dry.body.Within → dry.body.Spells text →
      ((∃ violations, s.BothReject dry real violations) ↔
        ∃ f, (parseRequest p text).outcome = .error f) ∧
      match (parseRequest p text).outcome with
      | .ok r => s.BothAccept dry real r
      | .error (.invalid violations) => s.BothReject dry real violations
      | .error f =>
        f = .malformedJson ∧ ∃ reason, s.BothReject dry real [⟨"$", .shape, reason⟩] := by
  have hdry : dry.action? = some .validate :=
    Call.action?_eq_some_iff.mpr ⟨hdry.2, hdry.1⟩
  have hreal : real.action? = some .register :=
    Call.action?_eq_some_iff.mpr ⟨hreal.2, hreal.1⟩
  have hsame : real.judged s.policy = dry.judged s.policy := by
    unfold Call.judged Call.json
    rw [htype, hbody]
  have hpolicy : s.policy = p := hs.sound.policy_eq
  constructor
  · cases h : (dry.judged s.policy).outcome with
    | error violations => exact Or.inl ⟨_, bothReject_of_judged hdry hreal hsame h⟩
    | ok r => exact Or.inr ⟨r, bothAccept_of_judged hdry hreal hsame h⟩
  · intro text hjson hwithin hspells
    have hjudged := Call.outcome_judged (p := s.policy) hjson hwithin hspells
    rw [← hpolicy]
    cases h : (parseRequest s.policy text).outcome with
    | ok r =>
      rw [h] at hjudged
      have haccept : s.BothAccept dry real r := bothAccept_of_judged hdry hreal hsame hjudged
      refine ⟨?_, haccept⟩
      simp only [reduceCtorEq, exists_false, iff_false]
      rintro ⟨violations, hreject⟩
      exact hreject.not_accept haccept
    | error f =>
      rw [h] at hjudged
      have hreject : s.BothReject dry real f.violations :=
        bothReject_of_judged hdry hreal hsame hjudged
      refine ⟨⟨fun _ => ⟨f, rfl⟩, fun _ => ⟨_, hreject⟩⟩, ?_⟩
      rcases parseRequest_eq_error h with rfl | ⟨violations, rfl⟩
      · exact ⟨rfl, _, hreject⟩
      · exact hreject

/-- A model that is registered already is still valid, and is not registered again. -/
theorem handle_dry_run_taken :
    let text := " \x7b\"modelName\":\"n\",\"modelId\":\"m\",\"size\":1\x7d"
    let real : Call := ⟨"POST", ⟨"/models", ""⟩, some "text/json; charset=utf-8", text⟩
    let dry : Call := { real with target := ⟨"/models/%76alidate", "x"⟩ }
    let s := ((start {}).handle real).service
    ∃ r, (parseRequest {} text).outcome = .ok r ∧ s.BothAccept dry real r ∧
      s.catalog.get? r.id ≠ none := by
  intro text real dry s
  have hparse : (parseRequest {} text).outcome =
      .ok { descriptor := { modelId := "m", modelName := "n" } } := by decide +kernel
  have hs : s.Reachable {} := .handle real .start
  have hdry : dry.method = "POST" ∧ dry.route? = some .validate := ⟨rfl, by decide +kernel⟩
  have hreal : real.method = "POST" ∧ real.route? = some .models := ⟨rfl, by decide +kernel⟩
  obtain ⟨-, hverdict⟩ := handle_dry_run hs hdry hreal rfl rfl
  have haccept :=
    (hverdict text (by decide +kernel) (by decide +kernel) (Body.spells_ofText text)).2
  rw [hparse] at haccept
  exact ⟨_, hparse, haccept, by decide +kernel⟩

end

end Service

end ModelCatalog
