/-
  ModelCatalog/Proofs/Service/PublishedSchema.lean
  ================================================
  **The published schema admits every answer.**

  A body that is validated with success is answered with a valid request, whatever the
  policy, and the target value of a valid request is finite.  So the answer fits the
  document that the service publishes.
-/
import ModelCatalog.Proofs.Schema.Answers
import ModelCatalog.Proofs.Service.Submissions

namespace ModelCatalog

/-- A request that a body is judged to be has a finite target value. -/
theorem Call.targetValue_finite {c : Call} {p : Policy} {r : ModelRequest}
    (h : (c.judged p).outcome = .ok r) :
    r.descriptor.scaling.metric.targetValue.isFinite = true := by
  cases hbody : c.json with
  | ok v =>
    rw [Call.judged_of_json hbody, Validation.validateRequest,
      Survey.outcome_judge_eq_ok_iff] at h
    obtain ⟨hpasses, rfl⟩ := h
    exact (Validation.valid_surveyRequest hpasses).2.1.targetValue_finite
  | error fault => simp [Call.judged, hbody] at h

namespace Service

variable {s : Service} {c : Call}

/-- What is validated with success is answered with the request that the body is. -/
theorem exists_request_of_validated (haction : c.action? = some .validate)
    (hok : (s.handle c).reply.status = 200) :
    ∃ r : ModelRequest, (c.judged s.policy).outcome = .ok r ∧
      (s.handle c).reply = .json 200 r.toJson := by
  cases houtcome : (c.judged s.policy).outcome with
  | ok r =>
    rw [handle_validate haction houtcome]
    exact ⟨r, rfl, rfl⟩
  | error violations =>
    have hrejected : (s.handle c).reply.status = 400 := by
      rw [handle_of_rejected (Or.inl haction) houtcome]
      rfl
    rw [hrejected] at hok
    exact absurd hok (by decide)

/-- **The published schema admits every answer.**

    Let a body be validated with success, by a service with any policy and after whatever
    was asked of it before, and let the schema be asked for.  The answer to the first
    conforms to the answer to the second, its references resolved in itself, and each
    member of the answer, at every depth, is declared where it stands.  Of all requests
    those conform whose target value is finite, and no others. -/
theorem handle_validate_conforms {s s' : Service} {c c' : Call}
    (hmethod : c.method = "POST") (hroute : c.route? = some .validate)
    (hok : (s.handle c).reply.status = 200)
    (hmethod' : c'.method = "GET") (hroute' : c'.route? = some .schema) :
    ∃ (r : ModelRequest) (document : Json),
      (s.handle c).reply = .json 200 r.toJson ∧ (s'.handle c').reply = .json 200 document ∧
      Schema.Conforms (Schema.definitionsOf document) document r.toJson ∧
      Schema.Covered (Schema.definitionsOf document) document r.toJson ∧
      ∀ other : ModelRequest,
        Schema.Conforms (Schema.definitionsOf document) document other.toJson ↔
          other.descriptor.scaling.metric.targetValue.isFinite = true := by
  have haction : c.action? = some .validate := Call.action?_eq_some_iff.mpr ⟨hroute, hmethod⟩
  have haction' : c'.action? = some .schema := Call.action?_eq_some_iff.mpr ⟨hroute', hmethod'⟩
  obtain ⟨r, houtcome, hreply⟩ := exists_request_of_validated haction hok
  have hfits := Schema.fits_document (Call.targetValue_finite houtcome)
  have hdocument : (s'.handle c').reply = .json 200 Schema.document := by
    rw [handle_of_action haction']
    rfl
  exact ⟨r, Schema.document, hreply, hdocument, hfits.conforms, hfits.covered,
    fun _ => Schema.conforms_document_iff⟩

/-- A count that is spelled as a text, bounds out of order and a server are answered in a
    form that the schema admits. -/
theorem handle_validate_conforms_lenient :
    let s := start {}
    let post : Call := ⟨"POST", ⟨"/models/validate", ""⟩, some "application/json",
      "\x7b\"autoScalingConfig\":\x7b\"minCapacity\":\" 7 \"\x7d," ++
        "\"inferenceContainer\":\"vllm\"\x7d"⟩
    let get : Call := ⟨"GET", ⟨"/models/schema", ""⟩, none, ""⟩
    (s.handle post).reply.status = 200 ∧
      ∃ (r : ModelRequest) (document : Json),
        (s.handle post).reply = .json 200 r.toJson ∧ (s.handle get).reply = .json 200 document ∧
        Schema.Conforms (Schema.definitionsOf document) document r.toJson ∧
        Schema.Covered (Schema.definitionsOf document) document r.toJson := by
  intro s post get
  have hpost : post.route? = some .validate := by decide +kernel
  have hget : get.route? = some .schema := by decide +kernel
  have hok : (s.handle post).reply.status = 200 := by decide +kernel
  obtain ⟨r, document, hreply, hdocument, hconforms, hcovered, -⟩ :=
    @handle_validate_conforms s s post get rfl hpost hok rfl hget
  exact ⟨hok, r, document, hreply, hdocument, hconforms, hcovered⟩

end Service

end ModelCatalog
