/-
  ModelCatalog/Proofs/Service/Writes.lean
  =======================================
  **Only a write that succeeds changes the catalog.**

  A request makes one of three writes (`Service.Writes`), each with the reply that
  reports it, or it leaves the catalog alone and either looks at something or is
  answered with an error (`Service.handle_cases`).  What holds of every request, or of
  every run of the service, is read off from these two cases.
-/
import ModelCatalog.Service.Handler
import ModelCatalog.Proofs.Catalog.Lookup
import ModelCatalog.Proofs.Descriptor.Names

namespace ModelCatalog

/-! ### What is asked for -/

def Call.route? (c : Call) : Option Route :=
  Route.ofSegments? c.target.segments

def Call.action? (c : Call) : Option Action :=
  c.route?.bind fun route => Action.of? route c.method

namespace Action

/-- The route that an action is asked of. -/
def route : Action → Route
  | .health => .health
  | .validate => .validate
  | .defaults => .defaults
  | .schema => .schema
  | .list | .register => .models
  | .describe id | .remove id => .model id
  | .updateStatus id => .status id

/-- By which methods an action is asked for. -/
def Allows (method : String) : Action → Prop
  | .health => True
  | .validate | .register => method = "POST"
  | .defaults | .schema | .list | .describe _ => method = "GET"
  | .remove _ => method = "DELETE"
  | .updateStatus _ => method = "PUT"

/-- Whether an action only looks at the catalog or at nothing of the service. -/
def looks : Action → Bool
  | .register | .remove _ | .updateStatus _ => false
  | _ => true

theorem of?_eq_some_iff {r : Route} {method : String} {action : Action} :
    of? r method = some action ↔ r = action.route ∧ action.Allows method := by
  constructor
  · intro h
    unfold of? at h
    split at h <;> cases h <;> exact ⟨rfl, by simp [Allows]⟩
  · rintro ⟨rfl, hmethod⟩
    cases action with
    | health => rfl
    | _ =>
      cases hmethod
      rfl

end Action

/-- **An action is asked of its route, by its method.** -/
theorem Call.action?_eq_some_iff {c : Call} {action : Action} :
    c.action? = some action ↔ c.route? = some action.route ∧ action.Allows c.method := by
  simp only [action?, Option.bind_eq_some_iff, Action.of?_eq_some_iff]
  constructor
  · rintro ⟨_, hroute, rfl, hmethod⟩
    exact ⟨hroute, hmethod⟩
  · rintro ⟨hroute, hmethod⟩
    exact ⟨_, hroute, rfl, hmethod⟩

/-! ### Errors -/

/-- What leaves the catalog alone and is answered with an error. -/
def Answer.Refuses (a : Answer) (s : Service) : Prop :=
  a.service.catalog = s.catalog ∧ 400 ≤ a.reply.status

/-- Every failure is reported with the status of an error. -/
theorem Failure.le_status_reply (f : Failure) : 400 ≤ f.reply.status := by
  show 400 ≤ f.status
  cases f <;> simp [Failure.status]

namespace Service

variable {s : Service} {c : Call}

theorem handle_of_action {action : Action} (h : c.action? = some action) :
    s.handle c = s.perform c action := by
  obtain ⟨route, hroute, hof⟩ := Option.bind_eq_some_iff.mp h
  unfold Call.route? at hroute
  simp only [handle, hroute, hof]

/-- A request without an action is answered with an error. -/
theorem handle_of_no_action (h : c.action? = none) :
    ∃ status, 400 ≤ status ∧ s.handle c = s.answer (.empty status) := by
  unfold handle
  cases hroute : Route.ofSegments? c.target.segments with
  | none => exact ⟨404, by decide, rfl⟩
  | some route =>
    have hof : Action.of? route c.method = none := by
      simpa [Call.action?, Call.route?, hroute] using h
    simp only [hof]
    exact ⟨405, by decide, rfl⟩

/-! ### Bodies and outcomes -/

/-- The status that a value reports is the one that its member names. -/
theorem statusOf_eq_ok_iff {v : Json} {status : Status} :
    statusOf v = .ok status ↔
      ∃ m, v = .object m ∧ Entries.get? m statusKey = some (.string (Named.name status)) := by
  constructor
  · intro h
    unfold statusOf at h
    split at h
    · rename_i m
      split at h
      · cases h
      · rename_i name hname
        split at h
        · rename_i status' hstatus
          cases h
          exact ⟨m, rfl, Named.name_of_ofName hstatus ▸ hname⟩
        · cases h
      · cases h
    · cases h
  · rintro ⟨m, rfl, hget⟩
    simp only [statusOf, hget, Named.ofName_name]

theorem refuses_reject (s : Service) (violations : Violations) :
    (s.reject violations).Refuses s :=
  ⟨rfl, Failure.le_status_reply _⟩

theorem withBody_cases (s : Service) (c : Call) (next : Json → Answer) :
    (∃ v, c.json = .ok v ∧ s.withBody c next = next v) ∨ (s.withBody c next).Refuses s := by
  unfold withBody
  cases c.json with
  | ok v => exact Or.inl ⟨v, rfl, rfl⟩
  | error fault => exact Or.inr (refuses_reject s _)

theorem withRequest_cases (s : Service) (v : Json) (next : Service → ModelRequest → Answer) :
    (∃ r, (Validation.validateRequest s.policy v).outcome = .ok r ∧
      (s.withRequest v next).service = (next { s with counters := s.counters.accept } r).service ∧
      (s.withRequest v next).reply = (next { s with counters := s.counters.accept } r).reply) ∨
      (s.withRequest v next).Refuses s := by
  cases h : (Validation.validateRequest s.policy v).outcome with
  | ok r => exact Or.inl ⟨r, rfl, by simp only [withRequest, h], by simp only [withRequest, h]⟩
  | error violations =>
    right
    simp only [withRequest, h]
    exact refuses_reject s violations

/-! ### One request -/

/-- The writes that requests make: the reply that reports one, and the catalog that it
    leaves. -/
inductive Writes (s : Service) (c : Call) : Reply → Catalog → Prop
  | register {v : Json} {r : ModelRequest} (haction : c.action? = some .register)
      (hbody : c.json = .ok v)
      (haccepted : (Validation.validateRequest s.policy v).outcome = .ok r)
      (hfree : s.catalog.get? r.id = none) :
      Writes s c (.json 201 (ModelRecord.toJson ⟨r, .creating⟩)) (s.catalog.put ⟨r, .creating⟩)
  | updateStatus {id : String} {v : Json} {status : Status} {record : ModelRecord}
      (haction : c.action? = some (.updateStatus id)) (hbody : c.json = .ok v)
      (hstatus : statusOf v = .ok status) (hheld : s.catalog.get? id = some record) :
      Writes s c (.json 200 (ModelRecord.toJson { record with status }))
        (s.catalog.put { record with status })
  | remove {id : String} {record : ModelRecord} (haction : c.action? = some (.remove id))
      (hheld : s.catalog.get? id = some record) :
      Writes s c (.json 200 record.toJson) (s.catalog.takeOut id)

theorem perform_register_cases (haction : c.action? = some .register) :
    s.Writes c (s.perform c .register).reply (s.perform c .register).service.catalog ∨
      (s.perform c .register).Refuses s := by
  simp only [perform]
  rcases withBody_cases s c _ with ⟨v, hbody, heq⟩ | hrefuses
  · rw [heq]
    rcases withRequest_cases s v _ with ⟨r, haccepted, hservice, hreply⟩ | hrefuses
    · rw [Answer.Refuses, hservice, hreply]
      cases hget : s.catalog.get? r.id with
      | none =>
        left
        simp only [Catalog.register, hget, change]
        exact .register haction hbody haccepted hget
      | some record =>
        right
        simp only [Catalog.register, hget, change]
        exact ⟨rfl, Failure.le_status_reply _⟩
    · exact Or.inr hrefuses
  · exact Or.inr hrefuses

theorem perform_updateStatus_cases {id : String} (haction : c.action? = some (.updateStatus id)) :
    s.Writes c (s.perform c (.updateStatus id)).reply
        (s.perform c (.updateStatus id)).service.catalog ∨
      (s.perform c (.updateStatus id)).Refuses s := by
  simp only [perform]
  rcases withBody_cases s c _ with ⟨v, hbody, heq⟩ | hrefuses
  · rw [heq]
    cases hstatus : statusOf v with
    | error violation => exact Or.inr ⟨rfl, Failure.le_status_reply _⟩
    | ok status =>
      cases hget : s.catalog.get? id with
      | none =>
        right
        simp only [Catalog.updateStatus, hget, change]
        exact ⟨rfl, Failure.le_status_reply _⟩
      | some record =>
        left
        simp only [Catalog.updateStatus, hget, change]
        exact .updateStatus haction hbody hstatus hget
  · exact Or.inr hrefuses

theorem perform_remove_cases {id : String} (haction : c.action? = some (.remove id)) :
    s.Writes c (s.perform c (.remove id)).reply (s.perform c (.remove id)).service.catalog ∨
      (s.perform c (.remove id)).Refuses s := by
  simp only [perform]
  cases hget : s.catalog.get? id with
  | none =>
    right
    simp only [Catalog.remove, hget, change]
    exact ⟨rfl, Failure.le_status_reply _⟩
  | some record =>
    left
    simp only [Catalog.remove, hget, change]
    exact .remove haction hget

theorem catalog_perform_of_looks {action : Action} (h : action.looks = true) :
    (s.perform c action).service.catalog = s.catalog := by
  cases action with
  | health | defaults | schema | list => rfl
  | validate =>
    simp only [perform]
    rcases withBody_cases s c _ with ⟨v, -, heq⟩ | hrefuses
    · rw [heq]
      rcases withRequest_cases s v _ with ⟨r, -, hservice, -⟩ | hrefuses
      · rw [hservice]
        rfl
      · exact hrefuses.1
    · exact hrefuses.1
  | describe id =>
    simp only [perform]
    cases s.catalog.describe id <;> rfl
  | register | remove _ | updateStatus _ => cases h

/-- **A request writes, or it is refused, or it only looks.** -/
theorem handle_cases (s : Service) (c : Call) :
    s.Writes c (s.handle c).reply (s.handle c).service.catalog ∨ (s.handle c).Refuses s ∨
      ∃ action, c.action? = some action ∧ action.looks = true ∧
        (s.handle c).service.catalog = s.catalog := by
  cases haction : c.action? with
  | none =>
    obtain ⟨status, hstatus, heq⟩ := handle_of_no_action (s := s) haction
    rw [heq]
    exact Or.inr (Or.inl ⟨rfl, hstatus⟩)
  | some action =>
    rw [handle_of_action haction]
    cases action with
    | register => exact (perform_register_cases haction).imp_right Or.inl
    | updateStatus id => exact (perform_updateStatus_cases haction).imp_right Or.inl
    | remove id => exact (perform_remove_cases haction).imp_right Or.inl
    | health | validate | defaults | schema | list | describe _ =>
      exact Or.inr (Or.inr ⟨_, rfl, rfl, catalog_perform_of_looks rfl⟩)

/-! ### Requests for what is held -/

theorem handle_describe {id : String} {record : ModelRecord}
    (haction : c.action? = some (.describe id)) (hheld : s.catalog.get? id = some record) :
    s.handle c = ⟨s, .json 200 record.toJson, []⟩ := by
  rw [handle_of_action haction]
  simp only [perform, Catalog.describe, hheld, answer]

theorem handle_remove {id : String} {record : ModelRecord}
    (haction : c.action? = some (.remove id)) (hheld : s.catalog.get? id = some record) :
    s.handle c = ⟨{ s with catalog := s.catalog.takeOut id }, .json 200 record.toJson,
      [.changed (.removed id)]⟩ := by
  rw [handle_of_action haction]
  simp only [perform, Catalog.remove, hheld, change]

theorem handle_updateStatus {id : String} {record : ModelRecord} {v : Json} {status : Status}
    (haction : c.action? = some (.updateStatus id)) (hheld : s.catalog.get? id = some record)
    (hbody : c.json = .ok v) (hstatus : statusOf v = .ok status) :
    s.handle c = ⟨{ s with catalog := s.catalog.put { record with status } },
      .json 200 (ModelRecord.toJson { record with status }),
      [.changed (.moved id record.status status)]⟩ := by
  rw [handle_of_action haction]
  simp only [perform, withBody, hbody, hstatus, Catalog.updateStatus, hheld, change]

/-! ### Every request -/

/-- A write is reported with success, under a method and a route of its own. -/
theorem Writes.asked {reply : Reply} {after : Catalog} (h : s.Writes c reply after) :
    (c.method = "POST" ∧ c.route? = some .models ∧ reply.status = 201) ∨
      (c.method = "PUT" ∧ (∃ named, c.route? = some (.status named)) ∧ reply.status = 200) ∨
      (c.method = "DELETE" ∧ (∃ named, c.route? = some (.model named)) ∧
        reply.status = 200) := by
  cases h with
  | register haction _ _ _ =>
    obtain ⟨hroute, hmethod⟩ := Call.action?_eq_some_iff.mp haction
    exact Or.inl ⟨hmethod, hroute, rfl⟩
  | updateStatus haction _ _ _ =>
    obtain ⟨hroute, hmethod⟩ := Call.action?_eq_some_iff.mp haction
    exact Or.inr (Or.inl ⟨hmethod, ⟨_, hroute⟩, rfl⟩)
  | remove haction _ =>
    obtain ⟨hroute, hmethod⟩ := Call.action?_eq_some_iff.mp haction
    exact Or.inr (Or.inr ⟨hmethod, ⟨_, hroute⟩, rfl⟩)

theorem Writes.registered {reply : Reply} {after : Catalog} (h : s.Writes c reply after)
    (haction : c.action? = some .register) :
    ∃ v r, c.json = .ok v ∧ (Validation.validateRequest s.policy v).outcome = .ok r ∧
      s.catalog.get? r.id = none ∧ after = s.catalog.put ⟨r, .creating⟩ ∧
      reply = .json 201 (ModelRecord.toJson ⟨r, .creating⟩) := by
  cases h with
  | register _ hbody haccepted hfree => exact ⟨_, _, hbody, haccepted, hfree, rfl, rfl⟩
  | updateStatus haction' | remove haction' => simp [haction] at haction'

theorem Writes.reported {id : String} {reply : Reply} {after : Catalog}
    (h : s.Writes c reply after) (haction : c.action? = some (.updateStatus id)) :
    ∃ v status record, c.json = .ok v ∧ statusOf v = .ok status ∧
      s.catalog.get? id = some record ∧ after = s.catalog.put { record with status } ∧
      reply = .json 200 (ModelRecord.toJson { record with status }) := by
  cases h with
  | updateStatus haction' hbody hstatus hheld =>
    rw [haction] at haction'
    cases haction'
    exact ⟨_, _, _, hbody, hstatus, hheld, rfl, rfl⟩
  | register haction' | remove haction' => simp [haction] at haction'

theorem Writes.removed {reply : Reply} {after : Catalog} (h : s.Writes c reply after)
    (hmethod : c.method = "DELETE") :
    ∃ id record, c.route? = some (.model id) ∧ s.catalog.get? id = some record ∧
      after = s.catalog.takeOut id ∧ reply = .json 200 record.toJson := by
  cases h with
  | register haction =>
    have hpost : c.method = "POST" := (Call.action?_eq_some_iff.mp haction).2
    simp [hmethod] at hpost
  | updateStatus haction =>
    have hput : c.method = "PUT" := (Call.action?_eq_some_iff.mp haction).2
    simp [hmethod] at hput
  | remove haction hheld =>
    exact ⟨_, _, (Call.action?_eq_some_iff.mp haction).1, hheld, rfl, rfl⟩

/-- What does more than look, and is not refused, is a write. -/
theorem writes_of_status (hlooks : ∀ action, c.action? = some action → action.looks = false)
    (hstatus : (s.handle c).reply.status < 400) :
    s.Writes c (s.handle c).reply (s.handle c).service.catalog := by
  rcases handle_cases s c with hwrites | hrefuses | ⟨action, haction, hlook, -⟩
  · exact hwrites
  · exact absurd hrefuses.2 (Nat.not_le.mpr hstatus)
  · rw [hlooks action haction] at hlook
    cases hlook

theorem writes_of_action {action : Action} (haction : c.action? = some action)
    (hlooks : action.looks = false) (hstatus : (s.handle c).reply.status < 400) :
    s.Writes c (s.handle c).reply (s.handle c).service.catalog := by
  refine writes_of_status ?_ hstatus
  intro action' haction'
  cases haction.symm.trans haction'
  exact hlooks

/-- What is refused changes nothing, nor does what is asked by GET or of the routes of the
    health and of the validation. -/
theorem catalog_handle (h : 400 ≤ (s.handle c).reply.status ∨ c.method = "GET" ∨
    c.route? = some .health ∨ c.route? = some .validate) :
    (s.handle c).service.catalog = s.catalog := by
  rcases handle_cases s c with hwrites | hrefuses | ⟨action, -, -, heq⟩
  · exfalso
    rcases hwrites.asked with ⟨hmethod, hroute, hstatus⟩ | ⟨hmethod, ⟨_, hroute⟩, hstatus⟩ |
      ⟨hmethod, ⟨_, hroute⟩, hstatus⟩ <;> simp [hmethod, hroute, hstatus] at h
  · exact hrefuses.1
  · exact heq

/-- **Only a write that succeeds changes the catalog**, and each of the three changes one
    record and replies with it.

    An error changes nothing, nor does what is asked by GET or of the routes of the health
    and of the validation.  A registration puts the validated request under an identifier
    that was free, a report of a status changes the status of the record that it names, and
    a removal takes out the record that it names; whatever changes the catalog is one of
    them. -/
theorem handle_writes (s : Service) (c : Call) :
    (400 ≤ (s.handle c).reply.status ∨ c.method = "GET" ∨ c.route? = some .health ∨
        c.route? = some .validate →
      (s.handle c).service.catalog = s.catalog) ∧
    (c.method = "POST" → c.route? = some .models → (s.handle c).reply.status = 201 →
      ∃ v r, c.json = .ok v ∧ (Validation.validateRequest s.policy v).outcome = .ok r ∧
        s.catalog.get? r.id = none ∧
        (∀ id, (s.handle c).service.catalog.get? id =
          if r.id = id then some ⟨r, .creating⟩ else s.catalog.get? id) ∧
        (s.handle c).reply = .json 201 (ModelRecord.toJson ⟨r, .creating⟩)) ∧
    (∀ named, c.method = "PUT" → c.route? = some (.status named) →
      (s.handle c).reply.status = 200 →
      ∃ m status record, c.json = .ok (.object m) ∧
        Entries.get? m statusKey = some (.string (Named.name status)) ∧
        s.catalog.get? named = some record ∧
        (∀ id, (s.handle c).service.catalog.get? id =
          if named = id then some { record with status } else s.catalog.get? id) ∧
        (s.handle c).reply = .json 200 (ModelRecord.toJson { record with status })) ∧
    (c.method = "DELETE" → (s.handle c).reply.status = 200 → c.route? ≠ some .health →
      ∃ named record, c.route? = some (.model named) ∧ s.catalog.get? named = some record ∧
        (∀ id, (s.handle c).service.catalog.get? id =
          if named = id then none else s.catalog.get? id) ∧
        (s.handle c).reply = .json 200 record.toJson) ∧
    ((s.handle c).service.catalog ≠ s.catalog →
      (c.method = "POST" ∧ c.route? = some .models ∧ (s.handle c).reply.status = 201) ∨
      (c.method = "PUT" ∧ (∃ named, c.route? = some (.status named)) ∧
        (s.handle c).reply.status = 200) ∨
      (c.method = "DELETE" ∧ (∃ named, c.route? = some (.model named)) ∧
        (s.handle c).reply.status = 200)) := by
  refine ⟨catalog_handle, ?_, ?_, ?_, ?_⟩
  · intro hmethod hroute hstatus
    have haction : c.action? = some .register :=
      Call.action?_eq_some_iff.mpr ⟨hroute, hmethod⟩
    obtain ⟨v, r, hbody, haccepted, hfree, hafter, hreply⟩ :=
      (writes_of_action (s := s) haction rfl (by rw [hstatus]; decide)).registered haction
    rw [hafter, hreply]
    exact ⟨v, r, hbody, haccepted, hfree, fun id => Catalog.get?_put _ _ id, rfl⟩
  · intro named hmethod hroute hstatus
    have haction : c.action? = some (.updateStatus named) :=
      Call.action?_eq_some_iff.mpr ⟨hroute, hmethod⟩
    obtain ⟨v, status, record, hbody, hreported, hheld, hafter, hreply⟩ :=
      (writes_of_action (s := s) haction rfl (by rw [hstatus]; decide)).reported haction
    obtain ⟨m, rfl, hmember⟩ := statusOf_eq_ok_iff.mp hreported
    rw [hafter, hreply]
    refine ⟨m, status, record, hbody, hmember, hheld, ?_, rfl⟩
    intro id
    rw [Catalog.get?_put, ModelRecord.id_withStatus, Catalog.id_of_get? hheld]
  · intro hmethod hstatus hhealth
    have hlooks : ∀ action, c.action? = some action → action.looks = false := by
      intro action h
      obtain ⟨hroute, hallows⟩ := Call.action?_eq_some_iff.mp h
      rw [hmethod] at hallows
      cases action with
      | health => exact absurd hroute hhealth
      | register | remove | updateStatus => rfl
      | _ => simp [Action.Allows] at hallows
    obtain ⟨named, record, hroute, hheld, hafter, hreply⟩ :=
      (writes_of_status (s := s) hlooks (by rw [hstatus]; decide)).removed hmethod
    rw [hafter, hreply]
    exact ⟨named, record, hroute, hheld, fun id => Catalog.get?_takeOut _ _ id, rfl⟩
  · intro hchanged
    rcases handle_cases s c with hwrites | hrefuses | ⟨action, -, -, heq⟩
    · exact hwrites.asked
    · exact absurd hrefuses.1 hchanged
    · exact absurd heq hchanged

/-- A model that is registered can be reported to be in service, and be removed. -/
example :
    let registered := ((start {}).handle ⟨"POST", ⟨"/models", ""⟩, some "application/json",
      "\x7b\"modelId\":\"m\",\"modelName\":\"n\"\x7d"⟩)
    let reported := registered.service.handle ⟨"PUT", ⟨"/models/m/status", ""⟩,
      some "application/json", "\x7b\"status\":\"InService\"\x7d"⟩
    let removed := reported.service.handle ⟨"DELETE", ⟨"/models/m", ""⟩, none, ""⟩
    (registered.reply.status, reported.reply.status, removed.reply.status) = (201, 200, 200) ∧
      reported.service.catalog.size = 1 ∧ removed.service.catalog.size = 0 := by
  decide +kernel

end Service

end ModelCatalog
