/-
  ModelCatalog/Proofs/Service/Runs.lean
  =====================================
  **What every run of the service keeps.**

  A service is reached from its start by requests.  No request changes its policy, and
  each one leaves every stored request valid and such as the policy asks for
  (`Service.sound_handle`): a registration stores what was just validated, and a report
  or a removal stores no request that was not there.
-/
import ModelCatalog.Proofs.Service.Writes
import ModelCatalog.Proofs.Validation.Soundness

namespace ModelCatalog

namespace Service

/-- The services that requests lead to, beginning with one that holds no model. -/
inductive Reachable (p : Policy) : Service → Prop
  | start : Reachable p (start p)
  | handle {s : Service} (c : Call) : Reachable p s → Reachable p (s.handle c).service

/-- The service after a run. -/
def run (s : Service) (calls : List Call) : Service :=
  calls.foldl (fun s c => (s.handle c).service) s

/-- A run leads from a service that is reached to another one. -/
theorem Reachable.run {p : Policy} {s : Service} (h : s.Reachable p) (calls : List Call) :
    (s.run calls).Reachable p := by
  induction calls generalizing s with
  | nil => exact h
  | cons c calls ih => simpa only [Service.run, List.foldl_cons] using ih (h.handle c)

/-- What a run keeps: the policy, and what it asks of every stored request. -/
structure Sound (p : Policy) (s : Service) : Prop where
  policy_eq : s.policy = p
  valid : ∀ {id record}, s.catalog.get? id = some record → record.request.Valid
  meets : ∀ {id record}, s.catalog.get? id = some record → record.request.Meets p

variable {p : Policy} {s : Service} {c : Call}

/-! ### One request -/

theorem policy_withBody {next : Json → Answer} (h : ∀ v, (next v).service.policy = s.policy) :
    (s.withBody c next).service.policy = s.policy := by
  unfold withBody
  cases c.json with
  | ok v => exact h v
  | error fault => rfl

theorem policy_withRequest {v : Json} {next : Service → ModelRequest → Answer}
    (h : ∀ s' r, (next s' r).service.policy = s'.policy) :
    (s.withRequest v next).service.policy = s.policy := by
  cases houtcome : (Validation.validateRequest s.policy v).outcome with
  | ok r =>
    simp only [withRequest, houtcome]
    exact h _ r
  | error violations =>
    simp only [withRequest, houtcome]
    rfl

theorem policy_change (status : Nat) (change : Except Failure Change) :
    (s.change status change).service.policy = s.policy := by
  cases change <;> rfl

theorem policy_perform (action : Action) : (s.perform c action).service.policy = s.policy := by
  cases action with
  | health | defaults | schema | list => rfl
  | validate => exact policy_withBody fun v => policy_withRequest fun s' r => rfl
  | register => exact policy_withBody fun v => policy_withRequest fun s' r => policy_change _ _
  | describe id =>
    simp only [perform]
    cases s.catalog.describe id <;> rfl
  | remove id => exact policy_change _ _
  | updateStatus id =>
    refine policy_withBody fun v => ?_
    cases statusOf v with
    | ok status => exact policy_change _ _
    | error violation => rfl

/-- **No request changes the policy.** -/
theorem policy_handle (s : Service) (c : Call) : (s.handle c).service.policy = s.policy := by
  cases haction : c.action? with
  | none =>
    obtain ⟨status, -, heq⟩ := handle_of_no_action (s := s) haction
    rw [heq, answer]
  | some action => rw [handle_of_action haction, policy_perform]

/-- Each record that a write leaves has a request that was just accepted, or the one that
    it had. -/
theorem Writes.request_of_get? {reply : Reply} {after : Catalog} (h : s.Writes c reply after)
    {id : String} {record : ModelRecord} (hget : after.get? id = some record) :
    (∃ v, (Validation.validateRequest s.policy v).outcome = .ok record.request) ∨
      ∃ before, s.catalog.get? id = some before ∧ record.request = before.request := by
  cases h with
  | register haction hbody haccepted hfree =>
    rw [Catalog.get?_put] at hget
    split at hget
    · cases hget
      exact Or.inl ⟨_, haccepted⟩
    · exact Or.inr ⟨record, hget, rfl⟩
  | @updateStatus _ _ _ held haction hbody hstatus hheld =>
    rw [Catalog.get?_put] at hget
    split at hget
    · rename_i hid
      cases hget
      rw [ModelRecord.id_withStatus, Catalog.id_of_get? hheld] at hid
      exact Or.inr ⟨held, hid ▸ hheld, rfl⟩
    · exact Or.inr ⟨record, hget, rfl⟩
  | remove haction hheld =>
    rw [Catalog.get?_takeOut] at hget
    split at hget
    · cases hget
    · exact Or.inr ⟨record, hget, rfl⟩

/-- **One request keeps a service sound.** -/
theorem sound_handle (h : s.Sound p) (c : Call) : (s.handle c).service.Sound p := by
  have hrequest : ∀ {id record}, (s.handle c).service.catalog.get? id = some record →
      record.request.Valid ∧ record.request.Meets p := by
    intro id record hget
    have hkept : ∀ before, s.catalog.get? id = some before → record.request = before.request →
        record.request.Valid ∧ record.request.Meets p := by
      intro before hbefore heq
      rw [heq]
      exact ⟨h.valid hbefore, h.meets hbefore⟩
    rcases handle_cases s c with hwrites | hrefuses | ⟨action, -, -, hsame⟩
    · rcases hwrites.request_of_get? hget with ⟨v, haccepted⟩ | ⟨before, hbefore, heq⟩
      · obtain ⟨hpasses, hvalue⟩ := Survey.outcome_judge_eq_ok_iff.mp haccepted
        obtain ⟨-, hvalid, hmeets⟩ := Validation.valid_surveyRequest hpasses
        rw [h.policy_eq] at hmeets
        exact ⟨hvalue ▸ hvalid, hvalue ▸ hmeets⟩
      · exact hkept before hbefore heq
    · exact hkept record (hrefuses.1 ▸ hget) rfl
    · exact hkept record (hsame ▸ hget) rfl
  exact ⟨(policy_handle s c).trans h.policy_eq, fun hget => (hrequest hget).1,
    fun hget => (hrequest hget).2⟩

/-! ### Every run -/

/-- **Whatever was asked, all that is stored is valid.** -/
theorem Reachable.sound (h : Reachable p s) : s.Sound p := by
  induction h with
  | start => exact ⟨rfl, nofun, nofun⟩
  | handle c _ ih => exact sound_handle ih c

end Service

end ModelCatalog
