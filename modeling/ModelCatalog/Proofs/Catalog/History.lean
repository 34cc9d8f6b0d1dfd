/-
  ModelCatalog/Proofs/Catalog/History.lean
  ========================================
  **A catalog is determined by its history, identifier by identifier.**

  An operation acts on the record of one identifier and on no other, and its outcome
  depends on that record alone (`get?_perform`, `outcome_perform_congr`).  So what a
  catalog holds for an identifier is what the operations on it make of nothing, one after
  the other (`get?_run`).  Of those that succeed, the last registration that was not
  followed by a removal is what stands, with the status last reported since
  (`get?_run_of_stands`, `exists_stands`, both by induction on the history).
-/
import ModelCatalog.Catalog.Listing
import ModelCatalog.Proofs.Catalog.Lookup

namespace ModelCatalog

/-! ### Operations -/

/-- What can be asked of a catalog. -/
inductive Operation where
  | register (request : ModelRequest)
  | updateStatus (id : String) (status : Status)
  | remove (id : String)
  | describe (id : String)
  | list (wanted : List ModelType)

inductive Outcome where
  | record (r : ModelRecord)
  | listing (l : Listing)
  | failed (f : Failure)

def Outcome.isFailure : Outcome → Bool
  | .failed _ => true
  | _ => false

/-- What an operation leaves: the catalog, the outcome, and the event if there is one. -/
structure Performance where
  catalog : Catalog
  outcome : Outcome
  event : Option Event

/-- A failed change leaves the catalog as it was. -/
def Performance.ofChange (c : Catalog) : Except Failure Change → Performance
  | .ok change => ⟨change.catalog, .record change.record, some change.event⟩
  | .error f => ⟨c, .failed f, none⟩

namespace Catalog

def perform (c : Catalog) : Operation → Performance
  | .register r => .ofChange c (c.register r)
  | .updateStatus id status => .ofChange c (c.updateStatus id status)
  | .remove id => .ofChange c (c.remove id)
  | .describe id =>
    match c.describe id with
    | .ok record => ⟨c, .record record, none⟩
    | .error f => ⟨c, .failed f, none⟩
  | .list wanted => ⟨c, .listing (c.list wanted), none⟩

/-- The catalog that a history leaves, beginning with no model. -/
def run (ops : List Operation) : Catalog :=
  ops.foldl (fun c op => (c.perform op).catalog) empty

/-- The operations that succeed, one after the other, in order. -/
def successesFrom (c : Catalog) : List Operation → List Operation
  | [] => []
  | op :: ops =>
    let rest := successesFrom (c.perform op).catalog ops
    if (c.perform op).outcome.isFailure then rest else op :: rest

def successes (ops : List Operation) : List Operation := successesFrom empty ops

end Catalog

namespace Operation

/-- The identifier that an operation is about; a listing is about none. -/
def id? : Operation → Option String
  | .register r => some r.id
  | .updateStatus id _ | .remove id | .describe id => some id
  | .list _ => none

/-- What an operation makes of the record of an identifier. -/
def act (id : String) (held : Option ModelRecord) : Operation → Option ModelRecord
  | .register r => if r.id = id then held.or (some ⟨r, .creating⟩) else held
  | .updateStatus id' status =>
    if id' = id then held.map fun record => { record with status } else held
  | .remove id' => if id' = id then none else held
  | .describe _ | .list _ => held

/-- Whether an operation fails on what is held for its identifier. -/
def fails (held : Option ModelRecord) : Operation → Bool
  | .register _ => held.isSome
  | .updateStatus _ _ | .remove _ | .describe _ => held.isNone
  | .list _ => false

/-- The status that an operation reports for an identifier. -/
def reported? (id : String) : Operation → Option Status
  | .updateStatus id' status => if id' = id then some status else none
  | _ => none

end Operation

/-- The status last reported for an identifier; a model that has none is being created. -/
def lastStatus (id : String) (since : List Operation) : Status :=
  (since.filterMap (Operation.reported? id)).getLast?.getD .creating

/-- Among the operations that succeeded, a request was registered under an identifier,
    and no removal of the identifier is among those since. -/
structure Stands (id : String) (done : List Operation) (r : ModelRequest)
    (since : List Operation) : Prop where
  id_eq : r.id = id
  not_removed : .remove id ∉ since
  registered : ∃ before, done = before ++ .register r :: since

theorem lastStatus_concat (id : String) (since : List Operation) (op : Operation) :
    lastStatus id (since ++ [op]) = (op.reported? id).getD (lastStatus id since) := by
  unfold lastStatus
  rw [List.filterMap_append]
  cases h : op.reported? id <;> simp [h]

theorem Stands.concat {id : String} {done since : List Operation} {r : ModelRequest}
    (h : Stands id done r since) {op : Operation} (hop : op ≠ .remove id) :
    Stands id (done ++ [op]) r (since ++ [op]) := by
  obtain ⟨hid, hremove, before, rfl⟩ := h
  refine ⟨hid, ?_, before, by simp⟩
  rw [List.mem_append, not_or]
  exact ⟨hremove, fun hmem => hop (List.mem_singleton.mp hmem).symm⟩

/-- A model that stands after one more success was registered by it, or stood before and
    was not removed by it. -/
theorem Stands.of_concat {id : String} {done since : List Operation} {r : ModelRequest}
    {op : Operation} (h : Stands id (done ++ [op]) r since) :
    (op = .register r ∧ r.id = id ∧ since = []) ∨
      ∃ since', Stands id done r since' ∧ op ≠ .remove id ∧ since = since' ++ [op] := by
  obtain ⟨hid, hremove, before, hdone⟩ := h
  rcases List.eq_nil_or_concat' since with rfl | ⟨since', last, rfl⟩
  · obtain ⟨-, hop⟩ := List.append_inj' hdone rfl
    exact Or.inl ⟨List.head_eq_of_cons_eq hop, hid, rfl⟩
  · rw [← List.cons_append, ← List.append_assoc] at hdone
    obtain ⟨rfl, hop⟩ := List.append_inj' hdone rfl
    obtain rfl := List.head_eq_of_cons_eq hop
    rw [List.mem_append, not_or] at hremove
    refine Or.inr ⟨since', ⟨hid, hremove.1, before, rfl⟩, ?_, rfl⟩
    rintro rfl
    exact hremove.2 (List.mem_singleton_self _)

namespace Catalog

variable {c c' : Catalog} {op : Operation} {id : String}

/-! ### One operation -/

/-- **An operation acts on the record of one identifier.** -/
theorem get?_perform (c : Catalog) (op : Operation) (id : String) :
    (c.perform op).catalog.get? id = op.act id (c.get? id) := by
  cases op with
  | register r =>
    simp only [perform, register, Operation.act]
    by_cases h : r.id = id
    · subst h
      cases hget : c.get? r.id <;> simp [Performance.ofChange, hget, ModelRecord.id]
    · cases c.get? r.id <;> simp [Performance.ofChange, h, ModelRecord.id]
  | updateStatus id' status =>
    simp only [perform, updateStatus, Operation.act]
    cases hget : c.get? id' with
    | none =>
      by_cases h : id' = id
      · subst h
        simp [Performance.ofChange, hget]
      · simp [Performance.ofChange, h]
    | some record =>
      -- the new record is put under the identifier that it already had
      have hid : record.id = id' := id_of_get? hget
      by_cases h : id' = id
      · subst h
        simp [Performance.ofChange, hget, hid]
      · simp [Performance.ofChange, hid, h]
  | remove id' =>
    simp only [perform, remove, Operation.act]
    by_cases h : id' = id
    · subst h
      cases hget : c.get? id' <;> simp [Performance.ofChange, hget]
    · cases c.get? id' <;> simp [Performance.ofChange, h]
  | describe id' =>
    simp only [perform, Operation.act]
    cases c.describe id' <;> rfl
  | list wanted => rfl

theorem isFailure_perform (c : Catalog) (op : Operation) :
    (c.perform op).outcome.isFailure = op.fails (op.id?.bind c.get?) := by
  cases op with
  | register r =>
    cases hget : c.get? r.id <;>
      simp [perform, register, hget, Performance.ofChange, Outcome.isFailure, Operation.fails,
        Operation.id?]
  | updateStatus id status =>
    cases hget : c.get? id <;>
      simp [perform, updateStatus, hget, Performance.ofChange, Outcome.isFailure,
        Operation.fails, Operation.id?]
  | remove id =>
    cases hget : c.get? id <;>
      simp [perform, remove, hget, Performance.ofChange, Outcome.isFailure, Operation.fails,
        Operation.id?]
  | describe id =>
    cases hget : c.get? id <;>
      simp [perform, describe, hget, Outcome.isFailure, Operation.fails, Operation.id?]
  | list wanted => rfl

/-- **The outcome depends on the record of the identifier alone.** -/
theorem outcome_perform_congr (hid : op.id? = some id) (hget : c.get? id = c'.get? id) :
    (c.perform op).outcome = (c'.perform op).outcome := by
  cases op with
  | register r =>
    cases hid
    simp only [perform, register, hget]
    cases c'.get? r.id <;> rfl
  | updateStatus id' status =>
    cases hid
    simp only [perform, updateStatus, hget]
    cases c'.get? id <;> rfl
  | remove id' =>
    cases hid
    simp only [perform, remove, hget]
    cases c'.get? id <;> rfl
  | describe id' =>
    cases hid
    simp only [perform, describe, hget]
    cases c'.get? id <;> rfl
  | list wanted => simp [Operation.id?] at hid

/-- A failure changes nothing. -/
theorem catalog_perform_of_isFailure (h : (c.perform op).outcome.isFailure = true) :
    (c.perform op).catalog = c := by
  cases op with
  | register r =>
    simp only [perform] at h ⊢
    cases hc : c.register r <;> simp_all [Performance.ofChange, Outcome.isFailure]
  | updateStatus id status =>
    simp only [perform] at h ⊢
    cases hc : c.updateStatus id status <;> simp_all [Performance.ofChange, Outcome.isFailure]
  | remove id =>
    simp only [perform] at h ⊢
    cases hc : c.remove id <;> simp_all [Performance.ofChange, Outcome.isFailure]
  | describe id =>
    simp only [perform]
    cases c.describe id <;> rfl
  | list wanted => rfl

/-! ### A history of operations -/

theorem run_concat (ops : List Operation) (op : Operation) :
    run (ops ++ [op]) = ((run ops).perform op).catalog := by
  simp only [run, List.foldl_append, List.foldl_cons, List.foldl_nil]

theorem successes_concat (ops : List Operation) (op : Operation) :
    successes (ops ++ [op]) =
      if ((run ops).perform op).outcome.isFailure then successes ops
      else successes ops ++ [op] := by
  have hfrom : ∀ (c : Catalog), successesFrom c (ops ++ [op]) =
      successesFrom c ops ++ if ((ops.foldl (fun c op => (c.perform op).catalog) c).perform
        op).outcome.isFailure then [] else [op] := by
    induction ops with
    | nil =>
      intro c
      rfl
    | cons op' ops ih =>
      intro c
      simp only [List.cons_append, successesFrom, ih, List.foldl_cons]
      split <;> rfl
  rw [successes, hfrom, run]
  split <;> simp [successes]

/-- What is held for an identifier is what the operations make of nothing. -/
theorem get?_run (ops : List Operation) (id : String) :
    (run ops).get? id = ops.foldl (fun held op => op.act id held) none := by
  induction ops using List.reverseRecOn with
  | nil => rfl
  | append_singleton ops op ih =>
    rw [run_concat, get?_perform, ih, List.foldl_append]
    rfl

/-- An operation on another identifier leaves a record alone. -/
theorem act_of_id?_ne (h : op.id? ≠ some id) (held : Option ModelRecord) :
    op.act id held = held := by
  cases op <;> simp_all [Operation.id?, Operation.act]

/-- **The operations on other identifiers make no difference.** -/
theorem get?_run_filter (ops : List Operation) (id : String) :
    (run (ops.filter fun op => op.id? = some id)).get? id = (run ops).get? id := by
  rw [get?_run, get?_run]
  generalize (none : Option ModelRecord) = held
  induction ops generalizing held with
  | nil => rfl
  | cons op ops ih =>
    by_cases h : op.id? = some id
    · rw [List.filter_cons_of_pos (by simpa using h), List.foldl_cons, List.foldl_cons, ih]
    · rw [List.filter_cons_of_neg (by simpa using h), List.foldl_cons, act_of_id?_ne h, ih]

/-! ### What stands -/

/-- An operation that does not fail and removes nothing leaves what stands, but for the
    status that it reports. -/
theorem act_of_held {record : ModelRecord} (hsuccess : op.fails (op.id?.bind c.get?) = false)
    (hget : c.get? id = some record) (hop : op ≠ .remove id) :
    (∀ r, op = .register r → r.id ≠ id) ∧
      op.act id (some record) =
        some { record with status := (op.reported? id).getD record.status } := by
  cases op with
  | register r =>
    have hne : r.id ≠ id := by
      rintro rfl
      simp [Operation.fails, Operation.id?, hget] at hsuccess
    constructor
    · rintro r' heq
      cases heq
      exact hne
    · simp [Operation.act, Operation.reported?, hne]
  | updateStatus id' status =>
    refine ⟨by simp, ?_⟩
    by_cases h : id' = id <;> simp [Operation.act, Operation.reported?, h]
  | remove id' =>
    have hne : id' ≠ id := fun heq => hop (heq ▸ rfl)
    exact ⟨by simp, by simp [Operation.act, Operation.reported?, hne]⟩
  | describe id' => exact ⟨by simp, rfl⟩
  | list wanted => exact ⟨by simp, rfl⟩

/-- **What stands is held, with the status last reported.**  Nothing can be registered over
    it, so it is the last registration of its identifier. -/
theorem get?_run_of_stands (ops : List Operation) {r : ModelRequest} {since : List Operation}
    (h : Stands id (successes ops) r since) :
    (run ops).get? id = some ⟨r, lastStatus id since⟩ ∧
      ∀ r', .register r' ∈ since → r'.id ≠ id := by
  induction ops using List.reverseRecOn generalizing since with
  | nil =>
    obtain ⟨-, -, before, hdone⟩ := h
    simp [successes, successesFrom] at hdone
  | append_singleton ops op ih =>
    rw [successes_concat] at h
    rw [run_concat]
    cases hfailure : ((run ops).perform op).outcome.isFailure with
    | true =>
      rw [hfailure, if_pos rfl] at h
      rw [catalog_perform_of_isFailure hfailure]
      exact ih h
    | false =>
      simp only [hfailure, Bool.false_eq_true, if_false] at h
      rw [isFailure_perform] at hfailure
      rw [get?_perform]
      rcases h.of_concat with ⟨rfl, rfl, rfl⟩ | ⟨since', hstands, hop, rfl⟩
      · have hfree : (run ops).get? r.id = none := by
          simpa [Operation.fails, Operation.id?] using hfailure
        rw [hfree]
        exact ⟨by simp [Operation.act, lastStatus], by simp⟩
      · obtain ⟨hheld, hregister⟩ := ih hstands
        obtain ⟨hother, hact⟩ := act_of_held hfailure hheld hop
        rw [hheld, hact, lastStatus_concat]
        refine ⟨rfl, ?_⟩
        intro r' hmem
        rcases List.mem_append.mp hmem with hmem | hmem
        · exact hregister r' hmem
        · exact hother r' (List.mem_singleton.mp hmem).symm

/-- **What is held stands.** -/
theorem exists_stands (ops : List Operation) {record : ModelRecord}
    (h : (run ops).get? id = some record) : ∃ r since, Stands id (successes ops) r since := by
  induction ops using List.reverseRecOn generalizing record with
  | nil => simp [run] at h
  | append_singleton ops op ih =>
    rw [run_concat] at h
    rw [successes_concat]
    cases hfailure : ((run ops).perform op).outcome.isFailure with
    | true =>
      rw [catalog_perform_of_isFailure hfailure] at h
      exact ih h
    | false =>
      rw [get?_perform] at h
      cases hheld : (run ops).get? id with
      | some held =>
        obtain ⟨r, since, hstands⟩ := ih hheld
        have hop : op ≠ .remove id := by
          rintro rfl
          simp [Operation.act] at h
        exact ⟨r, since ++ [op], hstands.concat hop⟩
      | none =>
        -- only a registration makes something of nothing
        rw [hheld] at h
        cases op with
        | register r =>
          have hid : r.id = id := by
            by_contra hne
            simp [Operation.act, hne] at h
          exact ⟨r, [], hid, by simp, successes ops, rfl⟩
        | _ => simp [Operation.act] at h

/-! ### The catalog and its history -/

/-- **A catalog is determined by its history, identifier by identifier.**

    A model that stands is described by the request that was registered, which is the last
    one of its identifier, and by the status last reported since; of any other identifier
    every operation says that it is not found.  A registration succeeds exactly if the
    identifier is free.  Each record is under its own identifier, the size counts the
    identifiers that are present, and a failure changes nothing.  The operations that are
    about other identifiers make no difference to an outcome. -/
theorem run_determined (ops : List Operation) :
    (∀ id,
      (∀ r since, Stands id (successes ops) r since →
        (run ops).describe id = .ok ⟨r, lastStatus id since⟩ ∧
        ∀ r', .register r' ∈ since → r'.id ≠ id) ∧
      ((¬ ∃ r since, Stands id (successes ops) r since) →
        (run ops).describe id = .error (.notFound id) ∧
        (∀ status, (run ops).updateStatus id status = .error (.notFound id)) ∧
        (run ops).remove id = .error (.notFound id))) ∧
    (∀ r : ModelRequest,
      ((run ops).get? r.id = none →
        ((run ops).perform (.register r)).outcome = .record ⟨r, .creating⟩) ∧
      ((run ops).get? r.id ≠ none →
        ((run ops).perform (.register r)).outcome = .failed (.alreadyExists r.id))) ∧
    (∀ id record, (run ops).get? id = some record → record.id = id) ∧
    (∃ present : Finset String,
      (∀ id, id ∈ present ↔ (run ops).get? id ≠ none) ∧ (run ops).size = present.card) ∧
    ((run ops).isEmpty = true ↔ (run ops).size = 0) ∧
    (∀ op, ((run ops).perform op).outcome.isFailure = true → run (ops ++ [op]) = run ops) ∧
    ∀ op id, op.id? = some id →
      ((run ops).perform op).outcome =
        ((run (ops.filter fun op => op.id? = some id)).perform op).outcome := by
  refine ⟨?_, ?_, ?_, ?_, isEmpty_iff_size _, ?_, ?_⟩
  · intro id
    constructor
    · intro r since hstands
      obtain ⟨hheld, hregister⟩ := get?_run_of_stands ops hstands
      exact ⟨by simp [describe, hheld], hregister⟩
    · intro hnone
      have hfree : (run ops).get? id = none := by
        by_contra hheld
        obtain ⟨record, hrecord⟩ := Option.ne_none_iff_exists'.mp hheld
        exact hnone (exists_stands ops hrecord)
      simp [describe, updateStatus, remove, hfree]
  · intro r
    constructor
    · intro hfree
      simp [perform, register, hfree, Performance.ofChange]
    · intro hheld
      obtain ⟨record, hrecord⟩ := Option.ne_none_iff_exists'.mp hheld
      simp [perform, register, hrecord, Performance.ofChange]
  · intro id record h
    exact id_of_get? h
  · obtain ⟨present, hmem, hsize⟩ := exists_present (run ops)
    exact ⟨present, fun id => by rw [hmem, Option.isSome_iff_ne_none], hsize⟩
  · intro op hfailure
    rw [run_concat, catalog_perform_of_isFailure hfailure]
  · intro op id hid
    exact outcome_perform_congr hid (get?_run_filter ops id).symm

end Catalog

end ModelCatalog
