/-
  ModelCatalog/Proofs/Catalog/Journal.lean
  ========================================
  **The log of a catalog is its journal.**

  Every change that succeeds writes one line, and nothing else writes any.  A line tells
  its event whatever the identifier in it holds, because what stands around the identifier
  is found again from the two ends (`Event.line_injective`).  An event applies only to
  statuses that are as it says (`Event.applied?`).  The events of one operation lead from the
  statuses before it to those after it (`replay_perform`), and so those of a history lead
  from nothing to the statuses of the catalog (`replay_eventsFrom`, by induction on the
  history).
-/
import Mathlib.Data.List.Infix
import Mathlib.Logic.Function.Basic
import ModelCatalog.Proofs.Catalog.History
import ModelCatalog.Service.Handler

namespace ModelCatalog

/-- What a reader of the log knows: the status of every model that is registered. -/
abbrev Statuses := String → Option Status

/-! ### Texts that end in the name of a status -/

namespace Status

variable {s t : String} {before after before' after' : Status}

/-- No name of a status ends in another one, so a text ends in one name only. -/
theorem append_name_inj (h : s ++ Named.name before = t ++ Named.name after) :
    s = t ∧ before = after := by
  have hsuffix : ∀ a b : Status, (Named.name a).toList <:+ (Named.name b).toList → a = b := by
    intro a b
    cases a <;> cases b <;> decide
  have hlist : s.toList ++ (Named.name before).toList = t.toList ++ (Named.name after).toList := by
    rw [← String.toList_append, h, String.toList_append]
  have heq : before = after := by
    rcases List.suffix_or_suffix_of_suffix (hlist ▸ List.suffix_append _ _)
      (List.suffix_append t.toList _) with hends | hends
    · exact hsuffix before after hends
    · exact (hsuffix after before hends).symm
  subst heq
  exact ⟨(String.append_left_inj _).mp h, rfl⟩

/-- So an identifier and two names are found again, whatever the identifier holds. -/
theorem between_inj {opening middle last id id' : String}
    (h : opening ++ id ++ middle ++ Named.name before ++ last ++ Named.name after =
      opening ++ id' ++ middle ++ Named.name before' ++ last ++ Named.name after') :
    id = id' ∧ before = before' ∧ after = after' := by
  obtain ⟨hlast, hafter⟩ := append_name_inj h
  obtain ⟨hmiddle, hbefore⟩ := append_name_inj ((String.append_left_inj last).mp hlast)
  have hid := (String.append_left_inj middle).mp hmiddle
  exact ⟨(String.append_right_inj opening).mp hid, hbefore, hafter⟩

theorem append_name_ne (s t : String) (status : Status) : s ++ Named.name status ≠ t ++ ")" := by
  intro h
  have hlist : s.toList ++ (Named.name status).toList = t.toList ++ ")".toList := by
    rw [← String.toList_append, h, String.toList_append]
  have hlast := congrArg List.getLast? hlist
  cases status <;> simp [Named.name] at hlast

end Status

namespace Event

variable {e e' : Event} {id id' : String} {before after before' after' : Status}

/-! ### A line tells its event -/

/-- The line that an event makes in the log. -/
def line (e : Event) : String := (LogEntry.changed e).line

theorem message_moving (h : after.isTransitional = true) :
    message (.moved id before after) =
      "Model '" ++ id ++ "' moving from " ++ Named.name before ++ " to " ++ Named.name after :=
  if_pos h

theorem message_settled (h : after.isTransitional = false) :
    message (.moved id before after) =
      "Model '" ++ id ++ "' settled in " ++ Named.name after ++
        " (was " ++ Named.name before ++ ")" :=
  if_neg (by simp [h])

/-- Only what is settled is reported with a bracket at the end. -/
theorem moved_inj (h : message (.moved id before after) = message (.moved id' before' after')) :
    id = id' ∧ before = before' ∧ after = after' := by
  cases hafter : after.isTransitional with
  | true =>
    rw [message_moving hafter] at h
    cases hafter' : after'.isTransitional with
    | true =>
      rw [message_moving hafter'] at h
      exact Status.between_inj h
    | false =>
      rw [message_settled hafter'] at h
      exact absurd h (Status.append_name_ne _ _ _)
  | false =>
    rw [message_settled hafter] at h
    cases hafter' : after'.isTransitional with
    | true =>
      rw [message_moving hafter'] at h
      exact absurd h.symm (Status.append_name_ne _ _ _)
    | false =>
      rw [message_settled hafter', String.append_left_inj] at h
      obtain ⟨hid, hsettled, hwas⟩ := Status.between_inj h
      exact ⟨hid, hwas, hsettled⟩

/-- What a message says before the identifier. -/
def opening : Event → String
  | .registered _ => "Registered model '"
  | .moved _ _ _ => "Model '"
  | .removed _ => "Removed model '"

theorem prefix_append {o : List Char} {s : String} (h : o <+: s.toList) (t : String) :
    o <+: (s ++ t).toList := by
  rw [String.toList_append]
  exact h.trans (List.prefix_append _ _)

theorem opening_begins (e : Event) : e.opening.toList <+: e.message.toList := by
  cases e with
  | registered id => exact prefix_append (prefix_append List.prefix_rfl id) _
  | removed id => exact prefix_append (prefix_append List.prefix_rfl id) _
  | moved id before after =>
    have hid : "Model '".toList <+: ("Model '" ++ id).toList := prefix_append List.prefix_rfl id
    cases h : after.isTransitional with
    | true =>
      rw [message_moving h]
      exact prefix_append (prefix_append (prefix_append (prefix_append hid _) _) _) _
    | false =>
      rw [message_settled h]
      refine prefix_append (prefix_append (prefix_append (prefix_append ?_ _) _) _) _
      exact prefix_append hid _

/-- No opening begins with another one, so a message has one opening only. -/
theorem opening_eq (h : e.message = e'.message) : e.opening = e'.opening := by
  let openings := ["Registered model '", "Model '", "Removed model '"]
  have hmem : ∀ e : Event, e.opening ∈ openings := by
    intro e
    cases e <;> simp [openings, opening]
  have hunique : ∀ s ∈ openings, ∀ t ∈ openings, s.toList <+: t.toList → s = t := by decide
  rcases List.prefix_or_prefix_of_prefix (opening_begins e) (h ▸ opening_begins e')
    with hbegins | hbegins
  · exact hunique _ (hmem e) _ (hmem e') hbegins
  · exact (hunique _ (hmem e') _ (hmem e) hbegins).symm

/-- **A line of the log tells its event.** -/
theorem line_injective : Function.Injective line := by
  intro e e' h
  have hmessage : e.message = e'.message := (String.append_right_inj _).mp h
  have hopening := opening_eq hmessage
  cases e with
  | registered id =>
    cases e' with
    | registered id' =>
      have hid := (String.append_right_inj _).mp ((String.append_left_inj _).mp hmessage)
      rw [hid]
    | _ => exact absurd hopening (by simp [opening])
  | moved id before after =>
    cases e' with
    | moved id' before' after' =>
      obtain ⟨rfl, rfl, rfl⟩ := moved_inj hmessage
      rfl
    | _ => exact absurd hopening (by simp [opening])
  | removed id =>
    cases e' with
    | removed id' =>
      have hid := (String.append_right_inj _).mp ((String.append_left_inj _).mp hmessage)
      rw [hid]
    | _ => exact absurd hopening (by simp [opening])

/-! ### Events replayed -/

/-- An event applied to what is known before it, if this is as the event says: a model is
    registered where none is known, moved from the status that it has, and removed where
    it is known. -/
def applied? (known : Statuses) : Event → Option Statuses
  | .registered id =>
    if known id = none then some (Function.update known id (some .creating)) else none
  | .moved id before after =>
    if known id = some before then some (Function.update known id (some after)) else none
  | .removed id =>
    if known id ≠ none then some (Function.update known id none) else none

/-- What is known once the events have been applied in order, beginning with nothing;
    `none` if one of them does not apply. -/
def replay? (events : List Event) : Option Statuses :=
  events.foldlM applied? fun _ => none

end Event

/-! ### What is written -/

namespace Performance

def log (p : Performance) : List LogEntry := p.event.toList.map .changed

def lines (p : Performance) : List String := p.log.map LogEntry.line

/-- The service writes just what the change writes. -/
theorem log_change (s : Service) (status : Nat) (change : Except Failure Change) :
    (s.change status change).log = (ofChange s.catalog change).log := by
  cases change <;> rfl

theorem lines_ofChange {c : Catalog} {change : Except Failure Change}
    (h : (ofChange c change).outcome.isFailure = true) : (ofChange c change).lines = [] := by
  cases change with
  | ok change => simp [ofChange, Outcome.isFailure] at h
  | error f => rfl

end Performance

/-- The lines that an operation writes if it succeeds: a change has one, and what only
    looks at the models has none. -/
def Operation.Writes (known : Statuses) (lines : List String) : Operation → Prop
  | .register r => lines = ["INFO " ++ ("Registered model '" ++ r.id ++ "'")]
  | .updateStatus id after => ∃ before, known id = some before ∧
      lines = ["INFO " ++
        if after.isTransitional then
          "Model '" ++ id ++ "' moving from " ++ Named.name before ++ " to " ++ Named.name after
        else
          "Model '" ++ id ++ "' settled in " ++ Named.name after ++
            " (was " ++ Named.name before ++ ")"]
  | .remove id => lines = ["INFO " ++ ("Removed model '" ++ id ++ "'")]
  | .describe _ | .list _ => lines = []

namespace Catalog

variable {c : Catalog} {op : Operation}

def statuses (c : Catalog) : Statuses := fun id => (c.get? id).map ModelRecord.status

def logFrom (c : Catalog) : List Operation → List String
  | [] => []
  | op :: ops => (c.perform op).lines ++ logFrom (c.perform op).catalog ops

/-- The lines that a history writes, beginning with no model. -/
def log (ops : List Operation) : List String := logFrom empty ops

@[simp] theorem statuses_put (c : Catalog) (r : ModelRecord) :
    (c.put r).statuses = Function.update c.statuses r.id (some r.status) := by
  funext id
  by_cases h : r.id = id
  · simp [statuses, h]
  · simp [statuses, h, Ne.symm h]

@[simp] theorem statuses_takeOut (c : Catalog) (removed : String) :
    (c.takeOut removed).statuses = Function.update c.statuses removed none := by
  funext id
  by_cases h : removed = id
  · simp [statuses, h]
  · simp [statuses, h, Ne.symm h]

/-! ### One operation -/

theorem lines_of_isFailure (h : (c.perform op).outcome.isFailure = true) :
    (c.perform op).lines = [] := by
  cases op with
  | register _ | updateStatus _ _ | remove _ => exact Performance.lines_ofChange h
  | describe id =>
    simp only [perform]
    cases c.describe id <;> rfl
  | list wanted => rfl

theorem writes_perform (h : (c.perform op).outcome.isFailure = false) :
    op.Writes c.statuses (c.perform op).lines := by
  rw [isFailure_perform] at h
  cases op with
  | register r =>
    have hfree : c.get? r.id = none := by simpa [Operation.fails, Operation.id?] using h
    simp only [perform, register, hfree]
    rfl
  | updateStatus id after =>
    have hheld : (c.get? id).isSome := by simpa [Operation.fails, Operation.id?] using h
    obtain ⟨record, hget⟩ := Option.isSome_iff_exists.mp hheld
    have hknown : c.statuses id = some record.status := by simp [statuses, hget]
    refine ⟨record.status, hknown, ?_⟩
    simp only [perform, updateStatus, hget]
    rfl
  | remove id =>
    have hheld : (c.get? id).isSome := by simpa [Operation.fails, Operation.id?] using h
    obtain ⟨record, hget⟩ := Option.isSome_iff_exists.mp hheld
    simp only [perform, remove, hget]
    rfl
  | describe id =>
    simp only [perform]
    cases c.describe id <;> rfl
  | list wanted => rfl

/-- **The event of an operation leads from the statuses before it to those after it.** -/
theorem replay_perform (c : Catalog) (op : Operation) :
    (c.perform op).event.toList.foldlM Event.applied? c.statuses =
      some (c.perform op).catalog.statuses := by
  cases op with
  | register r =>
    cases hget : c.get? r.id with
    | none =>
      have hfree : c.statuses r.id = none := by simp [statuses, hget]
      simp [perform, register, hget, Performance.ofChange, Event.applied?, hfree, ModelRecord.id]
    | some record => simp [perform, register, hget, Performance.ofChange]
  | updateStatus id after =>
    cases hget : c.get? id with
    | none => simp [perform, updateStatus, hget, Performance.ofChange]
    | some record =>
      have hknown : c.statuses id = some record.status := by simp [statuses, hget]
      -- the new record is put under the identifier that it already had
      have hid : record.id = id := id_of_get? hget
      simp [perform, updateStatus, hget, Performance.ofChange, Event.applied?, hknown, hid]
  | remove id =>
    cases hget : c.get? id with
    | none => simp [perform, remove, hget, Performance.ofChange]
    | some record =>
      have hknown : c.statuses id = some record.status := by simp [statuses, hget]
      simp [perform, remove, hget, Performance.ofChange, Event.applied?, hknown]
  | describe id =>
    simp only [perform]
    cases c.describe id <;> rfl
  | list wanted => rfl

/-! ### A history of operations -/

def eventsFrom (c : Catalog) : List Operation → List Event
  | [] => []
  | op :: ops => (c.perform op).event.toList ++ eventsFrom (c.perform op).catalog ops

theorem logFrom_eq_map (c : Catalog) (ops : List Operation) :
    c.logFrom ops = (c.eventsFrom ops).map Event.line := by
  induction ops generalizing c with
  | nil => rfl
  | cons op ops ih =>
    rw [logFrom, eventsFrom, List.map_append, ih, Performance.lines, Performance.log, List.map_map]
    rfl

theorem logFrom_concat (c : Catalog) (ops : List Operation) (op : Operation) :
    c.logFrom (ops ++ [op]) =
      c.logFrom ops ++ ((ops.foldl (fun c op => (c.perform op).catalog) c).perform op).lines := by
  induction ops generalizing c with
  | nil => simp [logFrom]
  | cons op' ops ih =>
    rw [List.cons_append, logFrom, logFrom, ih, List.append_assoc, List.foldl_cons]

/-- **The events of a history lead from the statuses before it to those after it.** -/
theorem replay_eventsFrom (c : Catalog) (ops : List Operation) :
    (c.eventsFrom ops).foldlM Event.applied? c.statuses =
      some (ops.foldl (fun c op => (c.perform op).catalog) c).statuses := by
  induction ops generalizing c with
  | nil => rfl
  | cons op ops ih =>
    rw [eventsFrom, List.foldlM_append, replay_perform, Option.bind_eq_bind, Option.bind_some,
      ih, List.foldl_cons]

/-- **The log of a catalog is its journal.**

    An operation that fails writes nothing.  One that succeeds writes what it did: one line
    for a change, which for a report of a status has the status before, and none for what
    only looks at the models.  The lines of a history can be read as events in one way, and
    these apply in their order, beginning with nothing; what is known in the end is the
    status of each model of the catalog.  A service writes what its catalog does. -/
theorem log_replays (ops : List Operation) :
    (∀ op,
      (((run ops).perform op).outcome.isFailure = true → ((run ops).perform op).lines = []) ∧
      (((run ops).perform op).outcome.isFailure = false →
        op.Writes (run ops).statuses ((run ops).perform op).lines) ∧
      log (ops ++ [op]) = log ops ++ ((run ops).perform op).lines) ∧
    (∀ (s : Service) (status : Nat) (change : Except Failure Change),
      (s.change status change).log.map LogEntry.line =
        (Performance.ofChange s.catalog change).lines) ∧
    ∃ events, log ops = events.map Event.line ∧
      (∀ others, log ops = others.map Event.line → others = events) ∧
      Event.replay? events = some (run ops).statuses := by
  refine ⟨?_, ?_, ?_⟩
  · intro op
    exact ⟨lines_of_isFailure, writes_perform, logFrom_concat empty ops op⟩
  · intro s status change
    rw [Performance.log_change, Performance.lines]
  · have hlog : log ops = (empty.eventsFrom ops).map Event.line := logFrom_eq_map empty ops
    refine ⟨empty.eventsFrom ops, hlog, ?_, replay_eventsFrom empty ops⟩
    intro others hothers
    exact Event.line_injective.list_map (hothers.symm.trans hlog)

end Catalog

end ModelCatalog
