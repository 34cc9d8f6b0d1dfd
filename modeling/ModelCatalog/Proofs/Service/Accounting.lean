/-
  ModelCatalog/Proofs/Service/Accounting.lean
  ===========================================
  **The counters account for every validation.**

  What a request adds to the counters can be told from the request and its reply alone
  (`Exchange.tally`, `Service.counters_handle`): one that submits a model adds an
  acceptance or a rejection, a report of a status whose body is not read adds a rejection,
  and no other request adds anything (`Service.counts_handle`).  So the counters of a run
  are the counts of its exchanges (`Exchange.foldl_tally`), and each rejection among them is
  in the log.
-/
import ModelCatalog.Proofs.Json.Reading
import ModelCatalog.Proofs.Json.Sizes
import ModelCatalog.Proofs.Violation
import ModelCatalog.Proofs.Service.Submissions

namespace ModelCatalog

/-! ### Exchanges -/

/-- A request and what it was answered with. -/
structure Exchange where
  call : Call
  reply : Reply
  log : List LogEntry

namespace Call

/-- A model is submitted, to be validated only or to be registered. -/
def submits (c : Call) : Bool :=
  c.method == "POST" && (c.route? == some .validate || c.route? == some .models)

/-- A status is reported, with a body that is not read: it does not mean JSON, it is too
    large, or its octets are no JSON text. -/
def garbles (c : Call) : Bool :=
  match c.route?, c.json with
  | some (.status _), .error _ => c.method == "PUT"
  | _, _ => false

end Call

/-- The violations in the list of errors of a reply. -/
def Reply.violations (r : Reply) : Violations :=
  match r.content with
  | .json v => (Violations.ofJson? v).getD []
  | .text _ => []

def LogEntry.isRejection : LogEntry → Bool
  | .rejected _ => true
  | _ => false

namespace Exchange

/-- A model was submitted and found valid, whether or not it was then registered. -/
def isAccepted (e : Exchange) : Bool :=
  e.call.submits && [200, 201, 409].contains e.reply.status

/-- A model was submitted and found invalid, or a body was not read. -/
def isRejected (e : Exchange) : Bool :=
  (e.call.submits && e.reply.status == 400) || e.call.garbles

/-- The counters after an exchange. -/
def tally (e : Exchange) (n : Counters) : Counters :=
  if e.isAccepted then n.accept
  else if e.isRejected then n.reject e.reply.violations
  else n

/-- The violations of a kind in the replies to the exchanges that were rejected. -/
def reported (kind : ViolationKind) (es : List Exchange) : Nat :=
  ((es.filter isRejected).map fun e => e.reply.violations.count kind).sum

end Exchange

namespace Service

def exchange (s : Service) (c : Call) : Exchange := ⟨c, (s.handle c).reply, (s.handle c).log⟩

/-- The exchanges of a run, in order. -/
def exchanges (s : Service) : List Call → List Exchange
  | [] => []
  | c :: cs => s.exchange c :: (s.handle c).service.exchanges cs

end Service

/-! ### Which requests count -/

namespace Call

variable {c : Call}

theorem submits_iff :
    c.submits = true ↔ c.action? = some .validate ∨ c.action? = some .register := by
  simp only [submits, Bool.and_eq_true, Bool.or_eq_true, beq_iff_eq, action?_eq_some_iff,
    Action.route, Action.Allows]
  rw [and_or_left, and_comm, and_comm (a := c.method = "POST")]

theorem garbles_iff :
    c.garbles = true ↔
      (∃ id, c.action? = some (.updateStatus id)) ∧ ∃ fault, c.json = .error fault := by
  simp only [action?_eq_some_iff, Action.route, Action.Allows]
  unfold garbles
  constructor
  · intro h
    split at h
    · rename_i id fault hroute hjson
      exact ⟨⟨id, hroute, beq_iff_eq.mp h⟩, fault, hjson⟩
    · cases h
  · rintro ⟨⟨id, hroute, hmethod⟩, fault, hjson⟩
    simp only [hroute, hjson, hmethod, beq_self_eq_true]

/-- A report of a status submits no model. -/
theorem submits_of_garbles (h : c.garbles = true) : c.submits = false := by
  obtain ⟨⟨id, haction⟩, -⟩ := garbles_iff.mp h
  rw [Bool.eq_false_iff, ne_eq, submits_iff, haction]
  simp

end Call

/-- No exchange is both. -/
theorem Exchange.isRejected_of_isAccepted {e : Exchange} (h : e.isAccepted = true) :
    e.isRejected = false := by
  obtain ⟨hsubmits, hstatus⟩ := Bool.and_eq_true_iff.mp h
  have hgarbles : e.call.garbles = false := by
    cases hgarbles : e.call.garbles with
    | false => rfl
    | true =>
      rw [Call.submits_of_garbles hgarbles] at hsubmits
      cases hsubmits
  have hbad : (e.reply.status == 400) = false := by
    simp only [List.contains_eq_mem, List.mem_cons, List.not_mem_nil, or_false,
      decide_eq_true_eq] at hstatus
    rcases hstatus with hstatus | hstatus | hstatus <;> rw [hstatus] <;> rfl
  simp only [isRejected, hbad, hgarbles, Bool.and_false, Bool.or_false]

theorem Reply.violations_json (status : Nat) (violations : Violations) :
    (Reply.json status (Violations.toJson violations)).violations = violations := by
  simp only [Reply.violations, Reply.json, Violations.ofJson?_toJson, Option.getD_some]

/-! ### One request -/

/-- What a request does to the counters and to the log, beside its reply: it is counted
    with the violations of the reply, or it is not counted. -/
inductive Exchange.Counts (e : Exchange) (before : Counters) : Counters → Prop
  | accepted (hcall : e.call.submits = true) (hstatus : [200, 201, 409].contains e.reply.status)
      (hlog : e.log.filter LogEntry.isRejection = []) : Counts e before before.accept
  | rejected {violations : Violations}
      (hcall : e.call.submits = true ∨ e.call.garbles = true)
      (hreply : e.reply = .json 400 violations.toJson)
      (hlog : e.log.filter LogEntry.isRejection = [.rejected violations]) :
      Counts e before (before.reject violations)
  | apart (hsubmits : e.call.submits = false) (hgarbles : e.call.garbles = false)
      (hlog : e.log.filter LogEntry.isRejection = []) : Counts e before before

namespace Service

variable {s : Service} {c : Call}

theorem filter_log {α : Type} (v : Verdict α) : v.log.filter LogEntry.isRejection = [] := by
  apply List.filter_eq_nil_iff.mpr
  intro entry hentry
  obtain ⟨path, -, rfl⟩ := List.mem_map.mp hentry
  exact Bool.false_ne_true

theorem exchange_of_answer {answer : Answer} (h : s.handle c = answer) :
    s.exchange c = ⟨c, answer.reply, answer.log⟩ := by
  rw [exchange, h]

/-- A model that is submitted is counted as what it was judged to be. -/
theorem counts_of_submits (h : c.submits = true) :
    (s.exchange c).Counts s.counters (s.handle c).service.counters := by
  have haction := Call.submits_iff.mp h
  cases hjudged : (c.judged s.policy).outcome with
  | error violations =>
    have hanswer := handle_of_rejected haction hjudged
    rw [exchange_of_answer hanswer, hanswer]
    refine .rejected (Or.inl h) rfl ?_
    rw [List.filter_append, filter_log]
    rfl
  | ok r =>
    rcases haction with haction | haction
    · have hanswer := handle_validate haction hjudged
      rw [exchange_of_answer hanswer, hanswer]
      exact .accepted h rfl (filter_log _)
    · cases hget : s.catalog.get? r.id with
      | none =>
        have hanswer := handle_register haction hjudged hget
        rw [exchange_of_answer hanswer, hanswer]
        refine .accepted h rfl ?_
        rw [List.filter_append, filter_log]
        rfl
      | some record =>
        have hanswer := handle_register_of_taken haction hjudged hget
        rw [exchange_of_answer hanswer, hanswer]
        exact .accepted h rfl (filter_log _)

/-- A report of a status whose body is not read is counted as a rejection. -/
theorem counts_of_garbles (h : c.garbles = true) :
    (s.exchange c).Counts s.counters (s.handle c).service.counters := by
  obtain ⟨⟨id, haction⟩, fault, hbody⟩ := Call.garbles_iff.mp h
  have hanswer : s.handle c = s.reject [fault.violation] := by
    rw [handle_of_action haction]
    simp only [perform, withBody, hbody]
  rw [exchange_of_answer hanswer, hanswer]
  exact .rejected (Or.inr h) rfl rfl

/-- What is changed in the catalog is no rejection. -/
theorem counters_change (status : Nat) (change : Except Failure Change) :
    (s.change status change).service.counters = s.counters ∧
      (s.change status change).log.filter LogEntry.isRejection = [] := by
  cases change <;> exact ⟨rfl, rfl⟩

/-- Nothing else is counted. -/
theorem handle_of_apart (hsubmits : c.submits = false) (hgarbles : c.garbles = false) :
    (s.handle c).service.counters = s.counters ∧
      (s.exchange c).log.filter LogEntry.isRejection = [] := by
  rw [exchange]
  cases haction : c.action? with
  | none =>
    obtain ⟨status, -, hanswer⟩ := handle_of_no_action (s := s) haction
    rw [hanswer]
    exact ⟨rfl, rfl⟩
  | some action =>
    rw [handle_of_action haction]
    cases action with
    | health | defaults | schema | list => exact ⟨rfl, rfl⟩
    | validate =>
      rw [Call.submits_iff.mpr (Or.inl haction)] at hsubmits
      cases hsubmits
    | register =>
      rw [Call.submits_iff.mpr (Or.inr haction)] at hsubmits
      cases hsubmits
    | describe id =>
      simp only [perform]
      cases s.catalog.describe id <;> exact ⟨rfl, rfl⟩
    | remove id => exact counters_change _ _
    | updateStatus id =>
      cases hbody : c.json with
      | error fault =>
        rw [Call.garbles_iff.mpr ⟨⟨id, haction⟩, fault, hbody⟩] at hgarbles
        cases hgarbles
      | ok v =>
        simp only [perform, withBody, hbody]
        cases statusOf v with
        | ok status => exact counters_change _ _
        | error violation => exact ⟨rfl, rfl⟩

theorem counts_handle (s : Service) (c : Call) :
    (s.exchange c).Counts s.counters (s.handle c).service.counters := by
  cases hsubmits : c.submits with
  | true => exact counts_of_submits hsubmits
  | false =>
    cases hgarbles : c.garbles with
    | true => exact counts_of_garbles hgarbles
    | false =>
      obtain ⟨hcounters, hlog⟩ := handle_of_apart (s := s) hsubmits hgarbles
      rw [hcounters]
      have hcall : (s.exchange c).call = c := rfl
      rw [← hcall] at hsubmits hgarbles
      exact .apart hsubmits hgarbles hlog

end Service

namespace Exchange.Counts

variable {e : Exchange} {before after : Counters}

/-- The counts are told by the call and the reply. -/
theorem eq_tally (h : e.Counts before after) : after = e.tally before := by
  unfold tally
  cases h with
  | accepted hcall hstatus =>
    have haccepted : e.isAccepted = true := Bool.and_eq_true_iff.mpr ⟨hcall, hstatus⟩
    rw [if_pos haccepted]
  | rejected hcall hreply =>
    have hrejected : e.isRejected = true := by
      simpa [isRejected, hreply, Reply.json] using hcall
    have haccepted : e.isAccepted = false := by
      simp [isAccepted, hreply, Reply.json]
    rw [haccepted, hrejected, hreply, Reply.violations_json]
    rfl
  | apart hsubmits hgarbles =>
    simp [isAccepted, isRejected, hsubmits, hgarbles]

/-- An exchange that is counted as a rejection says so in its reply and in the log. -/
theorem reply_of_isRejected (h : e.Counts before after) (hrejected : e.isRejected = true) :
    e.reply = .json 400 e.reply.violations.toJson ∧
      e.log.filter LogEntry.isRejection = [.rejected e.reply.violations] := by
  cases h with
  | accepted hcall hstatus =>
    have haccepted : e.isAccepted = true := Bool.and_eq_true_iff.mpr ⟨hcall, hstatus⟩
    rw [isRejected_of_isAccepted haccepted] at hrejected
    cases hrejected
  | rejected hcall hreply hlog =>
    rw [hlog, hreply, Reply.violations_json]
    exact ⟨rfl, rfl⟩
  | apart hsubmits hgarbles =>
    simp [isRejected, hsubmits, hgarbles] at hrejected

/-- No other exchange logs a rejection. -/
theorem log_of_not_isRejected (h : e.Counts before after) (hrejected : e.isRejected = false) :
    e.log.filter LogEntry.isRejection = [] := by
  cases h with
  | accepted hcall hstatus hlog => exact hlog
  | rejected hcall hreply =>
    have hcounted : e.isRejected = true := by
      simpa [isRejected, hreply, Reply.json] using hcall
    rw [hcounted] at hrejected
    cases hrejected
  | apart hsubmits hgarbles hlog => exact hlog

end Exchange.Counts

/-! ### Every run -/

namespace Exchange

theorem reported_cons (kind : ViolationKind) (e : Exchange) (es : List Exchange) :
    reported kind (e :: es) =
      (if e.isRejected then e.reply.violations.count kind else 0) + reported kind es := by
  cases h : e.isRejected <;> simp [reported, h]

/-- The tallies of a list of exchanges come to its counts. -/
theorem foldl_tally (n : Counters) (es : List Exchange) :
    es.foldl (fun n e => e.tally n) n =
      { accepted := n.accepted + es.countP isAccepted
        rejected := n.rejected + es.countP isRejected
        shape := n.shape + reported .shape es
        range := n.range + reported .range es
        enumeration := n.enumeration + reported .enumeration es } := by
  induction es generalizing n with
  | nil => rfl
  | cons e es ih =>
    rw [List.foldl_cons, ih]
    simp only [List.countP_cons, reported_cons]
    cases haccepted : e.isAccepted with
    | true =>
      simp only [tally, haccepted, isRejected_of_isAccepted haccepted, Counters.accept,
        Counters.mk.injEq, if_true, Bool.false_eq_true, if_false]
      omega
    | false =>
      cases hrejected : e.isRejected with
      | true =>
        simp only [tally, haccepted, hrejected, Counters.reject, Counters.mk.injEq, if_true,
          Bool.false_eq_true, if_false]
        omega
      | false =>
        simp only [tally, haccepted, hrejected, Counters.mk.injEq, Bool.false_eq_true, if_false]
        omega

end Exchange

namespace Service

theorem counters_handle (s : Service) (c : Call) :
    (s.handle c).service.counters = (s.exchange c).tally s.counters :=
  (counts_handle s c).eq_tally

theorem counters_run_eq_foldl (s : Service) (calls : List Call) :
    (s.run calls).counters =
      (s.exchanges calls).foldl (fun n e => e.tally n) s.counters := by
  induction calls generalizing s with
  | nil => rfl
  | cons c calls ih =>
    rw [exchanges, List.foldl_cons, ← counters_handle, ← ih]
    simp only [run, List.foldl_cons]

/-- Each exchange of a run is counted as it was made. -/
theorem counts_of_mem_exchanges {s : Service} {calls : List Call} {e : Exchange}
    (h : e ∈ s.exchanges calls) : ∃ before after, e.Counts before after := by
  induction calls generalizing s with
  | nil => cases h
  | cons c calls ih =>
    rcases List.mem_cons.mp h with rfl | htail
    · exact ⟨_, _, counts_handle s c⟩
    · exact ih htail

/-- **The counters account for every validation.**

    After any requests to a fresh service, the counters stand at the numbers of models
    submitted and found valid, of models submitted and found invalid together with bodies
    not read where a status is reported, and of the violations of each kind in the replies
    to the latter.  Each such reply lists its violations, and the log has one line for it
    with the same violations; nothing else is logged as a rejection.  A request that is
    neither leaves all counters as they are, whatever the service. -/
theorem counters_run (p : Policy) (calls : List Call) :
    ((start p).run calls).counters =
      { accepted := ((start p).exchanges calls).countP Exchange.isAccepted
        rejected := ((start p).exchanges calls).countP Exchange.isRejected
        shape := Exchange.reported .shape ((start p).exchanges calls)
        range := Exchange.reported .range ((start p).exchanges calls)
        enumeration := Exchange.reported .enumeration ((start p).exchanges calls) } ∧
    (∀ e ∈ (start p).exchanges calls,
      if e.isRejected then
        e.reply = .json 400 e.reply.violations.toJson ∧
          e.log.filter LogEntry.isRejection = [.rejected e.reply.violations]
      else e.log.filter LogEntry.isRejection = []) ∧
    ∀ (s : Service) (c : Call),
      (s.exchange c).isAccepted = false → (s.exchange c).isRejected = false →
        (s.handle c).service.counters = s.counters := by
  refine ⟨?_, ?_, ?_⟩
  · rw [counters_run_eq_foldl, Exchange.foldl_tally]
    simp only [start, Nat.zero_add]
  · intro e he
    obtain ⟨before, after, hcounts⟩ := counts_of_mem_exchanges he
    split
    · exact hcounts.reply_of_isRejected ‹_›
    · exact hcounts.log_of_not_isRejected (Bool.eq_false_iff.mpr ‹_›)
  · intro s c haccepted hrejected
    rw [counters_handle, Exchange.tally, haccepted, hrejected]
    rfl

/-- A report of a status, with a note of so many letters beside it. -/
def noted (n : Nat) : Json :=
  .object [("note", .string (Json.letters n)), ("status", .string "Failed")]

def reportNoted (n : Nat) : Call :=
  ⟨"PUT", ⟨"/models/m/status", ""⟩, some "application/json", (noted n).render⟩

theorem read?_noted (n : Nat) : Json.read? (noted n).render = some (noted n) := by
  have hnames : Entries.Ascending [("note", Json.string (Json.letters n)),
      ("status", .string "Failed")] := by
    apply Entries.Ascending.of_names
    simp only [List.map]
    decide
  have hdepth : (noted n).depth ≤ Json.maxDepth := (by decide : 1 ≤ Json.maxDepth)
  exact Json.read?_render (v := noted n) ⟨hnames, trivial, trivial, trivial⟩ hdepth

theorem route?_reportNoted (n : Nat) : (reportNoted n).route? = some (.status "m") := by
  change Route.ofSegments? (Target.segments ⟨"/models/m/status", ""⟩) = some (.status "m")
  decide +kernel

theorem meansJson_reportNoted (n : Nat) : (reportNoted n).meansJson = true := by
  change MediaType.isJson "application/json" = true
  decide +kernel

theorem json_reportNoted {n : Nat} (hsize : Body.limit ≤ n) :
    (reportNoted n).json = .error .overflow := by
  have hnoted : (noted n).size = (noted 0).size + n :=
    Json.size_object_letters [] [("status", .string "Failed")] "note" n
  have hzero : (noted 0).size = 29 := by decide +kernel
  have hoctets : Body.limit < (noted n).size := by omega
  rw [← Json.length_octets_render] at hoctets
  rw [Call.json_of_meansJson (meansJson_reportNoted n)]
  exact Body.json_ofText_of_too_large hoctets

theorem rejected_reportNoted {n : Nat} (hsize : Body.limit ≤ n) :
    ((start {}).run [reportNoted n]).counters.rejected = 1 := by
  have haction : (reportNoted n).action? = some (.updateStatus "m") :=
    Call.action?_eq_some_iff.mpr ⟨route?_reportNoted n, rfl⟩
  have hanswer : (start {}).handle (reportNoted n) =
      (start {}).reject [BodyFault.overflow.violation] := by
    rw [handle_of_action haction]
    simp only [perform, withBody, json_reportNoted hsize]
  rw [run, List.foldl_cons, List.foldl_nil, hanswer]
  rfl

/-- A body that is too large is counted as well, although it is well-formed JSON. -/
theorem counters_oversized :
    (reportNoted 2097152).submits = false ∧ (reportNoted 2097152).meansJson = true ∧
      (reportNoted 2097152).body.Spells (noted 2097152).render ∧
      Json.read? (noted 2097152).render = some (noted 2097152) ∧
      ((start {}).run [reportNoted 2097152]).counters.rejected = 1 :=
  ⟨rfl, meansJson_reportNoted _, Body.spells_ofText _, read?_noted _,
    rejected_reportNoted (Nat.le_refl _)⟩

end Service

end ModelCatalog
