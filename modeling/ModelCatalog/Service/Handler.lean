/-
  ModelCatalog/Service/Handler.lean
  =================================
  **Answering requests.**

  The service keeps a catalog and counts what it validates.  `Service.handle` answers
  one request: it gives the service afterwards, the reply, and the lines for the log.
  A body is read before the action that needs it begins; one that cannot be read is
  rejected like an invalid model, also where a status is reported.
-/
import ModelCatalog.Catalog.Listing
import ModelCatalog.Log
import ModelCatalog.Metrics
import ModelCatalog.Schema
import ModelCatalog.Service.Message
import ModelCatalog.Service.Route
import ModelCatalog.Validation.Request

namespace ModelCatalog

/-! ### The service -/

structure Service where
  policy : Policy
  catalog : Catalog
  counters : Counters

/-- What a request leaves: the service, the reply, and the lines for the log. -/
structure Answer where
  service : Service
  reply : Reply
  log : List LogEntry

namespace Service

/-- The service before the first request. -/
def start (p : Policy) : Service := ⟨p, Catalog.empty, {}⟩

def answer (s : Service) (r : Reply) : Answer := ⟨s, r, []⟩

/-- Rejects what was submitted: it is counted, logged and reported. -/
def reject (s : Service) (violations : Violations) : Answer :=
  ⟨{ s with counters := s.counters.reject violations },
    (Failure.invalid violations).reply, [.rejected violations]⟩

/-- Goes on with the value that a request carries, or rejects the body. -/
def withBody (s : Service) (c : Call) (next : Json → Answer) : Answer :=
  match c.json with
  | .ok v => next v
  | .error fault => s.reject [fault.violation]

/-- Goes on with the model that a value describes, or rejects it; an accepted model is
    counted before anything else is done with it. -/
def withRequest (s : Service) (v : Json) (next : Service → ModelRequest → Answer) : Answer :=
  let verdict := Validation.validateRequest s.policy v
  let answer :=
    match verdict.outcome with
    | .ok request => next { s with counters := s.counters.accept } request
    | .error violations => s.reject violations
  { answer with log := verdict.log ++ answer.log }

/-- Changes the catalog as asked, and replies with the record that it is about. -/
def change (s : Service) (status : Nat) : Except Failure Change → Answer
  | .ok c => ⟨{ s with catalog := c.catalog }, .json status c.record.toJson, [.changed c.event]⟩
  | .error f => s.answer f.reply

def statusOf : Json → Except Violation Status
  | .object members =>
    match Entries.get? members statusKey with
    | none => .error ⟨statusKey, .shape, "is required"⟩
    | some (.string name) =>
      match Named.ofName name with
      | .ok status => .ok status
      | .error u => .error ⟨statusKey, .enumeration, u.message⟩
    | some _ => .error ⟨statusKey, .shape, "expected a string"⟩
  | _ => .error ⟨statusKey, .shape, "is required"⟩

def list (s : Service) (query : String) : Reply :=
  match formValue "modelTypes" query with
  | .error fault => ⟨400, .text fault.message⟩
  | .ok wanted =>
    match parseModelTypes wanted with
    | .ok types => .json 200 (s.catalog.list types).toJson
    | .error violations => (Failure.invalid violations).reply

def perform (s : Service) (c : Call) : Action → Answer
  | .health => s.answer (.empty 200)
  | .defaults => s.answer (.json 200 ({} : ModelRequest).toJson)
  | .schema => s.answer (.json 200 Schema.document)
  | .list => s.answer (s.list c.target.query)
  | .validate =>
    s.withBody c fun v => s.withRequest v fun s request =>
      s.answer (.json 200 request.toJson)
  | .register =>
    s.withBody c fun v => s.withRequest v fun s request =>
      s.change 201 (s.catalog.register request)
  | .describe id =>
    match s.catalog.describe id with
    | .ok record => s.answer (.json 200 record.toJson)
    | .error f => s.answer f.reply
  | .remove id => s.change 200 (s.catalog.remove id)
  | .updateStatus id =>
    s.withBody c fun v =>
      match statusOf v with
      | .ok status => s.change 200 (s.catalog.updateStatus id status)
      | .error violation => s.answer (Failure.invalid [violation]).reply

/-- Answers one request.  A path without a route is not found; a route without the
    method does not allow it. -/
def handle (s : Service) (c : Call) : Answer :=
  match Route.ofSegments? c.target.segments with
  | none => s.answer (.empty 404)
  | some route =>
    match Action.of? route c.method with
    | none => s.answer (.empty 405)
    | some action => s.perform c action

end Service

end ModelCatalog
