/-
  ModelCatalog/Proofs/Service/Addresses.lean
  ==========================================
  **Which stored models can be reached under their identifiers.**

  An identifier is escaped to stand in a path as one segment.  What the routes are
  compared with is that segment with some of its escapes resolved
  (`Target.segmentOf`), from which the identifier is read back whatever characters it has
  (`Target.identifierOf_segmentOf`).  So each stored model has an address, and its status
  can be reported there.  It is described and removed there exactly if its identifier is
  not the name of a fixed path: those come first, and there the model is hidden
  (`Service.handle_address`).
-/
import ModelCatalog.Proofs.Service.Runs
import ModelCatalog.Proofs.Text.Percent
import ModelCatalog.Proofs.Text.Pieces

namespace ModelCatalog

open Text

/-! ### Segments -/

namespace Target

/-- The segment of an identifier, as the routes are compared with it. -/
def segmentOf (id : String) : String := percentDecode isKept (percentEncode id)

/-- What is escaped in a segment, and is not resolved before the routes are compared. -/
def staysEscaped (b : UInt8) : Bool := !isUnreserved b && isKept b

theorem staysEscaped_bounds {b : UInt8} (h : staysEscaped b = true) : b.toNat < 0x80 := by
  simp only [staysEscaped, isKept, Bool.and_eq_true, Bool.or_eq_true, beq_iff_eq] at h
  obtain ⟨-, (rfl | rfl) | rfl⟩ := h <;> decide

theorem percentDecodeOctets_segment (id : String) (rest : List UInt8) :
    percentDecodeOctets isKept (octets (percentEncode id) ++ rest) =
      (octets id).flatMap (escapeWhere staysEscaped) ++ percentDecodeOctets isKept rest := by
  rw [octets_percentEncode, percentDecodeOctets_flatMap rfl]
  rfl

theorem octets_segmentOf (id : String) :
    octets (segmentOf id) = (octets id).flatMap (escapeWhere staysEscaped) := by
  obtain ⟨t, ht⟩ := exists_octets_eq (fun _ h => staysEscaped_bounds h) id
  have hdecode := percentDecodeOctets_segment id []
  rw [percentDecodeOctets, List.append_nil, List.append_nil, ← ht] at hdecode
  rw [segmentOf, percentDecode, hdecode, ofOctets_octets, ht]

/-- A path in which nothing but its segment is escaped is decoded around the segment. -/
theorem percentDecode_path (before id after : String) (hbefore : percentSign ∉ octets before)
    (hafter : percentSign ∉ octets after) :
    percentDecode isKept (before ++ percentEncode id ++ after) =
      before ++ segmentOf id ++ after := by
  have hrest : percentDecodeOctets isKept (octets after) = octets after := by
    simpa [percentDecodeOctets] using percentDecodeOctets_append hafter []
  rw [percentDecode, octets_append, octets_append, List.append_assoc,
    percentDecodeOctets_append hbefore, percentDecodeOctets_segment, hrest,
    ← octets_segmentOf, ← octets_append, ← octets_append, ofOctets_octets, String.append_assoc]

/-- **An identifier is read back from its segment.** -/
theorem identifierOf_segmentOf (id : String) : identifierOf (segmentOf id) = id := by
  have hdecode : percentDecodeOctets (fun _ => false)
      ((octets id).flatMap (escapeWhere staysEscaped) ++ []) =
      (octets id).flatMap (escapeWhere fun b => staysEscaped b && false) ++ [] :=
    percentDecodeOctets_flatMap rfl (octets id) []
  rw [List.append_nil, List.append_nil,
    flatMap_escapeWhere_of_forall fun b _ => Bool.and_false _] at hdecode
  rw [identifierOf, percentDecode, octets_segmentOf, hdecode, ofOctets_octets]

theorem segmentOf_injective {id id' : String} (h : segmentOf id = segmentOf id') : id = id' := by
  rw [← identifierOf_segmentOf id, h, identifierOf_segmentOf]

theorem slash_not_mem_segmentOf (id : String) : '/' ∉ (segmentOf id).toList := by
  intro h
  have hmem : (0x2F : UInt8) ∈ octets (segmentOf id) :=
    List.mem_flatMap.mpr ⟨'/', h, by decide⟩
  rw [octets_segmentOf] at hmem
  exact slash_not_mem_escapeWhere rfl _ hmem

/-! ### Paths -/

theorem pieces_models (rest : String) :
    pieces '/' ("/models/" ++ rest) = "" :: "models" :: pieces '/' rest := by
  have hpath : "/models/" ++ rest = "" ++ String.singleton '/' ++
      ("models" ++ String.singleton '/' ++ rest) := by
    rw [← String.append_assoc, ← String.append_assoc]
    rfl
  rw [hpath, pieces_append (by decide), pieces_append (by decide)]

theorem segments_model {t : Target} {id : String}
    (h : t.path = "/models/" ++ percentEncode id) :
    t.segments = ["", "models", segmentOf id] := by
  have hpath := percentDecode_path "/models/" id "" (by decide) (by decide)
  rw [String.append_empty, String.append_empty, ← h] at hpath
  rw [segments, hpath, pieces_models, pieces_of_not_mem (slash_not_mem_segmentOf id)]

theorem segments_status {t : Target} {id : String}
    (h : t.path = "/models/" ++ percentEncode id ++ "/status") :
    t.segments = ["", "models", segmentOf id, "status"] := by
  have hpath := percentDecode_path "/models/" id "/status" (by decide) (by decide)
  have hstatus : segmentOf id ++ "/status" =
      segmentOf id ++ String.singleton '/' ++ "status" := by
    rw [String.append_assoc]
    rfl
  rw [segments, h, hpath, String.append_assoc, pieces_models, hstatus,
    pieces_append (slash_not_mem_segmentOf id), pieces_of_not_mem (by decide)]

/-- What may stand in a path, and ends no path. -/
def isPlain (c : Char) : Bool := isPathChar c && c != '#' && c != '?'

theorem isPlain_ofNat : ∀ n < 0x80, isUnreserved (UInt8.ofNat n) = true ∨ n = 0x25 →
    isPlain (Char.ofNat n) = true := by decide

theorem isPlain_of_mem_percentEncode {id : String} {c : Char}
    (h : c ∈ (percentEncode id).toList) : isPlain c = true := by
  obtain ⟨b, rfl, hb⟩ := mem_percentEncode h
  rcases hb with hb | rfl
  · exact isPlain_ofNat _ (lt_of_isUnreserved hb) (Or.inl (by rwa [UInt8.ofNat_toNat]))
  · decide

/-- A path without a query and without a fragment is read as it stands. -/
theorem ofText?_path {path : String} (hsize : path.utf8ByteSize ≤ maxOctets)
    (hhead : path.toList.head? = some '/') (hplain : ∀ c ∈ path.toList, isPlain c = true) :
    ofText? path = some ⟨path, ""⟩ := by
  have hchar : ∀ c ∈ path.toList, isPathChar c = true ∧ c ≠ '#' ∧ c ≠ '?' := by
    intro c hc
    have hc := hplain c hc
    simp only [isPlain, Bool.and_eq_true, bne_iff_ne] at hc
    exact ⟨hc.1.1, hc.1.2, hc.2⟩
  have hfragment : '#' ∉ path.toList := fun h => (hchar _ h).2.1 rfl
  have hquery : '?' ∉ path.toList := fun h => (hchar _ h).2.2 rfl
  have hall : path.toList.all isPathChar = true :=
    List.all_eq_true.mpr fun c hc => (hchar c hc).1
  have hstar : path ≠ "*" := by
    rintro rfl
    simp at hhead
  have hempty : path.isEmpty = false := by
    rw [Bool.eq_false_iff, ne_eq, String.isEmpty_iff]
    rintro rfl
    simp at hhead
  simp [ofText?, Nat.not_lt.mpr hsize, hstar, hhead, ofPath?, cutFirst_of_not_mem hfragment,
    cutFirst_of_not_mem hquery, hall, hempty]

/-- **The address of a model can be asked for** exactly if it is not too long. -/
theorem ofText?_address (id : String) {after : String}
    (hafter : after = "" ∨ after = "/status") :
    ofText? ("/models/" ++ percentEncode id ++ after) =
      if ("/models/" ++ percentEncode id ++ after).utf8ByteSize ≤ maxOctets then
        some ⟨"/models/" ++ percentEncode id ++ after, ""⟩
      else none := by
  split
  case isFalse hsize => exact if_pos (Nat.not_le.mp hsize)
  rename_i hsize
  refine ofText?_path hsize (by simp) ?_
  intro c hc
  rw [String.toList_append, String.toList_append, List.mem_append, List.mem_append] at hc
  rcases hc with (hc | hc) | hc
  · have hmodels : "/models/".toList.all isPlain = true := by decide
    exact List.all_eq_true.mp hmodels c hc
  · exact isPlain_of_mem_percentEncode hc
  · rcases hafter with rfl | rfl
    · simp at hc
    · have hstatus : "/status".toList.all isPlain = true := by decide
      exact List.all_eq_true.mp hstatus c hc

/-! ### Routes -/

/-- The segments behind `/models/` that have a route of their own. -/
def fixedNames : List String := ["validate", "defaults", "schema"]

/-- The segment of a fixed name is that name, and that of no other identifier is. -/
theorem segmentOf_eq_iff {id name : String} (h : segmentOf name = name) :
    segmentOf id = name ↔ id = name := by
  constructor
  · intro hid
    exact segmentOf_injective (hid.trans h.symm)
  · rintro rfl
    exact h

theorem isEmpty_segmentOf {id : String} (hid : id ≠ "") : (segmentOf id).isEmpty = false := by
  rw [Bool.eq_false_iff, ne_eq, String.isEmpty_iff, segmentOf_eq_iff (by decide)]
  exact hid

theorem ofSegments?_model {id : String} (hid : id ≠ "") (hname : id ∉ fixedNames) :
    Route.ofSegments? ["", "models", segmentOf id] = some (.model id) := by
  simp only [fixedNames, List.mem_cons, List.not_mem_nil, or_false, not_or] at hname
  obtain ⟨hvalidate, hdefaults, hschema⟩ := hname
  -- the fixed paths come first; these three inequalities rule them out
  rw [← segmentOf_eq_iff (by decide)] at hvalidate hdefaults hschema
  simp [Route.ofSegments?, isEmpty_segmentOf hid, identifierOf_segmentOf]

theorem ofSegments?_status {id : String} (hid : id ≠ "") :
    Route.ofSegments? ["", "models", segmentOf id, "status"] = some (.status id) := by
  simp [Route.ofSegments?, isEmpty_segmentOf hid, identifierOf_segmentOf]

end Target

/-! ### Actions -/

variable {c : Call} {id : String}

theorem Call.route?_model (hpath : c.target.path = "/models/" ++ percentEncode id)
    (hid : id ≠ "") (hname : id ∉ Target.fixedNames) : c.route? = some (.model id) := by
  rw [route?, Target.segments_model hpath, Target.ofSegments?_model hid hname]

theorem Call.route?_status (hpath : c.target.path = "/models/" ++ percentEncode id ++ "/status")
    (hid : id ≠ "") : c.route? = some (.status id) := by
  rw [route?, Target.segments_status hpath, Target.ofSegments?_status hid]

theorem Call.route?_fixed (hpath : c.target.path = "/models/" ++ percentEncode id)
    (hname : id ∈ Target.fixedNames) :
    c.route? = some .validate ∨ c.route? = some .defaults ∨ c.route? = some .schema := by
  rw [route?, Target.segments_model hpath]
  simp only [Target.fixedNames, List.mem_cons, List.not_mem_nil, or_false] at hname
  rcases hname with rfl | rfl | rfl
  · exact Or.inl (by decide)
  · exact Or.inr (Or.inl (by decide))
  · exact Or.inr (Or.inr (by decide))

theorem Reply.json_inj {status status' : Nat} {v v' : Json} :
    Reply.json status v = Reply.json status' v' ↔ status = status' ∧ v = v' := by
  simp [Reply.json]

/-- A record is written with its status, so it is no object without one. -/
theorem ModelRecord.toJson_ne (record : ModelRecord) {m : Json.Members}
    (h : Entries.get? m statusKey = none) : record.toJson ≠ .object m := by
  intro heq
  have hmembers : record.toMembers = m := Json.object.inj heq
  rw [← hmembers, toMembers, Entries.get?_insert, if_pos rfl] at h
  cases h

namespace Service

variable {s : Service}

/-- The fixed paths answer GET with documents of their own, or not at all. -/
theorem reply_fixed (hmethod : c.method = "GET") (record : ModelRecord)
    (hroute : c.route? = some .validate ∨ c.route? = some .defaults ∨ c.route? = some .schema) :
    (s.handle c).reply ≠ .json 200 record.toJson := by
  intro hreply
  rcases hroute with hroute | hroute | hroute
  · have haction : c.action? = none := by
      simp [Call.action?, hroute, hmethod, Action.of?]
    obtain ⟨status, hstatus, heq⟩ := handle_of_no_action (s := s) haction
    rw [heq] at hreply
    cases hreply
  · have haction : c.action? = some .defaults := by
      simp [Call.action?, hroute, hmethod, Action.of?]
    rw [handle_of_action haction] at hreply
    have hdocument : ({} : ModelRequest).toJson = record.toJson := (Reply.json_inj.mp hreply).2
    exact record.toJson_ne rfl hdocument.symm
  · have haction : c.action? = some .schema := by
      simp [Call.action?, hroute, hmethod, Action.of?]
    rw [handle_of_action haction] at hreply
    have hdocument : Schema.document = record.toJson := (Reply.json_inj.mp hreply).2
    exact record.toJson_ne rfl hdocument.symm

/-! ### Addresses -/

/-- **Every stored model has an address, but some are hidden there.**

    Whatever was asked of the service before, a request that names the address of a stored
    model reports its status; and it describes or removes the model exactly if no fixed path
    stands in its place.  An address can be named unless it is too long: a model whose
    identifier takes more octets than a target may have, escapes counted, is named by no
    request at all. -/
theorem handle_address {p : Policy} (hs : s.Reachable p) {record : ModelRecord}
    (hheld : s.catalog.get? id = some record) :
    (∀ after, after = "" ∨ after = "/status" →
      Target.ofText? ("/models/" ++ percentEncode id ++ after) =
        if ("/models/" ++ percentEncode id ++ after).utf8ByteSize ≤ Target.maxOctets then
          some ⟨"/models/" ++ percentEncode id ++ after, ""⟩
        else none) ∧
    (∀ c : Call, c.method = "GET" → c.target.path = "/models/" ++ percentEncode id →
      ((s.handle c).reply = .json 200 record.toJson ↔ id ∉ Target.fixedNames) ∧
      (s.handle c).service.catalog = s.catalog) ∧
    (∀ c : Call, c.method = "DELETE" → c.target.path = "/models/" ++ percentEncode id →
      ((s.handle c).reply = .json 200 record.toJson ↔ id ∉ Target.fixedNames) ∧
      ∀ id', (s.handle c).service.catalog.get? id' =
        if id = id' ∧ id ∉ Target.fixedNames then none else s.catalog.get? id') ∧
    (∀ (c : Call) (m : Json.Members) (status : Status), c.method = "PUT" →
      c.target.path = "/models/" ++ percentEncode id ++ "/status" → c.json = .ok (.object m) →
      Entries.get? m statusKey = some (.string (Named.name status)) →
      (s.handle c).reply = .json 200 (ModelRecord.toJson { record with status }) ∧
      ∀ id', (s.handle c).service.catalog.get? id' =
        if id = id' then some { record with status } else s.catalog.get? id') := by
  have hid : id ≠ "" := by
    rw [← Catalog.id_of_get? hheld]
    exact (hs.sound.valid hheld).modelId_ne_empty
  refine ⟨fun after => Target.ofText?_address id, ?_, ?_, ?_⟩
  · intro c hmethod hpath
    refine ⟨?_, catalog_handle (Or.inr (Or.inl hmethod))⟩
    constructor
    · intro hreply hname
      exact reply_fixed hmethod record (Call.route?_fixed hpath hname) hreply
    · intro hname
      have haction : c.action? = some (.describe id) :=
        Call.action?_eq_some_iff.mpr ⟨Call.route?_model hpath hid hname, hmethod⟩
      rw [handle_describe haction hheld]
  · intro c hmethod hpath
    by_cases hname : id ∈ Target.fixedNames
    · have haction : c.action? = none := by
        rcases Call.route?_fixed hpath hname with hroute | hroute | hroute <;>
          simp [Call.action?, hroute, hmethod, Action.of?]
      obtain ⟨status, -, heq⟩ := handle_of_no_action (s := s) haction
      rw [heq]
      simp [hname, answer, Reply.empty, Reply.json]
    · have haction : c.action? = some (.remove id) :=
        Call.action?_eq_some_iff.mpr ⟨Call.route?_model hpath hid hname, hmethod⟩
      rw [handle_remove haction hheld]
      simp [hname]
  · intro c m status hmethod hpath hbody hmember
    have haction : c.action? = some (.updateStatus id) :=
      Call.action?_eq_some_iff.mpr ⟨Call.route?_status hpath hid, hmethod⟩
    rw [handle_updateStatus haction hheld hbody (statusOf_eq_ok_iff.mpr ⟨m, rfl, hmember⟩)]
    refine ⟨rfl, ?_⟩
    intro id'
    rw [Catalog.get?_put, ModelRecord.id_withStatus, Catalog.id_of_get? hheld]

/-- The service after one registration, of a model without any other setting. -/
def registered (id : String) : Service :=
  ((start {}).handle ⟨"POST", ⟨"/models", ""⟩, some "application/json",
    "\x7b\"modelId\":\"" ++ id ++ "\",\"modelName\":\"n\"\x7d"⟩).service

/-- An identifier may hold slashes, plus signs and escapes of its own. -/
theorem handle_address_escaped :
    ∃ record, (registered "a/b+é%2F").catalog.get? "a/b+é%2F" = some record ∧
      ((registered "a/b+é%2F").handle
        ⟨"GET", ⟨"/models/a%2Fb%2B%C3%A9%252F", ""⟩, none, ""⟩).reply =
          .json 200 record.toJson ∧
      ((registered "a/b+é%2F").handle ⟨"PUT", ⟨"/models/a%2Fb%2B%C3%A9%252F/status", ""⟩,
        some "application/json", "\x7b\"status\":\"Failed\"\x7d"⟩).reply =
          .json 200 (ModelRecord.toJson { record with status := .failed }) := by
  have hs : (registered "a/b+é%2F").Reachable {} := .handle _ .start
  have hheld : (registered "a/b+é%2F").catalog.get? "a/b+é%2F" =
      some ⟨{ descriptor := { modelId := "a/b+é%2F", modelName := "n" } }, .creating⟩ := by
    decide +kernel
  obtain ⟨-, hget, -, hput⟩ := handle_address hs hheld
  exact ⟨_, hheld, (hget _ rfl (by decide +kernel)).1.mpr (by decide),
    (hput _ _ .failed rfl (by decide +kernel) rfl rfl).1⟩

/-- A model that is registered as `validate` is neither described nor removed. -/
theorem hidden_validate :
    (registered "validate").Reachable {} ∧
      (registered "validate").catalog.get? "validate" =
        some ⟨{ descriptor := { modelId := "validate", modelName := "n" } }, .creating⟩ ∧
      ((registered "validate").handle
        ⟨"GET", ⟨"/models/" ++ percentEncode "validate", ""⟩, none, ""⟩).reply.status = 405 ∧
      ((registered "validate").handle
        ⟨"DELETE", ⟨"/models/" ++ percentEncode "validate", ""⟩, none, ""⟩).reply.status = 405 := by
  refine ⟨.handle _ .start, ?_⟩
  decide +kernel

end Service

end ModelCatalog
