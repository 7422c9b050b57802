import SignOff.Http.Response

/-!
# Problems are told by their causes

However many batches wrap a refusal, its answer has the status and the class of the cause, and the id of the
request. It repeats the wording of the whole refusal, in which every wrapping id and the wording of the cause
stand, unless the storage is the cause: then the answer is the same whatever the storage has said and whichever
items it has failed for.
-/

namespace SignOff

namespace Refusal

/-- The ids of the batch items around the cause, the outermost one first. -/
def items : Refusal → List String
  | .batchItem id source => id :: source.items
  | _ => []

/-- The status and the class of the answer to a refusal that no batch wraps. -/
inductive Reported : Refusal → Nat → String → Prop where
  | applicationNotFound (id : String) : Reported (.applicationNotFound id) 404 "not_found"
  | wrongApprover (id expected actual : String) : Reported (.wrongApprover id expected actual) 403 "forbidden"
  | noActionableStep (id : String) : Reported (.noActionableStep id) 409 "conflict"
  | concurrentModification (id : String) : Reported (.concurrentModification id) 409 "conflict"
  | invalidOutcome (words : String) : Reported (.invalidOutcome words) 400 "bad_request"
  | invalidRequest (reason : String) : Reported (.invalidRequest reason) 400 "bad_request"
  | persistence (reason : String) : Reported (.persistence reason) 503 "service_unavailable"

/-- The storage is the cause. -/
def IsStorageFault (r : Refusal) : Prop := ∃ reason, r.cause = .persistence reason

/-- A refusal is its cause with the batch items around it. -/
theorem foldr_items (r : Refusal) : r.items.foldr batchItem r.cause = r := by
  induction r with
  | batchItem id source ih => exact congrArg (batchItem id) ih
  | _ => rfl

/-- A batch item says which item it is before it says what the refusal in it says. -/
theorem message_batchItem (id : String) (source : Refusal) :
    (batchItem id source).message = "batch item `" ++ id ++ "` failed: " ++ source.message := rfl

/-- The same by characters. -/
theorem toList_message_batchItem (id : String) (source : Refusal) :
    (batchItem id source).message.toList =
      "batch item `".toList ++ id.toList ++ "` failed: ".toList ++ source.message.toList := by
  rw [message_batchItem, String.toList_append, String.toList_append, String.toList_append]

/-- The wording of the cause stands in that of the refusal. -/
theorem cause_message_infix (r : Refusal) : r.cause.message.toList <:+: r.message.toList := by
  induction r with
  | batchItem id source ih =>
    rw [toList_message_batchItem]
    exact ih.trans (List.suffix_append _ _).isInfix
  | _ => exact List.infix_rfl

/-- The id of every batch item around the cause stands in the wording of the refusal. -/
theorem item_infix {r : Refusal} {id : String} (h : id ∈ r.items) : id.toList <:+: r.message.toList := by
  induction r with
  | batchItem first source ih =>
    rw [toList_message_batchItem]
    rcases List.mem_cons.1 h with rfl | h
    · exact (List.infix_append _ _ _).trans (List.prefix_append _ _).isInfix
    · exact (ih h).trans (List.suffix_append _ _).isInfix
  | _ => simp [items] at h

end Refusal

namespace Problem

/-- The problem of a refusal has the status and the class name that the cause is reported with. -/
theorem reported_cause (r : Refusal) : r.cause.Reported r.problem.kind.status r.problem.kind.name := by
  rw [← kind_problem_cause]
  cases h : r.cause with
  | batchItem id source => exact absurd h (r.cause_ne_batchItem id source)
  | applicationNotFound id => exact .applicationNotFound id
  | noActionableStep id => exact .noActionableStep id
  | wrongApprover id expected actual => exact .wrongApprover id expected actual
  | invalidOutcome words => exact .invalidOutcome words
  | concurrentModification id => exact .concurrentModification id
  | invalidRequest reason => exact .invalidRequest reason
  | persistence reason => exact .persistence reason

/-- The service is unavailable exactly when the storage is the cause. -/
theorem kind_eq_serviceUnavailable_iff (r : Refusal) :
    r.problem.kind = .serviceUnavailable ↔ r.IsStorageFault := by
  induction r with
  | batchItem id source ih => exact ih
  | _ => simp [Refusal.problem, Refusal.IsStorageFault, Refusal.cause]

/-- No refusal is an internal fault. -/
theorem kind_ne_internal (r : Refusal) : r.problem.kind ≠ .internal := by
  induction r with
  | batchItem id source ih => exact ih
  | _ => simp [Refusal.problem]

/-- The answer repeats the wording of a refusal unless the storage is the cause. -/
theorem publicMessage_ofRefusal {r : Refusal} (h : ¬r.IsStorageFault) (correlationId : String) :
    (ofRefusal r correlationId).publicMessage = r.message := by
  have hunavailable := mt (kind_eq_serviceUnavailable_iff r).1 h
  have hinternal := kind_ne_internal r
  rw [publicMessage, kind_ofRefusal, message_ofRefusal]
  split
  · exact absurd ‹_› hunavailable
  · exact absurd ‹_› hinternal
  · rfl

/-- The answers to two refusals are the same where the storage is the cause of both. -/
theorem response_of_isStorageFault {r r' : Refusal} (h : r.IsStorageFault) (h' : r'.IsStorageFault)
    (correlationId : String) :
    (ofRefusal r correlationId).response = (ofRefusal r' correlationId).response := by
  have hkind := (kind_eq_serviceUnavailable_iff r).2 h
  have hkind' := (kind_eq_serviceUnavailable_iff r').2 h'
  simp only [response, publicMessage, kind_ofRefusal, correlationId_ofRefusal, hkind, hkind']

end Problem

/-- The answer to a refusal, which is its cause with batch items around it, has the status and the class of the cause
and the id of the request. Its message is the wording of the whole refusal, in which the ids of all the items and the
wording of the cause stand, unless the storage is the cause: then nothing of the refusal can be told from the
answer. -/
theorem problems_told_by_causes (correlationId : String) :
    (∀ r : Refusal, ∃ status kind message,
      r.items.foldr .batchItem r.cause = r ∧ r.cause.Reported status kind ∧
      (Problem.ofRefusal r correlationId).response = .json status (.object [("error", .string kind),
        ("message", .string message), ("correlationId", .string correlationId)]) ∧
      (¬r.IsStorageFault → message = r.message ∧ r.cause.message.toList <:+: message.toList ∧
        ∀ id ∈ r.items, id.toList <:+: message.toList)) ∧
    ∀ r r' : Refusal, r.IsStorageFault → r'.IsStorageFault →
      (Problem.ofRefusal r correlationId).response = (Problem.ofRefusal r' correlationId).response := by
  constructor
  · intro r
    refine ⟨_, _, _, r.foldr_items, Problem.reported_cause r, rfl, fun hcause => ?_⟩
    rw [Problem.publicMessage_ofRefusal hcause]
    exact ⟨rfl, r.cause_message_infix, fun _ => Refusal.item_infix⟩
  · intro r r' h h'
    exact Problem.response_of_isStorageFault h h' correlationId

/-- A decision of the wrong approver in a batch within a batch, and two faults of the storage at different depths. -/
theorem problems_told_by_causes_of_nested_items :
    let r : Refusal := .batchItem "7" (.batchItem "8" (.wrongApprover "8" "lee" "kim"))
    let fault : Refusal := .batchItem "7" (.persistence "disk full")
    (∃ message, (Problem.ofRefusal r "corr").response = .json 403 (.object [("error", .string "forbidden"),
        ("message", .string message), ("correlationId", .string "corr")]) ∧
      "7".toList <:+: message.toList ∧ "8".toList <:+: message.toList) ∧
      (Problem.ofRefusal fault "corr").response = (Problem.ofRefusal (.persistence "locked") "corr").response := by
  intro r fault
  obtain ⟨htold, hhidden⟩ := problems_told_by_causes "corr"
  obtain ⟨status, kind, message, -, hreported, hresponse, hshown⟩ := htold r
  have hcause : ¬r.IsStorageFault := by
    rintro ⟨reason, hreason⟩
    cases hreason
  obtain ⟨-, -, hitems⟩ := hshown hcause
  cases hreported
  exact ⟨⟨message, hresponse, hitems "7" (by decide), hitems "8" (by decide)⟩,
    hhidden fault (.persistence "locked") ⟨_, rfl⟩ ⟨_, rfl⟩⟩

end SignOff
