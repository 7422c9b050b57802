import SignOff.Proofs.Approval.Blocks
import SignOff.Proofs.Results

/-!
# What rulings keep of a chain

Rulings decide open steps and leave decided ones as they are. Of the application they change the status, the
document and the version. As long as there is room for versions each of them raises it, so chains of one history
that are in the same version are the same. A chain that is no longer pending takes no ruling at all: a decision looks at the steps
alone, and in a sound chain these are settled when the status is.
-/

namespace SignOff

/-- The step is the same, but for a decision if there was none. -/
structure Step.Keeps (before after : Step) : Prop where
  columns : after = { before with decision := after.decision }
  decision : ∀ d, before.decision = some d → after.decision = some d

namespace Step.Keeps

/-- A step keeps itself. -/
theorem refl (s : Step) : s.Keeps s := ⟨rfl, fun _ h => h⟩

/-- What keeps a step that keeps an earlier one keeps the earlier one. -/
theorem trans {first second third : Step} (h : first.Keeps second) (h' : second.Keeps third) :
    first.Keeps third := by
  refine ⟨?_, fun d hd => h'.decision d (h.decision d hd)⟩
  rw [h'.columns, h.columns]

/-- A decision on an open step keeps it. -/
theorem decide {s : Step} (h : s.isOpen = true) (d : Decision) : s.Keeps (s.decide d) := by
  refine ⟨rfl, fun d' hd => ?_⟩
  simp [Step.isOpen, hd] at h

end Step.Keeps

/-- The later chain has the history of the earlier one. -/
structure Chain.Keeps (before after : Chain) : Prop where
  application : after.application =
    { before.application with
      status := after.application.status
      document := after.application.document
      version := after.application.version }
  steps : List.Forall₂ Step.Keeps before.steps after.steps
  version_le : before.application.version ≤ after.application.version
  /-- Nothing changes within a version. -/
  eq_of_version : after.application.version = before.application.version → after = before
  /-- Nothing changes once the application is approved or rejected. -/
  eq_of_closed : before.application.status ≠ .pending → after = before

namespace Chain

variable {chain after : Chain} {rulings : List Ruling}

/-- A decision keeps the steps. -/
theorem keeps_steps_of_decide {command : Command} {pattern : String} {today : Date} {record : Record}
    (h : chain.decide command pattern today = .ok record) :
    List.Forall₂ Step.Keeps chain.steps record.chain.steps := by
  obtain ⟨cursor, hcursor, -, rfl⟩ := decide_eq_ok_iff.1 h
  obtain ⟨hsteps, hopen, -⟩ := Cursor.find?_eq_some hcursor
  let covered := cursor.current :: command.cascade cursor.after
  let rest := cursor.after.drop (command.cascade cursor.after).length
  have hsplit : chain.steps = cursor.before ++ covered ++ rest := by
    rw [hsteps, List.append_assoc, List.cons_append, command.cascade_append_drop]
  have hsame (steps : List Step) : List.Forall₂ Step.Keeps steps steps :=
    List.forall₂_same.2 fun s _ => .refl s
  have hcovered : List.Forall₂ Step.Keeps covered
      (covered.map fun s => s.decide (command.decision today)) := by
    rw [List.forall₂_map_right_iff, List.forall₂_same]
    intro s hs
    rcases List.mem_cons.1 hs with rfl | hrun
    · exact .decide hopen _
    · exact .decide (Command.of_mem_cascade hrun).2 _
  rw [recordAt_steps, hsplit]
  exact List.rel_append (List.rel_append (hsame _) hcovered) (hsame _)

/-- Rulings keep the steps. -/
theorem keeps_steps_of_replay (hreplay : chain.replay? rulings = some after) :
    List.Forall₂ Step.Keeps chain.steps after.steps := by
  apply replay?_induction (P := fun c => List.Forall₂ Step.Keeps chain.steps c.steps) _ _ hreplay
  · intro c r record hkept hdecide
    exact forall₂_trans .trans hkept (keeps_steps_of_decide hdecide)
  · exact List.forall₂_same.2 fun s _ => .refl s

/-- Rulings change the status, the document and the version of an application. -/
theorem application_of_replay (hreplay : chain.replay? rulings = some after) :
    after.application =
      { chain.application with
        status := after.application.status
        document := after.application.document
        version := after.application.version } := by
  refine replay?_induction (P := fun c => c.application = { chain.application with
    status := c.application.status, document := c.application.document
    version := c.application.version }) ?_ rfl hreplay
  intro c r record hsame hdecide
  exact (application_of_decide hdecide).trans (by rw [hsame])

/-- Rulings on a sound chain with room for its versions keep its history. -/
theorem Sound.keeps_of_replay (hsound : chain.Sound) (hroom : chain.HasRoom)
    (hreplay : chain.replay? rulings = some after) : chain.Keeps after := by
  have hversion := (hroom.replay hreplay).1
  have hnone (hrulings : rulings = []) : after = chain := by
    rw [hrulings, replay?_nil, Option.some.injEq] at hreplay
    exact hreplay.symm
  refine ⟨application_of_replay hreplay, keeps_steps_of_replay hreplay, by omega, ?_, ?_⟩
  · intro hsame
    apply hnone
    apply List.eq_nil_of_length_eq_zero
    omega
  · intro hclosed
    have hcursor : chain.cursor? = none := by
      cases hcursor : chain.cursor? with
      | none => rfl
      | some cursor => exact absurd (hsound.pending_of_cursor hcursor) hclosed
    exact hnone (replay?_of_cursor?_eq_none hcursor hreplay)

end Chain

end SignOff
