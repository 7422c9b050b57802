import SignOff.Proofs.Ledger.Units
import SignOff.Proofs.Store.Batch
import SignOff.Proofs.Store.Desk

/-!
# The ledger at work

An office is a desk with a ledger that takes submissions too, and keeps those it has taken. Whatever
happens in an office that starts without rows, every application in its ledger was submitted once, and its
chain is what the committed rulings on it make of the chain that was submitted.
-/

namespace SignOff.Ledger

/-- A submission that has been taken as the application `id` on some day. -/
structure Taken where
  id : String
  submission : Submission
  today : Date
deriving DecidableEq

/-- A ledger at work, with the submissions that it has taken. -/
structure Office where
  desk : Desk Ledger Tables
  taken : List Taken

/-- What can happen in an office. -/
inductive Event where
  | submit (id : String) (s : Submission) (today : Date)
  | work (op : Desk.Op)

/-- The chain that a submission became. -/
def Taken.chain (taken : Taken) : Chain := taken.submission.chain taken.id taken.today

namespace Office

/-- An office with an open ledger without rows. -/
def start : Office := ⟨Desk.ofStore Ledger.empty, []⟩

/-- The office after a submission has been taken into the ledger. -/
def take (office : Office) (taken : Taken) (ledger : Ledger) : Office :=
  ⟨{ office.desk.overtake with store := ledger }, office.taken ++ [taken]⟩

/-- The office after an event. -/
def step (policy : Policy) (office : Office) : Event → Office
  | .submit id s today =>
    match office.desk.store.submit id s today with
    | (.ok (), ledger) => office.take ⟨id, s, today⟩ ledger
    | (.error _, ledger) => { office with desk := { office.desk with store := ledger } }
  | .work op => { office with desk := office.desk.step policy op }

/-- The office after one event after another. -/
def run (policy : Policy) (office : Office) (events : List Event) : Office :=
  events.foldl (step policy) office

/-- The chain that was submitted as an application. -/
def origin (office : Office) : Contents := fun id =>
  (office.taken.find? fun taken => taken.id = id).map Taken.chain

/-- The ledger shows what the committed rulings make of the submissions. -/
structure Accountable (office : Office) : Prop where
  consistent : office.desk.Consistent
  lineage : office.origin.replay? office.desk.committed = some office.desk.store.tables.contents
  taken_nodup : (office.taken.map Taken.id).Nodup
  taken_fit : ∀ taken ∈ office.taken, taken.submission.validate = .ok () ∧
    taken.submission.approvers.length < Power.ofTwo 32

variable {office : Office}

/-- An office that starts without rows is accountable. -/
theorem accountable_start : start.Accountable where
  consistent := Desk.consistent_ofStore ⟨rfl, Tables.readable_empty.1⟩ (by simp [SideBySide.sideBySide])
  lineage := congrArg some Tables.readable_empty.2.symm
  taken_nodup := List.nodup_nil
  taken_fit := by simp [start]

/-- A submission that fits is taken. -/
theorem step_submit (office : Office) (policy : Policy) {id : String} {s : Submission}
    (htakes : office.desk.store.Takes id s) (today : Date) :
    office.step policy (.submit id s today) = office.take ⟨id, s, today⟩
      { office.desk.store with tables := office.desk.store.tables.submit id s today } := by
  simp only [Office.step, submit_of_takes htakes]

/-- A submission that has been taken stays taken. -/
theorem mem_taken_run (policy : Policy) {taken : Taken} (h : taken ∈ office.taken) (events : List Event) :
    taken ∈ (office.run policy events).taken := by
  induction events generalizing office with
  | nil => exact h
  | cons event rest ih =>
    have hstep : taken ∈ (office.step policy event).taken := by
      cases event with
      | work op => exact h
      | submit id s today =>
        simp only [Office.step]
        split
        · exact List.mem_append_left _ h
        · exact h
    exact ih hstep

/-- A first submission that fits is taken. -/
theorem mem_taken_of_submit (policy : Policy) {id : String} {s : Submission} (htakes : Ledger.empty.Takes id s)
    (today : Date) (events : List Event) :
    ⟨id, s, today⟩ ∈ (start.run policy (.submit id s today :: events)).taken := by
  have hfirst : ⟨id, s, today⟩ ∈ (start.step policy (.submit id s today)).taken := by
    rw [step_submit start policy htakes]
    exact List.mem_append_right _ List.mem_cons_self
  exact mem_taken_run policy hfirst events

namespace Accountable

/-- Nothing has been submitted or decided for an application that the ledger does not have. -/
theorem of_new (h : office.Accountable) {id : String}
    (hnew : office.desk.store.tables.header? id = none) :
    office.origin id = none ∧ Ruling.on id office.desk.committed = [] := by
  have hid := Contents.replay?_eq_some_iff.1 h.lineage id
  rw [h.consistent.readable.2.contents_eq_none_iff.2 hnew] at hid
  exact hid.of_none

/-- A submission keeps an office accountable. -/
theorem submit (h : office.Accountable) {id : String} {s : Submission}
    (htakes : office.desk.store.Takes id s) (today : Date) :
    (office.take ⟨id, s, today⟩
      { office.desk.store with
        tables := office.desk.store.tables.submit id s today }).Accountable := by
  obtain ⟨hopen, hreadable⟩ := h.consistent.readable
  obtain ⟨hreadable', hcontents⟩ := hreadable.submit htakes.isNew htakes.few today
  obtain ⟨horigin, hrulings⟩ := h.of_new htakes.isNew
  have hnone : office.taken.find? (fun taken => taken.id = id) = none := by
    simpa [origin] using horigin
  refine ⟨⟨⟨hopen, hreadable'⟩, by simp [SideBySide.sideBySide], fun name w hname hcurrent => ?_⟩, ?_, ?_, ?_⟩
  · simp [Desk.overtaken_of_lookup rfl hname] at hcurrent
  · apply Contents.replay?_eq_some_iff.2
    intro other
    change Contents.Continues (origin ⟨office.desk, office.taken ++ [⟨id, s, today⟩]⟩ other)
      (Ruling.on other office.desk.committed)
      ((office.desk.store.tables.submit id s today).contents other)
    rw [hcontents, origin, List.find?_append]
    by_cases heq : other = id
    · subst heq
      rw [Function.update_self, hrulings, hnone]
      simp [Contents.continues_nil_iff, Taken.chain]
    · have hother := Contents.replay?_eq_some_iff.1 h.lineage other
      rw [Function.update_of_ne heq]
      simpa [Ne.symm heq, origin] using hother
  · rw [take, List.map_append, List.nodup_append]
    refine ⟨h.taken_nodup, by simp, fun a ha b hb heq => ?_⟩
    obtain ⟨taken, htaken, rfl⟩ := List.mem_map.1 ha
    have hid := List.find?_eq_none.1 hnone taken htaken
    simp_all
  · intro taken htaken
    rcases List.mem_append.1 htaken with htaken | htaken
    · exact h.taken_fit taken htaken
    · rw [List.mem_singleton] at htaken
      exact htaken ▸ ⟨htakes.valid, htakes.few⟩

/-- Every event keeps an office accountable. -/
theorem step (h : office.Accountable) (policy : Policy) (event : Event) :
    (office.step policy event).Accountable := by
  cases event with
  | work op =>
    obtain ⟨hconsistent, rulings, hcommitted, hreplay⟩ := h.consistent.step policy op
    refine ⟨hconsistent, ?_, h.taken_nodup, h.taken_fit⟩
    change office.origin.replay? (office.desk.step policy op).committed = _
    rw [hcommitted, Contents.replay?_append, h.lineage]
    exact hreplay
  | submit id s today =>
    by_cases htakes : office.desk.store.Takes id s
    · rw [step_submit office policy htakes]
      exact h.submit htakes today
    · obtain ⟨refusal, hrefused⟩ := submit_of_not_takes htakes today
      simp only [Office.step, hrefused]
      exact h

/-- Every run keeps an office accountable. -/
theorem run (h : office.Accountable) (policy : Policy) (events : List Event) :
    (office.run policy events).Accountable := by
  induction events generalizing office with
  | nil => exact h
  | cons event rest ih => exact ih (h.step policy event)

/-- The ledger shows what the committed rulings on an application make of its submission. -/
theorem contents_of_mem (h : office.Accountable) {taken : Taken} (htaken : taken ∈ office.taken) :
    ∃ chain, office.desk.store.tables.contents taken.id = some chain ∧
      taken.chain.replay? (Ruling.on taken.id office.desk.committed) = some chain := by
  have hid := Contents.replay?_eq_some_iff.1 h.lineage taken.id
  have hfind : office.taken.find? (fun other => other.id = taken.id) = some taken := by
    cases hfind : office.taken.find? (fun other => other.id = taken.id) with
    | none => simpa using List.find?_eq_none.1 hfind taken htaken
    | some other =>
      have hother : other.id = taken.id := by simpa using List.find?_some hfind
      rw [List.inj_on_of_nodup_map h.taken_nodup (List.mem_of_find?_eq_some hfind) htaken hother]
  rw [origin, hfind, Option.map_some] at hid
  obtain ⟨chain, hchain, hreplay⟩ := Contents.Continues.present_iff.1 hid
  exact ⟨chain, hchain, hreplay⟩

end Accountable

end Office

end SignOff.Ledger
