import SignOff.Proofs.Approval.Versions
import SignOff.Proofs.Store.Keeping

/-!
# Stores that carry decisions out one after another

A store shows contents: a chain for each application. A unit accounts for the rulings it has carried
out, in order, and its commit leaves the contents that these rulings make of the contents just before
it. What other units commit in between is in the contents by then, so committed units follow one
another, however their steps were mixed.
-/

namespace SignOff

open UnitStore

/-- The answer to a decision on what the contents hold. -/
def Contents.decide (contents : Contents) (pattern : String) (today : Date) (command : Command) :
    Except Refusal Record :=
  match contents command.applicationId with
  | none => .error (.applicationNotFound command.applicationId)
  | some chain => chain.decide command pattern today

/-- The ruling that a command is on a day. -/
def Command.ruling (command : Command) (pattern : String) (today : Date) : Ruling :=
  ⟨command.applicationId, command, pattern, today⟩

/-- A ruling with a successful answer has been carried out, one that was refused has not. -/
def Ruling.carried {α : Type} (r : Ruling) : Except Refusal α → List Ruling
  | .ok _ => [r]
  | .error _ => []

/-- A ruling that is carried out is a decision on the contents. -/
theorem Contents.replay?_carried {contents after : Contents} {command : Command} {pattern : String}
    {today : Date} :
    contents.replay? [command.ruling pattern today] = some after ↔
      ∃ record, contents.decide pattern today command = .ok record ∧
        after = Function.update contents command.applicationId (some record.chain) := by
  rw [replay?_cons, Contents.decide]
  cases hchain : contents command.applicationId with
  | none => simp [rule?, Command.ruling, hchain]
  | some chain =>
    cases hdecide : chain.decide command pattern today with
    | error refusal => simp [rule?, Chain.rule?, Command.ruling, hchain, hdecide]
    | ok record => simp [rule?, Chain.rule?, Command.ruling, hchain, hdecide, eq_comm]

/-- Whether the units of a store keep up with what others commit to it while they are open. -/
class SideBySide (σ : Type) where
  sideBySide : Bool

/-- A store whose units account for the decisions that their commit leaves. -/
class SerialStore (σ : Type) (υ : outParam Type) [UnitStore σ υ] [SideBySide σ] where
  /-- The store is open and everything in it can be read. -/
  Readable : σ → Prop
  /-- What a readable store shows. -/
  contents : σ → Contents
  /-- What a unit sees of a readable store. -/
  view : σ → υ → Contents
  /-- The unit has carried out the rulings, and nothing else. -/
  Accounts : σ → υ → List Ruling → Prop
  openUnit_eq {s : σ} : Readable s → ∃ u, openUnit s = .ok u ∧ Accounts s u [] ∧ view s u = contents s
  load_eq {s : σ} {u : υ} {rulings : List Ruling} (id : String) : Readable s → Accounts s u rulings →
    ∃ u', load s u id = (.ok (view s u id), u') ∧ Accounts s u' rulings ∧ view s u' = view s u
  store_eq {s : σ} {u : υ} {rulings : List Ruling} {r : Ruling} {chain : Chain} {record : Record} :
    Readable s → Accounts s u rulings → view s u r.id = some chain →
      chain.decide r.command r.pattern r.today = .ok record →
      ∃ u', store s u record = (.ok (), u') ∧ Accounts s u' (rulings ++ [r])
  commit_ok {s s' : σ} {u : υ} {rulings : List Ruling} : Readable s → Accounts s u rulings →
    commit s u = (.ok (), s') → Readable s' ∧ (contents s).replay? rulings = some (contents s')
  commit_error {s s' : σ} {u : υ} {refusal : Refusal} : commit s u = (.error refusal, s') → s' = s
  /-- A unit keeps up with others as long as versions tell the chains apart. -/
  accounts_of_replay {s s' : σ} {u : υ} {rulings others : List Ruling} :
    (SideBySide.sideBySide σ = true ∧ (contents s).FitMemory) ∨ others = [] → Accounts s u rulings →
      (contents s).replay? others = some (contents s') → Accounts s' u rulings
  /-- The unit has come upon the chain of an application and written nothing on it. -/
  Leaves : String → Chain → υ → Prop
  /-- Where a chain awaits no decision, units leave it alone, whatever others commit. -/
  keeps_closed {id : String} {chain : Chain} : chain.cursor? = none →
    UnitStore.Keeps (fun s => Readable s ∧ contents s id = some chain) (Leaves id chain)

namespace SerialStore

variable {σ υ : Type} [UnitStore σ υ] [SideBySide σ] [SerialStore σ υ] {s : σ} {u : υ}
  {rulings : List Ruling}

/-- A property of a unit with its rulings that loads keep and that records of what the unit sees carry on. -/
structure Carries (s : σ) (P : υ → List Ruling → Prop) : Prop where
  load_eq {u : υ} {rulings : List Ruling} (id : String) : P u rulings →
    ∃ u', load s u id = (.ok (view s u id), u') ∧ P u' rulings ∧ view s u' = view s u
  store_eq {u : υ} {rulings : List Ruling} {r : Ruling} {chain : Chain} {record : Record} : P u rulings →
    view s u r.id = some chain → chain.decide r.command r.pattern r.today = .ok record →
      ∃ u', store s u record = (.ok (), u') ∧ P u' (rulings ++ [r])

/-- Units of a readable store keep account. -/
theorem carries_accounts (hreadable : Readable s) : Carries s (Accounts s) :=
  ⟨fun id h => load_eq id hreadable h, fun h hview hdecide => store_eq hreadable h hview hdecide⟩

/-- A unit decides on what it sees, and carries the decision out if that succeeds. -/
theorem Carries.recordDecision {P : υ → List Ruling → Prop} (hcarries : Carries s P) (h : P u rulings)
    (pattern : String) (today : Date) (command : Command) :
    ∃ u', recordDecision pattern today s u command =
        ((view s u).decide pattern today command, u') ∧
      P u' (rulings ++ (command.ruling pattern today).carried
        ((view s u).decide pattern today command)) := by
  obtain ⟨loaded, hload, hloaded, hview⟩ := hcarries.load_eq command.applicationId h
  cases hchain : view s u command.applicationId with
  | none =>
    have hanswer : (view s u).decide pattern today command =
        .error (.applicationNotFound command.applicationId) := by simp [Contents.decide, hchain]
    rw [hchain] at hload
    refine ⟨loaded, by rw [recordDecision_of_load_none hload, hanswer], ?_⟩
    simpa [hanswer, Ruling.carried] using hloaded
  | some chain =>
    have hanswer : (view s u).decide pattern today command = chain.decide command pattern today := by
      simp [Contents.decide, hchain]
    rw [hchain] at hload
    rw [hanswer]
    cases hdecide : chain.decide command pattern today with
    | error refusal =>
      refine ⟨loaded, recordDecision_of_decide_error hload hdecide, ?_⟩
      simpa [Ruling.carried] using hloaded
    | ok record =>
      have hview : view s loaded (command.ruling pattern today).id = some chain := by rw [hview]; exact hchain
      obtain ⟨u', hstore, hcarried⟩ := hcarries.store_eq hloaded hview hdecide
      exact ⟨u', by rw [recordDecision_of_decide_ok hload hdecide, hstore]; rfl, hcarried⟩

/-- A unit decides on what it sees and accounts for the decision if that succeeds. -/
theorem recordDecision_eq (hreadable : Readable s) (h : Accounts s u rulings) (pattern : String)
    (today : Date) (command : Command) :
    ∃ u', recordDecision pattern today s u command =
        ((view s u).decide pattern today command, u') ∧
      Accounts s u' (rulings ++ (command.ruling pattern today).carried
        ((view s u).decide pattern today command)) :=
  (carries_accounts hreadable).recordDecision h pattern today command

end SerialStore

end SignOff
