import Mathlib.Data.List.Nodup
import SignOff.Proofs.Ledger.Links
import SignOff.Proofs.Ledger.Refinement
import SignOff.Proofs.Store.Atomic
import SignOff.Proofs.Store.Batch
import SignOff.Proofs.Store.ShelfUnits

/-!
# Decisions on different applications

A decision reads the chain of one application and writes that application only. Decisions on different
applications therefore have the answers in either order that each of them has alone, and leave the same store,
down to the place of every row and chain. A batch on different applications leads to the same whatever the order
of its items, which is an induction on the exchanges of neighbours that an order is made of.
-/

namespace SignOff

open SerialStore

namespace Service

section Statements

variable {σ υ : Type} [UnitStore σ υ]

/-- Decisions on different applications have the answers that each of them has alone, and leave the same store,
in whichever order they are made. -/
def Independent (policy : Policy) (s : σ) : Prop :=
  ∀ (today today' : Date) (a b : DecisionRequest),
    Text.trim a.applicationId ≠ Text.trim b.applicationId →
      let afterA := decide policy today s a
      let afterB := decide policy today' s b
      (decide policy today' afterA.2 b).1 = afterB.1 ∧ (decide policy today afterB.2 a).1 = afterA.1 ∧
        (decide policy today' afterA.2 b).2 = (decide policy today afterB.2 a).2

/-- What a decision on the store comes to as an item of a batch. -/
def resultOf (policy : Policy) (today : Date) (s : σ) (item : DecisionRequest) : Except Refusal BatchResult :=
  (decide policy today s item).1.map fun record =>
    BatchSummary.recorded (Text.trim item.applicationId) record.status

/-- A batch on different applications and the same in another order are both carried out or both refused. If they
are carried out, they leave the same store, and every item has in both the result that it has alone. -/
def OrderFree (policy : Policy) (s : σ) : Prop :=
  ∀ (today : Date) (items items' : List DecisionRequest), items.Perm items' →
    (items.map fun item => Text.trim item.applicationId).Nodup →
      match bulkDecide policy today s items, bulkDecide policy today s items' with
      | (.ok summary, after), (.ok summary', after') =>
        after' = after ∧ summary.results.map .ok = items.map (resultOf policy today s) ∧
          summary'.results.map .ok = items'.map (resultOf policy today s)
      | (.error _, after), (.error _, after') => after = s ∧ after' = s
      | _, _ => False

/-- A batch that is carried out is carried out in every order of its items, and leaves the same store. -/
theorem OrderFree.of_isOk {policy : Policy} {s : σ} (h : OrderFree policy s) {today : Date}
    {items items' : List DecisionRequest} (hperm : items.Perm items')
    (hdistinct : (items.map fun item => Text.trim item.applicationId).Nodup)
    (hok : (bulkDecide policy today s items).1.isOk = true) :
    ∃ summary summary' after, bulkDecide policy today s items = (.ok summary, after) ∧
      bulkDecide policy today s items' = (.ok summary', after) := by
  have horder := h today items items' hperm hdistinct
  rcases hbatch : bulkDecide policy today s items with ⟨refusal | summary, after⟩
  · rw [hbatch] at hok
    contradiction
  · rcases hbatch' : bulkDecide policy today s items' with ⟨refusal' | summary', after'⟩ <;>
      rw [hbatch, hbatch'] at horder
    · exact horder.elim
    · exact ⟨summary, summary', after, rfl, by rw [← horder.1]⟩

/-- The store after decisions one after another, whether they succeed or not. -/
def decideAll (policy : Policy) (today : Date) (s : σ) (items : List DecisionRequest) : σ :=
  items.foldl (fun s item => (decide policy today s item).2) s

/-- Decisions are made one after the other, each on what the ones before have left. -/
theorem decideAll_cons (policy : Policy) (today : Date) (s : σ) (item : DecisionRequest)
    (rest : List DecisionRequest) : decideAll policy today s (item :: rest) =
      decideAll policy today (decide policy today s item).2 rest := rfl

end Statements

variable {σ υ : Type} [UnitStore σ υ] [SideBySide σ] [SerialStore σ υ] [PreviewStore σ υ] {s s' : σ}
  (policy : Policy) (today : Date)

/-- The answer to a request is that of its command on the contents. -/
theorem decide_fst (hreadable : Readable s) (request : DecisionRequest) :
    (decide policy today s request).1 =
      request.command.bind ((contents s).decide policy.dateFormat today) := by
  cases hcommand : request.command with
  | error refusal => simp only [decide, hcommand, Except.bind]
  | ok command =>
    have hdecide := decide_of_readable policy today hreadable hcommand
    simp only [Except.bind]
    cases hanswer : (contents s).decide policy.dateFormat today command with
    | error refusal =>
      simp only [hanswer] at hdecide
      rw [hdecide]
    | ok record =>
      simp only [hanswer] at hdecide
      obtain ⟨after, hafter, -⟩ := hdecide
      rw [hafter]

/-- A decision leaves a readable store, with the other applications as they were. -/
theorem readable_decide (hreadable : Readable s) (request : DecisionRequest) :
    Readable (decide policy today s request).2 ∧
      ∀ other, other ≠ Text.trim request.applicationId →
        contents (decide policy today s request).2 other = contents s other := by
  cases hcommand : request.command with
  | error refusal =>
    have hsame : decide policy today s request = (.error refusal, s) := by simp only [decide, hcommand]
    rw [hsame]
    exact ⟨hreadable, fun _ _ => rfl⟩
  | ok command =>
    have hdecide := decide_of_readable policy today hreadable hcommand
    cases hanswer : (contents s).decide policy.dateFormat today command with
    | error refusal =>
      simp only [hanswer] at hdecide
      rw [hdecide]
      exact ⟨hreadable, fun _ _ => rfl⟩
    | ok record =>
      simp only [hanswer] at hdecide
      obtain ⟨after, hafter, hreadable', hcontents⟩ := hdecide
      rw [hafter]
      refine ⟨hreadable', fun other hother => ?_⟩
      rw [hcontents, Function.update_of_ne]
      rwa [(DecisionRequest.command_eq_ok_iff.1 hcommand).1]

/-- The answer to a request depends on the chain of its application only. -/
theorem decide_fst_congr (hreadable : Readable s) (hreadable' : Readable s') {request : DecisionRequest}
    (hsame : contents s' (Text.trim request.applicationId) = contents s (Text.trim request.applicationId)) :
    (decide policy today s' request).1 = (decide policy today s request).1 := by
  rw [decide_fst policy today hreadable, decide_fst policy today hreadable']
  cases hcommand : request.command with
  | error refusal => rfl
  | ok command =>
    rw [← (DecisionRequest.command_eq_ok_iff.1 hcommand).1] at hsame
    simp only [Except.bind, Contents.decide, hsame]

/-- A decision changes no answer about another application. -/
theorem decide_fst_after (hreadable : Readable s) (today' : Date) {a b : DecisionRequest}
    (hne : Text.trim a.applicationId ≠ Text.trim b.applicationId) :
    (decide policy today' (decide policy today s a).2 b).1 = (decide policy today' s b).1 := by
  obtain ⟨hreadable', hothers⟩ := readable_decide policy today hreadable a
  exact decide_fst_congr policy today' hreadable hreadable' (hothers _ hne.symm)

variable {policy today}

/-- Decisions are independent when what is written for two of them can be written in either order. One that is
refused writes nothing. -/
theorem independent_of_writes (write : σ → Date → Command → Record → σ)
    (hwrite : ∀ {s : σ} {today : Date} {request : DecisionRequest} {command : Command} {record : Record},
      Readable s → request.command = .ok command → (decide policy today s request).1 = .ok record →
        (decide policy today s request).2 = write s today command record)
    (hcomm : ∀ {s : σ} {today today' : Date} {a b : Command} {record record' : Record}, Readable s →
      a.applicationId ≠ b.applicationId → (contents s).decide policy.dateFormat today a = .ok record →
        (contents s).decide policy.dateFormat today' b = .ok record' →
          write (write s today a record) today' b record' = write (write s today' b record') today a record)
    {s : σ} (hreadable : Readable s) : Independent policy s := by
  -- A decision that has the answer it has alone is a command and writes its record.
  have hwritten : ∀ {s' : σ} {today : Date} {request : DecisionRequest} {record : Record}, Readable s' →
      (decide policy today s' request).1 = .ok record → ∃ command, request.command = .ok command ∧
        (contents s').decide policy.dateFormat today command = .ok record ∧
          (decide policy today s' request).2 = write s' today command record := by
    intro s' today request record hreadable' hok
    have hanswer := decide_fst policy today hreadable' request
    rw [hok] at hanswer
    cases hcommand : request.command with
    | error refusal => simp [hcommand, Except.bind] at hanswer
    | ok command =>
      rw [hcommand] at hanswer
      exact ⟨command, rfl, hanswer.symm, hwrite hreadable' hcommand hok⟩
  intro today today' a b hne afterA afterB
  obtain ⟨hreadableA, -⟩ := readable_decide policy today hreadable a
  obtain ⟨hreadableB, -⟩ := readable_decide policy today' hreadable b
  have hb : (decide policy today' afterA.2 b).1 = afterB.1 := decide_fst_after policy today hreadable today' hne
  have ha : (decide policy today afterB.2 a).1 = afterA.1 :=
    decide_fst_after policy today' hreadable today hne.symm
  refine ⟨hb, ha, ?_⟩
  cases hanswer : afterA.1 with
  | error refusal =>
    rw [decide_atomic policy today s a refusal hanswer,
      decide_atomic policy today afterB.2 a refusal (ha.trans hanswer)]
  | ok record =>
    cases hanswer' : afterB.1 with
    | error refusal =>
      rw [decide_atomic policy today' s b refusal hanswer',
        decide_atomic policy today' afterA.2 b refusal (hb.trans hanswer')]
    | ok record' =>
      obtain ⟨command, hcommand, hdecide, hstore⟩ := hwritten hreadable hanswer
      obtain ⟨command', hcommand', hdecide', hstore'⟩ := hwritten hreadable hanswer'
      obtain ⟨_, hsame, -, hlast⟩ := hwritten hreadableB (ha.trans hanswer)
      obtain ⟨_, hsame', -, hlast'⟩ := hwritten hreadableA (hb.trans hanswer')
      rw [hcommand, Except.ok.injEq] at hsame
      rw [hcommand', Except.ok.injEq] at hsame'
      subst hsame hsame'
      have hids : command.applicationId ≠ command'.applicationId := by
        rwa [(DecisionRequest.command_eq_ok_iff.1 hcommand).1, (DecisionRequest.command_eq_ok_iff.1 hcommand').1]
      rw [hlast, hlast', hstore, hstore']
      exact hcomm hreadable hids hdecide hdecide'

variable {items items' : List DecisionRequest}

/-- Decisions on different applications leave the same store in any order. -/
theorem decideAll_perm (hindependent : ∀ s : σ, Readable s → Independent policy s) (hperm : items.Perm items')
    (hdistinct : (items.map fun item => Text.trim item.applicationId).Nodup) (hreadable : Readable s) :
    decideAll policy today s items = decideAll policy today s items' := by
  induction hperm generalizing s with
  | nil => rfl
  | @cons item rest rest' _ ih =>
    rw [List.map_cons, List.nodup_cons] at hdistinct
    rw [decideAll_cons, decideAll_cons]
    exact ih hdistinct.2 (readable_decide policy today hreadable item).1
  | @swap first second rest =>
    have hne : Text.trim first.applicationId ≠ Text.trim second.applicationId := by
      intro heq
      simp [heq] at hdistinct
    obtain ⟨-, -, hsame⟩ := hindependent s hreadable today today first second hne
    rw [decideAll_cons, decideAll_cons, decideAll_cons, decideAll_cons, hsame]
  | @trans _ middle _ hfirst _ ih ih' =>
    have hmiddle : (middle.map fun item => Text.trim item.applicationId).Nodup :=
      (hfirst.map _).nodup_iff.1 hdistinct
    exact (ih hdistinct hreadable).trans (ih' hmiddle hreadable)

variable (policy today)

/-- Single decisions on different applications one after another have the answers that they have alone. -/
theorem decideInTurn_of_distinct (hreadable : Readable s)
    (hdistinct : (items.map fun item => Text.trim item.applicationId).Nodup) :
    match decideInTurn policy today s items with
    | (.ok records, after) => after = decideAll policy today s items ∧
        (batchResults items records).map .ok = items.map (resultOf policy today s)
    | (.error _, _) => ∃ item ∈ items, ∃ refusal, resultOf policy today s item = .error refusal := by
  induction items generalizing s with
  | nil => exact ⟨rfl, rfl⟩
  | cons item rest ih =>
    rw [List.map_cons, List.nodup_cons] at hdistinct
    obtain ⟨hreadable', -⟩ := readable_decide policy today hreadable item
    have hrest := ih hreadable' hdistinct.2
    have halone : ∀ other ∈ rest, resultOf policy today (decide policy today s item).2 other =
        resultOf policy today s other := by
      intro other hother
      have hne : Text.trim item.applicationId ≠ Text.trim other.applicationId := fun heq =>
        hdistinct.1 (List.mem_map.2 ⟨other, hother, heq.symm⟩)
      rw [resultOf, resultOf, decide_fst_after policy today hreadable today hne]
    unfold decideInTurn
    rcases hdecide : decide policy today s item with ⟨refusal | record, next⟩
    · exact ⟨item, List.mem_cons_self, refusal, by rw [resultOf, hdecide]; rfl⟩
    · rw [hdecide] at hrest halone
      simp only at hrest halone ⊢
      rcases hturn : decideInTurn policy today next rest with ⟨⟨i, refusal⟩ | records, last⟩
      · rw [hturn] at hrest
        obtain ⟨other, hother, refusal', hresult⟩ := hrest
        exact ⟨other, List.mem_cons_of_mem _ hother, refusal', (halone other hother).symm.trans hresult⟩
      · rw [hturn] at hrest
        obtain ⟨hlast, hresults⟩ := hrest
        have hfirst : resultOf policy today s item =
            .ok (BatchSummary.recorded (Text.trim item.applicationId) record.status) := by
          rw [resultOf, hdecide]
          rfl
        refine ⟨by rw [hlast, decideAll_cons, hdecide], ?_⟩
        rw [List.map_cons, hfirst, ← List.map_congr_left halone, ← hresults]
        rfl

/-- What a batch on different applications comes to, told without an order of its items. -/
theorem bulkDecide_of_distinct (hreadable : Readable s)
    (hdistinct : (items.map fun item => Text.trim item.applicationId).Nodup) :
    match bulkDecide policy today s items with
    | (.ok summary, after) => items.length ≤ policy.bulkMaxItems ∧ after = decideAll policy today s items ∧
        summary.results.map .ok = items.map (resultOf policy today s)
    | (.error _, after) => after = s ∧ (policy.bulkMaxItems < items.length ∨
        ∃ item ∈ items, ∃ refusal, resultOf policy today s item = .error refusal) := by
  obtain ⟨u, hopen, -⟩ := SerialStore.openUnit_eq hreadable
  have hbatch := batchInTurn_of_openUnit policy today hopen items
  have hturn := decideInTurn_of_distinct policy today hreadable hdistinct
  unfold BatchInTurn at hbatch
  by_cases hlong : policy.bulkMaxItems < items.length
  · rw [if_pos hlong] at hbatch
    obtain ⟨reason, hbatch⟩ := hbatch
    rw [hbatch]
    exact ⟨rfl, Or.inl hlong⟩
  · rw [if_neg hlong] at hbatch
    rcases hdecided : decideInTurn policy today s items with ⟨⟨i, refusal⟩ | records, after⟩
    · rw [hdecided] at hbatch hturn
      obtain ⟨item, -, hbatch⟩ := hbatch
      rw [hbatch]
      exact ⟨rfl, Or.inr hturn⟩
    · rw [hdecided] at hbatch hturn
      obtain ⟨-, hbatch⟩ := hbatch
      rw [hbatch]
      exact ⟨Nat.le_of_not_lt hlong, hturn⟩

variable {policy}

/-- The order of a batch on different applications does not matter. -/
theorem orderFree_of_independent (hindependent : ∀ s : σ, Readable s → Independent policy s)
    (hreadable : Readable s) : OrderFree policy s := by
  intro today items items' hperm hdistinct
  have hdistinct' : (items'.map fun item => Text.trim item.applicationId).Nodup :=
    (hperm.map _).nodup_iff.1 hdistinct
  have hleft := bulkDecide_of_distinct policy today hreadable hdistinct
  have hright := bulkDecide_of_distinct policy today hreadable hdistinct'
  -- A batch that is carried out has no item that is refused alone, in no order of its items.
  have hnever : ∀ {items items' : List DecisionRequest} {results : List BatchResult}, items.Perm items' →
      items.length ≤ policy.bulkMaxItems → results.map .ok = items.map (resultOf policy today s) →
      ¬(policy.bulkMaxItems < items'.length ∨
        ∃ item ∈ items', ∃ refusal, resultOf policy today s item = .error refusal) := by
    intro items items' results hperm hfits hresults hrefused
    rcases hrefused with hlong | ⟨item, hitem, refusal, hresult⟩
    · rw [← hperm.length_eq] at hlong
      exact absurd hlong (Nat.not_lt.2 hfits)
    · have hmem : resultOf policy today s item ∈ results.map .ok :=
        hresults ▸ List.mem_map_of_mem (hperm.mem_iff.2 hitem)
      obtain ⟨result, -, hok⟩ := List.mem_map.1 hmem
      rw [hresult] at hok
      contradiction
  rcases hbatch : bulkDecide policy today s items with ⟨refusal | summary, after⟩ <;>
    rcases hbatch' : bulkDecide policy today s items' with ⟨refusal' | summary', after'⟩ <;>
    rw [hbatch] at hleft <;> rw [hbatch'] at hright
  · exact ⟨hleft.1, hright.1⟩
  · exact hnever hperm.symm hright.1 hright.2.2 hleft.2
  · exact hnever hperm hleft.1 hleft.2.2 hright.2
  · refine ⟨?_, hleft.2.2, hright.2.2⟩
    rw [hright.2.1, hleft.2.1, decideAll_perm hindependent hperm hdistinct hreadable]

end Service

/-- A decision on the contents is one on the chain that stands there. -/
theorem Contents.decide_eq_ok_iff {contents : Contents} {pattern : String} {today : Date} {command : Command}
    {record : Record} : contents.decide pattern today command = .ok record ↔
      ∃ chain, contents command.applicationId = some chain ∧ chain.decide command pattern today = .ok record := by
  unfold decide
  cases contents command.applicationId with
  | none => simp
  | some chain => simp

variable {policy : Policy}

namespace Shelf

/-- Chains of two applications are put in either order in place of what is there for them. -/
theorem insert_comm {shelf : Shelf} {chain chain' : Chain} (hne : chain.application.id ≠ chain'.application.id)
    {old : Chain} (hold : shelf.get? chain'.application.id = some old) :
    (shelf.insert chain).insert chain' = (shelf.insert chain').insert chain := by
  have hmem : chain'.application.id ∈ shelf.chains.map Prod.fst :=
    Entries.lookup_isSome_iff.1 (Option.isSome_iff_exists.2 ⟨old, hold⟩)
  simp only [insert, Entries.put_comm hne.symm chain' chain hmem]

/-- Decisions on a shelf are independent. -/
theorem independent {shelf : Shelf} (hkeyed : shelf.Keyed) : Service.Independent policy shelf := by
  apply Service.independent_of_writes (fun shelf _ _ record => shelf.insert record.chain) ?_ ?_ hkeyed
  · intro shelf today request command record hkeyed hcommand hok
    simp only [Service.decide, hcommand, inUnit_recordDecision] at hok ⊢
    cases hdecision : shelf.decision policy.dateFormat today command with
    | error refusal => simp [hdecision] at hok
    | ok inserted =>
      simp only [hdecision, Except.ok.injEq] at hok
      rw [hok]
  · intro shelf today today' a b record record' hkeyed hne hdecide hdecide'
    obtain ⟨chain, hchain, hdecide⟩ := Contents.decide_eq_ok_iff.1 hdecide
    obtain ⟨chain', hchain', hdecide'⟩ := Contents.decide_eq_ok_iff.1 hdecide'
    have hid : record.chain.application.id = a.applicationId :=
      (Chain.id_of_decide hdecide).trans (hkeyed _ _ hchain)
    have hid' : record'.chain.application.id = b.applicationId :=
      (Chain.id_of_decide hdecide').trans (hkeyed _ _ hchain')
    exact insert_comm (by rwa [hid, hid']) (by rw [hid']; exact hchain')

end Shelf

namespace Ledger

/-- The tables of a ledger with the record of a decision, row by row. -/
def write (ledger : Ledger) (today : Date) (command : Command) (record : Record) : Ledger :=
  { ledger with
    tables := ledger.tables.mapRows (fun row => row.take record.chain.application) fun row =>
      row.take command.applicationId record.decidedSequences (command.decision today) }

/-- Records of two applications are written onto different rows. -/
theorem write_comm {a b : Command} {record record' : Record}
    (hid : record.chain.application.id = a.applicationId) (hid' : record'.chain.application.id = b.applicationId)
    (hne : a.applicationId ≠ b.applicationId) (ledger : Ledger) (today today' : Date) :
    (ledger.write today a record).write today' b record' =
      (ledger.write today' b record').write today a record := by
  have hids : record.chain.application.id ≠ record'.chain.application.id := by rwa [hid, hid']
  have hheader := HeaderRow.take_comm hids
  have hstep := fun row : StepRow => row.take_comm hne record.decidedSequences record'.decidedSequences
    (a.decision today) (b.decision today')
  simp only [write, Tables.mapRows, List.map_map, Function.comp_def, hheader, hstep]

/-- Decisions on a readable ledger are independent. -/
theorem independent {ledger : Ledger} (hreadable : ledger.Readable) : Service.Independent policy ledger := by
  apply Service.independent_of_writes write ?_ ?_ hreadable
  · intro ledger today request command record hreadable hcommand hok
    obtain ⟨t, rfl⟩ : ∃ t, ledger = ⟨t, true⟩ := ⟨ledger.tables, by rw [← hreadable.1]⟩
    rw [decide_of_wellFormed hreadable.2.wellFormed hcommand] at hok ⊢
    rw [hreadable.2.chain?_eq] at hok ⊢
    cases hchain : (Tables.contents t) command.applicationId with
    | none => simp [hchain] at hok
    | some chain =>
      cases hdecide : chain.decide command policy.dateFormat today with
      | error refusal => simp [hchain, hdecide] at hok
      | ok written =>
        simp only [hchain, hdecide, Except.ok.injEq] at hok ⊢
        rw [hok]
        rfl
  · intro ledger today today' a b record record' hreadable hne hdecide hdecide'
    have hid {command : Command} {today : Date} {record : Record}
        (h : ledger.tables.contents.decide policy.dateFormat today command = .ok record) :
        record.chain.application.id = command.applicationId := by
      obtain ⟨chain, hchain, hdecide⟩ := Contents.decide_eq_ok_iff.1 h
      have hread : ledger.tables.chain? command.applicationId = .ok (some chain) := by
        rw [hreadable.2.chain?_eq, hchain]
      rw [Chain.id_of_decide hdecide, Tables.id_of_chain? hread]
    exact write_comm (hid hdecide) (hid hdecide') hne ledger today today'

end Ledger

open Ledger in
/-- On every shelf and on every ledger that can be read, decisions on different applications have the answers and
leave the store that they have and leave in the other order, a batch on different applications is carried out in
all orders of its items or in none, with one outcome, and no decision touches another application or a link. -/
theorem decisions_commute (policy : Policy) :
    (∀ shelf : Shelf, shelf.Keyed →
      Service.Independent policy shelf ∧ Service.OrderFree policy shelf ∧
        ∀ today request other, other ≠ Text.trim request.applicationId →
          (Service.decide policy today shelf request).2.get? other = shelf.get? other) ∧
      ∀ ledger : Ledger, ledger.Readable →
        Service.Independent policy ledger ∧ Service.OrderFree policy ledger ∧
          ∀ today request, (Service.decide policy today ledger request).2.tables.links = ledger.tables.links ∧
            ∀ other, other ≠ Text.trim request.applicationId →
              (Service.decide policy today ledger request).2.view other = ledger.view other := by
  constructor
  · intro shelf hkeyed
    refine ⟨Shelf.independent hkeyed, Service.orderFree_of_independent (fun _ => Shelf.independent) hkeyed, ?_⟩
    intro today request other hother
    exact (Service.readable_decide policy today (s := shelf) hkeyed request).2 other hother
  · intro ledger hreadable
    refine ⟨Ledger.independent hreadable,
      Service.orderFree_of_independent (fun _ => Ledger.independent) hreadable, ?_⟩
    intro today request
    refine ⟨(keeps_links ledger.tables.links).decide policy today rfl request, fun other hother => ?_⟩
    obtain ⟨hreadable', hothers⟩ := Service.readable_decide policy today (s := ledger) hreadable request
    rw [view_of_readable hreadable', view_of_readable hreadable]
    exact congrArg Except.ok (hothers other hother)

/-- An approval and a rejection of two applications in one batch, in both orders. -/
theorem decisions_commute_of_two_applications :
    let s : Submission := ⟨none, none, "kim", none, ["lee"], none⟩
    let shelf := Shelf.ofChains [s.chain "7" Date.epoch, s.chain "8" Date.epoch]
    let ledger := (Ledger.Office.start.run ⟨2, "%Y"⟩
      [.submit "7" s Date.epoch, .submit "8" s Date.epoch]).desk.store
    let approval : DecisionRequest := ⟨" 7 ", "lee", none, some "approve"⟩
    let rejection : DecisionRequest := ⟨"8", "lee", none, some "reject"⟩
    (∃ summary summary' after,
      Service.bulkDecide ⟨2, "%Y"⟩ Date.epoch shelf [approval, rejection] = (.ok summary, after) ∧
        Service.bulkDecide ⟨2, "%Y"⟩ Date.epoch shelf [rejection, approval] = (.ok summary', after)) ∧
      ∃ summary summary' after,
        Service.bulkDecide ⟨2, "%Y"⟩ Date.epoch ledger [approval, rejection] = (.ok summary, after) ∧
          Service.bulkDecide ⟨2, "%Y"⟩ Date.epoch ledger [rejection, approval] = (.ok summary', after) := by
  intro s shelf ledger approval rejection
  have hperm : [approval, rejection].Perm [rejection, approval] := .swap _ _ _
  have hdistinct : ([approval, rejection].map fun item => Text.trim item.applicationId).Nodup := by
    decide +kernel
  obtain ⟨hshelf, hledger⟩ := decisions_commute ⟨2, "%Y"⟩
  constructor
  · obtain ⟨-, horder, -⟩ := hshelf shelf (Shelf.keyed_ofChains _)
    exact horder.of_isOk hperm hdistinct (by decide +kernel)
  · have hreadable : ledger.Readable := (Ledger.Office.accountable_start.run _ _).consistent.readable
    obtain ⟨-, horder, -⟩ := hledger ledger hreadable
    exact horder.of_isOk hperm hdistinct (by decide +kernel)

end SignOff
