import SignOff.Proofs.Store.Serial

/-!
# Stores at work

A desk is a store with the units that callers have open on it. Callers ask the service for decisions and
batches, and they open units, load chains, make decisions and batches in them and end them as they like.
Any number of units are open at once. Where units do not keep up with what others commit, a unit is
overtaken by the first commit after its first look at the store, and the changes that it makes come to
nothing. What a store turns down because another unit is at work on it changes nothing and is no part of
a run.

A desk keeps account of the rulings that each open unit has carried out and of those that have been
committed. Whatever is asked of a desk, the contents of its store are what the committed rulings make of
the contents that it had at first.
-/

namespace SignOff

open UnitStore

/-- The rulings that the items of a batch ask for. -/
def rulingsOf (policy : Policy) (today : Date) (items : List DecisionRequest) : List Ruling :=
  items.filterMap fun item =>
    item.command.toOption.map fun command => command.ruling policy.dateFormat today

/-- The rulings of a batch in a unit, up to the first refusal. -/
def appliedRulings {σ υ : Type} [UnitStore σ υ] (policy : Policy) (today : Date) (s : σ) :
    υ → List DecisionRequest → List Ruling
  | _, [] => []
  | u, item :: rest =>
    match item.command with
    | .error _ => []
    | .ok command =>
      match recordDecision policy.dateFormat today s u command with
      | (.error _, _) => []
      | (.ok _, u) => command.ruling policy.dateFormat today :: appliedRulings policy today s u rest

/-- The work of a unit from its first look at the store on. -/
structure Work (υ : Type) where
  unit : υ
  /-- The rulings that the unit has carried out. -/
  rulings : List Ruling
  /-- Something has been committed with which the unit does not keep up. -/
  overtaken : Bool

/-- A store with its open units by name, and the rulings that have been committed. -/
structure Desk (σ υ : Type) where
  store : σ
  /-- A unit that has not looked at the store yet has no work. -/
  units : List (String × Option (Work υ))
  committed : List Ruling

/-- What can be asked of a desk. -/
inductive Desk.Op where
  | decide (today : Date) (request : DecisionRequest)
  | bulkDecide (today : Date) (items : List DecisionRequest)
  | openUnit (name : String)
  | load (name id : String)
  | record (name : String) (today : Date) (command : Command)
  | apply (name : String) (today : Date) (items : List DecisionRequest)
  | commit (name : String)
  /-- Rolls a unit back or drops it. -/
  | rollback (name : String)

namespace Desk

variable {σ υ : Type} [UnitStore σ υ] [SideBySide σ]

/-- The desk of a store that nobody works on. -/
def ofStore (store : σ) : Desk σ υ := ⟨store, [], []⟩

/-- The desk without the unit of a name. -/
def close (desk : Desk σ υ) (name : String) : Desk σ υ :=
  { desk with units := desk.units.filter fun entry => entry.1 ≠ name }

/-- The work of an open unit, which starts with a look at the store as it is. -/
def work? (desk : Desk σ υ) (name : String) : Option (Work υ) :=
  match desk.units.lookup name with
  | none => none
  | some (some w) => some w
  | some none => (UnitStore.openUnit desk.store).toOption.map fun u => ⟨u, [], false⟩

/-- Works on in an open unit, unless it has been overtaken. -/
def workOn (desk : Desk σ υ) (name : String) (work : Work υ → Work υ) : Desk σ υ :=
  match desk.work? name with
  | none => desk
  | some w =>
    if w.overtaken then desk else { desk with units := Entries.put name (some (work w)) desk.units }

/-- The desk whose units are overtaken if they have looked at the store and do not keep up. -/
def overtake (desk : Desk σ υ) : Desk σ υ :=
  if SideBySide.sideBySide σ then desk
  else
    { desk with
      units := desk.units.map fun entry =>
        (entry.1, entry.2.map fun w => { w with overtaken := true }) }

/-- The desk after an answer that commits rulings if it is successful. -/
def answered {α : Type} (desk : Desk σ υ) (rulings : List Ruling) : Except Refusal α × σ → Desk σ υ
  | (.ok _, store) =>
    { if rulings.isEmpty then desk else desk.overtake with
      store := store
      committed := desk.committed ++ rulings }
  | (.error _, store) => { desk with store := store }

/-- The desk after something has been asked of it. -/
def step (policy : Policy) (desk : Desk σ υ) : Op → Desk σ υ
  | .decide today request =>
    desk.answered (rulingsOf policy today [request]) (Service.decide policy today desk.store request)
  | .bulkDecide today items =>
    desk.answered (rulingsOf policy today items) (Service.bulkDecide policy today desk.store items)
  | .openUnit name => { desk with units := Entries.put name none desk.units }
  | .load name id =>
    desk.workOn name fun w => { w with unit := (UnitStore.load desk.store w.unit id).2 }
  | .record name today command =>
    desk.workOn name fun w =>
      let (answer, u) := recordDecision policy.dateFormat today desk.store w.unit command
      { w with
        unit := u
        rulings := w.rulings ++ (command.ruling policy.dateFormat today).carried answer }
  | .apply name today items =>
    desk.workOn name fun w =>
      { w with
        unit := (applyBatch policy.dateFormat today desk.store w.unit items).2
        rulings := w.rulings ++ appliedRulings policy today desk.store w.unit items }
  | .commit name =>
    match desk.work? name with
    | none => desk.close name
    | some w =>
      if w.overtaken then desk.close name
      else (desk.close name).answered w.rulings (UnitStore.commit desk.store w.unit)
  | .rollback name => desk.close name

/-- The desk after one thing after another has been asked of it. -/
def run (policy : Policy) (desk : Desk σ υ) (ops : List Op) : Desk σ υ := ops.foldl (step policy) desk

end Desk

section Service

variable {σ υ : Type} [UnitStore σ υ] [SideBySide σ] [PreviewStore σ υ] [SerialStore σ υ]
  {s s' : σ} (policy : Policy) (today : Date)

open SerialStore

/-- A single decision on a readable store is the decision on its contents. -/
theorem Service.decide_of_readable (hreadable : Readable s) {request : DecisionRequest}
    {command : Command} (hcommand : request.command = .ok command) :
    match (contents s).decide policy.dateFormat today command with
    | .error refusal => Service.decide policy today s request = (.error refusal, s)
    | .ok record => ∃ s', Service.decide policy today s request = (.ok record, s') ∧ Readable s' ∧
        contents s' = Function.update (contents s) command.applicationId (some record.chain) := by
  obtain ⟨u, hopen, hfresh, hview⟩ := SerialStore.openUnit_eq hreadable
  obtain ⟨u', hdecision, haccounts⟩ :=
    recordDecision_eq hreadable hfresh policy.dateFormat today command
  have hpreviews := PreviewStore.previews_self hopen
  have hdecide : Service.decide policy today s request =
      inUnit s fun u => recordDecision policy.dateFormat today s u command := by
    simp only [Service.decide, hcommand]
  rw [hview] at hdecision haccounts
  rw [hdecide]
  cases hanswer : (contents s).decide policy.dateFormat today command with
  | error refusal =>
    rw [hanswer] at hdecision
    exact PreviewStore.decision_error hpreviews hdecision
  | ok record =>
    rw [hanswer] at hdecision haccounts
    obtain ⟨s', hunit, hpreviews'⟩ := PreviewStore.decision_ok hpreviews hdecision
    obtain ⟨hreadable', hreplay⟩ :=
      SerialStore.commit_ok hreadable haccounts (PreviewStore.commit_eq hpreviews')
    obtain ⟨record', hrecord, hcontents⟩ := Contents.replay?_carried.1 hreplay
    rw [hanswer, Except.ok.injEq] at hrecord
    subst hrecord
    exact ⟨s', hunit, hreadable', hcontents⟩

/-- An answer is successful and leaves what rulings make of the contents, or leaves the store alone. -/
def SerialStore.Settles {α : Type} (s : σ) (rulings : List Ruling) : Except Refusal α × σ → Prop
  | (.ok _, s') => Readable s' ∧ (contents s).replay? rulings = some (contents s')
  | (.error _, s') => s' = s

/-- A single decision settles its ruling. -/
theorem Service.decide_settles (hreadable : Readable s) (request : DecisionRequest) :
    Settles s (rulingsOf policy today [request]) (Service.decide policy today s request) := by
  cases hcommand : request.command with
  | error refusal =>
    simp only [Service.decide, hcommand]
    exact rfl
  | ok command =>
    have hdecide := Service.decide_of_readable policy today hreadable hcommand
    cases hanswer : (contents s).decide policy.dateFormat today command with
    | error refusal =>
      simp only [hanswer] at hdecide
      rw [hdecide]
      exact rfl
    | ok record =>
      simp only [hanswer] at hdecide
      obtain ⟨s', hafter, hreadable', hcontents⟩ := hdecide
      have hrulings : rulingsOf policy today [request] = [command.ruling policy.dateFormat today] := by
        simp [rulingsOf, hcommand, Except.toOption]
      rw [hafter, hrulings]
      exact ⟨hreadable', Contents.replay?_carried.2 ⟨record, hanswer, hcontents⟩⟩

/-- Single decisions that succeed one after another are rulings on the contents. -/
theorem Service.decideInTurn_replays {items : List DecisionRequest} {records : List Record}
    (hreadable : Readable s) (h : decideInTurn policy today s items = (.ok records, s')) :
    Readable s' ∧ (contents s).replay? (rulingsOf policy today items) = some (contents s') := by
  induction items generalizing s records with
  | nil =>
    simp only [decideInTurn, Prod.mk.injEq, Except.ok.injEq] at h
    obtain ⟨-, rfl⟩ := h
    exact ⟨hreadable, rfl⟩
  | cons item rest ih =>
    unfold decideInTurn at h
    have hitem := Service.decide_settles policy today hreadable item
    rcases hdecide : decide policy today s item with ⟨_ | record, next⟩
    · simp [hdecide] at h
    · simp only [hdecide] at h
      rw [hdecide] at hitem
      rcases hturn : decideInTurn policy today next rest with ⟨⟨i, refusal⟩ | others, last⟩
      · simp [hturn] at h
      · simp only [hturn, Prod.mk.injEq, Except.ok.injEq] at h
        obtain ⟨-, rfl⟩ := h
        obtain ⟨hlast, hrest⟩ := ih hitem.1 hturn
        have hsplit : rulingsOf policy today (item :: rest) =
            rulingsOf policy today [item] ++ rulingsOf policy today rest :=
          List.filterMap_append (l := [item])
        rw [hsplit, Contents.replay?_append, hitem.2]
        exact ⟨hlast, hrest⟩

/-- A batch settles the rulings of its items. -/
theorem Service.bulkDecide_settles (hreadable : Readable s) (items : List DecisionRequest) :
    Settles s (rulingsOf policy today items) (bulkDecide policy today s items) := by
  obtain ⟨u, hopen, -, -⟩ := SerialStore.openUnit_eq hreadable
  have hbatch := batchInTurn_of_openUnit policy today hopen items
  unfold BatchInTurn at hbatch
  split at hbatch
  · obtain ⟨reason, hrefused⟩ := hbatch
    rw [hrefused]
    exact rfl
  · split at hbatch
    · next records last hturn =>
      rw [hbatch.2]
      exact Service.decideInTurn_replays policy today hreadable hturn
    · obtain ⟨item, -, hrefused⟩ := hbatch
      rw [hrefused]
      exact rfl

omit [PreviewStore σ υ] in
/-- The commit of a unit settles the rulings it accounts for. -/
theorem SerialStore.commit_settles {u : υ} {rulings : List Ruling} (hreadable : Readable s)
    (h : Accounts s u rulings) : Settles s rulings (UnitStore.commit s u) := by
  rcases hcommit : UnitStore.commit s u with ⟨_ | _, s'⟩
  · exact SerialStore.commit_error hcommit
  · exact SerialStore.commit_ok hreadable h hcommit

omit [PreviewStore σ υ] in
/-- A unit carries out the items of a batch up to the first refusal. -/
theorem SerialStore.Carries.applyItems {P : υ → List Ruling → Prop} (hcarries : Carries s P) {u : υ}
    {rulings : List Ruling} (h : P u rulings) (items : List DecisionRequest) :
    P (UnitStore.applyItems policy.dateFormat today s u items).2
      (rulings ++ appliedRulings policy today s u items) := by
  induction items generalizing u rulings with
  | nil => simpa [UnitStore.applyItems, appliedRulings] using h
  | cons item rest ih =>
    unfold UnitStore.applyItems applyItem appliedRulings
    cases hcommand : item.command with
    | error refusal => simpa using h
    | ok command =>
      obtain ⟨u', hdecision, hcarried⟩ := hcarries.recordDecision h policy.dateFormat today command
      cases hanswer : (view s u).decide policy.dateFormat today command with
      | error refusal =>
        rw [hanswer] at hdecision hcarried
        simp only [hdecision]
        exact hcarried
      | ok record =>
        rw [hanswer] at hdecision hcarried
        simp only [hdecision]
        have hrest := ih hcarried
        rw [Ruling.carried, List.append_assoc, List.singleton_append] at hrest
        rcases happly : UnitStore.applyItems policy.dateFormat today s u' rest with ⟨_ | results, last⟩ <;>
        · rw [happly] at hrest
          exact hrest

end Service

namespace Desk

variable {σ υ : Type} [UnitStore σ υ] [SideBySide σ] [SerialStore σ υ]

open SerialStore

/-- The store can be read, and every unit that has not been overtaken accounts for its rulings. -/
structure Consistent (desk : Desk σ υ) : Prop where
  readable : Readable desk.store
  /-- Where units keep up with others, versions tell apart what they have come upon. -/
  memory : SideBySide.sideBySide σ = true → (contents desk.store).FitMemory
  accounts : ∀ name w, desk.units.lookup name = some (some w) → w.overtaken = false →
    Accounts desk.store w.unit w.rulings

/-- The store has moved on by the rulings that have been committed. -/
def Advances (desk after : Desk σ υ) : Prop :=
  ∃ rulings, after.committed = desk.committed ++ rulings ∧
    (contents desk.store).replay? rulings = some (contents after.store)

/-- A desk advances to itself. -/
theorem Advances.refl (desk : Desk σ υ) : desk.Advances desk := ⟨[], by simp, rfl⟩

/-- Two advances are one. -/
theorem Advances.trans {first second third : Desk σ υ} (h : first.Advances second)
    (h' : second.Advances third) : first.Advances third := by
  obtain ⟨rulings, hcommitted, hreplay⟩ := h
  obtain ⟨rulings', hcommitted', hreplay'⟩ := h'
  refine ⟨rulings ++ rulings', by rw [hcommitted', hcommitted, List.append_assoc], ?_⟩
  rw [Contents.replay?_append, hreplay]
  exact hreplay'

section Units

variable {desk : Desk σ υ} {name : String} {w : Work υ}

omit [SideBySide σ] [SerialStore σ υ] in
/-- A unit has its work from before, or starts with a look at the store. -/
theorem work?_cases (h : desk.work? name = some w) : desk.units.lookup name = some (some w) ∨
    ∃ u, UnitStore.openUnit desk.store = .ok u ∧ w = ⟨u, [], false⟩ := by
  unfold work? at h
  split at h
  · contradiction
  · next w' hname =>
    cases h
    exact Or.inl hname
  · obtain ⟨u, hopen, rfl⟩ := Option.map_eq_some_iff.1 h
    cases hanswer : UnitStore.openUnit desk.store with
    | error refusal => simp [hanswer, Except.toOption] at hopen
    | ok fresh =>
      simp only [hanswer, Except.toOption, Option.some.injEq] at hopen
      exact Or.inr ⟨u, by rw [hopen], rfl⟩

omit [SideBySide σ] [SerialStore σ υ] in
/-- Working on changes the work of a unit that has not been overtaken, or nothing. -/
theorem workOn_cases (desk : Desk σ υ) (name : String) (work : Work υ → Work υ) :
    desk.workOn name work = desk ∨ ∃ w, desk.work? name = some w ∧ w.overtaken = false ∧
      desk.workOn name work = { desk with units := Entries.put name (some (work w)) desk.units } := by
  unfold workOn
  split
  · exact Or.inl rfl
  · next w hname =>
    cases hcurrent : w.overtaken with
    | true => exact Or.inl (if_pos rfl)
    | false => exact Or.inr ⟨w, hname, hcurrent, if_neg Bool.false_ne_true⟩

omit [SideBySide σ] [UnitStore σ υ] [SerialStore σ υ] in
/-- Where a unit has been opened, units with work had it before. -/
theorem lookup_of_open {other : String}
    (h : (Entries.put name none desk.units).lookup other = some (some w)) :
    desk.units.lookup other = some (some w) :=
  (Entries.lookup_of_put h).resolve_left (by simp)

omit [UnitStore σ υ] [SerialStore σ υ] in
/-- A unit that has been overtaken has the work from before, and where units do not keep up all of them are. -/
theorem lookup_of_overtake (h : desk.overtake.units.lookup name = some (some w)) :
    ∃ before, desk.units.lookup name = some (some before) ∧ before.unit = w.unit ∧ before.rulings = w.rulings ∧
      (w.overtaken = false → before = w) ∧ (SideBySide.sideBySide σ = false → w.overtaken = true) := by
  unfold overtake at h
  split at h
  · next hside => exact ⟨w, h, rfl, rfl, fun _ => rfl, fun hnot => by simp [hnot] at hside⟩
  · rw [Entries.lookup_map_snd] at h
    obtain ⟨found, hfound, hmap⟩ := Option.map_eq_some_iff.1 h
    obtain ⟨before, rfl, rfl⟩ := Option.map_eq_some_iff.1 hmap
    exact ⟨before, hfound, rfl, rfl, by simp, fun _ => rfl⟩

omit [UnitStore σ υ] [SerialStore σ υ] in
/-- Where units do not keep up, all that have looked at the store are overtaken. -/
theorem overtaken_of_lookup (hside : SideBySide.sideBySide σ = false)
    (hname : desk.overtake.units.lookup name = some (some w)) : w.overtaken = true := by
  obtain ⟨-, -, -, -, -, hovertaken⟩ := lookup_of_overtake hname
  exact hovertaken hside

end Units

/-- Nobody works on the desk of a readable store, so it is consistent. -/
theorem consistent_ofStore {store : σ} (h : Readable store)
    (hmemory : SideBySide.sideBySide σ = true → (contents store).FitMemory) :
    Consistent (ofStore store : Desk σ υ) :=
  ⟨h, hmemory, by simp [ofStore]⟩

namespace Consistent

variable {desk : Desk σ υ} {name : String}

/-- A unit accounts for its rulings from its first look at the store on. -/
theorem accounts_of_work? (h : desk.Consistent) {w : Work υ} (hwork : desk.work? name = some w)
    (hcurrent : w.overtaken = false) : Accounts desk.store w.unit w.rulings := by
  rcases work?_cases hwork with hname | ⟨u, hopen, rfl⟩
  · exact h.accounts name w hname hcurrent
  · obtain ⟨fresh, hfresh, haccounts, -⟩ := SerialStore.openUnit_eq h.readable
    rw [hopen, Except.ok.injEq] at hfresh
    exact hfresh ▸ haccounts

/-- Closing a unit does no harm. -/
theorem close (h : desk.Consistent) (name : String) : (desk.close name).Consistent := by
  exact ⟨h.readable, h.memory, fun other w hother => h.accounts other w (Entries.lookup_of_filter_ne hother)⟩

/-- A unit that is opened does no harm before it looks at the store. -/
theorem openUnit (h : desk.Consistent) (name : String) :
    Consistent { desk with units := Entries.put name none desk.units } :=
  ⟨h.readable, h.memory, fun other w hother => h.accounts other w (lookup_of_open hother)⟩

/-- Working on in a unit keeps the desk consistent if the unit keeps account. -/
theorem workOn (h : desk.Consistent) {work : Work υ → Work υ}
    (hwork : ∀ w, Accounts desk.store w.unit w.rulings →
      Accounts desk.store (work w).unit (work w).rulings) :
    (desk.workOn name work).Consistent ∧ desk.Advances (desk.workOn name work) := by
  rcases workOn_cases desk name work with hsame | ⟨w, hname, hcurrent, hworked⟩
  · rw [hsame]
    exact ⟨h, Advances.refl desk⟩
  · rw [hworked]
    refine ⟨⟨h.readable, h.memory, fun other w' hother => ?_⟩, [], by simp, rfl⟩
    rcases Entries.lookup_of_put hother with hwritten | hother
    · cases hwritten
      exact fun _ => hwork w (h.accounts_of_work? hname hcurrent)
    · exact h.accounts other w' hother

/-- Units that have not been overtaken by rulings account for theirs on the store that these leave. -/
theorem overtake (h : desk.Consistent) {store : σ} {rulings : List Ruling} (hreadable : Readable store)
    (hreplay : (contents desk.store).replay? rulings = some (contents store)) :
    Consistent { desk.overtake with store := store } := by
  refine ⟨hreadable, fun hside => (h.memory hside).replay hreplay, fun name w hname hcurrent => ?_⟩
  cases hside : SideBySide.sideBySide σ with
  | true =>
    simp only [Desk.overtake, hside, if_true] at hname
    have hkeeps : SideBySide.sideBySide σ = true ∧ (contents desk.store).FitMemory := ⟨hside, h.memory hside⟩
    exact SerialStore.accounts_of_replay (Or.inl hkeeps) (h.accounts name w hname hcurrent) hreplay
  | false => simp [overtaken_of_lookup hside hname] at hcurrent

/-- A settled answer keeps a desk consistent. -/
theorem answered (h : desk.Consistent) {α : Type} {rulings : List Ruling}
    {result : Except Refusal α × σ} (hsettles : Settles desk.store rulings result) :
    (desk.answered rulings result).Consistent ∧ desk.Advances (desk.answered rulings result) := by
  rcases result with ⟨_ | _, store⟩
  · cases hsettles
    exact ⟨h, Advances.refl desk⟩
  · obtain ⟨hreadable, hreplay⟩ := hsettles
    refine ⟨?_, rulings, rfl, hreplay⟩
    cases rulings with
    | nil =>
      refine ⟨hreadable, fun hside => (h.memory hside).replay hreplay, fun name w hname hcurrent => ?_⟩
      exact SerialStore.accounts_of_replay (Or.inr rfl) (h.accounts name w hname hcurrent) hreplay
    | cons r rest =>
      have hafter := h.overtake hreadable hreplay
      exact ⟨hafter.readable, hafter.memory, hafter.accounts⟩

end Consistent

variable [PreviewStore σ υ]

/-- Whatever is asked of a consistent desk keeps it consistent and moves its store on by rulings. -/
theorem Consistent.step {desk : Desk σ υ} (h : desk.Consistent) (policy : Policy) (op : Op) :
    (desk.step policy op).Consistent ∧ desk.Advances (desk.step policy op) := by
  cases op with
  | decide today request => exact h.answered (Service.decide_settles policy today h.readable request)
  | bulkDecide today items => exact h.answered (Service.bulkDecide_settles policy today h.readable items)
  | openUnit name => exact ⟨h.openUnit name, Advances.refl desk⟩
  | load name id =>
    apply h.workOn
    intro w hw
    obtain ⟨u, hload, haccounts, -⟩ := SerialStore.load_eq id h.readable hw
    rw [hload]
    exact haccounts
  | record name today command =>
    apply h.workOn
    intro w hw
    obtain ⟨u, hdecision, haccounts⟩ :=
      recordDecision_eq h.readable hw policy.dateFormat today command
    rw [hdecision]
    exact haccounts
  | apply name today items =>
    apply h.workOn
    intro w hw
    rw [UnitStore.applyBatch_snd]
    exact (carries_accounts h.readable).applyItems policy today hw items
  | commit name =>
    simp only [Desk.step]
    split
    · exact ⟨h.close name, Advances.refl desk⟩
    · next w hname =>
      cases hcurrent : w.overtaken with
      | true => exact ⟨h.close name, Advances.refl desk⟩
      | false =>
        exact (h.close name).answered
          (commit_settles h.readable (h.accounts_of_work? hname hcurrent))
  | rollback name => exact ⟨h.close name, Advances.refl desk⟩

/-- A run on a consistent desk keeps it consistent and moves its store on by rulings. -/
theorem Consistent.run {desk : Desk σ υ} (h : desk.Consistent) (policy : Policy) (ops : List Op) :
    (desk.run policy ops).Consistent ∧ desk.Advances (desk.run policy ops) := by
  induction ops generalizing desk with
  | nil => exact ⟨h, Advances.refl desk⟩
  | cons op rest ih =>
    obtain ⟨hstep, hadvances⟩ := h.step policy op
    obtain ⟨hrun, hadvances'⟩ := ih hstep
    exact ⟨hrun, hadvances.trans hadvances'⟩

end Desk

end SignOff
