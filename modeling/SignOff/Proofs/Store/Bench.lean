import SignOff.Proofs.Store.Versions

/-!
# Records that are kept

A caller makes a record on a chain that a unit loads, keeps it, and gives it to the same unit or to a later
one. One unit is open at a time. A store looks at the version only, and versions are handed out anew after a
unit has come to nothing, so a record is marked by where the decisions are that it was made on: committed, in
the open unit, or gone.

As long as no record is stored that was made on decisions that are gone, rulings lead from the chain of every
other record to what the unit sees. Versions count rulings, so in chains that fit a memory an equal version means
the same chain.
-/

namespace SignOff

open UnitStore SerialStore

/-- Rulings lead from a chain to what is there. -/
def Chain.LeadsTo (chain : Chain) (now : Option Chain) : Prop :=
  ∃ rulings, Contents.Continues (some chain) rulings now

namespace Chain.LeadsTo

/-- A chain leads to itself. -/
theorem refl (chain : Chain) : chain.LeadsTo (some chain) := ⟨[], .present (Chain.replay?_nil chain)⟩

/-- A chain leads to what rulings make of what it leads to. -/
theorem replay {chain : Chain} {contents after : Contents} {id : String} {rulings : List Ruling}
    (h : chain.LeadsTo (contents id)) (hreplay : contents.replay? rulings = some after) :
    chain.LeadsTo (after id) := by
  obtain ⟨earlier, hearlier⟩ := h
  exact ⟨_, hearlier.append (Contents.replay?_eq_some_iff.1 hreplay id)⟩

/-- A chain that leads to one of its own version is that chain. -/
theorem eq_of_version {chain now : Chain} (h : chain.LeadsTo (some now)) (hmemory : now.FitsMemory)
    (hversion : now.application.version = chain.application.version) : now = chain := by
  obtain ⟨rulings, hrulings⟩ := h
  obtain ⟨before, hbefore, hreplay⟩ := hrulings.of_some
  obtain rfl := Option.some.inj hbefore
  have hprecedes : chain.Precedes now := ⟨rulings, hreplay⟩
  exact (hprecedes.eq_of_version hmemory hversion).symm

end Chain.LeadsTo

/-- Where the decisions are that a record was made on. -/
inductive Standing where
  /-- All of them have been committed. -/
  | settled
  /-- The open unit has made some of them. -/
  | drafted
  /-- A unit has made some of them that was not committed. -/
  | dropped
deriving DecidableEq

/-- A record that is kept. -/
structure Kept where
  ruling : Ruling
  /-- The chain that the decision was made on. -/
  base : Chain
  record : Record
  standing : Standing

/-- The open unit with the rulings that it has carried out. -/
structure Draft (υ : Type) where
  unit : υ
  rulings : List Ruling

/-- A store with its open unit, if there is one, and the records that are kept by name. -/
structure Bench (σ υ : Type) where
  store : σ
  draft : Option (Draft υ)
  kept : List (String × Kept)

/-- What can be asked for. The service works in units of its own, so it drops the open one. -/
inductive Bench.Op where
  | decide (today : Date) (request : DecisionRequest)
  | bulkDecide (today : Date) (items : List DecisionRequest)
  | openUnit
  | load (id : String)
  | record (today : Date) (command : Command)
  | apply (today : Date) (items : List DecisionRequest)
  /-- Makes a record in the open unit and keeps it under a name. -/
  | keep (name : String) (today : Date) (command : Command)
  /-- Gives a record that has been kept to the open unit. -/
  | store (name : String)
  | commit
  | rollback

/-- The record once the open unit has ended and left its decisions in a standing. -/
def Kept.ended (standing : Standing) (k : Kept) : Kept :=
  match k.standing with
  | .drafted => { k with standing := standing }
  | _ => k

section

variable {σ υ : Type} [UnitStore σ υ]

/-- The record that a command leads to on the chain that the unit loads. -/
def Draft.make? (policy : Policy) (s : σ) (d : Draft υ) (today : Date) (command : Command) : Option Kept :=
  match (UnitStore.load s d.unit command.applicationId).1 with
  | .ok (some chain) =>
    (chain.decide command policy.dateFormat today).toOption.map fun record =>
      { ruling := command.ruling policy.dateFormat today
        base := chain
        record := record
        standing := if Ruling.on command.applicationId d.rulings = [] then .settled else .drafted }
  | _ => none

/-- The decisions that a new record was made on are not gone. -/
theorem Draft.standing_of_make? {policy : Policy} {s : σ} (d : Draft υ) {today : Date} {command : Command}
    {k : Kept} (hmake : d.make? policy s today command = some k) : k.standing ≠ .dropped := by
  unfold make? at hmake
  split at hmake
  · obtain ⟨record, -, rfl⟩ := Option.map_eq_some_iff.1 hmake
    by_cases hnone : Ruling.on command.applicationId d.rulings = [] <;> simp [hnone]
  · contradiction

namespace Bench

/-- A store that nobody works on. -/
def ofStore (store : σ) : Bench σ υ := ⟨store, none, []⟩

/-- The open unit ends and leaves its decisions in a standing. -/
def close (bench : Bench σ υ) (standing : Standing) : Bench σ υ :=
  { bench with
    draft := none
    kept := bench.kept.map fun entry => (entry.1, entry.2.ended standing) }

/-- The bench with the open unit further on. -/
def workOn (bench : Bench σ υ) (work : Draft υ → Draft υ) : Bench σ υ :=
  { bench with draft := bench.draft.map work }

/-- The open unit after loading a chain. -/
def load (bench : Bench σ υ) (id : String) : Bench σ υ :=
  bench.workOn fun d => { d with unit := (UnitStore.load bench.store d.unit id).2 }

/-- The bench after something has been asked for. -/
def step (policy : Policy) (bench : Bench σ υ) : Op → Bench σ υ
  | .decide today request =>
    { bench.close .dropped with store := (Service.decide policy today bench.store request).2 }
  | .bulkDecide today items =>
    { bench.close .dropped with store := (Service.bulkDecide policy today bench.store items).2 }
  | .openUnit =>
    { bench.close .dropped with draft := (UnitStore.openUnit bench.store).toOption.map fun u => ⟨u, []⟩ }
  | .load id => bench.load id
  | .record today command =>
    bench.workOn fun d =>
      let (answer, u) := recordDecision policy.dateFormat today bench.store d.unit command
      ⟨u, d.rulings ++ (command.ruling policy.dateFormat today).carried answer⟩
  | .apply today items =>
    bench.workOn fun d =>
      ⟨(applyBatch policy.dateFormat today bench.store d.unit items).2,
        d.rulings ++ appliedRulings policy today bench.store d.unit items⟩
  | .keep name today command =>
    match bench.draft.bind fun d => d.make? policy bench.store today command with
    | none => bench.load command.applicationId
    | some k => { bench.load command.applicationId with kept := Entries.put name k bench.kept }
  | .store name =>
    match bench.kept.lookup name with
    | none => bench
    | some k =>
      bench.workOn fun d =>
        let (answer, u) := UnitStore.store bench.store d.unit k.record
        ⟨u, d.rulings ++ k.ruling.carried answer⟩
  | .commit =>
    match bench.draft with
    | none => bench
    | some d =>
      match UnitStore.commit bench.store d.unit with
      | (.ok (), store) => { bench.close .settled with store := store }
      | (.error _, store) => { bench.close .dropped with store := store }
  | .rollback => bench.close .dropped

/-- The bench after one thing after another has been asked for. -/
def run (policy : Policy) (bench : Bench σ υ) (ops : List Op) : Bench σ υ := ops.foldl (step policy) bench

/-- What is asked for is not to store a record that was made on decisions that are gone. -/
def allows (bench : Bench σ υ) : Op → Bool
  | .store name => (bench.kept.lookup name).all fun k => k.standing ≠ .dropped
  | _ => true

/-- No record that was made on decisions that are gone is stored. -/
def careful (policy : Policy) : Bench σ υ → List Op → Bool
  | _, [] => true
  | bench, op :: rest => bench.allows op && (bench.step policy op).careful policy rest

/-- A record that has just been kept may be stored. -/
theorem allows_store_of_keep (policy : Policy) {bench : Bench σ υ} {name : String}
    (h : bench.allows (.store name) = true) (today : Date) (command : Command) :
    (bench.step policy (.keep name today command)).allows (.store name) = true := by
  simp only [step]
  split
  · exact h
  · next k hmake =>
    obtain ⟨d, -, hmake⟩ := Option.bind_eq_some_iff.1 hmake
    have hstanding : k.standing ≠ .dropped := d.standing_of_make? hmake
    simp [allows, Entries.lookup_put_self, hstanding]

end Bench

end

variable {σ υ : Type} [UnitStore σ υ] [SideBySide σ] [SerialStore σ υ]

/-- A record was made on its chain, which leads to where its decisions are. -/
structure Kept.Fits (store : σ) (draft : Option (Draft υ)) (k : Kept) : Prop where
  made : k.base.decide k.ruling.command k.ruling.pattern k.ruling.today = .ok k.record
  id_base : k.base.application.id = k.ruling.id
  settled : k.standing = .settled → k.base.LeadsTo (contents store k.ruling.id)
  drafted : k.standing = .drafted → ∃ d, draft = some d ∧ k.base.LeadsTo (view store d.unit k.ruling.id)

namespace Bench

/-- The open unit is alone on a store whose chains fit a memory, and every record fits but for those made on
decisions that are gone. -/
structure Consistent (bench : Bench σ υ) : Prop where
  readable : Readable bench.store
  memory : (contents bench.store).FitMemory
  alone : ∀ d, bench.draft = some d → Alone bench.store d.unit d.rulings
  kept : ∀ name k, bench.kept.lookup name = some k → k.standing ≠ .dropped →
    k.Fits bench.store bench.draft

/-- The store has moved on by rulings. -/
def Advances (bench after : Bench σ υ) : Prop :=
  ∃ rulings, (contents bench.store).replay? rulings = some (contents after.store)

/-- Nothing has moved on. -/
theorem Advances.refl (bench : Bench σ υ) : bench.Advances bench := ⟨[], rfl⟩

/-- A store moves on step by step. -/
theorem Advances.trans {first second third : Bench σ υ} (h : first.Advances second) (h' : second.Advances third) :
    first.Advances third := by
  obtain ⟨rulings, hreplay⟩ := h
  obtain ⟨rulings', hreplay'⟩ := h'
  refine ⟨rulings ++ rulings', ?_⟩
  rw [Contents.replay?_append, hreplay]
  exact hreplay'

/-- The work adds to what the open unit has carried out and leaves it alone. -/
def GoesOn (bench : Bench σ υ) (work : Draft υ → Draft υ) : Prop :=
  ∀ d, bench.draft = some d →
    ∃ more, (work d).rulings = d.rulings ++ more ∧ Alone bench.store (work d).unit (work d).rulings

namespace Consistent

variable {bench : Bench σ υ}

/-- Nothing is kept where nobody works on the store. -/
theorem ofStore {store : σ} (hreadable : Readable store) (hmemory : (contents store).FitMemory) :
    Consistent (Bench.ofStore store : Bench σ υ) :=
  ⟨hreadable, hmemory, by simp [Bench.ofStore], by simp [Bench.ofStore]⟩

/-- The open unit ends and the store moves on by rulings, over what the unit has seen if its decisions
are settled with that. -/
theorem close (h : bench.Consistent) {standing : Standing} {store : σ} {rulings : List Ruling}
    (hreadable : Readable store) (hreplay : (contents bench.store).replay? rulings = some (contents store))
    (hstanding : standing = .dropped ∨
      standing = .settled ∧ ∀ d, bench.draft = some d → contents store = view bench.store d.unit) :
    Consistent { bench.close standing with store := store } := by
  refine ⟨hreadable, h.memory.replay hreplay, by simp [Bench.close], fun name k hname hkept => ?_⟩
  have hlookup : (bench.close standing).kept.lookup name = some k := hname
  rw [Bench.close, Entries.lookup_map_snd] at hlookup
  obtain ⟨before, hbefore, rfl⟩ := Option.map_eq_some_iff.1 hlookup
  cases hwas : before.standing with
  | settled =>
    have hfits := h.kept name before hbefore (by simp [hwas])
    simp only [Kept.ended, hwas]
    exact ⟨hfits.made, hfits.id_base, fun _ => (hfits.settled hwas).replay hreplay, by simp [hwas]⟩
  | drafted =>
    have hfits := h.kept name before hbefore (by simp [hwas])
    obtain ⟨d, hd, hleads⟩ := hfits.drafted hwas
    simp only [Kept.ended, hwas] at hkept ⊢
    obtain ⟨rfl, hsees⟩ := hstanding.resolve_left hkept
    exact ⟨hfits.made, hfits.id_base, fun _ => by rw [hsees d hd]; exact hleads, by simp⟩
  | dropped => simp [Kept.ended, hwas] at hkept

/-- The open unit is dropped. -/
theorem drop (h : bench.Consistent) : (bench.close .dropped).Consistent :=
  h.close h.readable (Contents.replay?_nil _) (Or.inl rfl)

/-- A settled answer of the service, which drops the open unit and moves the store on. -/
theorem settles (h : bench.Consistent) {α : Type} {rulings : List Ruling} {result : Except Refusal α × σ}
    (hsettles : Settles bench.store rulings result) :
    Consistent { bench.close .dropped with store := result.2 } ∧
      bench.Advances { bench.close .dropped with store := result.2 } := by
  rcases result with ⟨_ | _, store⟩
  · cases hsettles
    exact ⟨h.drop, .refl bench⟩
  · exact ⟨h.close hsettles.1 hsettles.2 (Or.inl rfl), rulings, hsettles.2⟩

/-- Rulings of the open unit keep a record fitting. -/
theorem fits_workOn (h : bench.Consistent) {work : Draft υ → Draft υ} (hwork : bench.GoesOn work) {k : Kept}
    (hfits : k.Fits bench.store bench.draft) : k.Fits bench.store (bench.workOn work).draft := by
  refine ⟨hfits.made, hfits.id_base, hfits.settled, fun hdrafted => ?_⟩
  obtain ⟨d, hd, hleads⟩ := hfits.drafted hdrafted
  obtain ⟨more, hrulings, halone⟩ := hwork d hd
  rw [hrulings] at halone
  exact ⟨work d, by rw [workOn, hd, Option.map_some], hleads.replay ((h.alone d hd).replay_of_append halone)⟩

/-- The open unit goes on. -/
theorem workOn (h : bench.Consistent) {work : Draft υ → Draft υ} (hwork : bench.GoesOn work) :
    (bench.workOn work).Consistent := by
  refine ⟨h.readable, h.memory, fun after hafter => ?_,
    fun name k hname hkept => h.fits_workOn hwork (h.kept name k hname hkept)⟩
  obtain ⟨d, hd, rfl⟩ := Option.map_eq_some_iff.1 hafter
  obtain ⟨-, -, halone⟩ := hwork d hd
  exact halone

/-- Rulings lead from the chain of a record to what the open unit sees, unless its decisions are gone. -/
theorem leadsTo_view (h : bench.Consistent) {name : String} {k : Kept}
    (hname : bench.kept.lookup name = some k) (hkept : k.standing ≠ .dropped) {d : Draft υ}
    (hd : bench.draft = some d) : k.base.LeadsTo (view bench.store d.unit k.ruling.id) := by
  have hfits := h.kept name k hname hkept
  cases hstanding : k.standing with
  | settled => exact (hfits.settled hstanding).replay (h.alone d hd).replay
  | drafted =>
    obtain ⟨other, hother, hleads⟩ := hfits.drafted hstanding
    obtain rfl : d = other := Option.some.inj (hd.symm.trans hother)
    exact hleads
  | dropped => exact absurd hstanding hkept

/-- Where the open unit sees the expected version of a record, it sees the chain of the record. -/
theorem base_of_version (h : bench.Consistent) {name : String} {k : Kept}
    (hname : bench.kept.lookup name = some k) (hkept : k.standing ≠ .dropped) {d : Draft υ}
    (hd : bench.draft = some d)
    (hversion : (view bench.store d.unit k.ruling.id).map (fun c => c.application.version) =
      some k.record.expectedVersion) :
    view bench.store d.unit k.ruling.id = some k.base := by
  obtain ⟨now, hnow, hversion⟩ := Option.map_eq_some_iff.1 hversion
  have hleads := h.leadsTo_view hname hkept hd
  rw [Chain.expectedVersion_of_decide (h.kept name k hname hkept).made] at hversion
  have hmemory : now.FitsMemory := h.memory.replay (h.alone d hd).replay k.ruling.id now hnow
  rw [hnow] at hleads ⊢
  exact congrArg some (hleads.eq_of_version hmemory hversion)

/-- A bench with a fresh unit. -/
theorem step_openUnit (h : bench.Consistent) (policy : Policy) :
    (bench.step policy .openUnit).Consistent ∧ bench.Advances (bench.step policy .openUnit) := by
  refine ⟨⟨h.readable, h.memory, fun d hd => ?_, fun name k hname hkept => ?_⟩, .refl bench⟩
  · obtain ⟨u, hopen, rfl⟩ := Option.map_eq_some_iff.1 hd
    apply Alone.of_openUnit h.readable
    cases hfresh : UnitStore.openUnit bench.store with
    | error refusal => simp [hfresh, Except.toOption] at hopen
    | ok fresh => simpa [hfresh, Except.toOption] using hopen
  · have hfits := h.drop.kept name k hname hkept
    refine ⟨hfits.made, hfits.id_base, hfits.settled, fun hdrafted => ?_⟩
    obtain ⟨d, hd, -⟩ := hfits.drafted hdrafted
    simp [Bench.close] at hd

/-- A bench whose open unit has been committed, or dropped if the store has refused it. -/
theorem step_commit (h : bench.Consistent) (policy : Policy) :
    (bench.step policy .commit).Consistent ∧ bench.Advances (bench.step policy .commit) := by
  cases hd : bench.draft with
  | none =>
    simp only [Bench.step, hd]
    exact ⟨h, .refl bench⟩
  | some d =>
    have halone := h.alone d hd
    rcases hcommit : UnitStore.commit bench.store d.unit with ⟨refusal | _, store⟩ <;>
      simp only [Bench.step, hd, hcommit]
    · obtain rfl := SerialStore.commit_error hcommit
      exact ⟨h.drop, .refl bench⟩
    · obtain ⟨hreadable, hcontents⟩ := halone.commit h.readable hcommit
      have hreplay := hcontents ▸ halone.replay
      refine ⟨h.close hreadable hreplay (Or.inr ⟨rfl, fun other hother => ?_⟩), d.rulings, hreplay⟩
      rw [hd, Option.some.injEq] at hother
      rw [hcontents, hother]

variable [VersionedStore σ υ]

/-- The open unit loads what it sees. -/
theorem load_fst (h : bench.Consistent) {d : Draft υ} (hd : bench.draft = some d) (id : String) :
    (UnitStore.load bench.store d.unit id).1 = .ok (view bench.store d.unit id) := by
  obtain ⟨u, hload, -⟩ := (Alone.carries h.readable).load_eq id (h.alone d hd)
  rw [hload]

/-- The open unit goes on by a load. -/
theorem goesOn_load (h : bench.Consistent) (id : String) :
    bench.GoesOn fun d => { d with unit := (UnitStore.load bench.store d.unit id).2 } := by
  intro d hd
  obtain ⟨u, hload, halone, -⟩ := (Alone.carries h.readable).load_eq id (h.alone d hd)
  refine ⟨[], (List.append_nil _).symm, ?_⟩
  simp only [hload]
  exact halone

/-- A record that is made in the open unit fits. -/
theorem fits_of_make? (h : bench.Consistent) {policy : Policy} {today : Date} {command : Command}
    {d : Draft υ} (hd : bench.draft = some d) {k : Kept}
    (hmake : d.make? policy bench.store today command = some k) : k.Fits bench.store bench.draft := by
  have halone := h.alone d hd
  rw [Draft.make?, h.load_fst hd] at hmake
  cases hchain : view bench.store d.unit command.applicationId with
  | none => simp [hchain] at hmake
  | some chain =>
    simp only [hchain] at hmake
    obtain ⟨record, hrecord, rfl⟩ := Option.map_eq_some_iff.1 hmake
    have hmade : chain.decide command policy.dateFormat today = .ok record := by
      cases hdecide : chain.decide command policy.dateFormat today with
      | error refusal => simp [hdecide, Except.toOption] at hrecord
      | ok made => simpa [hdecide, Except.toOption] using hrecord
    refine ⟨hmade, halone.id_of_view h.readable hchain, fun hsettled => ?_, fun _ => ⟨d, hd, ?_⟩⟩
    · have hnone : Ruling.on command.applicationId d.rulings = [] := by
        by_contra hsome
        simp [hsome] at hsettled
      have hsame : contents bench.store command.applicationId = some chain :=
        (Contents.replay?_of_on_eq_nil halone.replay hnone).symm.trans hchain
      exact hsame ▸ Chain.LeadsTo.refl chain
    · exact hchain ▸ Chain.LeadsTo.refl chain

/-- The open unit takes a record in if it sees the chain of the record, and turns it down otherwise. -/
theorem store_cases (h : bench.Consistent) {name : String} {k : Kept}
    (hname : bench.kept.lookup name = some k) (hkept : k.standing ≠ .dropped) {d : Draft υ}
    (hd : bench.draft = some d) :
    (view bench.store d.unit k.ruling.id = some k.base ∧
        ∃ u, UnitStore.store bench.store d.unit k.record = (.ok (), u) ∧
          Alone bench.store u (d.rulings ++ [k.ruling])) ∨
      ∃ refusal, UnitStore.store bench.store d.unit k.record = (.error refusal, d.unit) := by
  have hfits := h.kept name k hname hkept
  have halone := h.alone d hd
  have hid : k.record.chain.application.id = k.ruling.id := (Chain.id_of_decide hfits.made).trans hfits.id_base
  by_cases hversion : (view bench.store d.unit k.ruling.id).map (fun c => c.application.version) =
      some k.record.expectedVersion
  · have hview := h.base_of_version hname hkept hd hversion
    exact Or.inl ⟨hview, (Alone.carries h.readable).store_eq halone hview hfits.made⟩
  · exact Or.inr (VersionedStore.store_refused h.readable halone.accounts (hid ▸ hversion))

/-- A bench with one more record, if one could be made. -/
theorem step_keep (h : bench.Consistent) (policy : Policy) (name : String) (today : Date) (command : Command) :
    (bench.step policy (.keep name today command)).Consistent ∧
      bench.Advances (bench.step policy (.keep name today command)) := by
  have hload := h.workOn (h.goesOn_load command.applicationId)
  simp only [Bench.step]
  split
  · exact ⟨hload, .refl bench⟩
  · next k hmake =>
    obtain ⟨d, hd, hmake⟩ := Option.bind_eq_some_iff.1 hmake
    refine ⟨⟨hload.readable, hload.memory, hload.alone, fun other k' hother hkept => ?_⟩, .refl bench⟩
    have hgoes := h.goesOn_load command.applicationId
    change (Entries.put name k bench.kept).lookup other = some k' at hother
    rcases Entries.lookup_of_put hother with rfl | hother
    · exact h.fits_workOn hgoes (h.fits_of_make? hd hmake)
    · exact h.fits_workOn hgoes (h.kept other k' hother hkept)

/-- A bench whose open unit has been given a record, the decisions of which are not gone. -/
theorem step_store (h : bench.Consistent) (policy : Policy) {name : String}
    (hallows : bench.allows (.store name) = true) :
    (bench.step policy (.store name)).Consistent ∧ bench.Advances (bench.step policy (.store name)) := by
  simp only [Bench.step]
  cases hname : bench.kept.lookup name with
  | none => exact ⟨h, .refl bench⟩
  | some k =>
    have hkept : k.standing ≠ .dropped := by simpa [allows, hname] using hallows
    refine ⟨h.workOn fun d hd => ⟨_, rfl, ?_⟩, .refl bench⟩
    rcases h.store_cases hname hkept hd with ⟨-, u, hstore, halone⟩ | ⟨refusal, hstore⟩
    · rw [hstore]
      exact halone
    · rw [hstore, Ruling.carried, List.append_nil]
      exact h.alone d hd

variable [PreviewStore σ υ]

/-- Whatever is asked for keeps a bench consistent and moves its store on by rulings, but for storing a record whose
decisions are gone. -/
theorem step (h : bench.Consistent) (policy : Policy) {op : Op} (hallows : bench.allows op = true) :
    (bench.step policy op).Consistent ∧ bench.Advances (bench.step policy op) := by
  cases op with
  | decide today request => exact h.settles (Service.decide_settles policy today h.readable request)
  | bulkDecide today items => exact h.settles (Service.bulkDecide_settles policy today h.readable items)
  | openUnit => exact h.step_openUnit policy
  | load id => exact ⟨h.workOn (h.goesOn_load id), .refl bench⟩
  | record today command =>
    refine ⟨h.workOn fun d hd => ⟨_, rfl, ?_⟩, .refl bench⟩
    obtain ⟨u, hdecision, halone⟩ :=
      (Alone.carries h.readable).recordDecision (h.alone d hd) policy.dateFormat today command
    rw [hdecision]
    exact halone
  | apply today items =>
    refine ⟨h.workOn fun d hd => ⟨_, rfl, ?_⟩, .refl bench⟩
    rw [UnitStore.applyBatch_snd]
    exact (Alone.carries h.readable).applyItems policy today (h.alone d hd) items
  | keep name today command => exact h.step_keep policy name today command
  | store name => exact h.step_store policy hallows
  | commit => exact h.step_commit policy
  | rollback => exact ⟨h.drop, .refl bench⟩

/-- A run that stores no record whose decisions are gone keeps a bench consistent and moves its store on by
rulings. -/
theorem run (h : bench.Consistent) (policy : Policy) {ops : List Op} (hcareful : bench.careful policy ops = true) :
    (bench.run policy ops).Consistent ∧ bench.Advances (bench.run policy ops) := by
  induction ops generalizing bench with
  | nil => exact ⟨h, .refl bench⟩
  | cons op rest ih =>
    obtain ⟨hallows, hrest⟩ := Bool.and_eq_true_iff.1 hcareful
    obtain ⟨hstep, hadvances⟩ := h.step policy hallows
    obtain ⟨hrun, hadvances'⟩ := ih hstep hrest
    exact ⟨hrun, hadvances.trans hadvances'⟩

end Consistent

end Bench

end SignOff
