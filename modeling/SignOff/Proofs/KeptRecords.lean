import SignOff.Proofs.Reachable
import SignOff.Proofs.Store.Bench

/-!
# Kept records continue the chain

A record that has been kept is taken in only where the unit sees the chain that the record was made on, in
both stores and whatever the chains are like, unless decisions that the record was made on have come to nothing:
their versions are handed out again, to other chains. Chains that were sound stay so.
-/

namespace SignOff

open Ledger (Event Office)

/-- A record is taken in on the chain that it was made on only, as versions tell chains apart. -/
structure Bench.Continues {σ υ : Type} [UnitStore σ υ] (bench : Bench σ υ) : Prop where
  made : ∀ name k, bench.kept.lookup name = some k → k.standing ≠ .dropped →
    k.base.decide k.ruling.command k.ruling.pattern k.ruling.today = .ok k.record
  accepted : ∀ name k d u, bench.kept.lookup name = some k → k.standing ≠ .dropped → bench.draft = some d →
    UnitStore.store bench.store d.unit k.record = (.ok (), u) →
      (UnitStore.load bench.store d.unit k.record.chain.application.id).1 = .ok (some k.base)
  version : ∀ name k d chain, bench.kept.lookup name = some k → k.standing ≠ .dropped →
    bench.draft = some d →
    (UnitStore.load bench.store d.unit k.record.chain.application.id).1 = .ok (some chain) →
      chain.application.version = k.record.expectedVersion → chain = k.base

/-- What is committed is sound: so is every chain that a fresh unit loads. -/
def Bench.ShowsSound {σ υ : Type} [UnitStore σ υ] (bench : Bench σ υ) : Prop :=
  ∀ u id chain, UnitStore.openUnit bench.store = .ok u →
    (UnitStore.load bench.store u id).1 = .ok (some chain) → chain.Sound

/-- Records continue chains on a consistent bench. -/
theorem Bench.Consistent.continues {σ υ : Type} [UnitStore σ υ] [SideBySide σ] [SerialStore σ υ]
    [VersionedStore σ υ] {bench : Bench σ υ} (h : bench.Consistent) : bench.Continues := by
  have hid : ∀ name k, bench.kept.lookup name = some k → k.standing ≠ .dropped →
      k.record.chain.application.id = k.ruling.id := by
    intro name k hname hkept
    have hfits := h.kept name k hname hkept
    exact (Chain.id_of_decide hfits.made).trans hfits.id_base
  refine ⟨fun name k hname hkept => (h.kept name k hname hkept).made, ?_, ?_⟩
  · intro name k d u hname hkept hd hstore
    rw [hid name k hname hkept, h.load_fst hd]
    rcases h.store_cases hname hkept hd with ⟨hview, -⟩ | ⟨refusal, hrefused⟩
    · rw [hview]
    · simp [hrefused] at hstore
  · intro name k d chain hname hkept hd hload hversion
    rw [hid name k hname hkept, h.load_fst hd, Except.ok.injEq] at hload
    have hbase := h.base_of_version hname hkept hd (by rw [hload, Option.map_some, hversion])
    exact Option.some.inj (hload.symm.trans hbase)

/-- A bench whose store has moved on from sound chains shows sound ones. -/
theorem Bench.Consistent.showsSound {σ υ : Type} [UnitStore σ υ] [SideBySide σ] [SerialStore σ υ]
    {start bench : Bench σ υ} (h : bench.Consistent) (hadvances : start.Advances bench)
    (hsound : ∀ id chain, SerialStore.contents start.store id = some chain → chain.Sound) : bench.ShowsSound := by
  intro u id chain hopen hload
  obtain ⟨rulings, hreplay⟩ := hadvances
  obtain ⟨fresh, hfresh, haccounts, hview⟩ := SerialStore.openUnit_eq h.readable
  obtain rfl : fresh = u := Except.ok.inj (hfresh.symm.trans hopen)
  obtain ⟨after, hloaded, -⟩ := SerialStore.load_eq id h.readable haccounts
  rw [hloaded, hview, Except.ok.injEq] at hload
  exact Contents.forall_of_replay Chain.Sound.replay hsound hreplay id chain hload

/-- In every run in which no record is stored that was made on decisions of a unit that was not committed,
a record is taken in on the chain that it was made on only, and committed chains are sound.

In a store in memory the first holds whatever the chains are, as long as they fit the memory, and the second for
chains that are sound at first. -/
theorem kept_records_continue (policy : Policy) (ops : List Bench.Op) :
    (∀ events : List Event, let bench := Bench.ofStore (Office.start.run policy events).desk.store
      bench.careful policy ops = true →
        (bench.run policy ops).Continues ∧ (bench.run policy ops).ShowsSound) ∧
    ∀ chains : List Chain, (∀ chain ∈ chains, chain.FitsMemory) →
      let bench := Bench.ofStore (Shelf.ofChains chains)
      bench.careful policy ops = true →
        (bench.run policy ops).Continues ∧
          ((∀ chain ∈ chains, chain.Sound) → (bench.run policy ops).ShowsSound) := by
  constructor
  · intro events bench hcareful
    have hoffice := Ledger.Office.accountable_start.run policy events
    have hstart : bench.Consistent :=
      .ofStore hoffice.consistent.readable fun id chain hchain => (hoffice.of_contents hchain).2.1
    obtain ⟨hrun, hadvances⟩ := hstart.run policy hcareful
    exact ⟨hrun.continues, hrun.showsSound hadvances fun id chain hchain => (hoffice.of_contents hchain).1⟩
  · intro chains hmemory bench hcareful
    have hstart : bench.Consistent := .ofStore (Shelf.keyed_ofChains chains) (Shelf.fitMemory_ofChains hmemory)
    obtain ⟨hrun, hadvances⟩ := hstart.run policy hcareful
    refine ⟨hrun.continues, fun hsound => hrun.showsSound hadvances fun id chain hchain => ?_⟩
    exact hsound chain (Shelf.mem_of_get?_ofChains hchain)

/-- A first record is stored in the unit that it was made in, and a second one, made on the first, in the
next unit. -/
theorem kept_records_continue_of_two_records :
    let s : Submission := ⟨none, none, "park", none, ["lee", "kim"], none⟩
    let ops : List Bench.Op :=
      [.openUnit, .keep "first" Date.epoch ⟨"7", "lee", none, .approved⟩, .store "first",
        .keep "second" Date.epoch ⟨"7", "kim", none, .approved⟩, .commit, .openUnit]
    let office := Office.start.run ⟨100, "%Y"⟩ [.submit "7" s Date.epoch]
    let bench := (Bench.ofStore (Shelf.ofChains [s.chain "7" Date.epoch])).run ⟨100, "%Y"⟩ ops
    ((Bench.ofStore office.desk.store).run ⟨100, "%Y"⟩ ops).Continues ∧ bench.ShowsSound ∧
    ∃ k d, bench.kept.lookup "second" = some k ∧ bench.draft = some d ∧
      (UnitStore.store bench.store d.unit k.record).1 = .ok () ∧
      (UnitStore.load bench.store d.unit k.record.chain.application.id).1 = .ok (some k.base) := by
  intro s ops office bench
  have hcareful : (Bench.ofStore office.desk.store).careful ⟨100, "%Y"⟩ ops = true := by
    have hopened :
        ((Bench.ofStore office.desk.store).step ⟨100, "%Y"⟩ .openUnit).allows (.store "first") = true := rfl
    have hstore := Bench.allows_store_of_keep ⟨100, "%Y"⟩ hopened Date.epoch ⟨"7", "lee", none, .approved⟩
    simpa only [ops, Bench.careful, Bench.allows, Bool.true_and, Bool.and_true] using hstore
  refine ⟨((kept_records_continue ⟨100, "%Y"⟩ ops).1 [.submit "7" s Date.epoch] hcareful).1, ?_⟩
  have hsound : ∀ chain ∈ [s.chain "7" Date.epoch], chain.Sound := by
    intro chain hchain
    rw [List.mem_singleton] at hchain
    exact hchain ▸ Submission.sound_chain (List.cons_ne_nil _ _) (by decide)
  obtain ⟨hcontinues, hshows⟩ : bench.Continues ∧ _ :=
    (kept_records_continue ⟨100, "%Y"⟩ ops).2 [s.chain "7" Date.epoch] (by decide) (by decide +kernel)
  refine ⟨hshows hsound, ?_⟩
  have hstore : (bench.kept.lookup "second").bind (fun k => bench.draft.map fun d =>
      (k.standing, (UnitStore.store bench.store d.unit k.record).1)) = some (.settled, .ok ()) := by
    decide +kernel
  obtain ⟨k, hname, hstore⟩ := Option.bind_eq_some_iff.1 hstore
  obtain ⟨d, hd, hstore⟩ := Option.map_eq_some_iff.1 hstore
  obtain ⟨hstanding, hstore⟩ := Prod.mk.inj hstore
  have hload := hcontinues.accepted "second" k d _ hname (by simp [hstanding]) hd (Prod.ext hstore rfl)
  exact ⟨k, d, hname, hd, hstore, hload⟩

/-- A record that was made on an approval of a unit that was rolled back is taken in on the rejection that
came in its place, because both chains have the same version. -/
theorem dropped_record_taken_in :
    let s : Submission := ⟨none, none, "park", none, ["lee", "kim"], none⟩
    let bench := (Bench.ofStore (Shelf.ofChains [s.chain "7" Date.epoch])).run ⟨100, "%Y"⟩
      [.openUnit, .record Date.epoch ⟨"7", "lee", none, .approved⟩,
        .keep "kept" Date.epoch ⟨"7", "kim", none, .approved⟩, .rollback,
        .decide Date.epoch ⟨"7", "lee", none, some "reject"⟩, .openUnit]
    ∃ k d seen, bench.kept.lookup "kept" = some k ∧ bench.draft = some d ∧
      k.base.decide k.ruling.command k.ruling.pattern k.ruling.today = .ok k.record ∧
      (UnitStore.store bench.store d.unit k.record).1 = .ok () ∧
      (UnitStore.load bench.store d.unit "7").1 = .ok (some seen) ∧
      seen.application.version = k.record.expectedVersion ∧
      seen.isHalted = true ∧ k.base.isHalted = false ∧ seen ≠ k.base := by
  intro s bench
  have hrun : (bench.kept.lookup "kept").bind (fun k => bench.draft.bind fun d =>
      (UnitStore.load bench.store d.unit "7").1.toOption.join.map fun seen =>
        (decide (k.base.decide k.ruling.command k.ruling.pattern k.ruling.today = .ok k.record),
          (UnitStore.store bench.store d.unit k.record).1, seen.application.version - k.record.expectedVersion,
          seen.isHalted, k.base.isHalted)) = some (true, .ok (), 0, true, false) := by
    decide +kernel
  obtain ⟨k, hname, hrun⟩ := Option.bind_eq_some_iff.1 hrun
  obtain ⟨d, hd, hrun⟩ := Option.bind_eq_some_iff.1 hrun
  obtain ⟨seen, hseen, hrun⟩ := Option.map_eq_some_iff.1 hrun
  simp only [Prod.mk.injEq, decide_eq_true_eq] at hrun
  obtain ⟨hmade, hstore, hversion, hhalted, hbase⟩ := hrun
  have hload : (UnitStore.load bench.store d.unit "7").1 = .ok (some seen) := by
    rcases hanswer : (UnitStore.load bench.store d.unit "7").1 with refusal | _ | chain
    · simp [hanswer, Except.toOption] at hseen
    · simp [hanswer, Except.toOption] at hseen
    · rw [hanswer] at hseen
      exact congrArg (fun found => Except.ok (some found)) (Option.some.inj hseen)
  refine ⟨k, d, seen, hname, hd, hmade, hstore, hload, Int.sub_eq_zero.1 hversion, hhalted, hbase, ?_⟩
  rintro rfl
  simp [hhalted] at hbase

end SignOff
