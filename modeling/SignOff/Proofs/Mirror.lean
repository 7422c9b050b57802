import SignOff.Proofs.Reachable
import SignOff.Proofs.Store.Agreement

/-!
# A shelf that mirrors a ledger

A shelf that the chains of a ledger have been inserted into shows what the ledger shows. From then on the
two serve requests alike, however they keep their chains: every answer is the same, and so is what can be
seen of each application after it.
-/

namespace SignOff

open Ledger (Event Office)

/-- The chains that a readable ledger shows for some ids, in their order. -/
theorem Ledger.views_of_readable {ledger : Ledger} (h : ledger.Readable) (ids : List String) :
    ledger.views ids = .ok (ids.filterMap ledger.tables.contents) := by
  induction ids with
  | nil => rfl
  | cons id rest ih =>
    rw [views, view_of_readable h, ih, List.filterMap_cons]
    cases ledger.tables.contents id <;> rfl

/-- A shelf that chains have been inserted into shows these for their ids and otherwise what it did. -/
theorem Shelf.get?_foldl_insert {contents : Contents}
    (hkeyed : ∀ id chain, contents id = some chain → chain.application.id = id) (ids : List String)
    (shelf : Shelf) (id : String) :
    ((ids.filterMap contents).foldl insert shelf).get? id =
      (if id ∈ ids then contents id else none).or (shelf.get? id) := by
  induction ids generalizing shelf with
  | nil => simp
  | cons first rest ih =>
    cases hfirst : contents first with
    | none =>
      rw [List.filterMap_cons_none hfirst, ih]
      by_cases heq : id = first
      · simp [heq, hfirst]
      · simp [heq]
    | some chain =>
      rw [List.filterMap_cons_some hfirst, List.foldl_cons, ih]
      by_cases heq : id = first
      · -- An id that comes again brings the same chain, so it does not matter which one stays.
        have hid := hkeyed first chain hfirst
        rw [heq, ← hid, get?_insert_self, hid]
        by_cases hrest : first ∈ rest <;> simp [hrest, hfirst]
      · rw [get?_insert_of_ne]
        · simp [heq]
        · rw [hkeyed first chain hfirst]
          exact heq

/-- A shelf agrees with a readable ledger if it holds all its chains. -/
theorem Ledger.agree_ofChains {ledger : Ledger} (h : ledger.Readable) {ids : List String}
    (hids : ∀ id, id ∉ ids → ledger.tables.contents id = none) :
    Agree ledger (Shelf.ofChains (ids.filterMap ledger.tables.contents)) := by
  refine ⟨h, Shelf.keyed_ofChains _, funext fun id => ?_⟩
  have hkeyed : ∀ id chain, ledger.tables.contents id = some chain → chain.application.id = id := by
    intro id chain hchain
    exact Tables.id_of_chain? ((h.2.chain?_eq id).trans (congrArg _ hchain))
  change ledger.tables.contents id = (Shelf.ofChains _).get? id
  rw [Shelf.ofChains, Shelf.get?_foldl_insert hkeyed]
  by_cases hid : id ∈ ids
  · simp [hid, Shelf.empty, Shelf.get?]
  · simp [hid, hids id hid, Shelf.empty, Shelf.get?]

/-- A ledger and a shelf that agree show the same chain for each id. -/
theorem Agree.view_eq {ledger : Ledger} {shelf : Shelf} (h : Agree ledger shelf) (id : String) :
    ledger.view id = .ok (shelf.get? id) := by
  rw [Ledger.view_of_readable h.readable_left]
  exact congrArg _ (congrFun h.contents_eq id)

/-- After any run of a ledger its chains, inserted into a shelf in any order, make the shelf answer every
following sequence of requests as the ledger does, and show the same chains after each of them. -/
theorem mirrored_stores_agree (earlier policy : Policy) (events : List Event) (ids : List String)
    (hids : ∀ taken ∈ (Office.start.run earlier events).taken, taken.id ∈ ids)
    (requests : List Service.Request) :
    let ledger := (Office.start.run earlier events).desk.store
    ∃ chains, ledger.views ids = .ok chains ∧
      (∀ id, ledger.view id = .ok ((Shelf.ofChains chains).get? id)) ∧
      List.Forall₂
        (fun onLedger onShelf =>
          onLedger.1 = onShelf.1 ∧ ∀ id, onLedger.2.view id = .ok (onShelf.2.get? id))
        (Service.serveAll policy ledger requests)
        (Service.serveAll policy (Shelf.ofChains chains) requests) := by
  intro ledger
  have hoffice := Office.accountable_start.run earlier events
  have hreadable : ledger.Readable := hoffice.consistent.readable
  have hnone : ∀ id, id ∉ ids → ledger.tables.contents id = none := by
    intro id hid
    rcases hoffice.view_sound id with ⟨-, hview⟩ | ⟨taken, htaken, heq, -⟩
    · rwa [Ledger.view_of_readable hreadable, Except.ok.injEq] at hview
    · exact absurd (heq ▸ hids taken htaken) hid
  have hagree := Ledger.agree_ofChains hreadable hnone
  refine ⟨_, Ledger.views_of_readable hreadable ids, hagree.view_eq, ?_⟩
  exact (hagree.serveAll policy requests).imp fun _ _ houtcome => ⟨houtcome.1, houtcome.2.view_eq⟩

/-- A decision and a batch that fails on its second item, on one application. -/
theorem mirrored_stores_agree_of_two_approvers :
    let s : Submission := ⟨none, none, "kim", none, ["lee", " park"], none⟩
    let ledger := (Office.start.run ⟨2, "%Y"⟩ [.submit "7" s Date.epoch]).desk.store
    let requests : List Service.Request :=
      [.decide Date.epoch ⟨"7", "lee", none, some "approve"⟩,
        .bulkDecide Date.epoch
          [⟨"7", "park", none, some "approve"⟩, ⟨"7", "park", none, some "approve"⟩]]
    ∃ chains, ledger.views ["7"] = .ok chains ∧
      (Service.serveAll ⟨2, "%Y"⟩ ledger requests).map Prod.fst =
        (Service.serveAll ⟨2, "%Y"⟩ (Shelf.ofChains chains) requests).map Prod.fst := by
  intro s ledger requests
  have htakes : Ledger.empty.Takes "7" s := ⟨by decide +kernel, rfl, rfl, by decide⟩
  have hoffice : Office.start.run ⟨2, "%Y"⟩ [.submit "7" s Date.epoch] = _ :=
    Office.step_submit Office.start ⟨2, "%Y"⟩ htakes Date.epoch
  have hids : ∀ taken ∈ (Office.start.run ⟨2, "%Y"⟩ [.submit "7" s Date.epoch]).taken,
      taken.id ∈ ["7"] := by
    rw [hoffice]
    intro taken htaken
    rw [show taken = ⟨"7", s, Date.epoch⟩ from List.mem_singleton.1 htaken]
    exact List.mem_cons_self
  obtain ⟨chains, hviews, -, hserved⟩ := mirrored_stores_agree _ ⟨2, "%Y"⟩ _ _ hids requests
  refine ⟨chains, hviews, ?_⟩
  rw [← List.forall₂_eq_eq_eq, List.forall₂_map_left_iff, List.forall₂_map_right_iff]
  exact hserved.imp fun _ _ hsame => hsame.1

end SignOff
