import SignOff.Proofs.Store.Serial
import SignOff.Proofs.Store.Session

/-!
# Units on a shelf

A unit on a shelf keeps the version at which it first met a chain, while what it has written may derive
from a later state of that chain, which other units have committed in between. Rulings lead from each of
these states to the next one and do not lead back to a version, as long as the chain fits a memory. So a
chain that is still in its base version at the commit has not changed since, and what the unit has
written derives from just that chain.
-/

namespace SignOff

namespace Shelf

open UnitStore

/-- Every chain lies under the id of its application. -/
def Keyed (shelf : Shelf) : Prop := ∀ id chain, shelf.get? id = some chain → chain.application.id = id

/-- The rulings make the chain of one that has been stored since the unit met the application in its base
version; of the one that is stored, if that is in the base version. -/
def Derives (stored : Chain) (base : Int) (rulings : List Ruling) (chain : Chain) : Prop :=
  ∃ first origin : Chain, first.application.version = base ∧ first.Precedes origin ∧ origin.Precedes stored ∧
    origin.replay? rulings = some chain ∧ (stored.application.version = base → origin = stored)

namespace Derives

variable {first stored chain : Chain} {base : Int} {rulings : List Ruling}

/-- Without rulings the stored chain derives from itself. -/
theorem nil (hbase : first.application.version = base) (hfirst : first.Precedes stored) :
    Derives stored base [] stored :=
  ⟨first, stored, hbase, hfirst, .refl stored, Chain.replay?_nil stored, fun _ => rfl⟩

/-- A further ruling derives a further chain. -/
theorem append (h : Derives stored base rulings chain) {r : Ruling} {after : Chain}
    (hruled : chain.replay? [r] = some after) : Derives stored base (rulings ++ [r]) after := by
  obtain ⟨first, origin, hbase, hfirst, hstored, hreplay, hexact⟩ := h
  refine ⟨first, origin, hbase, hfirst, hstored, ?_, hexact⟩
  rw [Chain.replay?_append, hreplay]
  exact hruled

/-- The derived chain is of the same application. -/
theorem id_eq (h : Derives stored base rulings chain) : chain.application.id = stored.application.id := by
  obtain ⟨-, origin, -, -, hstored, hreplay, -⟩ := h
  rw [Chain.id_of_replay hreplay, hstored.id_eq]

/-- The derived chain has as many steps. -/
theorem fitsMemory_iff (h : Derives stored base rulings chain) : chain.FitsMemory ↔ stored.FitsMemory := by
  obtain ⟨-, origin, -, -, hstored, hreplay, -⟩ := h
  rw [Chain.fitsMemory_of_replay hreplay, hstored.fitsMemory_iff]

/-- The application was met in a chain that leads to the stored one. -/
theorem exists_first (h : Derives stored base rulings chain) :
    ∃ first : Chain, first.application.version = base ∧ first.Precedes stored := by
  obtain ⟨first, origin, hbase, hfirst, hstored, -⟩ := h
  exact ⟨first, hbase, hfirst.trans hstored⟩

/-- What derives from a stored chain still does when others have moved that one on. -/
theorem later (h : Derives stored base rulings chain) {later : Chain} (hlater : stored.Precedes later)
    (hmemory : later.FitsMemory) : Derives later base rulings chain := by
  obtain ⟨first, origin, rfl, hfirst, hstored, hreplay, -⟩ := h
  have horigin := hstored.trans hlater
  exact ⟨first, origin, rfl, hfirst, horigin, hreplay, hfirst.eq_of_between horigin hmemory⟩

/-- What derives from a chain that is in its base version is what the rulings make of that one. -/
theorem replay_of_version (h : Derives stored base rulings chain) (hversion : stored.application.version = base) :
    stored.replay? rulings = some chain := by
  obtain ⟨-, origin, -, -, -, hreplay, hexact⟩ := h
  exact hexact hversion ▸ hreplay

end Derives

/-- What a unit has written is what its rulings make of chains of the shelf. -/
structure Accounts (shelf : Shelf) (unit : Session) (rulings : List Ruling) : Prop where
  staged_nodup : (unit.staged.map Prod.fst).Nodup
  bases_nodup : (unit.bases.map Prod.fst).Nodup
  /-- A base version is that of a chain which leads to the one on the shelf. -/
  met : ∀ id base, unit.bases.lookup id = some base → ∃ first stored : Chain,
    first.application.version = base ∧ first.Precedes stored ∧ shelf.get? id = some stored
  unwritten : ∀ id, unit.staged.lookup id = none → Ruling.on id rulings = []
  written : ∀ id chain, unit.staged.lookup id = some chain → Ruling.on id rulings ≠ [] ∧
    ∃ base stored, unit.bases.lookup id = some base ∧ shelf.get? id = some stored ∧
      Derives stored base (Ruling.on id rulings) chain

namespace Accounts

variable {shelf : Shelf} {unit : Session} {rulings : List Ruling}

/-- A fresh unit accounts for nothing. -/
theorem fresh (shelf : Shelf) : Accounts shelf ⟨[], []⟩ [] :=
  ⟨List.nodup_nil, List.nodup_nil, by simp, by simp, by simp⟩

/-- What the unit sees lies under the id of its application. -/
theorem id_of_view (h : Accounts shelf unit rulings) (hkeyed : shelf.Keyed) {id : String}
    {chain : Chain} (hview : view shelf unit id = some chain) : chain.application.id = id := by
  unfold view at hview
  cases hstaged : unit.staged.lookup id with
  | none =>
    rw [hstaged, Option.none_or] at hview
    exact hkeyed id chain hview
  | some written =>
    rw [hstaged, Option.some_or, Option.some.injEq] at hview
    subst hview
    obtain ⟨-, base, stored, -, hstored, hderives⟩ := h.written id _ hstaged
    rw [hderives.id_eq, hkeyed id stored hstored]

/-- What the unit sees fits a memory, as the chains of the shelf do. -/
theorem fitsMemory_of_view (h : Accounts shelf unit rulings) (hmemory : Contents.FitMemory shelf.get?)
    {id : String} {chain : Chain} (hview : view shelf unit id = some chain) : chain.FitsMemory := by
  unfold view at hview
  cases hstaged : unit.staged.lookup id with
  | none =>
    rw [hstaged, Option.none_or] at hview
    exact hmemory id chain hview
  | some written =>
    rw [hstaged, Option.some_or, Option.some.injEq] at hview
    subst hview
    obtain ⟨-, base, stored, -, hstored, hderives⟩ := h.written id _ hstaged
    exact hderives.fitsMemory_iff.2 (hmemory id stored hstored)

/-- New base versions of chains that lead to those on the shelf do no harm. -/
theorem putNew_base (h : Accounts shelf unit rulings) {id : String} {version : Int}
    {stored : Chain} (hstored : shelf.get? id = some stored)
    (hversion : unit.bases.lookup id = none →
      ∃ first : Chain, first.application.version = version ∧ first.Precedes stored) :
    Accounts shelf { unit with bases := Entries.putNew id version unit.bases } rulings := by
  refine ⟨h.staged_nodup, Entries.nodup_keys_putNew _ _ h.bases_nodup, ?_, h.unwritten, ?_⟩
  · intro key base hbase
    rw [Entries.lookup_putNew, Option.or_eq_some_iff] at hbase
    rcases hbase with hbase | ⟨hnone, hnew⟩
    · exact h.met key base hbase
    · split at hnew
      · next hkey =>
        subst hkey
        cases hnew
        obtain ⟨first, hfirst, hprecedes⟩ := hversion hnone
        exact ⟨first, stored, hfirst, hprecedes, hstored⟩
      · contradiction
  · intro key written hstaged
    obtain ⟨hon, base, stored, hbase, hrest⟩ := h.written key written hstaged
    exact ⟨hon, base, stored, by rw [Entries.lookup_putNew, hbase, Option.some_or], hrest⟩

/-- A load changes nothing of what the unit accounts for. -/
theorem load (h : Accounts shelf unit rulings) (id : String) :
    Accounts shelf (Shelf.load shelf unit id).2 rulings := by
  unfold Shelf.load
  cases unit.staged.lookup id with
  | some chain => exact h
  | none =>
    cases hchain : shelf.get? id with
    | none => exact h
    | some chain => exact h.putNew_base hchain fun _ => ⟨chain, rfl, .refl chain⟩

/-- A load changes nothing of what the unit sees. -/
theorem view_load (shelf : Shelf) (unit : Session) (id : String) :
    view shelf (Shelf.load shelf unit id).2 = view shelf unit := by
  funext key
  rw [view, view, load_staged]

/-- A load of a chain leaves a base version for it and no other one. -/
theorem lookup_bases_load (h : Accounts shelf unit rulings) {id : String} {seen : Chain}
    (hseen : view shelf unit id = some seen) (key : String) :
    (Shelf.load shelf unit id).2.bases.lookup key =
      (unit.bases.lookup key).or (if key = id then some seen.application.version else none) := by
  unfold view at hseen
  unfold Shelf.load
  cases hstaged : unit.staged.lookup id with
  | some written =>
    obtain ⟨-, base, stored, hbase, -⟩ := h.written id written hstaged
    by_cases heq : key = id
    · rw [heq, hbase, Option.some_or]
    · rw [if_neg heq, Option.or_none]
  | none =>
    rw [hstaged, Option.none_or] at hseen
    simp only [hseen]
    exact Entries.lookup_putNew _ _ _ _

/-- What a unit sees derives from the stored chain by its rulings. -/
theorem derives_of_view (h : Accounts shelf unit rulings) {id : String} {chain : Chain}
    (hview : view shelf unit id = some chain) :
    ∃ stored, shelf.get? id = some stored ∧
      ∀ base, (unit.bases.lookup id).getD chain.application.version = base →
        Derives stored base (Ruling.on id rulings) chain := by
  unfold view at hview
  cases hstaged : unit.staged.lookup id with
  | some written =>
    rw [hstaged, Option.some_or, Option.some.injEq] at hview
    subst hview
    obtain ⟨-, base, stored, hbase, hstored, hderives⟩ := h.written id _ hstaged
    refine ⟨stored, hstored, ?_⟩
    intro base' hbase'
    subst hbase'
    simpa [hbase] using hderives
  | none =>
    rw [hstaged, Option.none_or] at hview
    refine ⟨chain, hview, ?_⟩
    intro base' hbase'
    subst hbase'
    rw [h.unwritten id hstaged]
    cases hbase : unit.bases.lookup id with
    | none => exact .nil rfl (.refl chain)
    | some base =>
      obtain ⟨first, stored, hfirst, hprecedes, hstored⟩ := h.met id base hbase
      rw [hview, Option.some.injEq] at hstored
      subst hstored
      exact .nil hfirst hprecedes

/-- The ruling of a record made on what the unit sees is accounted for, once the record is set aside. -/
theorem take (h : Accounts shelf unit rulings) (hkeyed : shelf.Keyed) {r : Ruling} {chain : Chain}
    {record : Record} (hview : view shelf unit r.id = some chain)
    (hdecide : chain.decide r.command r.pattern r.today = .ok record) :
    Accounts shelf (unit.take record) (rulings ++ [r]) := by
  have hid : record.chain.application.id = r.id :=
    (Chain.id_of_decide hdecide).trans (h.id_of_view hkeyed hview)
  have hruled : chain.replay? [r] = some record.chain := Chain.replay?_singleton hdecide
  obtain ⟨stored, hstored, hderives⟩ := h.derives_of_view hview
  have hmet : unit.bases.lookup r.id = none →
      ∃ first : Chain, first.application.version = chain.application.version ∧ first.Precedes stored :=
    fun hnone => (hderives _ (by rw [hnone, Option.getD_none])).exists_first
  have hbases := h.putNew_base hstored hmet
  have htaken : (unit.take record).bases = Entries.putNew r.id chain.application.version unit.bases := by
    rw [Session.take, hid, Chain.expectedVersion_of_decide hdecide]
  refine ⟨Entries.nodup_keys_put _ _ h.staged_nodup, htaken ▸ hbases.bases_nodup, htaken ▸ hbases.met, ?_, ?_⟩
  · intro id hstaged
    rw [lookup_staged_take, hid] at hstaged
    split at hstaged
    · contradiction
    · next hne =>
      rw [Ruling.on_concat_of_ne hne]
      exact h.unwritten id hstaged
  · intro id written hstaged
    rw [lookup_staged_take, hid] at hstaged
    rw [htaken]
    split at hstaged
    · next heq =>
      subst heq
      cases hstaged
      have hbase : (Entries.putNew r.id chain.application.version unit.bases).lookup r.id =
          some ((unit.bases.lookup r.id).getD chain.application.version) := by
        rw [Entries.lookup_putNew, if_pos rfl]
        cases unit.bases.lookup r.id <;> rfl
      rw [Ruling.on_concat_self]
      exact ⟨by simp, _, stored, hbase, hstored, (hderives _ rfl).append hruled⟩
    · next hne =>
      rw [Ruling.on_concat_of_ne hne]
      exact hbases.written id written hstaged

/-- Rulings that others commit take nothing away from what the unit accounts for, as long as versions tell the
chains apart. -/
theorem of_replay (h : Accounts shelf unit rulings) (hmemory : Contents.FitMemory shelf.get?) {after : Shelf}
    {others : List Ruling} (hreplay : Contents.replay? shelf.get? others = some after.get?) :
    Accounts after unit rulings := by
  have hfollows : ∀ id stored, shelf.get? id = some stored →
      ∃ later, after.get? id = some later ∧ stored.Precedes later := by
    intro id stored hstored
    obtain ⟨later, hlater, hchain⟩ := Contents.exists_after_of_replay hreplay hstored
    exact ⟨later, hlater, _, hchain⟩
  refine ⟨h.staged_nodup, h.bases_nodup, ?_, h.unwritten, ?_⟩
  · intro id base hbase
    obtain ⟨first, stored, hfirst, hprecedes, hstored⟩ := h.met id base hbase
    obtain ⟨later, hlater, hmoved⟩ := hfollows id stored hstored
    exact ⟨first, later, hfirst, hprecedes.trans hmoved, hlater⟩
  · intro id chain hstaged
    obtain ⟨hon, base, stored, hbase, hstored, hderives⟩ := h.written id chain hstaged
    obtain ⟨later, hlater, hmoved⟩ := hfollows id stored hstored
    have hfits : later.FitsMemory := hmoved.fitsMemory_iff.2 (hmemory id stored hstored)
    exact ⟨hon, base, later, hbase, hlater, hderives.later hmoved hfits⟩

/-- The unit accounts for its rulings on every shelf that shows the same chains. -/
theorem of_get?_eq (h : Accounts shelf unit rulings) {after : Shelf} (hsame : after.get? = shelf.get?) :
    Accounts after unit rulings :=
  ⟨h.staged_nodup, h.bases_nodup, by simpa only [hsame] using h.met, h.unwritten,
    by simpa only [hsame] using h.written⟩

/-- A unit has written an application exactly when it has ruled on it. -/
theorem staged_isSome_iff (h : Accounts shelf unit rulings) {id : String} :
    (unit.staged.lookup id).isSome = true ↔ Ruling.on id rulings ≠ [] := by
  cases hstaged : unit.staged.lookup id with
  | none => simp [h.unwritten id hstaged]
  | some chain => simpa using (h.written id chain hstaged).1

/-- A commit that finds no conflict leaves what the rulings make of the shelf. -/
theorem commit_ok (h : Accounts shelf unit rulings) (hconflict : conflict? shelf unit = none) :
    ∃ after, Shelf.commit shelf unit = (.ok (), after) ∧
      Contents.replay? shelf.get? rulings = some after.get? := by
  refine ⟨_, commit_of_conflict?_eq_none hconflict, Contents.replay?_eq_some_iff.2 fun id => ?_⟩
  have hafter : get? ⟨Entries.putAll unit.staged shelf.chains⟩ id =
      (unit.staged.lookup id).or (shelf.get? id) := Entries.lookup_putAll h.staged_nodup _ _
  rw [hafter]
  cases hstaged : unit.staged.lookup id with
  | none =>
    rw [h.unwritten id hstaged, Option.none_or]
    exact Contents.continues_nil_iff.2 rfl
  | some chain =>
    obtain ⟨-, base, stored, hbase, hstored, hderives⟩ := h.written id chain hstaged
    have hversion := conflict?_eq_none_iff.1 hconflict id base (Entries.mem_of_lookup hbase)
      (by simp [hstaged])
    rw [storedVersion?, hstored, Option.map_some, Option.some.injEq] at hversion
    -- The stored chain is still in its base version, so it is the one that the unit started from.
    rw [hstored, Option.some_or]
    exact .present (hderives.replay_of_version hversion)

end Accounts

/-- Rulings leave every chain under the id of its application. -/
theorem Keyed.of_replay {shelf after : Shelf} {rulings : List Ruling} (h : shelf.Keyed)
    (hreplay : Contents.replay? shelf.get? rulings = some after.get?) : after.Keyed := by
  intro id chain hchain
  obtain ⟨before, hbefore, hreplay⟩ := Contents.exists_before_of_replay hreplay hchain
  rw [Chain.id_of_replay hreplay, h id before hbefore]

/-- A shelf that chains have been inserted into one after another. -/
def ofChains (chains : List Chain) : Shelf := chains.foldl insert empty

/-- Chains are inserted under the id of their application. -/
theorem keyed_ofChains (chains : List Chain) : (ofChains chains).Keyed := by
  suffices h : ∀ shelf : Shelf, shelf.Keyed → (chains.foldl insert shelf).Keyed from
    h empty fun id chain hchain => by simp [empty, get?] at hchain
  induction chains with
  | nil => exact fun _ h => h
  | cons chain rest ih =>
    intro shelf h
    apply ih _
    intro id other hother
    by_cases hid : id = chain.application.id
    · subst hid
      rw [get?_insert_self, Option.some.injEq] at hother
      rw [hother]
    · rw [get?_insert_of_ne _ _ hid] at hother
      exact h id other hother

/-- A chain on a shelf is one of those inserted. -/
theorem mem_of_get?_ofChains {chains : List Chain} {id : String} {chain : Chain}
    (h : (ofChains chains).get? id = some chain) : chain ∈ chains := by
  suffices hfold : ∀ (shelf : Shelf), (chains.foldl insert shelf).get? id = some chain →
      chain ∈ chains ∨ shelf.get? id = some chain by
    rcases hfold empty h with hmem | hempty
    · exact hmem
    · simp [empty, get?] at hempty
  clear h
  induction chains with
  | nil => exact fun shelf h => Or.inr h
  | cons first rest ih =>
    intro shelf h
    rcases ih _ h with hmem | hinsert
    · exact Or.inl (List.mem_cons_of_mem _ hmem)
    · by_cases hid : id = first.application.id
      · rw [hid, get?_insert_self, Option.some.injEq] at hinsert
        exact Or.inl (hinsert ▸ List.mem_cons_self)
      · rw [get?_insert_of_ne _ _ hid] at hinsert
        exact Or.inr hinsert

/-- A shelf that chains which fit a memory have been inserted into shows such chains only. -/
theorem fitMemory_ofChains {chains : List Chain} (h : ∀ chain ∈ chains, chain.FitsMemory) :
    Contents.FitMemory (ofChains chains).get? :=
  fun _ chain hchain => h chain (mem_of_get?_ofChains hchain)

/-- The unit has written nothing on an application, and keeps what it has written under the ids of others. -/
structure Untouched (id : String) (unit : Session) : Prop where
  unwritten : unit.staged.lookup id = none
  staged_nodup : (unit.staged.map Prod.fst).Nodup
  keyed : ∀ key chain, unit.staged.lookup key = some chain → chain.application.id = key

namespace Untouched

variable {shelf : Shelf} {unit : Session} {id : String}

/-- A fresh unit has written nothing. -/
theorem fresh (id : String) : Untouched id ⟨[], []⟩ := ⟨rfl, List.nodup_nil, by simp⟩

/-- Only what a unit has written matters. -/
theorem of_staged_eq (h : Untouched id unit) {unit' : Session} (hsame : unit'.staged = unit.staged) :
    Untouched id unit' :=
  ⟨hsame ▸ h.unwritten, hsame ▸ h.staged_nodup, hsame ▸ h.keyed⟩

/-- What the unit sees lies under the id of its application. -/
theorem id_of_view (h : Untouched id unit) (hkeyed : shelf.Keyed) {key : String} {chain : Chain}
    (hview : view shelf unit key = some chain) : chain.application.id = key := by
  rcases Option.or_eq_some_iff.1 hview with hstaged | ⟨-, hstored⟩
  · exact h.keyed key chain hstaged
  · exact hkeyed key chain hstored

/-- The record of a decision on what the unit sees falls on another application, where the chain of this one
awaits no decision. -/
theorem store (h : Untouched id unit) (hkeyed : shelf.Keyed) {closed : Chain} (hclosed : shelf.get? id = some closed)
    (hnone : closed.cursor? = none) {key : String} {chain : Chain} {command : Command} {pattern : String}
    {today : Date} {record : Record} (hview : view shelf unit key = some chain)
    (hdecide : chain.decide command pattern today = .ok record) :
    Untouched id (Shelf.store shelf unit record).2 := by
  have hrecord : record.chain.application.id = key := (Chain.id_of_decide hdecide).trans (h.id_of_view hkeyed hview)
  have hne : id ≠ key := by
    rintro rfl
    rw [view, h.unwritten, Option.none_or, hclosed, Option.some.injEq] at hview
    obtain ⟨cursor, hcursor, -⟩ := Chain.decide_eq_ok_iff.1 hdecide
    simp [← hview, hnone] at hcursor
  rw [store_eq]
  split
  · refine ⟨?_, Entries.nodup_keys_put _ _ h.staged_nodup, fun other written hwritten => ?_⟩
    · rw [lookup_staged_take, hrecord, if_neg hne]
      exact h.unwritten
    · rw [lookup_staged_take, hrecord] at hwritten
      split at hwritten
      · next heq =>
        cases hwritten
        rw [heq, hrecord]
      · exact h.keyed other written hwritten
  · exact h

/-- A commit leaves the chain of the application where it is. -/
theorem commit (h : Untouched id unit) (hkeyed : shelf.Keyed) {closed : Chain} (hclosed : shelf.get? id = some closed) :
    (Shelf.commit shelf unit).2.Keyed ∧ (Shelf.commit shelf unit).2.get? id = some closed := by
  cases hconflict : conflict? shelf unit with
  | some key =>
    rw [Shelf.commit, hconflict]
    exact ⟨hkeyed, hclosed⟩
  | none =>
    have hafter (key : String) : get? ⟨Entries.putAll unit.staged shelf.chains⟩ key =
        (unit.staged.lookup key).or (shelf.get? key) := Entries.lookup_putAll h.staged_nodup _ _
    rw [commit_of_conflict?_eq_none hconflict]
    refine ⟨fun key chain hchain => ?_, ?_⟩
    · rw [hafter] at hchain
      exact h.id_of_view hkeyed hchain
    · rw [hafter, h.unwritten, Option.none_or, hclosed]

end Untouched

instance : SideBySide Shelf := ⟨true⟩

instance : SerialStore Shelf Session where
  Readable := Keyed
  contents := get?
  view := view
  Accounts := Accounts
  openUnit_eq {shelf} _ := ⟨⟨[], []⟩, rfl, Accounts.fresh shelf, by funext id; simp [view]⟩
  load_eq {shelf unit rulings} id _ h :=
    ⟨_, by rw [← load_fst]; rfl, h.load id, Accounts.view_load shelf unit id⟩
  store_eq hkeyed h hview hdecide :=
    ⟨_, store_of_decide ((h.id_of_view hkeyed hview).symm ▸ hview) hdecide rfl, h.take hkeyed hview hdecide⟩
  commit_ok {shelf after unit rulings} hkeyed h hcommit := by
    have hcommit : commit shelf unit = (.ok (), after) := hcommit
    have hconflict : conflict? shelf unit = none := by
      unfold commit at hcommit
      cases hconflict : conflict? shelf unit with
      | none => rfl
      | some id => simp [hconflict] at hcommit
    obtain ⟨after', hafter, hreplay⟩ := h.commit_ok hconflict
    rw [hcommit, Prod.mk.injEq] at hafter
    rw [← hafter.2] at hreplay
    exact ⟨hkeyed.of_replay hreplay, hreplay⟩
  commit_error {shelf after unit refusal} hcommit := by
    have hcommit : commit shelf unit = (.error refusal, after) := hcommit
    unfold commit at hcommit
    cases hconflict : conflict? shelf unit with
    | none => simp [hconflict] at hcommit
    | some id =>
      simp only [hconflict, Prod.mk.injEq] at hcommit
      exact hcommit.2.symm
  accounts_of_replay {shelf after unit rulings others} hothers h hreplay := by
    rcases hothers with ⟨-, hmemory⟩ | rfl
    · exact h.of_replay hmemory hreplay
    · exact h.of_get?_eq (Option.some.inj hreplay).symm
  Leaves id _ unit := Untouched id unit
  keeps_closed hnone :=
    { openUnit := fun {shelf unit} _ hopen => by
        obtain rfl : ⟨[], []⟩ = unit := Except.ok.inj hopen
        exact .fresh _
      load := fun {shelf unit} id _ h => h.of_staged_eq (load_staged shelf unit id)
      store := fun {shelf unit unit' command _ _ chain _} hshelf h hload hdecide => by
        have hchain : (load shelf unit command.applicationId).1 = some chain :=
          Except.ok.inj (congrArg Prod.fst hload)
        obtain rfl : (load shelf unit command.applicationId).2 = unit' := congrArg Prod.snd hload
        have hview : view shelf (load shelf unit command.applicationId).2 command.applicationId = some chain := by
          rw [Accounts.view_load, ← load_fst, hchain]
        exact (h.of_staged_eq (load_staged ..)).store hshelf.1 hshelf.2 hnone hview hdecide
      commit := fun {shelf unit} hshelf h => h.commit hshelf.1 hshelf.2 }

end Shelf

end SignOff
