import SignOff.Proofs.Approval.Submitting
import SignOff.Proofs.Store.ShelfUnits

/-!
# Interleaved units on a shelf

Any number of units work on a shelf, and their single steps follow one another in any order: a unit is
started, loads a chain, stores the record of a decision on what it has last loaded, is committed or rolled
back. Between the load and the store of one decision other units may have been at work.

Whatever the order, the chains of the shelf are what the committed units make of the first chains, one
whole unit after another. A commit fails exactly when an application that the unit has written was committed
since the unit first read it. For this versions must not come round again between a load and a commit, and they
do not, as a chain that fits a memory has fewer steps than there are versions.
-/

namespace SignOff.Shelf

/-- A unit at work on a shelf. -/
structure Worker where
  session : Session
  /-- The decisions that the unit has stored, in order. -/
  rulings : List Ruling
  /-- The chains that the unit has last loaded. -/
  last : Contents
  /-- The number of commits there were when the unit first read an application. -/
  met : List (String × Nat)

/-- A shelf with the units at work on it by name, and the rulings of each commit. -/
structure World where
  shelf : Shelf
  workers : List (String × Worker)
  commits : List (List Ruling)

/-- A single step of a unit. -/
inductive Move where
  | start (name : String)
  | load (name id : String)
  | store (name : String) (r : Ruling)
  | commit (name : String)
  /-- Rolls a unit back or drops it. -/
  | rollback (name : String)

namespace Worker

/-- A unit that has done nothing yet. -/
def fresh : Worker := ⟨⟨[], []⟩, [], fun _ => none, []⟩

/-- The unit after loading a chain, when there have been `count` commits. -/
def load (worker : Worker) (shelf : Shelf) (count : Nat) (id : String) : Worker :=
  let (chain, session) := Shelf.load shelf worker.session id
  { worker with
    session := session
    last := Function.update worker.last id chain
    met := if chain.isSome then Entries.putNew id count worker.met else worker.met }

/-- The unit after deciding on the chain that it has last loaded and storing the record. -/
def store (worker : Worker) (shelf : Shelf) (r : Ruling) : Worker :=
  match worker.last r.id with
  | none => worker
  | some chain =>
    match chain.decide r.command r.pattern r.today with
    | .error _ => worker
    | .ok record =>
      match Shelf.store shelf worker.session record with
      | (.ok (), session) => { worker with session := session, rulings := worker.rulings ++ [r] }
      | (.error _, session) => { worker with session := session }

end Worker

namespace World

/-- A shelf that nobody works on. -/
def ofShelf (shelf : Shelf) : World := ⟨shelf, [], []⟩

/-- The world without the unit of a name. -/
def close (world : World) (name : String) : World :=
  { world with workers := world.workers.filter fun entry => entry.1 ≠ name }

/-- The world with the unit of a name further on. -/
def onWorker (world : World) (name : String) (work : Worker → Worker) : World :=
  match world.workers.lookup name with
  | none => world
  | some worker => { world with workers := Entries.put name (work worker) world.workers }

/-- The world after a step of one unit. -/
def step (world : World) : Move → World
  | .start name => { world with workers := Entries.put name .fresh world.workers }
  | .load name id => world.onWorker name fun worker => worker.load world.shelf world.commits.length id
  | .store name r => world.onWorker name fun worker => worker.store world.shelf r
  | .commit name =>
    match world.workers.lookup name with
    | none => world
    | some worker =>
      match Shelf.commit world.shelf worker.session with
      | (.ok (), shelf) =>
        { world.close name with shelf := shelf, commits := world.commits ++ [worker.rulings] }
      | (.error _, shelf) => { world.close name with shelf := shelf }
  | .rollback name => world.close name

/-- The world after one step after another. -/
def run (world : World) (moves : List Move) : World := moves.foldl step world

end World

namespace Worker

/-- A unit knows an application's base version and when it first read it, or neither.

Since then the committed decisions have led from a chain in the base version to the one on the shelf. -/
def Knows (shelf : Shelf) (commits : List (List Ruling)) (worker : Worker) (id : String) : Prop :=
  worker.session.bases.lookup id = none ∧ worker.met.lookup id = none ∨
    ∃ (count : Nat) (first stored : Chain), worker.session.bases.lookup id = some first.application.version ∧
      worker.met.lookup id = some count ∧ count ≤ commits.length ∧ shelf.get? id = some stored ∧
      first.replay? (Ruling.on id (commits.drop count).flatten) = some stored

/-- The chain of an application after the first `count` commits. -/
def CommittedAt (initial : Contents) (commits : List (List Ruling)) (count : Nat) (id : String)
    (chain : Chain) : Prop :=
  ∃ contents, initial.replay? (commits.take count).flatten = some contents ∧ contents id = some chain

/-- What a unit has loaded and written fits the chains that have been committed. -/
structure Follows (initial : Contents) (shelf : Shelf) (commits : List (List Ruling)) (worker : Worker) :
    Prop where
  accounts : shelf.Accounts worker.session worker.rulings
  knows : ∀ id, worker.Knows shelf commits id
  /-- Decisions lead from what was last loaded to what the unit sees. -/
  last : ∀ id chain, worker.last id = some chain → chain.application.id = id ∧
    (worker.session.bases.lookup id).isSome = true ∧
    ∃ seen, view shelf worker.session id = some seen ∧ chain.Precedes seen
  /-- What the unit has written is its own decisions on a chain that was committed after the first read. -/
  written : ∀ id chain, worker.session.staged.lookup id = some chain →
    ∃ first count origin, worker.met.lookup id = some first ∧ first ≤ count ∧ count ≤ commits.length ∧
      CommittedAt initial commits count id origin ∧
      origin.replay? (Ruling.on id worker.rulings) = some chain

variable {initial : Contents} {shelf : Shelf} {commits : List (List Ruling)} {worker : Worker}

/-- The first `count` commits stay the first when others follow. -/
theorem CommittedAt.append {count : Nat} {id : String} {chain : Chain}
    (h : CommittedAt initial commits count id chain) (hcount : count ≤ commits.length)
    (more : List (List Ruling)) : CommittedAt initial (commits ++ more) count id chain := by
  unfold CommittedAt
  rwa [List.take_append_of_le_length hcount]

/-- A unit that has done nothing fits everything. -/
theorem Follows.fresh (initial : Contents) (shelf : Shelf) (commits : List (List Ruling)) :
    Follows initial shelf commits .fresh where
  accounts := Accounts.fresh shelf
  knows id := Or.inl ⟨rfl, rfl⟩
  last := by simp [Worker.fresh]
  written := by simp [Worker.fresh]

/-- A unit that has a base version of an application has met it. -/
theorem Follows.met_of_base (h : Follows initial shelf commits worker) {id : String}
    (hbase : (worker.session.bases.lookup id).isSome = true) :
    ∃ first, worker.met.lookup id = some first ∧ first ≤ commits.length := by
  rcases h.knows id with ⟨hnone, -⟩ | ⟨count, first, stored, -, hcount, hle, -⟩
  · simp [hnone] at hbase
  · exact ⟨count, hcount, hle⟩

/-- What a unit sees is its own decisions on a chain that was committed after the first read. -/
theorem Follows.replay_of_seen (h : Follows initial shelf commits worker)
    (hlineage : initial.replay? commits.flatten = some shelf.get?) {id : String} {first : Nat}
    (hfirst : worker.met.lookup id = some first) (hle : first ≤ commits.length) {seen : Chain}
    (hseen : view shelf worker.session id = some seen) :
    ∃ count origin, first ≤ count ∧ count ≤ commits.length ∧
      CommittedAt initial commits count id origin ∧
      origin.replay? (Ruling.on id worker.rulings) = some seen := by
  unfold view at hseen
  cases hstaged : worker.session.staged.lookup id with
  | none =>
    rw [hstaged, Option.none_or] at hseen
    refine ⟨commits.length, seen, hle, Nat.le_refl _, ⟨shelf.get?, ?_, hseen⟩, ?_⟩
    · rw [List.take_length]
      exact hlineage
    · rw [h.accounts.unwritten id hstaged]
      rfl
  | some written =>
    rw [hstaged, Option.some_or, Option.some.injEq] at hseen
    subst hseen
    obtain ⟨first', count, origin, hfirst', hrest⟩ := h.written id _ hstaged
    rw [hfirst, Option.some.injEq] at hfirst'
    subst hfirst'
    exact ⟨count, origin, hrest⟩

/-- A record made on what the unit sees fits what has been committed, once it is set aside. -/
theorem Follows.take (h : Follows initial shelf commits worker) (hkeyed : shelf.Keyed)
    (hlineage : initial.replay? commits.flatten = some shelf.get?) {r : Ruling} {chain : Chain}
    {record : Record} (hlast : worker.last r.id = some chain)
    (hseen : view shelf worker.session r.id = some chain)
    (hdecide : chain.decide r.command r.pattern r.today = .ok record) :
    Follows initial shelf commits
      { worker with session := worker.session.take record, rulings := worker.rulings ++ [r] } := by
  obtain ⟨hid, hbase, -⟩ := h.last r.id chain hlast
  obtain ⟨first, hfirst, hle⟩ := h.met_of_base hbase
  have hrecord : record.chain.application.id = r.id := (Chain.id_of_decide hdecide).trans hid
  have hbases : (worker.session.take record).bases = worker.session.bases := by
    rw [Session.take, hrecord]
    exact if_pos hbase
  have hview := view_take shelf worker.session record
  rw [hrecord] at hview
  refine ⟨h.accounts.take hkeyed hseen hdecide, ?_, ?_, ?_⟩
  · intro id
    unfold Worker.Knows
    rw [hbases]
    exact h.knows id
  · intro id other hother
    obtain ⟨hotherId, hotherBase, seen, hotherSeen, hprecedes⟩ := h.last id other hother
    simp only [hbases, hview]
    refine ⟨hotherId, hotherBase, ?_⟩
    by_cases heq : id = r.id
    · subst heq
      rw [hlast, Option.some.injEq] at hother
      subst hother
      exact ⟨record.chain, Function.update_self .., [r], Chain.replay?_singleton hdecide⟩
    · exact ⟨seen, by rw [Function.update_of_ne heq]; exact hotherSeen, hprecedes⟩
  · intro id written hwritten
    simp only [lookup_staged_take, hrecord] at hwritten
    by_cases heq : id = r.id
    · subst heq
      rw [if_pos rfl, Option.some.injEq] at hwritten
      subst hwritten
      obtain ⟨count, origin, hcount, hle', horigin, hreplay⟩ :=
        h.replay_of_seen hlineage hfirst hle hseen
      refine ⟨first, count, origin, hfirst, hcount, hle', horigin, ?_⟩
      rw [Ruling.on_concat_self, Chain.replay?_append, hreplay]
      exact Chain.replay?_singleton hdecide
    · rw [if_neg heq] at hwritten
      rw [Ruling.on_concat_of_ne heq]
      exact h.written id written hwritten

/-- A decision that is stored or refused fits what has been committed. -/
theorem Follows.store (h : Follows initial shelf commits worker) (hkeyed : shelf.Keyed)
    (hmemory : Contents.FitMemory shelf.get?) (hlineage : initial.replay? commits.flatten = some shelf.get?)
    (r : Ruling) : Follows initial shelf commits (worker.store shelf r) := by
  cases hlast : worker.last r.id with
  | none => simpa only [Worker.store, hlast] using h
  | some chain =>
    obtain ⟨hid, -, seen, hseen, hprecedes⟩ := h.last r.id chain hlast
    have hsees : view shelf worker.session chain.application.id = some seen := hid.symm ▸ hseen
    cases hdecide : chain.decide r.command r.pattern r.today with
    | error refusal => simpa only [Worker.store, hlast, hdecide] using h
    | ok record =>
      by_cases hversion : seen.application.version = chain.application.version
      · have hstore := store_of_decide hsees hdecide hversion
        have hfits := h.accounts.fitsMemory_of_view hmemory hseen
        obtain rfl := hprecedes.eq_of_version hfits hversion
        simpa only [Worker.store, hlast, hdecide, hstore] using h.take hkeyed hlineage hlast hseen hdecide
      · have hrefused := store_of_decide_of_ne hsees hdecide hversion
        simpa only [Worker.store, hlast, hdecide, hrefused] using h

/-- A load of a chain that is there fits what has been committed. -/
theorem Follows.load_of_seen (h : Follows initial shelf commits worker) (hkeyed : shelf.Keyed) {id : String}
    {seen : Chain} (hseen : view shelf worker.session id = some seen) :
    Follows initial shelf commits
      { worker with
        session := (Shelf.load shelf worker.session id).2
        last := Function.update worker.last id (some seen)
        met := Entries.putNew id commits.length worker.met } := by
  have hview := Accounts.view_load shelf worker.session id
  have hstaged := load_staged shelf worker.session id
  have hbases := h.accounts.lookup_bases_load hseen
  have hmet := fun key => Entries.lookup_putNew id key commits.length worker.met
  refine ⟨h.accounts.load id, fun key => ?_, fun key chain hchain => ?_, fun key chain hchain => ?_⟩
  · unfold Worker.Knows
    simp only [hbases, hmet]
    rcases h.knows key with ⟨hbase, hcount⟩ | ⟨count, first, stored, hbase, hcount, hrest⟩
    · by_cases heq : key = id
      · subst heq
        have hunwritten : worker.session.staged.lookup key = none := by
          cases hwritten : worker.session.staged.lookup key with
          | none => rfl
          | some written =>
            obtain ⟨-, base, stored, hsome, -⟩ := h.accounts.written key written hwritten
            simp [hbase] at hsome
        rw [view, hunwritten, Option.none_or] at hseen
        refine Or.inr ⟨commits.length, seen, seen, by simp [hbase], by simp [hcount], Nat.le_refl _, hseen, ?_⟩
        simp
      · exact Or.inl ⟨by simp [hbase, heq], by simp [hcount, heq]⟩
    · exact Or.inr ⟨count, first, stored, by simp [hbase], by simp [hcount], hrest⟩
  · simp only [hview, hbases]
    by_cases heq : key = id
    · subst heq
      change Function.update worker.last key (some seen) key = some chain at hchain
      rw [Function.update_self, Option.some.injEq] at hchain
      subst hchain
      exact ⟨h.accounts.id_of_view hkeyed hseen, by simp, seen, hseen,
        Chain.Precedes.refl seen⟩
    · change Function.update worker.last id (some seen) key = some chain at hchain
      rw [Function.update_of_ne heq] at hchain
      obtain ⟨hid, hbase, hrest⟩ := h.last key chain hchain
      exact ⟨hid, by simp [Option.isSome_or, hbase], hrest⟩
  · simp only [hstaged] at hchain
    obtain ⟨first, count, origin, hfirst, hrest⟩ := h.written key chain hchain
    exact ⟨first, count, origin, by simp [hmet, hfirst], hrest⟩

/-- A load fits what has been committed. -/
theorem Follows.load (h : Follows initial shelf commits worker) (hkeyed : shelf.Keyed) (id : String) :
    Follows initial shelf commits (worker.load shelf commits.length id) := by
  have hfst := load_fst shelf worker.session id
  unfold Worker.load
  cases hseen : view shelf worker.session id with
  | some seen =>
    simpa only [hfst, hseen, Option.isSome_some, if_true] using h.load_of_seen hkeyed hseen
  | none =>
    have hsame : (Shelf.load shelf worker.session id).2 = worker.session := by
      obtain ⟨hstaged, hstored⟩ := Option.or_eq_none_iff.1 hseen
      simp only [Shelf.load, hstaged, hstored]
    simp only [hfst, hseen, hsame, Option.isSome_none, Bool.false_eq_true, if_false]
    refine ⟨h.accounts, h.knows, fun key chain hchain => ?_, h.written⟩
    change Function.update worker.last id none key = some chain at hchain
    by_cases heq : key = id
    · rw [heq, Function.update_self] at hchain
      contradiction
    · rw [Function.update_of_ne heq] at hchain
      exact h.last key chain hchain

/-- The commit of another unit fits too. -/
theorem Follows.of_commit (h : Follows initial shelf commits worker) (hmemory : Contents.FitMemory shelf.get?)
    {after : Shelf} {others : List Ruling} (hreplay : Contents.replay? shelf.get? others = some after.get?) :
    Follows initial after (commits ++ [others]) worker := by
  have hfollows (id : String) (stored : Chain) (hstored : shelf.get? id = some stored) :
      ∃ later, after.get? id = some later ∧ stored.replay? (Ruling.on id others) = some later :=
    Contents.exists_after_of_replay hreplay hstored
  refine ⟨h.accounts.of_replay hmemory hreplay, fun id => ?_, fun id chain hchain => ?_, fun id chain hchain => ?_⟩
  · rcases h.knows id with hnone | ⟨count, first, stored, hbase, hcount, hle, hstored, hmoved⟩
    · exact Or.inl hnone
    · obtain ⟨later, hlater, hchain⟩ := hfollows id stored hstored
      refine Or.inr ⟨count, first, later, hbase, hcount, by rw [List.length_append]; omega, hlater, ?_⟩
      rw [List.drop_append_of_le_length hle, List.flatten_append, Ruling.on_append, Chain.replay?_append, hmoved]
      simpa using hchain
  · obtain ⟨hid, hbase, seen, hseen, hprecedes⟩ := h.last id chain hchain
    refine ⟨hid, hbase, ?_⟩
    unfold view at hseen ⊢
    cases hstaged : worker.session.staged.lookup id with
    | some written =>
      rw [hstaged] at hseen
      exact ⟨seen, hseen, hprecedes⟩
    | none =>
      rw [hstaged, Option.none_or] at hseen
      obtain ⟨later, hlater, hreplay⟩ := hfollows id seen hseen
      exact ⟨later, hlater, hprecedes.trans ⟨_, hreplay⟩⟩
  · obtain ⟨first, count, origin, hfirst, hcount, hle, horigin, hchain⟩ := h.written id chain hchain
    exact ⟨first, count, origin, hfirst, hcount, by rw [List.length_append]; omega,
      horigin.append hle [others], hchain⟩

end Worker

namespace World

/-- The shelf shows what the commits make of the first chains, and every unit fits them. -/
structure Serial (initial : Contents) (world : World) : Prop where
  lineage : initial.replay? world.commits.flatten = some world.shelf.get?
  keyed : world.shelf.Keyed
  memory : Contents.FitMemory world.shelf.get?
  workers : ∀ name worker, world.workers.lookup name = some worker →
    worker.Follows initial world.shelf world.commits

variable {initial : Contents} {world : World}

/-- A shelf that nobody works on shows its first chains. -/
theorem serial_ofShelf {shelf : Shelf} (h : shelf.Keyed) (hmemory : Contents.FitMemory shelf.get?) :
    Serial shelf.get? (ofShelf shelf) :=
  ⟨rfl, h, hmemory, by simp [ofShelf]⟩

/-- Closing a unit leaves the others as they are. -/
theorem Serial.close (h : Serial initial world) (name : String) : Serial initial (world.close name) := by
  refine ⟨h.lineage, h.keyed, h.memory, fun other worker hother => ?_⟩
  exact h.workers other worker (Entries.lookup_of_filter_ne hother)

/-- A unit that fits can be put in the place of another one. -/
theorem Serial.put (h : Serial initial world) (name : String) {worker : Worker}
    (hworker : worker.Follows initial world.shelf world.commits) :
    Serial initial { world with workers := Entries.put name worker world.workers } := by
  refine ⟨h.lineage, h.keyed, h.memory, fun other found hfound => ?_⟩
  rcases Entries.lookup_of_put hfound with rfl | hfound
  · exact hworker
  · exact h.workers other found hfound

/-- A unit that goes on and fits keeps the world serial. -/
theorem Serial.onWorker (h : Serial initial world) (name : String) {work : Worker → Worker}
    (hwork : ∀ worker, worker.Follows initial world.shelf world.commits →
      (work worker).Follows initial world.shelf world.commits) : Serial initial (world.onWorker name work) := by
  unfold World.onWorker
  cases hname : world.workers.lookup name with
  | none => exact h
  | some worker => exact h.put name (hwork worker (h.workers name worker hname))

/-- A commit that goes through makes the unit the last of the commits. -/
theorem Serial.commit (h : Serial initial world) {name : String} {worker : Worker} {after : Shelf}
    (hname : world.workers.lookup name = some worker)
    (hcommit : UnitStore.commit world.shelf worker.session = (.ok (), after)) :
    Serial initial
      { world.close name with shelf := after, commits := world.commits ++ [worker.rulings] } := by
  obtain ⟨hkeyed, hreplay⟩ : after.Keyed ∧
      Contents.replay? world.shelf.get? worker.rulings = some after.get? :=
    SerialStore.commit_ok h.keyed (h.workers name worker hname).accounts hcommit
  refine ⟨?_, hkeyed, h.memory.replay hreplay, fun other found hfound => ?_⟩
  · rw [List.flatten_append, Contents.replay?_append, h.lineage]
    simpa using hreplay
  · exact ((h.close name).workers other found hfound).of_commit h.memory hreplay

/-- Every step keeps the world serial. -/
theorem Serial.step (h : Serial initial world) (move : Move) : Serial initial (world.step move) := by
  cases move with
  | start name => exact h.put name (Worker.Follows.fresh ..)
  | load name id => exact h.onWorker name fun worker hworker => hworker.load h.keyed id
  | store name r => exact h.onWorker name fun worker hworker => hworker.store h.keyed h.memory h.lineage r
  | rollback name => exact h.close name
  | commit name =>
    simp only [World.step]
    split
    · exact h
    · next worker hname =>
      split
      · next after hcommit => exact h.commit hname hcommit
      · next refusal after hcommit =>
        have hsame : after = world.shelf := SerialStore.commit_error (s := world.shelf) hcommit
        rw [hsame]
        exact h.close name

/-- Every run keeps the world serial. -/
theorem Serial.run (h : Serial initial world) (moves : List Move) : Serial initial (world.run moves) := by
  induction moves generalizing world with
  | nil => exact h
  | cons move rest ih => exact ih (h.step move)

/-- The unit has written the application, which was committed since the unit first read it. -/
def Overtaken (world : World) (worker : Worker) (id : String) : Prop :=
  Ruling.on id worker.rulings ≠ [] ∧ ∃ first, worker.met.lookup id = some first ∧
    Ruling.on id (world.commits.drop first).flatten ≠ []

/-- A unit is overtaken on what it has written under an outdated base version. -/
theorem Serial.overtaken_iff (h : Serial initial world) {name : String} {worker : Worker}
    (hname : world.workers.lookup name = some worker) {id : String} :
    world.Overtaken worker id ↔ (worker.session.staged.lookup id).isSome = true ∧
      ∃ base, (id, base) ∈ worker.session.bases ∧ storedVersion? world.shelf id ≠ some base := by
  have hworker := h.workers name worker hname
  rw [Overtaken, hworker.accounts.staged_isSome_iff, and_congr_right_iff]
  intro _
  constructor
  · intro hfirst
    obtain ⟨first, hfirst, hothers⟩ := hfirst
    rcases hworker.knows id with ⟨-, hnone⟩ | ⟨count, met, stored, hbase, hcount, -, hstored, hmoved⟩
    · simp [hnone] at hfirst
    · rw [hfirst, Option.some.injEq] at hcount
      subst hcount
      refine ⟨met.application.version, Entries.mem_of_lookup hbase, fun hsame => ?_⟩
      rw [storedVersion?, hstored, Option.map_some, Option.some.injEq] at hsame
      have hfits : met.FitsMemory := (Chain.fitsMemory_of_replay hmoved).1 (h.memory id stored hstored)
      exact hothers (Chain.eq_nil_of_version hfits hmoved hsame)
  · intro hbase
    obtain ⟨base, hmem, hother⟩ := hbase
    have hbase := Entries.lookup_of_mem hworker.accounts.bases_nodup hmem
    rcases hworker.knows id with ⟨hnone, -⟩ | ⟨count, met, stored, hbase', hcount, -, hstored, hmoved⟩
    · simp [hnone] at hbase
    · rw [hbase, Option.some.injEq] at hbase'
      subst hbase'
      refine ⟨count, hcount, fun hnil => hother ?_⟩
      rw [hnil, Chain.replay?_nil, Option.some.injEq] at hmoved
      rw [storedVersion?, hstored, hmoved, Option.map_some]

/-- The commit of a unit: its decisions, in order, on the chains just before, or nothing. -/
theorem Serial.commit_eq (h : Serial initial world) {name : String} {worker : Worker}
    (hname : world.workers.lookup name = some worker) :
    ((∀ id, ¬world.Overtaken worker id) ∧ ∃ after,
        Shelf.commit world.shelf worker.session = (.ok (), after) ∧
        Contents.replay? world.shelf.get? worker.rulings = some after.get?) ∨
      ∃ id, world.Overtaken worker id ∧
        Shelf.commit world.shelf worker.session = (.error (.concurrentModification id), world.shelf) := by
  have hworker := h.workers name worker hname
  cases hconflict : conflict? world.shelf worker.session with
  | none =>
    refine Or.inl ⟨fun id hovertaken => ?_, hworker.accounts.commit_ok hconflict⟩
    obtain ⟨hstaged, base, hmem, hother⟩ := (h.overtaken_iff hname).1 hovertaken
    exact hother (conflict?_eq_none_iff.1 hconflict id base hmem hstaged)
  | some id =>
    obtain ⟨base, hmem, hstaged, hother⟩ := conflict?_eq_some hconflict
    refine Or.inr ⟨id, (h.overtaken_iff hname).2 ⟨hstaged, base, hmem, hother⟩, ?_⟩
    rw [Shelf.commit, hconflict]

/-- A unit loads committed chains, and its own decisions on them where it has made some. -/
theorem Serial.load_eq (h : Serial initial world) {name : String} {worker : Worker}
    (hname : world.workers.lookup name = some worker) (id : String) :
    (Ruling.on id worker.rulings = [] ∧
        (Shelf.load world.shelf worker.session id).1 = world.shelf.get? id) ∨
      Ruling.on id worker.rulings ≠ [] ∧ ∃ first count origin chain,
        worker.met.lookup id = some first ∧ first ≤ count ∧ count ≤ world.commits.length ∧
          Worker.CommittedAt initial world.commits count id origin ∧
          origin.replay? (Ruling.on id worker.rulings) = some chain ∧
          (Shelf.load world.shelf worker.session id).1 = some chain := by
  have hworker := h.workers name worker hname
  rw [load_fst, view]
  cases hstaged : worker.session.staged.lookup id with
  | none => exact Or.inl ⟨hworker.accounts.unwritten id hstaged, by rw [Option.none_or]⟩
  | some chain =>
    obtain ⟨first, count, origin, hfirst, hcount, hle, horigin, hreplay⟩ := hworker.written id chain hstaged
    exact Or.inr ⟨(hworker.accounts.written id chain hstaged).1, first, count, origin, chain, hfirst, hcount,
      hle, horigin, hreplay, by rw [Option.some_or]⟩

end World

/-- Interleaved units have the effect of their commits one after another.

What the shelf shows is what the decisions of all commits make of the first chains. The commit of an open
unit adds its decisions in order and touches no other chain, unless the unit has been overtaken; then it
fails and changes nothing. An open unit sees committed chains and its own decisions, and nothing else.

The first chains are any chains that fit a memory, in any versions, the greatest one included. -/
theorem interleaved_units_serial (chains : List Chain) (hmemory : ∀ chain ∈ chains, chain.FitsMemory)
    (moves : List Move) :
    let shelf := ofChains chains
    let world := (World.ofShelf shelf).run moves
    Contents.replay? shelf.get? world.commits.flatten = some world.shelf.get? ∧
      ∀ name worker, world.workers.lookup name = some worker →
        (((∀ id, ¬world.Overtaken worker id) ∧ ∃ after,
            commit world.shelf worker.session = (.ok (), after) ∧
            Contents.replay? world.shelf.get? worker.rulings = some after.get? ∧
            ∀ id, Ruling.on id worker.rulings = [] → after.get? id = world.shelf.get? id) ∨
          ∃ id, world.Overtaken worker id ∧
            commit world.shelf worker.session = (.error (.concurrentModification id), world.shelf)) ∧
        ∀ id, (Ruling.on id worker.rulings = [] ∧
            (load world.shelf worker.session id).1 = world.shelf.get? id) ∨
          Ruling.on id worker.rulings ≠ [] ∧ ∃ first count origin chain,
            worker.met.lookup id = some first ∧ first ≤ count ∧ count ≤ world.commits.length ∧
              Worker.CommittedAt shelf.get? world.commits count id origin ∧
              origin.replay? (Ruling.on id worker.rulings) = some chain ∧
              (load world.shelf worker.session id).1 = some chain := by
  intro shelf world
  have hstart := World.serial_ofShelf (keyed_ofChains chains) (fitMemory_ofChains hmemory)
  have h : world.Serial shelf.get? := hstart.run moves
  refine ⟨h.lineage, fun name worker hname => ⟨?_, h.load_eq hname⟩⟩
  rcases h.commit_eq hname with ⟨hnot, after, hcommit, hreplay⟩ | hovertaken
  · exact Or.inl ⟨hnot, after, hcommit, hreplay, fun id hid => Contents.replay?_of_on_eq_nil hreplay hid⟩
  · exact Or.inr hovertaken

/-- Two units decide on the same chain in the greatest version, and the one that is committed second fails. -/
theorem interleaved_units_serial_of_two_units :
    let s : Submission := ⟨none, none, "kim", none, ["lee"], none⟩
    let chain : Chain := ⟨{ s.header "7" Date.epoch with version := Text.int64Greatest }, s.steps "7"⟩
    let r : Ruling := ⟨"7", ⟨"7", "lee", none, .approved⟩, "%Y", Date.epoch⟩
    let world := (World.ofShelf (ofChains [chain])).run
      [.start "first", .start "second", .load "first" "7", .load "second" "7", .store "second" r,
        .store "first" r, .commit "first"]
    ∃ worker id, world.workers.lookup "second" = some worker ∧
      commit world.shelf worker.session = (.error (.concurrentModification id), world.shelf) := by
  intro s chain r world
  have hmemory : ∀ first ∈ [chain], Chain.FitsMemory first := by decide
  have hsome : (world.workers.lookup "second").isSome = true := by decide +kernel
  obtain ⟨worker, hname⟩ := Option.isSome_iff_exists.1 hsome
  have hwork : (world.workers.lookup "second").map (fun w => (Ruling.on "7" w.rulings, w.met.lookup "7")) =
      some ([r], some 0) := by decide +kernel
  rw [hname, Option.map_some, Option.some.injEq, Prod.mk.injEq] at hwork
  have hcommits : Ruling.on "7" world.commits.flatten = [r] := by decide +kernel
  have hovertaken : world.Overtaken worker "7" :=
    ⟨by simp [hwork.1], 0, hwork.2, by rw [List.drop_zero, hcommits]; simp⟩
  rcases ((interleaved_units_serial [chain] hmemory _).2 "second" worker hname).1 with ⟨hnot, -⟩ | ⟨id, -, hcommit⟩
  · exact absurd hovertaken (hnot "7")
  · exact ⟨worker, id, hname, hcommit⟩

end SignOff.Shelf
