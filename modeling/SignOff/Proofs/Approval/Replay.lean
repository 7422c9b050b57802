import Mathlib.Logic.Function.Basic
import SignOff.Proofs.Approval.Soundness

/-!
# Replaying decisions

A ruling is a decision that a store carries out: on which application, what, and on which day. A list of
rulings replays on a chain, one decision on the chain that the one before has left, and on the contents
of a whole store, each ruling on the chain of its application. Replaying on contents is replaying on
every chain those rulings that fall on it, so rulings on other applications do not matter.
-/

namespace SignOff

/-- A decision that is carried out on the application `id`. -/
structure Ruling where
  id : String
  command : Command
  pattern : String
  today : Date
deriving DecidableEq

/-- The rulings on one application. -/
def Ruling.on (id : String) (rulings : List Ruling) : List Ruling := rulings.filter fun r => r.id = id

@[simp] theorem Ruling.on_nil (id : String) : Ruling.on id [] = [] := rfl

/-- The rulings on an application in two lists are those in the first and then those in the second. -/
@[simp] theorem Ruling.on_append (id : String) (first second : List Ruling) :
    Ruling.on id (first ++ second) = Ruling.on id first ++ Ruling.on id second :=
  List.filter_append _ _

/-- A ruling on the application comes first among its rulings. -/
theorem Ruling.on_cons_self (r : Ruling) (rulings : List Ruling) :
    Ruling.on r.id (r :: rulings) = r :: Ruling.on r.id rulings := by simp [Ruling.on]

/-- A ruling on another application does not count. -/
theorem Ruling.on_cons_of_ne {id : String} {r : Ruling} (h : id ≠ r.id) (rulings : List Ruling) :
    Ruling.on id (r :: rulings) = Ruling.on id rulings := by simp [Ruling.on, h.symm]

/-- One more ruling on the application is the last of its rulings. -/
theorem Ruling.on_concat_self (rulings : List Ruling) (r : Ruling) :
    Ruling.on r.id (rulings ++ [r]) = Ruling.on r.id rulings ++ [r] := by
  rw [Ruling.on_append, Ruling.on_cons_self, Ruling.on_nil]

/-- One more ruling on another application does not count. -/
theorem Ruling.on_concat_of_ne {id : String} {r : Ruling} (h : id ≠ r.id) (rulings : List Ruling) :
    Ruling.on id (rulings ++ [r]) = Ruling.on id rulings := by
  rw [Ruling.on_append, Ruling.on_cons_of_ne h, Ruling.on_nil, List.append_nil]

namespace Chain

/-- The chain after a ruling that succeeds on it. -/
def rule? (chain : Chain) (r : Ruling) : Option Chain :=
  match chain.decide r.command r.pattern r.today with
  | .ok record => some record.chain
  | .error _ => none

/-- The chain after rulings that succeed one after another. -/
def replay? (chain : Chain) (rulings : List Ruling) : Option Chain := rulings.foldlM rule? chain

/-- A ruling succeeds exactly when the decision does. -/
theorem rule?_eq_some_iff {chain after : Chain} {r : Ruling} :
    chain.rule? r = some after ↔
      ∃ record, chain.decide r.command r.pattern r.today = .ok record ∧ record.chain = after := by
  unfold rule?
  cases chain.decide r.command r.pattern r.today <;> simp

@[simp] theorem replay?_nil (chain : Chain) : chain.replay? [] = some chain := rfl

/-- The first of several rulings is carried out first. -/
theorem replay?_cons (chain : Chain) (r : Ruling) (rulings : List Ruling) :
    chain.replay? (r :: rulings) = (chain.rule? r).bind fun c => c.replay? rulings :=
  List.foldlM_cons

/-- A decision that succeeds is a ruling that succeeds. -/
theorem replay?_singleton {chain : Chain} {r : Ruling} {record : Record}
    (h : chain.decide r.command r.pattern r.today = .ok record) :
    chain.replay? [r] = some record.chain := by
  rw [replay?_cons, rule?_eq_some_iff.2 ⟨record, h, rfl⟩]
  rfl

/-- Rulings can be replayed in two parts. -/
theorem replay?_append (chain : Chain) (first second : List Ruling) :
    chain.replay? (first ++ second) = (chain.replay? first).bind fun c => c.replay? second :=
  List.foldlM_append

/-- What every decision of some rulings keeps, these rulings keep. -/
theorem replay?_induction_of_mem {P : Chain → Prop} {chain after : Chain} {rulings : List Ruling}
    (hstep : ∀ (chain : Chain) (r : Ruling) (record : Record), r ∈ rulings → P chain →
      chain.decide r.command r.pattern r.today = .ok record → P record.chain)
    (h : P chain) (hreplay : chain.replay? rulings = some after) : P after := by
  induction rulings generalizing chain with
  | nil =>
    rw [replay?_nil, Option.some.injEq] at hreplay
    exact hreplay ▸ h
  | cons r rulings ih =>
    rw [replay?_cons] at hreplay
    obtain ⟨next, hnext, hrest⟩ := Option.bind_eq_some_iff.1 hreplay
    obtain ⟨record, hdecide, rfl⟩ := rule?_eq_some_iff.1 hnext
    exact ih (fun chain other record hother => hstep chain other record (List.mem_cons_of_mem _ hother))
      (hstep chain r record List.mem_cons_self h hdecide) hrest

/-- What every decision keeps, rulings keep. -/
theorem replay?_induction {P : Chain → Prop}
    (hstep : ∀ (chain : Chain) (r : Ruling) (record : Record), P chain →
      chain.decide r.command r.pattern r.today = .ok record → P record.chain)
    {chain after : Chain} {rulings : List Ruling} (h : P chain)
    (hreplay : chain.replay? rulings = some after) : P after :=
  replay?_induction_of_mem (fun chain r record _ => hstep chain r record) h hreplay

/-- Rulings keep a chain sound. -/
theorem Sound.replay {chain after : Chain} {rulings : List Ruling} (h : chain.Sound)
    (hreplay : chain.replay? rulings = some after) : after.Sound :=
  replay?_induction (fun _ _ _ hsound hdecide => hsound.decide hdecide) h hreplay

/-- Rulings leave every column of the steps that a decided step shares with the open one. -/
theorem steps_map_of_replay {β : Type} (f : Step → β) (hf : ∀ s d, f (s.decide d) = f s)
    {chain after : Chain} {rulings : List Ruling} (hreplay : chain.replay? rulings = some after) :
    after.steps.map f = chain.steps.map f :=
  replay?_induction (P := fun c => c.steps.map f = chain.steps.map f)
    (fun _ _ _ hsame hdecide => (steps_map_of_decide f hf hdecide).trans hsame) rfl hreplay

/-- Rulings keep the id of the application. -/
theorem id_of_replay {chain after : Chain} {rulings : List Ruling}
    (hreplay : chain.replay? rulings = some after) : after.application.id = chain.application.id :=
  replay?_induction (P := fun c => c.application.id = chain.application.id)
    (fun _ _ _ hsame hdecide => (id_of_decide hdecide).trans hsame) rfl hreplay

end Chain

/-- The chains of a store by the id of their application. -/
abbrev Contents := String → Option Chain

namespace Contents

/-- What rulings on one application make of what a store holds for it. -/
inductive Continues : Option Chain → List Ruling → Option Chain → Prop
  | absent : Continues none [] none
  | present {before after : Chain} {rulings : List Ruling} :
    before.replay? rulings = some after → Continues (some before) rulings (some after)

/-- The contents after a ruling on the chain of its application. -/
def rule? (contents : Contents) (r : Ruling) : Option Contents :=
  (contents r.id).bind fun chain =>
    (chain.rule? r).map fun after => Function.update contents r.id (some after)

/-- The contents after rulings that succeed one after another. -/
def replay? (contents : Contents) (rulings : List Ruling) : Option Contents :=
  rulings.foldlM rule? contents

@[simp] theorem replay?_nil (contents : Contents) : contents.replay? [] = some contents := rfl

/-- The first of several rulings is carried out first. -/
theorem replay?_cons (contents : Contents) (r : Ruling) (rulings : List Ruling) :
    contents.replay? (r :: rulings) = (contents.rule? r).bind fun c => c.replay? rulings :=
  List.foldlM_cons

/-- Rulings can be replayed in two parts. -/
theorem replay?_append (contents : Contents) (first second : List Ruling) :
    contents.replay? (first ++ second) = (contents.replay? first).bind fun c => c.replay? second :=
  List.foldlM_append

/-- Without rulings nothing changes. -/
theorem continues_nil_iff {before after : Option Chain} : Continues before [] after ↔ before = after := by
  constructor
  · intro h
    cases h with
    | absent => rfl
    | present hreplay => simpa using hreplay
  · intro heq
    subst heq
    cases before with
    | none => exact .absent
    | some chain => exact .present (Chain.replay?_nil chain)

/-- Rulings only continue a chain that is there. -/
theorem Continues.present_iff {before : Chain} {rulings : List Ruling} {after : Option Chain} :
    Continues (some before) rulings after ↔
      ∃ chain, after = some chain ∧ before.replay? rulings = some chain := by
  constructor
  · intro h
    cases h with
    | present hreplay => exact ⟨_, rfl, hreplay⟩
  · intro h
    obtain ⟨chain, rfl, hreplay⟩ := h
    exact .present hreplay

/-- A chain comes from a chain only. -/
theorem Continues.of_some {before : Option Chain} {rulings : List Ruling} {after : Chain}
    (h : Continues before rulings (some after)) :
    ∃ chain, before = some chain ∧ chain.replay? rulings = some after := by
  cases h with
  | present h => exact ⟨_, rfl, h⟩

/-- Where there is no chain, there was none and no ruling. -/
theorem Continues.of_none {before : Option Chain} {rulings : List Ruling}
    (h : Continues before rulings none) : before = none ∧ rulings = [] := by
  cases h with
  | absent => exact ⟨rfl, rfl⟩

/-- Rulings on one application in two parts. -/
theorem Continues.append {before middle after : Option Chain} {first second : List Ruling}
    (h : Continues before first middle) (h' : Continues middle second after) :
    Continues before (first ++ second) after := by
  cases h with
  | absent => simpa using h'
  | present hfirst =>
    obtain ⟨chain, rfl, hsecond⟩ := Continues.present_iff.1 h'
    exact .present (by simp [Chain.replay?_append, hfirst, hsecond])

/-- A first ruling needs a chain that it succeeds on. -/
theorem continues_cons_iff {before after : Option Chain} {r : Ruling} {rulings : List Ruling} :
    Continues before (r :: rulings) after ↔
      ∃ chain ruled, before = some chain ∧ chain.rule? r = some ruled ∧
        Continues (some ruled) rulings after := by
  constructor
  · intro h
    cases h with
    | present hreplay =>
      rw [Chain.replay?_cons] at hreplay
      obtain ⟨ruled, hruled, hrest⟩ := Option.bind_eq_some_iff.1 hreplay
      exact ⟨_, ruled, rfl, hruled, .present hrest⟩
  · intro h
    obtain ⟨chain, ruled, rfl, hruled, hcontinues⟩ := h
    obtain ⟨last, rfl, hrest⟩ := Continues.present_iff.1 hcontinues
    exact .present (by simp [Chain.replay?_cons, hruled, hrest])

/-- Rulings succeed on contents exactly when on each chain those on its application do. -/
theorem replay?_eq_some_iff {contents after : Contents} {rulings : List Ruling} :
    contents.replay? rulings = some after ↔
      ∀ id, Continues (contents id) (Ruling.on id rulings) (after id) := by
  induction rulings generalizing contents with
  | nil => simp [continues_nil_iff, funext_iff]
  | cons r rulings ih =>
    have hother (ruled : Chain) {id : String} (h : id ≠ r.id) :
        Continues (Function.update contents r.id (some ruled) id) (Ruling.on id rulings) (after id) ↔
          Continues (contents id) (Ruling.on id (r :: rulings)) (after id) := by
      rw [Function.update_of_ne h, Ruling.on_cons_of_ne h]
    rw [replay?_cons]
    constructor
    · intro h id
      obtain ⟨next, hrule, hrest⟩ := Option.bind_eq_some_iff.1 h
      obtain ⟨chain, hchain, hnext⟩ := Option.bind_eq_some_iff.1 hrule
      obtain ⟨ruled, hruled, rfl⟩ := Option.map_eq_some_iff.1 hnext
      have hid := ih.1 hrest id
      by_cases heq : id = r.id
      · subst heq
        rw [Function.update_self] at hid
        rw [Ruling.on_cons_self]
        exact continues_cons_iff.2 ⟨chain, ruled, hchain, hruled, hid⟩
      · exact (hother ruled heq).1 hid
    · intro h
      have hself := h r.id
      rw [Ruling.on_cons_self] at hself
      obtain ⟨chain, ruled, hchain, hruled, hrest⟩ := continues_cons_iff.1 hself
      have hrule : contents.rule? r = some (Function.update contents r.id (some ruled)) := by
        simp [rule?, hchain, hruled]
      rw [hrule, Option.bind_some, ih]
      intro id
      by_cases heq : id = r.id
      · rw [heq, Function.update_self]
        exact hrest
      · exact (hother ruled heq).2 (h id)

/-- Rulings lead on from every chain that is there before. -/
theorem exists_after_of_replay {contents after : Contents} {rulings : List Ruling}
    (hreplay : contents.replay? rulings = some after) {id : String} {before : Chain}
    (hbefore : contents id = some before) :
    ∃ chain, after id = some chain ∧ before.replay? (Ruling.on id rulings) = some chain := by
  have hid := replay?_eq_some_iff.1 hreplay id
  rw [hbefore] at hid
  exact Continues.present_iff.1 hid

/-- Rulings have led to every chain that is there afterwards. -/
theorem exists_before_of_replay {contents after : Contents} {rulings : List Ruling}
    (hreplay : contents.replay? rulings = some after) {id : String} {chain : Chain}
    (hchain : after id = some chain) :
    ∃ before, contents id = some before ∧ before.replay? (Ruling.on id rulings) = some chain := by
  have hid := replay?_eq_some_iff.1 hreplay id
  rw [hchain] at hid
  exact hid.of_some

/-- What rulings keep of a chain, they keep of all chains of the contents. -/
theorem forall_of_replay {P : Chain → Prop}
    (hkeeps : ∀ {chain after : Chain} {rulings : List Ruling}, P chain → chain.replay? rulings = some after → P after)
    {contents after : Contents} {rulings : List Ruling} (h : ∀ id chain, contents id = some chain → P chain)
    (hreplay : contents.replay? rulings = some after) : ∀ id chain, after id = some chain → P chain := by
  intro id chain hchain
  obtain ⟨before, hbefore, hafter⟩ := exists_before_of_replay hreplay hchain
  exact hkeeps (h id before hbefore) hafter

/-- Rulings leave the chains of other applications as they are. -/
theorem replay?_of_on_eq_nil {contents after : Contents} {rulings : List Ruling}
    (h : contents.replay? rulings = some after) {id : String} (hid : Ruling.on id rulings = []) :
    after id = contents id := by
  have hcontinues := replay?_eq_some_iff.1 h id
  rw [hid] at hcontinues
  exact (continues_nil_iff.1 hcontinues).symm

end Contents

end SignOff
