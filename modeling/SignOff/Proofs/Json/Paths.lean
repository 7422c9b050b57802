import SignOff.Proofs.Json.RoundTrip

/-!
# Paths into documents

A path leads from a document down to what stands in it, by keys and indices. Where no key is repeated every numeral
of a text has a path, on which the value of the text has the number of that numeral; and a value that is written has
its numbers on the same paths.
-/

namespace SignOff.Json

/-- A step down a path: to the member of a key, or to the element with an index. -/
inductive Segment where
  | member (key : String)
  | item (index : Nat)
deriving DecidableEq, Repr

/-- What stands one step down in a value. -/
def child? : Segment → Json → Option Json
  | .member key, .object members => members.lookup key
  | .item i, .array items => items[i]?
  | _, _ => none

/-- What stands at the end of a path into a value. -/
def at? : List Segment → Json → Option Json
  | [], value => some value
  | s :: path, value => (child? s value).bind (at? path)

namespace Written

/-- What is written one step down. -/
def child? : Segment → Written → Option Written
  | .member key, .object members => members.lookup key
  | .item i, .array items => items[i]?
  | _, _ => none

/-- What is written at the end of a path. -/
def at? : List Segment → Written → Option Written
  | [], w => some w
  | s :: path, w => (child? s w).bind (at? path)

/-- The numeral that is written at the end of a path. -/
def numeral? (path : List Segment) (w : Written) : Option Numeral :=
  match at? path w with
  | some (.number x) => some x
  | _ => none

mutual

/-- No object has a key twice. -/
def distinct : Written → Bool
  | .array items => distinctItems items
  | .object members => decide (members.map Prod.fst).Nodup && distinctMembers members
  | _ => true

/-- No object in the elements has a key twice. -/
def distinctItems : List Written → Bool
  | [] => true
  | item :: rest => distinct item && distinctItems rest

/-- No object in the members has a key twice. -/
def distinctMembers : List (String × Written) → Bool
  | [] => true
  | (_, member) :: rest => distinct member && distinctMembers rest

end

mutual

/-- All numerals that are written, in their order. -/
def numerals : Written → List Numeral
  | .number x => [x]
  | .array items => itemNumerals items
  | .object members => memberNumerals members
  | _ => []

/-- The numerals in elements. -/
def itemNumerals : List Written → List Numeral
  | [] => []
  | item :: rest => numerals item ++ itemNumerals rest

/-- The numerals in members. -/
def memberNumerals : List (String × Written) → List Numeral
  | [] => []
  | (_, member) :: rest => numerals member ++ memberNumerals rest

end

variable {w : Written} {path : List Segment} {x : Numeral}

/-- A numeral is at the end of a path exactly when a number is written there with it. -/
theorem numeral?_eq_some_iff : numeral? path w = some x ↔ at? path w = some (.number x) := by
  unfold numeral?
  split <;> simp_all

/-! ## Every numeral has a path -/

/-- A member of an object without repeated keys stands under its key. -/
theorem child?_of_mem {members : List (String × Written)} (h : distinct (.object members) = true)
    {member : String × Written} (hmember : member ∈ members) :
    child? (.member member.1) (.object members) = some member.2 := by
  rw [distinct, Bool.and_eq_true, decide_eq_true_eq] at h
  exact Entries.lookup_of_mem h.1 hmember

mutual

/-- Every numeral of a text without repeated keys has a path. -/
theorem exists_path : (w : Written) → distinct w = true → x ∈ numerals w → ∃ path, numeral? path w = some x
  | .number y, _, hx => ⟨[], by rw [numeral?_eq_some_iff, List.mem_singleton.1 hx]; rfl⟩
  | .array items, h, hx => by
    obtain ⟨item, hitem, path, hpath⟩ := exists_item_path items h hx
    obtain ⟨i, hi⟩ := List.mem_iff_getElem?.1 hitem
    refine ⟨.item i :: path, ?_⟩
    rw [numeral?_eq_some_iff] at hpath ⊢
    rw [at?, child?, hi]
    exact hpath
  | .object members, h, hx => by
    obtain ⟨member, hmember, path, hpath⟩ := exists_member_path members (Bool.and_eq_true_iff.1 h).2 hx
    refine ⟨.member member.1 :: path, ?_⟩
    rw [numeral?_eq_some_iff] at hpath ⊢
    rw [at?, child?_of_mem h hmember]
    exact hpath

/-- Each numeral in elements without repeated keys is at the end of a path into one of them. -/
theorem exists_item_path : (items : List Written) → distinctItems items = true → x ∈ itemNumerals items →
    ∃ item ∈ items, ∃ path, numeral? path item = some x
  | item :: rest, h, hx => by
    rw [distinctItems, Bool.and_eq_true] at h
    rcases List.mem_append.1 hx with hitem | hrest
    · exact ⟨item, List.mem_cons_self, exists_path item h.1 hitem⟩
    · obtain ⟨other, hother, hpath⟩ := exists_item_path rest h.2 hrest
      exact ⟨other, List.mem_cons_of_mem _ hother, hpath⟩

/-- Each numeral in members without repeated keys is at the end of a path into one of them. -/
theorem exists_member_path : (members : List (String × Written)) → distinctMembers members = true →
    x ∈ memberNumerals members → ∃ member ∈ members, ∃ path, numeral? path member.2 = some x
  | (key, member) :: rest, h, hx => by
    rw [distinctMembers, Bool.and_eq_true] at h
    rcases List.mem_append.1 hx with hmember | hrest
    · exact ⟨(key, member), List.mem_cons_self, exists_path member h.1 hmember⟩
    · obtain ⟨other, hother, hpath⟩ := exists_member_path rest h.2 hrest
      exact ⟨other, List.mem_cons_of_mem _ hother, hpath⟩

end

/-! ## The numbers of numerals -/

/-- The value of an element stands at its index. -/
theorem getElem?_itemValues? {items : List Written} {values : List Json} (h : itemValues? items = some values)
    {i : Nat} {item : Written} (hitem : items[i]? = some item) :
    ∃ value, item.value? = some value ∧ values[i]? = some value := by
  induction items generalizing values i with
  | nil => contradiction
  | cons first rest ih =>
    obtain ⟨value, hvalue, h⟩ := Option.bind_eq_some_iff.1 h
    obtain ⟨others, hothers, h⟩ := Option.bind_eq_some_iff.1 h
    cases h
    cases i with
    | zero =>
      cases hitem
      exact ⟨value, hvalue, rfl⟩
    | succ i => exact ih hothers hitem

/-- The values of members stand under their keys, and those set before under other keys. -/
theorem lookup_memberValues? {members : List (String × Written)} {before values : List (String × Json)}
    (h : memberValues? before members = some values) (hkeys : (members.map Prod.fst).Nodup) (key : String) :
    (∀ member, members.lookup key = some member →
        ∃ value, member.value? = some value ∧ values.lookup key = some value) ∧
      (members.lookup key = none → values.lookup key = before.lookup key) := by
  induction members generalizing before with
  | nil =>
    cases h
    simp
  | cons first rest ih =>
    obtain ⟨k, member⟩ := first
    obtain ⟨value, hvalue, h⟩ := Option.bind_eq_some_iff.1 h
    rw [List.map_cons, List.nodup_cons] at hkeys
    obtain ⟨hfound, hnone⟩ := ih h hkeys.2
    rw [Entries.lookup_cons]
    by_cases hk : key = k
    · subst hk
      have hrest : rest.lookup key = none := by
        rw [← Option.not_isSome_iff_eq_none, Entries.lookup_isSome_iff]
        exact hkeys.1
      rw [if_pos rfl]
      refine ⟨fun found hfound => ?_, fun hnothing => by contradiction⟩
      cases hfound
      exact ⟨value, hvalue, by rw [hnone hrest, Entries.lookup_put_self]⟩
    · rw [if_neg hk]
      exact ⟨hfound, fun hnothing => by rw [hnone hnothing, Entries.lookup_put_of_ne hk]⟩

/-- An element repeats no key if the elements together do not. -/
theorem distinct_of_mem_items {items : List Written} (h : distinctItems items = true) {item : Written}
    (hitem : item ∈ items) : item.distinct = true := by
  induction items with
  | nil => contradiction
  | cons first rest ih =>
    rw [distinctItems, Bool.and_eq_true] at h
    rcases List.mem_cons.1 hitem with rfl | hrest
    · exact h.1
    · exact ih h.2 hrest

/-- The value of a member repeats no key if the members together do not. -/
theorem distinct_of_mem_members {members : List (String × Written)} (h : distinctMembers members = true)
    {member : String × Written} (hmember : member ∈ members) : member.2.distinct = true := by
  induction members with
  | nil => contradiction
  | cons first rest ih =>
    rw [distinctMembers, Bool.and_eq_true] at h
    rcases List.mem_cons.1 hmember with rfl | hrest
    · exact h.1
    · exact ih h.2 hrest

/-- What is written one step down has no repeated keys either, and its value stands one step down in the value. -/
theorem child?_value {value : Json} {s : Segment} {below : Written} (h : w.value? = some value)
    (hdistinct : w.distinct = true) (hbelow : w.child? s = some below) :
    below.distinct = true ∧ ∃ v, below.value? = some v ∧ value.child? s = some v := by
  unfold child? at hbelow
  split at hbelow
  · next key members =>
    obtain ⟨values, hvalues, rfl⟩ := Option.map_eq_some_iff.1 h
    rw [distinct, Bool.and_eq_true, decide_eq_true_eq] at hdistinct
    exact ⟨distinct_of_mem_members hdistinct.2 (Entries.mem_of_lookup hbelow),
      (lookup_memberValues? hvalues hdistinct.1 key).1 below hbelow⟩
  · next i items =>
    obtain ⟨values, hvalues, rfl⟩ := Option.map_eq_some_iff.1 h
    exact ⟨distinct_of_mem_items hdistinct (List.mem_of_getElem? hbelow), getElem?_itemValues? hvalues hbelow⟩
  · contradiction

/-- The value of a text has at the end of a path the value of what is written there. -/
theorem at?_value {value : Json} {below : Written} (h : w.value? = some value) (hdistinct : w.distinct = true)
    (hbelow : w.at? path = some below) : ∃ v, below.value? = some v ∧ value.at? path = some v := by
  induction path generalizing w value with
  | nil =>
    cases hbelow
    exact ⟨value, h, rfl⟩
  | cons s path ih =>
    obtain ⟨next, hnext, hrest⟩ := Option.bind_eq_some_iff.1 hbelow
    obtain ⟨hdistinct, v, hv, hchild⟩ := child?_value h hdistinct hnext
    obtain ⟨found, hfound, hat⟩ := ih hv hdistinct hrest
    exact ⟨found, hfound, by rw [Json.at?, hchild]; exact hat⟩

/-- On the path of a numeral the value of the text has its number. -/
theorem at?_of_numeral? {value : Json} (h : w.value? = some value) (hdistinct : w.distinct = true)
    (hx : w.numeral? path = some x) : ∃ n, x.value? = some n ∧ value.at? path = some (.number n) := by
  obtain ⟨v, hv, hat⟩ := at?_value h hdistinct (numeral?_eq_some_iff.1 hx)
  obtain ⟨n, hn, rfl⟩ := Option.map_eq_some_iff.1 hv
  exact ⟨n, hn, hat⟩

/-! ## The numerals of numbers -/

/-- Elements are written one by one. -/
theorem ofItems_eq_map (items : List Json) : ofItems items = items.map ofValue := by
  induction items with
  | nil => rfl
  | cons first rest ih => rw [ofItems, ih, List.map_cons]

/-- Members are written one by one, each under its own key. -/
theorem ofMembers_eq_map (members : List (String × Json)) :
    ofMembers members = members.map fun member => (member.1, ofValue member.2) := by
  induction members with
  | nil => rfl
  | cons first rest ih => rw [ofMembers, ih, List.map_cons]

/-- One step down in what is written of a value stands what is written of the value one step down. -/
theorem child?_ofValue (s : Segment) (value : Json) : (ofValue value).child? s = (value.child? s).map ofValue := by
  cases value <;> cases s <;>
    simp [ofValue, child?, Json.child?, ofItems_eq_map, ofMembers_eq_map, Entries.lookup_map_snd]

/-- What is written of a value has on each path what is written of the value there. -/
theorem at?_ofValue (path : List Segment) (value : Json) : (ofValue value).at? path = (value.at? path).map ofValue := by
  induction path generalizing value with
  | nil => rfl
  | cons s path ih =>
    rw [at?, Json.at?, child?_ofValue]
    cases value.child? s with
    | none => rfl
    | some below => exact ih below

/-- On the path of a number its numeral is written. -/
theorem numeral?_ofValue {value : Json} {n : JsonNumber} (h : value.at? path = some (.number n)) :
    (ofValue value).numeral? path = some n.numeral := by
  rw [numeral?_eq_some_iff, at?_ofValue, h]
  rfl

end Written

end SignOff.Json
