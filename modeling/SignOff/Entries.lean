/-!
# Entries by key

Lists of values under text keys, in the order in which the keys first came. Writing under a key that
is there keeps its place; writing under a new key adds it at the end. Reading is `List.lookup`.
-/

namespace SignOff.Entries

variable {α : Type}

/-- The entries with `value` under `key`, in its old place or added last. -/
def put (key : String) (value : α) : List (String × α) → List (String × α)
  | [] => [(key, value)]
  | (k, old) :: rest => if k = key then (key, value) :: rest else (k, old) :: put key value rest

/-- The entries with `value` under `key`, unless there is a value already. -/
def putNew (key : String) (value : α) (entries : List (String × α)) : List (String × α) :=
  if (entries.lookup key).isSome then entries else entries ++ [(key, value)]

/-- The entries with all of `news` written one after another. -/
def putAll (news entries : List (String × α)) : List (String × α) :=
  news.foldl (fun entries e => put e.1 e.2 entries) entries

theorem lookup_cons (key k : String) (v : α) (rest : List (String × α)) :
    ((k, v) :: rest).lookup key = if key = k then some v else rest.lookup key := by
  by_cases h : key = k
  · simp [h]
  · rw [List.lookup_cons, beq_eq_false_iff_ne.2 h, if_neg h]

/-- The value just written is found. -/
theorem lookup_put_self (key : String) (value : α) (entries : List (String × α)) :
    (put key value entries).lookup key = some value := by
  induction entries with
  | nil => simp [put]
  | cons e rest ih =>
    obtain ⟨k, old⟩ := e
    by_cases h : k = key
    · simp [put, h]
    · simp [put, h, lookup_cons, Ne.symm h, ih]

/-- Values under other keys stay. -/
theorem lookup_put_of_ne {key other : String} (h : other ≠ key) (value : α)
    (entries : List (String × α)) : (put key value entries).lookup other = entries.lookup other := by
  induction entries with
  | nil => simp [put, lookup_cons, h]
  | cons e rest ih =>
    obtain ⟨k, old⟩ := e
    by_cases hk : k = key
    · subst hk
      simp [put, lookup_cons, h]
    · simp [put, hk, lookup_cons, ih]

/-- A key that is there keeps its place, so the keys stay as they are. -/
theorem keys_put_of_mem {key : String} (value : α) {entries : List (String × α)}
    (h : key ∈ entries.map Prod.fst) : (put key value entries).map Prod.fst = entries.map Prod.fst := by
  induction entries with
  | nil => simp at h
  | cons e rest ih =>
    obtain ⟨k, old⟩ := e
    by_cases hk : k = key
    · simp [put, hk]
    · have hr : key ∈ rest.map Prod.fst := by
        simpa [Ne.symm hk] using h
      simp [put, hk, ih hr]

/-- A new key goes to the end. -/
theorem put_of_notMem {key : String} (value : α) {entries : List (String × α)}
    (h : key ∉ entries.map Prod.fst) : put key value entries = entries ++ [(key, value)] := by
  induction entries with
  | nil => rfl
  | cons e rest ih =>
    obtain ⟨k, old⟩ := e
    have hk : k ≠ key := fun hk => h (by simp [hk])
    have hr : key ∉ rest.map Prod.fst := fun hr => h (by simpa using Or.inr (by simpa using hr))
    simp [put, hk, ih hr]

/-- Where no key comes twice, a write under a key that is there changes the one entry with it. -/
theorem put_eq_map {key : String} (value : α) {entries : List (String × α)}
    (hkeys : (entries.map Prod.fst).Nodup) (h : key ∈ entries.map Prod.fst) :
    put key value entries = entries.map fun e => if e.1 = key then (e.1, value) else e := by
  induction entries with
  | nil => simp at h
  | cons e rest ih =>
    obtain ⟨k, old⟩ := e
    rw [List.map_cons, List.nodup_cons] at hkeys
    by_cases hk : k = key
    · have hrest : (rest.map fun e => if e.1 = key then (e.1, value) else e) = rest.map id := by
        apply List.map_congr_left
        intro e he
        have hmem : e.1 ∈ rest.map Prod.fst := List.mem_map_of_mem he
        have hne : e.1 ≠ key := fun heq => hkeys.1 (by rw [hk, ← heq]; exact hmem)
        rw [if_neg hne, id]
      rw [put, if_pos hk, List.map_cons, if_pos hk, hrest, List.map_id, hk]
    · have hrest : key ∈ rest.map Prod.fst := by simpa [Ne.symm hk] using h
      rw [put, if_neg hk, List.map_cons, if_neg hk, ih hkeys.2 hrest]

/-- An entry after a write is the new one or an old one. -/
theorem mem_put {key : String} {value : α} {entry : String × α} {entries : List (String × α)}
    (h : entry ∈ put key value entries) : entry = (key, value) ∨ entry ∈ entries := by
  induction entries with
  | nil => exact Or.inl (List.mem_singleton.1 h)
  | cons first rest ih =>
    obtain ⟨k, old⟩ := first
    by_cases hk : k = key
    · rw [put, if_pos hk] at h
      exact (List.mem_cons.1 h).imp_right (List.mem_cons_of_mem _)
    · rw [put, if_neg hk] at h
      rcases List.mem_cons.1 h with rfl | hrest
      · exact Or.inr List.mem_cons_self
      · exact (ih hrest).imp_right (List.mem_cons_of_mem _)

theorem lookup_put (key other : String) (value : α) (entries : List (String × α)) :
    (put key value entries).lookup other = if other = key then some value else entries.lookup other := by
  by_cases h : other = key
  · rw [h, lookup_put_self, if_pos rfl]
  · rw [lookup_put_of_ne h, if_neg h]

/-- A value is found exactly under the keys that are there. -/
theorem lookup_isSome_iff {key : String} {entries : List (String × α)} :
    (entries.lookup key).isSome = true ↔ key ∈ entries.map Prod.fst := by
  induction entries with
  | nil => simp
  | cons e rest ih =>
    obtain ⟨k, v⟩ := e
    by_cases h : key = k <;> simp [lookup_cons, h, ih]

/-- A value that is found stands in the list. -/
theorem mem_of_lookup {key : String} {value : α} {entries : List (String × α)}
    (h : entries.lookup key = some value) : (key, value) ∈ entries := by
  induction entries with
  | nil => simp at h
  | cons e rest ih =>
    obtain ⟨k, v⟩ := e
    by_cases hk : key = k
    · simp_all
    · exact List.mem_cons_of_mem _ (ih (by simpa [lookup_cons, hk] using h))

/-- Lists with the same keys find a key at the same index. -/
theorem exists_lookup_of_keys_eq {β : Type} {key : String} {value : α} {entries : List (String × α)}
    {others : List (String × β)} (hkeys : others.map Prod.fst = entries.map Prod.fst)
    (h : entries.lookup key = some value) :
    ∃ (i : Nat) (other : β), entries[i]? = some (key, value) ∧ others[i]? = some (key, other) ∧
      others.lookup key = some other := by
  induction entries generalizing others with
  | nil => contradiction
  | cons e rest ih =>
    obtain ⟨k, v⟩ := e
    cases others with
    | nil => simp at hkeys
    | cons o tail =>
      obtain ⟨k', other⟩ := o
      obtain ⟨rfl, htail⟩ : k' = k ∧ tail.map Prod.fst = rest.map Prod.fst := by simpa using hkeys
      rw [lookup_cons] at h ⊢
      by_cases hk : key = k'
      · subst hk
        rw [if_pos rfl] at h
        exact ⟨0, other, by simpa using h, rfl, if_pos rfl⟩
      · rw [if_neg hk] at h
        obtain ⟨i, found, hi, hfound, hlookup⟩ := ih htail h
        exact ⟨i + 1, found, hi, hfound, by rw [if_neg hk, hlookup]⟩

/-- Writing what is there changes nothing. -/
theorem put_of_lookup {key : String} {value : α} {entries : List (String × α)}
    (h : entries.lookup key = some value) : put key value entries = entries := by
  induction entries with
  | nil => simp at h
  | cons e rest ih =>
    obtain ⟨k, old⟩ := e
    rw [lookup_cons] at h
    by_cases hk : k = key
    · rw [if_pos hk.symm, Option.some.injEq] at h
      rw [put, if_pos hk, h, hk]
    · rw [if_neg (Ne.symm hk)] at h
      rw [put, if_neg hk, ih h]

/-- Where no key comes twice, every value is found under its key. -/
theorem lookup_of_mem {key : String} {value : α} {entries : List (String × α)}
    (hkeys : (entries.map Prod.fst).Nodup) (h : (key, value) ∈ entries) :
    entries.lookup key = some value := by
  induction entries with
  | nil => simp at h
  | cons e rest ih =>
    obtain ⟨k, v⟩ := e
    rw [List.map_cons, List.nodup_cons] at hkeys
    rcases List.mem_cons.1 h with heq | hrest
    · simp_all
    · have hk : key ≠ k := fun hk => hkeys.1 (List.mem_map.2 ⟨(key, value), hrest, hk⟩)
      rw [lookup_cons, if_neg hk, ih hkeys.2 hrest]

/-- Writing under a key makes no key come twice. -/
theorem nodup_keys_put (key : String) (value : α) {entries : List (String × α)}
    (h : (entries.map Prod.fst).Nodup) : ((put key value entries).map Prod.fst).Nodup := by
  by_cases hk : key ∈ entries.map Prod.fst
  · rwa [keys_put_of_mem value hk]
  · rw [put_of_notMem value hk, List.map_append, List.nodup_append]
    exact ⟨h, by simp, fun a ha b hb heq => hk (by simp_all)⟩

/-- Only a key that is new gets the value. -/
theorem lookup_putNew (key other : String) (value : α) (entries : List (String × α)) :
    (putNew key value entries).lookup other =
      (entries.lookup other).or (if other = key then some value else none) := by
  unfold putNew
  cases h : entries.lookup key with
  | some old => by_cases hk : other = key <;> simp [hk, h]
  | none => simp [List.lookup_append, lookup_cons]

/-- Writing under a new key makes no key come twice. -/
theorem nodup_keys_putNew (key : String) (value : α) {entries : List (String × α)}
    (h : (entries.map Prod.fst).Nodup) : ((putNew key value entries).map Prod.fst).Nodup := by
  unfold putNew
  split
  · exact h
  · next hnone =>
    rw [lookup_isSome_iff] at hnone
    rw [List.map_append, List.nodup_append]
    exact ⟨h, by simp, fun a ha b hb heq => hnone (by simp_all)⟩

/-- Without the entries of a key the others are found as before. -/
theorem lookup_filter_ne (key other : String) (entries : List (String × α)) :
    (entries.filter fun e => e.1 ≠ key).lookup other =
      if other = key then none else entries.lookup other := by
  induction entries with
  | nil => simp
  | cons e rest ih =>
    obtain ⟨k, v⟩ := e
    by_cases hk : k = key
    · subst hk
      by_cases ho : other = k
      · simpa [ho] using ih
      · simpa [lookup_cons, ho] using ih
    · by_cases ho : other = key
      · subst ho
        simpa [hk, lookup_cons, Ne.symm hk] using ih
      · rw [List.filter_cons_of_pos (by simpa using hk), lookup_cons, ih, lookup_cons, if_neg ho,
          if_neg ho]

/-- What is found without the entries of a key was found before. -/
theorem lookup_of_filter_ne {key other : String} {value : α} {entries : List (String × α)}
    (h : (entries.filter fun e => e.1 ≠ key).lookup other = some value) : entries.lookup other = some value := by
  rw [lookup_filter_ne] at h
  split at h
  · contradiction
  · exact h

/-- What is found after a write is the value written or was found before. -/
theorem lookup_of_put {key other : String} {value found : α} {entries : List (String × α)}
    (h : (put key value entries).lookup other = some found) : found = value ∨ entries.lookup other = some found := by
  rw [lookup_put] at h
  split at h
  · exact Or.inl (Option.some.inj h).symm
  · exact Or.inr h

/-- Under each key stands what has been made of the value there. -/
theorem lookup_map_snd {β : Type} (f : α → β) (key : String) (entries : List (String × α)) :
    (entries.map fun e => (e.1, f e.2)).lookup key = (entries.lookup key).map f := by
  induction entries with
  | nil => rfl
  | cons e rest ih =>
    obtain ⟨k, v⟩ := e
    rw [List.map_cons, lookup_cons, lookup_cons, ih]
    split <;> rfl

/-- The later of two values under one key stays. -/
theorem put_put (key : String) (value old : α) (entries : List (String × α)) :
    put key value (put key old entries) = put key value entries := by
  induction entries with
  | nil => simp [put]
  | cons e rest ih =>
    obtain ⟨k, v⟩ := e
    by_cases h : k = key <;> simp [put, h, ih]

/-- A write under a key that is there can be made before something is added. -/
theorem put_append {key : String} {value : α} {entries : List (String × α)} (h : (entries.lookup key).isSome)
    (added : List (String × α)) : put key value (entries ++ added) = put key value entries ++ added := by
  induction entries with
  | nil => cases h
  | cons e rest ih =>
    obtain ⟨k, old⟩ := e
    rw [List.cons_append, put, put]
    by_cases hk : k = key
    · rw [if_pos hk, if_pos hk, List.cons_append]
    · rw [lookup_cons, if_neg (Ne.symm hk)] at h
      rw [if_neg hk, if_neg hk, ih h, List.cons_append]

/-- A write under the key that has been added last changes the value there. -/
theorem put_concat {key : String} {entries : List (String × α)} (h : entries.lookup key = none) (value old : α) :
    put key value (entries ++ [(key, old)]) = entries ++ [(key, value)] := by
  have hkey : key ∉ entries.map Prod.fst := by rw [← lookup_isSome_iff, h]; exact Bool.false_ne_true
  rw [← put_of_notMem old hkey, put_put, put_of_notMem value hkey]

/-- Writes under two keys can be swapped if one of the keys is there. -/
theorem put_comm {key other : String} (hne : key ≠ other) (value otherValue : α)
    {entries : List (String × α)} (h : key ∈ entries.map Prod.fst) :
    put key value (put other otherValue entries) = put other otherValue (put key value entries) := by
  induction entries with
  | nil => simp at h
  | cons e rest ih =>
    obtain ⟨k, v⟩ := e
    by_cases hk : k = key
    · subst hk
      simp [put, hne]
    · have hrest : key ∈ rest.map Prod.fst := by simpa [Ne.symm hk] using h
      by_cases ho : k = other
      · subst ho
        simp [put, hk]
      · simp [put, hk, ho, ih hrest]

/-- A write under a key that is there can be made before writes under other keys. -/
theorem put_putAll_of_notMem {key : String} (value : α) {news entries : List (String × α)}
    (hnews : key ∉ news.map Prod.fst) (h : key ∈ entries.map Prod.fst) :
    put key value (putAll news entries) = putAll news (put key value entries) := by
  induction news generalizing entries with
  | nil => rfl
  | cons e rest ih =>
    obtain ⟨k, v⟩ := e
    rw [List.map_cons, List.mem_cons, not_or] at hnews
    have hkey : key ∈ (put k v entries).map Prod.fst := by
      rw [← lookup_isSome_iff, lookup_put_of_ne hnews.1, lookup_isSome_iff]
      exact h
    change put key value (putAll rest (put k v entries)) = putAll rest (put k v (put key value entries))
    rw [ih hnews.2 hkey, put_comm hnews.1 value v h]

/-- A write under a key that is there can be put among the news. -/
theorem put_putAll {key : String} (value : α) {news entries : List (String × α)}
    (hnews : (news.map Prod.fst).Nodup) (h : key ∈ entries.map Prod.fst) :
    put key value (putAll news entries) = putAll (put key value news) entries := by
  induction news generalizing entries with
  | nil => rfl
  | cons e rest ih =>
    obtain ⟨k, v⟩ := e
    rw [List.map_cons, List.nodup_cons] at hnews
    have hkey : key ∈ (put k v entries).map Prod.fst := by
      rw [← lookup_isSome_iff, lookup_put]
      split
      · rfl
      · exact lookup_isSome_iff.2 h
    change put key value (putAll rest (put k v entries)) = _
    by_cases hk : k = key
    · subst hk
      rw [put_putAll_of_notMem value hnews.1 hkey, put_put, put, if_pos rfl]
      rfl
    · rw [ih hnews.2 hkey, put, if_neg hk]
      rfl

/-- After many writes the news are found, and what was there under other keys. -/
theorem lookup_putAll {news : List (String × α)} (hnews : (news.map Prod.fst).Nodup)
    (entries : List (String × α)) (key : String) :
    (putAll news entries).lookup key = (news.lookup key).or (entries.lookup key) := by
  induction news generalizing entries with
  | nil => rfl
  | cons e rest ih =>
    obtain ⟨k, v⟩ := e
    rw [List.map_cons, List.nodup_cons] at hnews
    change (putAll rest (put k v entries)).lookup key = _
    rw [ih hnews.2, lookup_put, lookup_cons]
    by_cases hk : key = k
    · have hnone : rest.lookup k = none := by
        rw [← Option.not_isSome_iff_eq_none, lookup_isSome_iff]
        exact hnews.1
      simp [hk, hnone]
    · simp [hk]

end SignOff.Entries
