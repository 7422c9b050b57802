import SignOff.Proofs.Toml.Continuing
import SignOff.Toml.Draft

/-!
# One text of a settings file replaced

Whether a line can be added to a table depends on the keys that are there and on how its tables came about, but on no
text in it. So of two files that differ in the text of one pair, either both are tables or none is, and the tables
differ in that text only.
-/

namespace SignOff.Toml

variable {key text : String} {path : List String} {members members' : Members}

/-! ## Tables that differ in one text -/

/-- The second table is the first with another text under a key, inside the tables of a path. -/
inductive Reworded (key text : String) : List String → Members → Members → Prop where
  | here {members : Members} {old : String} (hold : members.lookup key = some (.text old)) :
      Reworded key text [] members (Entries.put key (.text text) members)
  | inside {step : String} {path : List String} {members inner inner' : Members} {kind : TableKind}
      (hinner : members.lookup step = some (.table kind inner)) (h : Reworded key text path inner inner') :
      Reworded key text (step :: path) members (Entries.put step (.table kind inner') members)

/-- Members at the end of both tables leave the one difference as it is. -/
theorem Reworded.append (h : Reworded key text path members members') (added : Members) :
    Reworded key text path (members ++ added) (members' ++ added) := by
  cases h with
  | here hold =>
    rw [← Entries.put_append (by simp [hold])]
    exact .here (by rw [List.lookup_append, hold, Option.some_or])
  | inside hinner h =>
    rw [← Entries.put_append (by simp [hinner])]
    exact .inside (by rw [List.lookup_append, hinner, Option.some_or]) h

/-- A write under another key is made in both tables. -/
theorem put_comm_of_lookup {first step : String} {old value written : Toml} (hstep : step ≠ first)
    (hold : members.lookup first = some old) : Entries.put step written (Entries.put first value members) =
      Entries.put first value (Entries.put step written members) :=
  (Entries.put_comm (Ne.symm hstep) value written (Entries.lookup_isSome_iff.1 (by rw [hold]; rfl))).symm

/-- Under a key stand the same values, or two texts, or two tables that differ in one text. -/
theorem Reworded.lookup_cases (h : Reworded key text path members members') (step : String) :
    (members'.lookup step = members.lookup step ∧
        ∀ value, Reworded key text path (Entries.put step value members) (Entries.put step value members')) ∨
      (∃ old, members.lookup step = some (.text old) ∧ members'.lookup step = some (.text text)) ∨
      ∃ (kind : TableKind) (inner inner' : Members) (rest : List String), path = step :: rest ∧
        members.lookup step = some (.table kind inner) ∧ members'.lookup step = some (.table kind inner') ∧
        Reworded key text rest inner inner' ∧ ∀ (kind : TableKind) (now now' : Members),
          Reworded key text rest now now' → Reworded key text path (Entries.put step (.table kind now) members)
            (Entries.put step (.table kind now') members') := by
  cases h with
  | @here _ old hold =>
    by_cases hstep : step = key
    · subst hstep
      exact .inr (.inl ⟨old, hold, Entries.lookup_put_self _ _ _⟩)
    · refine .inl ⟨Entries.lookup_put_of_ne hstep _ _, fun value => ?_⟩
      rw [put_comm_of_lookup hstep hold]
      exact .here ((Entries.lookup_put_of_ne (Ne.symm hstep) _ _).trans hold)
  | @inside first rest _ inner inner' kind hinner h =>
    by_cases hstep : step = first
    · subst hstep
      refine .inr (.inr ⟨kind, inner, inner', rest, rfl, hinner, Entries.lookup_put_self _ _ _, h, ?_⟩)
      intro kind now now' hnow
      rw [Entries.put_put, ← Entries.put_put step (Toml.table kind now') (Toml.table kind now) members]
      exact .inside (Entries.lookup_put_self _ _ _) hnow
    · refine .inl ⟨Entries.lookup_put_of_ne hstep _ _, fun value => ?_⟩
      rw [put_comm_of_lookup hstep hinner]
      exact .inside ((Entries.lookup_put_of_ne (Ne.symm hstep) _ _).trans hinner) h

/-! ## Lines added to both tables -/

/-- Tables that differ in one text are changed to such tables, or neither of them is changed. -/
def KeepsReworded (key text : String) (change : Members → Option Members) : Prop :=
  ∀ {path : List String} {members members' : Members}, Reworded key text path members members' →
    Option.Rel (Reworded key text path) (change members) (change members')

/-- Two ways to fill in a table that make one difference make it in every result. -/
theorem rel_map_of_forall {o : Option Members} {put put' : Members → Members}
    (h : ∀ members, Reworded key text path (put members) (put' members)) :
    Option.Rel (Reworded key text path) (o.map put) (o.map put') := by
  cases o with
  | none => exact .none
  | some members => exact .some (h members)

/-- Adding a value on a path keeps the one difference. -/
theorem keepsReworded_addAt (last : String) (value : Toml) (steps : List String) :
    KeepsReworded key text (addAt last value steps) := by
  induction steps with
  | nil =>
    intro path members members' h
    have hkeys : (members'.lookup last).isSome = (members.lookup last).isSome := by
      rcases h.lookup_cases last with ⟨hsame, -⟩ | ⟨old, hold, hnew⟩ | ⟨_, _, _, _, -, hold, hnew, -⟩
      · rw [hsame]
      · rw [hold, hnew]; rfl
      · rw [hold, hnew]; rfl
    rw [addAt, addAt, hkeys]
    split
    · exact .none
    · exact .some (h.append _)
  | cons step steps ih =>
    intro path members members' h
    rw [addAt, addAt]
    rcases h.lookup_cases step with ⟨hsame, hput⟩ | ⟨old, hold, hnew⟩ | ⟨kind, _, _, _, -, hold, hnew, hinner, hput⟩
    · rw [hsame]
      split
      · exact rel_map_of_forall fun _ => h.append _
      · exact rel_map_of_forall fun _ => hput _
      · split
        · exact .none
        · exact rel_map_of_forall fun _ => hput _
      · split
        · exact .none
        · exact rel_map_of_forall fun _ => hput _
      · exact .none
    · rw [hold, hnew]
      exact .none
    · rw [hold, hnew]
      cases kind with
      | dotted => exact rel_map (ih hinner) fun _ _ => hput _ _ _
      | passage =>
        dsimp only
        split
        · exact .none
        · exact rel_map (ih hinner) fun _ _ => hput _ _ _
      | header | braced => exact .none

/-- A change made on a path keeps the one difference if the change itself does. -/
theorem keepsReworded_changeAt {change : Members → Option Members} (hchange : KeepsReworded key text change)
    (steps : List String) : KeepsReworded key text (changeAt change steps) := by
  induction steps with
  | nil => exact hchange
  | cons step steps ih =>
    intro path members members' h
    rw [changeAt, changeAt]
    rcases h.lookup_cases step with ⟨hsame, hput⟩ | ⟨old, hold, hnew⟩ | ⟨kind, _, _, _, -, hold, hnew, hinner, hput⟩
    · rw [hsame]
      split
      · exact rel_map_of_forall fun _ => h.append _
      · exact .none
      · exact rel_map_of_forall fun _ => hput _
      · exact rel_map_of_forall fun _ => hput _
      · exact .none
    · rw [hold, hnew]
      exact .none
    · rw [hold, hnew]
      cases kind with
      | braced => exact .none
      | header | passage | dotted => exact rel_map (ih hinner) fun _ _ => hput _ _ _

/-- Pairs are added one after the other. -/
theorem addPairs_cons (members : Members) (pair : KeyPath × Toml) (pairs : List (KeyPath × Toml)) :
    addPairs members (pair :: pairs) =
      (addAt pair.1.last pair.2 pair.1.steps members).bind fun members => addPairs members pairs := rfl

/-- Pairs can be added in two goes. -/
theorem addPairs_append (members : Members) (pairs later : List (KeyPath × Toml)) :
    addPairs members (pairs ++ later) = (addPairs members pairs).bind fun members => addPairs members later :=
  List.foldlM_append

/-- Adding pairs keeps the one difference. -/
theorem keepsReworded_addPairs (pairs : List (KeyPath × Toml)) :
    KeepsReworded key text fun members => addPairs members pairs := by
  induction pairs with
  | nil => exact fun h => .some h
  | cons pair pairs ih =>
    intro path members members' h
    simp only [addPairs_cons]
    exact rel_bind (keepsReworded_addAt _ _ _ h) fun _ _ => ih

/-- Adding a table keeps the one difference. -/
theorem keepsReworded_addTable (header : String) (pairs : List (KeyPath × Toml)) :
    KeepsReworded key text (addTable header pairs) := by
  intro path members members' h
  rw [addTable, addTable]
  rcases h.lookup_cases header with ⟨hsame, hput⟩ | ⟨old, hold, hnew⟩ | ⟨kind, _, _, _, -, hold, hnew, hinner, hput⟩
  · rw [hsame]
    split
    · exact rel_map_of_forall fun _ => h.append _
    · exact rel_map_of_forall fun _ => hput _
    · exact .none
  · rw [hold, hnew]
    exact .none
  · rw [hold, hnew]
    cases kind with
    | passage => exact rel_map (keepsReworded_addPairs pairs hinner) fun _ _ => hput _ _ _
    | header | dotted | braced => exact .none

/-- Adding a table to a list of tables keeps the one difference. -/
theorem keepsReworded_addRepeated (header : String) (pairs : List (KeyPath × Toml)) :
    KeepsReworded key text (addRepeated header pairs) := by
  intro path members members' h
  rw [addRepeated, addRepeated]
  rcases h.lookup_cases header with ⟨hsame, hput⟩ | ⟨old, hold, hnew⟩ | ⟨kind, _, _, _, -, hold, hnew, -⟩
  · rw [hsame]
    split
    · exact rel_map_of_forall fun _ => h.append _
    · exact rel_map_of_forall fun _ => hput _
    · exact .none
  · rw [hold, hnew]
    exact .none
  · rw [hold, hnew]
    exact .none

/-- A header puts a table with the pairs below it on its path. -/
theorem addSections_header (root : Members) (header : KeyPath) (rest : List Line) :
    addSections root (.header header :: rest) =
      (changeAt (addTable header.last (sectionOf rest).1) header.steps root).bind fun root =>
        addSections root (sectionOf rest).2 := by
  rw [addSections]
  rfl

/-- The header of a table in a list puts one more table there, with the pairs below it. -/
theorem addSections_repeated (root : Members) (header : KeyPath) (rest : List Line) :
    addSections root (.repeated header :: rest) =
      (changeAt (addRepeated header.last (sectionOf rest).1) header.steps root).bind fun root =>
        addSections root (sectionOf rest).2 := by
  rw [addSections]
  rfl

/-- Adding what further headers open keeps the one difference. -/
theorem keepsReworded_addSections (lines : List Line) :
    KeepsReworded key text fun members => addSections members lines := by
  intro path members members' h
  induction hn : lines.length using Nat.strongRecOn generalizing lines members members' with
  | ind n ih =>
    cases lines with
    | nil =>
      simp only [addSections]
      exact .some h
    | cons line rest =>
      rw [List.length_cons] at hn
      have hlength := length_sectionOf rest
      cases line with
      | pair =>
        simp only [addSections]
        exact .none
      | header header =>
        simp only [addSections_header]
        refine rel_bind (keepsReworded_changeAt (keepsReworded_addTable _ _) _ h) fun _ _ h => ?_
        exact ih _ (by omega) _ h rfl
      | repeated header =>
        simp only [addSections_repeated]
        refine rel_bind (keepsReworded_changeAt (keepsReworded_addRepeated _ _) _ h) fun _ _ h => ?_
        exact ih _ (by omega) _ h rfl

/-! ## The section that lines leave open -/

/-- The header whose table gets the pairs that come next, after one more line. -/
def openedBy (section? : Option KeyPath) : Line → Option KeyPath
  | .pair .. => section?
  | .header header => some header
  | .repeated _ => none

/-- The header whose table gets the pairs that come after the lines. -/
def openSection? (lines : List Line) : Option KeyPath := lines.foldl openedBy none

/-- A pair as a line. -/
def pairLine (pair : KeyPath × Toml) : Line := .pair pair.1 pair.2

/-- Only pairs come after the header whose table is still open. -/
theorem openSection?_eq_some {lines : List Line} {header : KeyPath} (h : openSection? lines = some header) :
    ∃ (front : List Line) (pairs : List (KeyPath × Toml)),
      lines = front ++ .header header :: pairs.map pairLine := by
  have hfrom (section? : Option KeyPath) (lines : List Line) (h : lines.foldl openedBy section? = some header) :
      (section? = some header ∧ ∃ pairs : List (KeyPath × Toml), lines = pairs.map pairLine) ∨
        ∃ (front : List Line) (pairs : List (KeyPath × Toml)),
          lines = front ++ .header header :: pairs.map pairLine := by
    induction lines generalizing section? with
    | nil => exact .inl ⟨h, [], rfl⟩
    | cons line lines ih =>
      rcases ih _ h with ⟨hopen, pairs, rfl⟩ | ⟨front, pairs, rfl⟩
      · cases line with
        | pair key value => exact .inl ⟨hopen, (key, value) :: pairs, rfl⟩
        | header =>
          cases hopen
          exact .inr ⟨[], pairs, rfl⟩
        | repeated => cases hopen
      · exact .inr ⟨line :: front, pairs, rfl⟩
  exact (hfrom none lines h).resolve_left fun hnone => by cases hnone.1

/-- The pairs in front of other lines belong to the same section as the pairs after them. -/
theorem sectionOf_pairs (pairs : List (KeyPath × Toml)) (rest : List Line) :
    sectionOf (pairs.map pairLine ++ rest) = (pairs ++ (sectionOf rest).1, (sectionOf rest).2) := by
  induction pairs with
  | nil => rfl
  | cons pair pairs ih =>
    rw [List.map_cons, List.cons_append, pairLine, sectionOf, ih]
    rfl

/-- A header ends the section before it, wherever that began. -/
theorem sectionOf_append (front : List Line) (header : KeyPath) (rest : List Line) :
    sectionOf (front ++ .header header :: rest) =
      ((sectionOf front).1, (sectionOf front).2 ++ .header header :: rest) := by
  induction front with
  | nil => rfl
  | cons line front ih =>
    cases line with
    | pair =>
      rw [List.cons_append, sectionOf, sectionOf, ih]
    | header | repeated => rfl

/-- The tables of the headers before are added first. -/
theorem addSections_append (root : Members) (front : List Line) (header : KeyPath) (rest : List Line) :
    addSections root (front ++ .header header :: rest) =
      (addSections root front).bind fun root => addSections root (.header header :: rest) := by
  induction hn : front.length using Nat.strongRecOn generalizing front root with
  | ind n ih =>
    cases front with
    | nil =>
      rw [addSections]
      rfl
    | cons line front =>
      rw [List.length_cons] at hn
      have hlength := length_sectionOf front
      have hsections (root : Members) : addSections root ((sectionOf front).2 ++ .header header :: rest) =
          (addSections root (sectionOf front).2).bind fun root => addSections root (.header header :: rest) :=
        ih _ (by omega) root _ rfl
      cases line with
      | pair =>
        rw [List.cons_append, addSections, addSections]
        rfl
      | header =>
        rw [List.cons_append, addSections_header, addSections_header, sectionOf_append, Option.bind_assoc]
        simp only [hsections]
      | repeated =>
        rw [List.cons_append, addSections_repeated, addSections_repeated, sectionOf_append, Option.bind_assoc]
        simp only [hsections]

/-! ## A pair with another text -/

/-- A pair can be added with either text or with none. -/
theorem rel_addPairs (members : Members) (pairs later : List (KeyPath × Toml)) (key old text : String) :
    Option.Rel (Reworded key text []) (addPairs members (pairs ++ (⟨[], key⟩, .text old) :: later))
      (addPairs members (pairs ++ (⟨[], key⟩, .text text) :: later)) := by
  rw [addPairs_append, addPairs_append]
  cases addPairs members pairs with
  | none => exact .none
  | some members =>
    simp only [Option.bind_some, addPairs_cons, addAt]
    split
    · exact .none
    · next hnew =>
      have hnone : members.lookup key = none := Option.not_isSome_iff_eq_none.1 hnew
      refine keepsReworded_addPairs later ?_
      rw [← Entries.put_concat hnone (.text text) (.text old)]
      exact .here (by rw [List.lookup_append, hnone, Option.none_or, Entries.lookup_cons, if_pos rfl])

/-- Two tables that differ in one text, added under one header, make one difference there. -/
theorem rel_addTable (members : Members) (header : String) (pairs later : List (KeyPath × Toml))
    (key old text : String) :
    Option.Rel (Reworded key text [header]) (addTable header (pairs ++ (⟨[], key⟩, .text old) :: later) members)
      (addTable header (pairs ++ (⟨[], key⟩, .text text) :: later) members) := by
  rw [addTable, addTable]
  split
  · next hnone =>
    refine rel_map (rel_addPairs [] pairs later key old text) fun inner inner' h => ?_
    rw [← Entries.put_concat hnone (.table .header inner') (.table .header inner)]
    exact .inside (by rw [List.lookup_append, hnone, Option.none_or, Entries.lookup_cons, if_pos rfl]) h
  · refine rel_map (rel_addPairs _ pairs later key old text) fun inner inner' h => ?_
    rw [← Entries.put_put header (Toml.table .header inner') (Toml.table .header inner)]
    exact .inside (Entries.lookup_put_self _ _ _) h
  · exact .none

/-- A file is the pairs above its first header and then the sections below. -/
theorem ofLines_eq (lines : List Line) : ofLines lines = (addPairs [] (sectionOf lines).1).bind fun root =>
    (addSections root (sectionOf lines).2).map (.table .header) := by
  simp only [ofLines, Option.map_eq_bind]
  rfl

/-- Files that differ in the text of one pair are both tables, which differ in that text only, or none of them is. -/
theorem rel_ofLines {before : List Line} {header : String} (hsection : openSection? before = some ⟨[], header⟩)
    (key old text : String) (after : List Line) :
    Option.Rel (fun file file' => ∃ members members', file = .table .header members ∧
        file' = .table .header members' ∧ Reworded key text [header] members members')
      (ofLines (before ++ .pair ⟨[], key⟩ (.text old) :: after))
      (ofLines (before ++ .pair ⟨[], key⟩ (.text text) :: after)) := by
  obtain ⟨front, pairs, rfl⟩ := openSection?_eq_some hsection
  have hlines (value : Toml) : front ++ .header ⟨[], header⟩ :: pairs.map pairLine ++ .pair ⟨[], key⟩ value :: after =
      front ++ .header ⟨[], header⟩ :: ((pairs ++ [(KeyPath.mk [] key, value)]).map pairLine ++ after) := by
    simp [pairLine]
  have hpairs (value : Toml) : sectionOf ((pairs ++ [(KeyPath.mk [] key, value)]).map pairLine ++ after) =
      (pairs ++ (KeyPath.mk [] key, value) :: (sectionOf after).1, (sectionOf after).2) := by
    rw [sectionOf_pairs, List.append_assoc]
    rfl
  rw [hlines, hlines, ofLines_eq, ofLines_eq, sectionOf_append, sectionOf_append]
  cases addPairs [] (sectionOf front).1 with
  | none => exact .none
  | some root =>
    simp only [Option.bind_some, addSections_append]
    cases addSections root (sectionOf front).2 with
    | none => exact .none
    | some root =>
      simp only [Option.bind_some, addSections_header, hpairs, changeAt]
      refine rel_map (R := Reworded key text [header]) (rel_bind (rel_addTable root header pairs _ key old text) ?_) ?_
      · exact fun _ _ => keepsReworded_addSections _
      · exact fun _ _ h => ⟨_, _, rfl, rfl, h⟩

end SignOff.Toml
