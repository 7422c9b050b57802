import SignOff.Proofs.Settings.PlainFile

/-!
# Expressions in settings files

The rule for expressions, told by the first of them: what stands before it stays, its variable is put in as it is,
and the rest of the text follows the same rule. Expanding a text follows the rule and no other. A text that can be
expanded depends on the variables it names alone, and one that cannot is refused for the leftmost expression that is
not closed or names a variable that is not set.
-/

namespace SignOff.Interpolation

/-- What every expression starts with. -/
def opening : List Char := ['$', '\x7b']

/-- No expression starts in the text. -/
def Unmarked (cs : List Char) : Prop := ¬opening <:+: cs

/-- The rule for expressions. -/
inductive Expands (environment : Environment) : List Char → Except SettingsError (List Char) → Prop where
  | plain {cs : List Char} (hplain : Unmarked cs) : Expands environment cs (.ok cs)
  | unclosed {front rest : List Char} (hfront : Unmarked front) (hrest : '\x7d' ∉ rest) :
      Expands environment (front ++ opening ++ rest) (.error .openInterpolation)
  | missing {front name after : List Char} (hfront : Unmarked front) (hname : '\x7d' ∉ name)
      (hunset : environment.lookup (String.ofList name) = none) :
      Expands environment (front ++ opening ++ (name ++ '\x7d' :: after))
        (.error (.missingVariable (String.ofList name)))
  /-- The value is not looked at again. -/
  | replaced {front name after : List Char} {value : String} {result : Except SettingsError (List Char)}
      (hfront : Unmarked front) (hname : '\x7d' ∉ name)
      (hset : environment.lookup (String.ofList name) = some value) (hafter : Expands environment after result) :
      Expands environment (front ++ opening ++ (name ++ '\x7d' :: after))
        (result.map fun tail => front ++ value.toList ++ tail)

/-- The expression whose inside starts here cannot be replaced. -/
inductive Fails (environment : Environment) : List Char → SettingsError → Prop where
  | unclosed {rest : List Char} (hrest : '\x7d' ∉ rest) : Fails environment rest .openInterpolation
  | missing {name after : List Char} (hname : '\x7d' ∉ name)
      (hunset : environment.lookup (String.ofList name) = none) :
      Fails environment (name ++ '\x7d' :: after) (.missingVariable (String.ofList name))

/-! ## Where expressions start and end -/

/-- A name ends at the first closing brace. -/
theorem name?_eq_some_iff {cs name after : List Char} :
    name? cs = some (name, after) ↔ cs = name ++ '\x7d' :: after ∧ '\x7d' ∉ name := by
  induction cs generalizing name with
  | nil => simp [name?]
  | cons c rest ih =>
    rw [name?]
    by_cases hc : c = '\x7d'
    · subst hc
      cases name with
      | nil => simp [eq_comm]
      | cons d name =>
        simp only [if_true, Option.some.injEq, Prod.mk.injEq, List.nil_eq, reduceCtorEq, false_and, List.cons_append,
          List.cons.injEq, List.mem_cons, not_or, false_iff, not_and]
        rintro ⟨rfl, -⟩ hd
        exact absurd rfl hd
    · rw [if_neg hc, Option.map_eq_some_iff]
      constructor
      · rintro ⟨⟨tail, after'⟩, htail, heq⟩
        obtain ⟨rfl, rfl⟩ := Prod.mk.inj heq
        obtain ⟨rfl, hnot⟩ := ih.1 htail
        exact ⟨rfl, by simpa [Ne.symm hc] using hnot⟩
      · rintro ⟨heq, hnot⟩
        cases name with
        | nil => exact absurd (List.cons.inj heq).1 hc
        | cons d name =>
          obtain ⟨rfl, rfl⟩ := List.cons.inj heq
          exact ⟨(name, after), ih.2 ⟨rfl, fun h => hnot (List.mem_cons_of_mem _ h)⟩, rfl⟩

/-- Without a closing brace there is no name. -/
theorem name?_eq_none_iff {cs : List Char} : name? cs = none ↔ '\x7d' ∉ cs := by
  constructor
  · intro hnone hmem
    obtain ⟨name, after, rfl, hname⟩ := List.eq_append_cons_of_mem hmem
    rw [name?_eq_some_iff.2 ⟨rfl, hname⟩] at hnone
    contradiction
  · intro hnot
    cases hname : name? cs with
    | none => rfl
    | some found =>
      obtain ⟨rfl, -⟩ := name?_eq_some_iff.1 hname
      simp at hnot

/-- A name is found whatever follows it. -/
theorem name?_append {cs name after : List Char} (h : name? cs = some (name, after)) (rest : List Char) :
    name? (cs ++ rest) = some (name, after ++ rest) := by
  obtain ⟨rfl, hname⟩ := name?_eq_some_iff.1 h
  exact name?_eq_some_iff.2 ⟨by simp, hname⟩

/-- The empty text opens no expression. -/
theorem unmarked_nil : Unmarked [] := by simp [Unmarked, opening]

/-- No expression starts in the rest of a text in which none starts. -/
theorem Unmarked.tail {c : Char} {cs : List Char} (h : Unmarked (c :: cs)) : Unmarked cs :=
  fun hinfix => h (List.infix_cons hinfix)

/-- A character that starts no expression is followed by none. -/
theorem Unmarked.cons {c : Char} {cs : List Char} (hcs : Unmarked cs) (hstart : ¬opening <+: c :: cs) :
    Unmarked (c :: cs) := by
  intro hinfix
  rcases List.infix_cons_iff.1 hinfix with hprefix | hinfix
  · exact hstart hprefix
  · exact hcs hinfix

/-- Every text either has no expression or a first one. -/
theorem unmarked_or_first (cs : List Char) :
    Unmarked cs ∨ ∃ front rest, cs = front ++ opening ++ rest ∧ Unmarked front := by
  induction cs with
  | nil => exact Or.inl unmarked_nil
  | cons c cs ih =>
    by_cases hstart : opening <+: c :: cs
    · obtain ⟨rest, hrest⟩ := hstart
      exact Or.inr ⟨[], rest, hrest.symm, unmarked_nil⟩
    · rcases ih with hcs | ⟨front, rest, rfl, hfront⟩
      · exact Or.inl (hcs.cons hstart)
      · refine Or.inr ⟨c :: front, rest, rfl, hfront.cons fun hprefix => hstart ?_⟩
        rw [List.append_assoc, ← List.cons_append]
        exact hprefix.trans (List.prefix_append _ _)

/-! ## Expanding -/

variable {environment : Environment}

/-- An expression is replaced, or refused for what is wrong with it. -/
theorem expand_opening (rest : List Char) :
    expand environment (opening ++ rest) =
      match name? rest with
      | none => .error .openInterpolation
      | some (name, after) =>
        match environment.lookup (String.ofList name) with
        | none => .error (.missingVariable (String.ofList name))
        | some value => (expand environment after).map fun tail => value.toList ++ tail := by
  rw [opening, List.cons_append, List.singleton_append, expand.eq_2]
  split
  · next hname => rw [hname]
  · next name after hname =>
    cases hset : environment.lookup (String.ofList name) <;> simp only [hname, hset]

/-- An expression that is not closed is an error. -/
theorem expand_opening_unclosed {rest : List Char} (h : '\x7d' ∉ rest) :
    expand environment (opening ++ rest) = .error .openInterpolation := by
  rw [expand_opening, name?_eq_none_iff.2 h]

/-- A closed expression is replaced by the value of its variable, or the variable is missing. -/
theorem expand_opening_closed {name : List Char} (h : '\x7d' ∉ name) (after : List Char) :
    expand environment (opening ++ (name ++ '\x7d' :: after)) =
      match environment.lookup (String.ofList name) with
      | none => .error (.missingVariable (String.ofList name))
      | some value => (expand environment after).map fun tail => value.toList ++ tail := by
  rw [expand_opening, name?_eq_some_iff.2 ⟨rfl, h⟩]

/-- A text without expressions is left as it is. -/
theorem expand_of_unmarked {cs : List Char} (h : Unmarked cs) : expand environment cs = .ok cs := by
  induction cs with
  | nil => rw [expand]
  | cons c cs ih =>
    have hplain : ∀ rest, c = '$' → cs = '\x7b' :: rest → False := by
      rintro rest rfl rfl
      exact h (List.IsPrefix.isInfix ⟨rest, rfl⟩)
    rw [expand.eq_3 _ _ _ hplain, ih h.tail]
    rfl

/-- A text that can be expanded is expanded on its own, unless what follows makes an expression of its end. -/
theorem expand_append {front expanded rest : List Char} (hfront : expand environment front = .ok expanded)
    (hrest : rest.head? ≠ some '\x7b') :
    expand environment (front ++ rest) = (expand environment rest).map fun tail => expanded ++ tail := by
  induction front using expand.induct environment generalizing expanded with
  | case1 =>
    rw [expand, Except.ok.injEq] at hfront
    cases hresult : expand environment rest <;> simp [hresult, ← hfront, Except.map]
  | case2 inside hname =>
    have hfails : expand environment (opening ++ inside) = .error .openInterpolation := by
      rw [expand_opening, hname]
    exact absurd (hfront.symm.trans hfails) (by simp)
  | case3 inside name after hname _ hunset =>
    have hfails : expand environment (opening ++ inside) = .error (.missingVariable (String.ofList name)) := by
      rw [expand_opening, hname]
      simp only [hunset]
    exact absurd (hfront.symm.trans hfails) (by simp)
  | case4 inside name after hname _ value hset ih =>
    have hinside : expand environment (opening ++ inside) =
        (expand environment after).map fun tail => value.toList ++ tail := by
      rw [expand_opening, hname]
      simp only [hset]
    obtain ⟨tail, htail, rfl⟩ := map_eq_ok_iff.1 (hinside.symm.trans hfront)
    change expand environment (opening ++ (inside ++ rest)) = _
    rw [expand_opening, name?_append hname]
    simp only [hset, ih htail]
    cases expand environment rest <;> simp [Except.map]
  | case5 c front hplain ih =>
    rw [expand.eq_3 _ _ _ hplain] at hfront
    obtain ⟨tail, htail, rfl⟩ := map_eq_ok_iff.1 hfront
    -- the first character starts no expression with what follows either
    have hplain' : ∀ inside, c = '$' → front ++ rest = '\x7b' :: inside → False := by
      intro inside hc heq
      cases front with
      | nil => exact hrest (by rw [List.nil_append] at heq; rw [heq]; rfl)
      | cons d front => exact hplain front hc (by rw [(List.cons.inj heq).1])
    rw [List.cons_append, expand.eq_3 _ _ _ hplain', ih htail]
    cases expand environment rest <;> simp [Except.map]

/-- What stands before the first expression stays. -/
theorem expand_first {front : List Char} (h : Unmarked front) (rest : List Char) :
    expand environment (front ++ opening ++ rest) =
      (expand environment (opening ++ rest)).map fun tail => front ++ tail := by
  rw [List.append_assoc]
  exact expand_append (expand_of_unmarked h) (by simp [opening])

/-- What the rule gives is what a text is expanded to. -/
theorem Expands.expand_eq {cs : List Char} {result : Except SettingsError (List Char)}
    (h : Expands environment cs result) : expand environment cs = result := by
  induction h with
  | plain hplain => exact expand_of_unmarked hplain
  | unclosed hfront hrest =>
    rw [expand_first hfront, expand_opening_unclosed hrest]
    rfl
  | missing hfront hname hunset =>
    rw [expand_first hfront, expand_opening_closed hname, hunset]
    rfl
  | @replaced front name after value result hfront hname hset _ ih =>
    rw [expand_first hfront, expand_opening_closed hname, hset, ih]
    cases result <;> simp [Except.map]

/-- The rule gives something for every text. -/
theorem exists_expands (environment : Environment) (cs : List Char) : ∃ result, Expands environment cs result := by
  induction hlength : cs.length using Nat.strongRecOn generalizing cs with
  | ind length ih =>
    rcases unmarked_or_first cs with hplain | ⟨front, rest, rfl, hfront⟩
    · exact ⟨_, .plain hplain⟩
    · cases hfound : name? rest with
      | none => exact ⟨_, .unclosed hfront (name?_eq_none_iff.1 hfound)⟩
      | some found =>
        obtain ⟨rfl, hname⟩ := name?_eq_some_iff.1 hfound
        cases hlookup : environment.lookup (String.ofList found.1) with
        | none => exact ⟨_, .missing hfront hname hlookup⟩
        | some value =>
          have hshorter : found.2.length < length := by
            simp only [← hlength, List.length_append, List.length_cons]
            omega
          obtain ⟨result, hafter⟩ := ih _ hshorter found.2 rfl
          exact ⟨_, .replaced hfront hname hlookup hafter⟩

/-- Expanding follows the rule and no other. -/
theorem expand_eq_iff {cs : List Char} {result : Except SettingsError (List Char)} :
    expand environment cs = result ↔ Expands environment cs result := by
  constructor
  · rintro rfl
    obtain ⟨result, hresult⟩ := exists_expands environment cs
    rwa [hresult.expand_eq]
  · exact Expands.expand_eq

/-- Only the variables that a text names matter to it. -/
theorem expand_congr {other : Environment} {cs : List Char}
    (h : ∀ name ∈ names cs, other.lookup name = environment.lookup name) :
    expand other cs = expand environment cs := by
  induction cs using names.induct with
  | case1 => rw [expand, expand]
  | case2 rest hname =>
    change expand other (opening ++ rest) = expand environment (opening ++ rest)
    rw [expand_opening, expand_opening, hname]
  | case3 rest name after hname _ ih =>
    have hnames : names ('$' :: '\x7b' :: rest) = String.ofList name :: names after := by
      rw [names.eq_2]
      split
      · next hnone => simp [hname] at hnone
      · next hsome =>
        obtain ⟨rfl, rfl⟩ := Prod.mk.inj (Option.some.inj (hname.symm.trans hsome))
        rfl
    rw [hnames] at h
    change expand other (opening ++ rest) = expand environment (opening ++ rest)
    rw [expand_opening, expand_opening, hname]
    simp only [h _ List.mem_cons_self, ih fun other' hother => h other' (List.mem_cons_of_mem _ hother)]
  | case4 c rest hplain ih =>
    rw [names.eq_3 _ _ hplain] at h
    rw [expand.eq_3 _ _ _ hplain, expand.eq_3 _ _ _ hplain, ih h]

/-- A text is refused for the first of its expressions that cannot be replaced. -/
theorem expand_eq_error_iff {cs : List Char} {e : SettingsError} :
    expand environment cs = .error e ↔ ∃ front expanded rest, cs = front ++ opening ++ rest ∧
      expand environment front = .ok expanded ∧ Fails environment rest e := by
  constructor
  · intro h
    have hrule := expand_eq_iff.1 h
    generalize hresult : Except.error e = result at hrule
    clear h
    induction hrule with
    | plain _ => contradiction
    | @unclosed front rest hfront hrest =>
      cases hresult
      exact ⟨front, front, rest, rfl, expand_of_unmarked hfront, .unclosed hrest⟩
    | @missing front name after hfront hname hunset =>
      cases hresult
      exact ⟨front, front, _, rfl, expand_of_unmarked hfront, .missing hname hunset⟩
    | @replaced front name after value result hfront hname hset _ ih =>
      cases result with
      | ok tail => contradiction
      | error e' =>
        cases hresult
        obtain ⟨between, expanded, rest, rfl, hbetween, hfails⟩ := ih rfl
        refine ⟨front ++ opening ++ (name ++ '\x7d' :: between), front ++ value.toList ++ expanded, rest, by simp,
          ?_, hfails⟩
        rw [expand_first hfront, expand_opening_closed hname, hset, hbetween]
        simp [Except.map]
  · rintro ⟨front, expanded, rest, rfl, hfront, hfails⟩
    rw [List.append_assoc, expand_append hfront (by simp [opening])]
    cases hfails with
    | unclosed hrest =>
      rw [expand_opening_unclosed hrest]
      rfl
    | missing hname hunset =>
      rw [expand_opening_closed hname, hunset]
      rfl

/-- Every text is expanded by the rule for its first expression. If that gives a text, it is the same in every
environment that agrees on the variables named, and if not, the error is that of the leftmost expression that cannot
be replaced. -/
theorem expand_leftmost (environment : Environment) (text : List Char) :
    (∀ result, expand environment text = result ↔ Expands environment text result) ∧
      (∀ expanded other, expand environment text = .ok expanded →
        (∀ name ∈ names text, other.lookup name = environment.lookup name) →
          expand other text = .ok expanded) ∧
      ∀ e, expand environment text = .error e ↔ ∃ front expanded rest, text = front ++ opening ++ rest ∧
        expand environment front = .ok expanded ∧ Fails environment rest e := by
  refine ⟨fun result => expand_eq_iff, fun expanded other hexpanded hsame => ?_, fun e => expand_eq_error_iff⟩
  rw [expand_congr hsame, hexpanded]

/-- Dollar signs in a row, a value that looks like an expression, and a name with the start of another one in it. -/
example : expand [("A", "$\x7bA\x7d"), ("a$\x7bb", "")] "$$$\x7bA\x7d$$\x7ba$\x7bb\x7d\x7d".toList =
    .ok "$$$\x7bA\x7d$\x7d".toList := by
  decide +kernel

end SignOff.Interpolation
