import Mathlib.Data.List.Forall2

/-!
# Successful computations

A computation out of several steps is successful exactly when all its steps are, and else fails with the error of
the first that is not. Lists are read value by value, and so are they compared before and after several steps.
-/

namespace SignOff

variable {ε α β : Type}

/-- A computation that goes on after another one is successful exactly when both are. -/
theorem bind_eq_ok_iff {x : Except ε α} {f : α → Except ε β} {b : β} :
    x >>= f = .ok b ↔ ∃ a, x = .ok a ∧ f a = .ok b := by
  cases x <;> simp [bind, Except.bind]

/-- What is made of a result is successful exactly when the result is. -/
theorem map_eq_ok_iff {x : Except ε α} {f : α → β} {b : β} :
    x.map f = .ok b ↔ ∃ a, x = .ok a ∧ f a = b := by
  cases x <;> simp [Except.map]

/-- The error of a computation that is not successful. -/
def failure? : Except ε α → Option ε
  | .error e => some e
  | .ok _ => none

/-- A result, unless there is an error. -/
def okUnless (error? : Option ε) (a : α) : Except ε α :=
  match error? with
  | some e => .error e
  | none => .ok a

/-- A value comes out exactly where there is no error. -/
theorem okUnless_eq_ok_iff {error? : Option ε} {a b : α} : okUnless error? a = .ok b ↔ error? = none ∧ a = b := by
  cases error? <;> simp [okUnless]

/-- An error comes out exactly where it is there. -/
theorem okUnless_eq_error_iff {error? : Option ε} {a : α} {e : ε} :
    okUnless error? a = .error e ↔ error? = some e := by
  cases error? <;> simp [okUnless]

/-- A computation that goes on after another one fails first where the other one does. -/
theorem bind_eq_okUnless {x : Except ε α} {f : α → Except ε β} {later? : Option ε} {b : β}
    (hlater : ∀ a, x = .ok a → f a = okUnless later? b) : x >>= f = okUnless ((failure? x).or later?) b := by
  cases x with
  | error e => rfl
  | ok a => exact hlater a rfl

/-- Of two computations the error of the first counts, and the error of the second if the first has none. -/
theorem okUnless_bind (error? : Option ε) (a : α) (later? : α → Option ε) (g : α → β) :
    (okUnless error? a >>= fun b => okUnless (later? b) (g b)) = okUnless (error?.or (later? a)) (g a) := by
  cases error? <;> rfl

/-- What is found first is found at the head of a list, or else in its tail. -/
theorem findSome?_cons_eq_or (f : α → Option β) (a : α) (rest : List α) :
    (a :: rest).findSome? f = (f a).or (rest.findSome? f) := by
  rw [List.findSome?_cons]
  cases f a <;> rfl

/-- A list is read as another one exactly when it is read value by value. -/
theorem mapM_eq_ok_iff {f : α → Except ε β} {as : List α} {bs : List β} :
    as.mapM f = .ok bs ↔ List.Forall₂ (fun a b => f a = .ok b) as bs := by
  induction as generalizing bs with
  | nil =>
    rw [List.mapM_nil, List.forall₂_nil_left_iff]
    simp [pure, Except.pure, eq_comm]
  | cons a as ih =>
    rw [List.mapM_cons, List.forall₂_cons_left_iff]
    simp only [bind_eq_ok_iff, ← ih, pure, Except.pure, Except.ok.injEq]
    constructor
    · rintro ⟨b, ha, rest, has, heq⟩
      exact ⟨b, rest, ha, has, heq.symm⟩
    · rintro ⟨b, rest, ha, has, heq⟩
      exact ⟨b, ha, rest, has, heq.symm⟩

/-- What holds of the values before and after two steps holds of their lists. -/
theorem forall₂_trans {R : α → α → Prop} (htrans : ∀ {a b c}, R a b → R b c → R a c) {first second third : List α}
    (h : List.Forall₂ R first second) (h' : List.Forall₂ R second third) : List.Forall₂ R first third := by
  induction h generalizing third with
  | nil => exact h'
  | cons hfirst _ ih =>
    cases h' with
    | cons hsecond hrest => exact .cons (htrans hfirst hsecond) (ih hrest)

end SignOff
