import SignOff.Settings.Basic

/-!
# Variables in settings files

A settings file may hold expressions made of a dollar sign and the name of an environment variable
in braces. Each is replaced by the value of its variable, from left to right and once: a value that
holds an expression itself stays as it is. The name is whatever stands before the next closing
brace.
-/

namespace SignOff

/-- The environment variables that are set, by name. Values are texts: a variable whose bytes are no Unicode
text is left out. The reads of a system would tell it apart, since it counts as set where only that is asked
and as missing where its value is wanted, so nothing here speaks of an environment with such a value. -/
abbrev Environment := List (String × String)

namespace Interpolation

/-- The text before the next closing brace, and the text after it. -/
def name? : List Char → Option (List Char × List Char)
  | [] => none
  | c :: rest =>
    if c = '\x7d' then some ([], rest)
    else (name? rest).map fun (name, after) => (c :: name, after)

/-- What follows a closing brace is shorter than the text. -/
theorem length_name? {cs name after : List Char} (h : name? cs = some (name, after)) :
    after.length < cs.length := by
  induction cs generalizing name after with
  | nil => simp [name?] at h
  | cons c rest ih =>
    rw [name?] at h
    split at h
    · simp only [Option.some.injEq, Prod.mk.injEq] at h
      simp [← h.2]
    · obtain ⟨⟨n, a⟩, hn, he⟩ := Option.map_eq_some_iff.1 h
      simp only [Prod.mk.injEq] at he
      have := ih hn
      simp only [List.length_cons, ← he.2]
      omega

/-- The text with all expressions replaced. The leftmost one that cannot be replaced is the error. -/
def expand (environment : Environment) (cs : List Char) : Except SettingsError (List Char) :=
  match cs with
  | [] => .ok []
  | '$' :: '\x7b' :: rest =>
    match h : name? rest with
    | none => .error .openInterpolation
    | some (name, after) =>
      have := length_name? h
      match environment.lookup (String.ofList name) with
      | none => .error (.missingVariable (String.ofList name))
      | some value => (expand environment after).map fun tail => value.toList ++ tail
  | c :: rest => (expand environment rest).map fun tail => c :: tail
termination_by cs.length
decreasing_by all_goals simp only [List.length_cons]; omega

/-- The names in all expressions of a text, up to one that is not closed. -/
def names (cs : List Char) : List String :=
  match cs with
  | [] => []
  | '$' :: '\x7b' :: rest =>
    match h : name? rest with
    | none => []
    | some (name, after) =>
      have := length_name? h
      String.ofList name :: names after
  | _ :: rest => names rest
termination_by cs.length
decreasing_by all_goals simp only [List.length_cons]; omega

end Interpolation

end SignOff
