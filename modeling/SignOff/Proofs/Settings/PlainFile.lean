import SignOff.Proofs.Settings.Supplied

/-!
# What a settings file says as it stands

A settings file is read after variables have been put in. Where its text holds no expression it is read as it
stands, and where the section of a setting is a table, the file gives a value to the setting exactly when it has
one under its key.
-/

namespace SignOff

/-- A text without expressions is left as it is. -/
theorem Interpolation.expand_of_names_eq_nil {environment : Environment} {cs expanded : List Char}
    (hnames : names cs = []) (h : expand environment cs = .ok expanded) : expanded = cs := by
  induction cs using expand.induct environment generalizing expanded with
  | case1 =>
    rw [expand] at h
    exact (Except.ok.inj h).symm
  | case2 rest hname =>
    rw [expand] at h
    split at h
    · contradiction
    · next hname' => simp [hname] at hname'
  | case3 rest name after hname | case4 rest name after hname =>
    rw [names] at hnames
    split at hnames
    · next hname' => simp [hname] at hname'
    · contradiction
  | case5 c rest hplain ih =>
    rw [names.eq_3 _ _ hplain] at hnames
    rw [expand.eq_3 _ _ _ hplain] at h
    obtain ⟨tail, htail, rfl⟩ := map_eq_ok_iff.1 h
    rw [ih hnames htail]

/-- A path is gone on with from where it leads to. -/
theorem Toml.find?_append (path rest : List String) (value : Toml) :
    find? (path ++ rest) value = (find? path value).bind (find? rest) := by
  induction path generalizing value with
  | nil => rfl
  | cons key path ih =>
    cases value with
    | table kind members =>
      simp only [List.cons_append, find?]
      cases members.lookup key with
      | none => rfl
      | some inner => exact ih inner
    | _ => rfl

namespace Patch

variable {file : Toml} {setting : Setting}

/-- A value of a file is found under the key of its setting, where the section of the setting is a table. -/
theorem isSome_of_fileValue? {α : Type} {read : Toml → Option α} {value? : Option α}
    (hsection : ∀ value, file.find? [setting.group] = some value → ∃ kind members, value = .table kind members)
    (h : fileValue? file read setting = some value?) :
    value?.isSome = (file.find? [setting.group, setting.key]).isSome := by
  have hpath : file.find? [setting.group, setting.key] =
      (file.find? [setting.group]).bind (Toml.find? [setting.key]) := Toml.find?_append [_] [_] file
  rw [hpath]
  unfold fileValue? at h
  cases hgroup : file.find? [setting.group] with
  | none =>
    simp only [hgroup, Option.some.injEq] at h
    rw [← h]
    rfl
  | some group =>
    obtain ⟨kind, members, rfl⟩ := hsection group hgroup
    simp only [hgroup, Toml.field?] at h
    cases hvalue : members.lookup setting.key with
    | none =>
      simp only [hvalue, Option.some.injEq] at h
      simp [← h, Toml.find?, hvalue]
    | some value =>
      simp only [hvalue, Option.map_eq_some_iff] at h
      obtain ⟨read, -, rfl⟩ := h
      simp [Toml.find?, hvalue]

/-- So is every value in the layer of the file. -/
theorem isSome_shown?_of_ofToml? {patch : Patch}
    (hsection : ∀ value, file.find? [setting.group] = some value → ∃ kind members, value = .table kind members)
    (h : ofToml? file = some patch) :
    (patch.shown? setting).isSome = (file.find? [setting.group, setting.key]).isSome := by
  rw [isSome_shown?]
  exact isSome_of_fileValue? hsection (ofToml?_eq_some_iff.1 h setting)

/-- The layer of a file is that of its text with the variables put in. -/
theorem ofText_eq_ok {environment : Environment} {path raw : String} {patch : Patch}
    (h : ofText environment path raw = .ok patch) :
    ∃ expanded file, Interpolation.expand environment raw.toList = .ok expanded ∧
      Toml.read? (String.ofList expanded) = some file ∧ ofToml? file = some patch := by
  obtain ⟨expanded, hexpanded, h⟩ := bind_eq_ok_iff.1 h
  cases hfile : Toml.read? (String.ofList expanded) with
  | none => simp [hfile] at h
  | some file =>
    simp only [hfile] at h
    cases hpatch : ofToml? file with
    | none => simp [hpatch] at h
    | some read =>
      simp only [hpatch, Except.ok.injEq] at h
      exact ⟨expanded, file, hexpanded, hfile, hpatch.trans (congrArg some h)⟩

end Patch

namespace Settings

variable {site : Site} {options : LoadOptions} {patch : Patch} {path : String}

/-- The layer of the settings file is that of its text. -/
theorem filePatch_eq_ok (hpath : path? site.files options.configPath = some path)
    (h : filePatch site options = .ok patch) :
    ∃ text, fileText site.files path = .ok text ∧ Patch.ofText site.environment path text = .ok patch := by
  simp only [filePatch, hpath] at h
  exact bind_eq_ok_iff.1 h

end Settings

end SignOff
