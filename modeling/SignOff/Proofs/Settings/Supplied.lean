import SignOff.Proofs.Settings.Values

/-!
# The layer that a setting comes from

Of the layers that give a value to a setting the topmost one supplies it: the caller, the environment, the settings
file, and below them the defaults. An environment gives a value exactly where one of the variables of the setting
is set to more than white space.
-/

namespace SignOff

/-- The value that a layer gives to a setting, as it is shown. -/
def Patch.shown? (p : Patch) : Setting → Option String
  | .databaseUrl => p.databaseUrl
  | .maxConnections => p.maxConnections.map Text.decimal
  | .timeoutSecs => p.timeoutSecs.map Text.decimal
  | .bindAddress => p.bindAddress
  | .port => p.port.map Text.decimal
  | .shutdownSecs => p.shutdownSecs.map Text.decimal
  | .bulkMaxItems => p.bulkMaxItems.map Text.decimal
  | .dateFormat => p.dateFormat
  | .logLevel => p.logLevel
  | .logFormat => p.logFormat.map LogFormat.name

/-- The empty layer gives no value. -/
theorem Patch.shown?_empty (setting : Setting) : Patch.empty.shown? setting = none := by
  cases setting <;> rfl

/-- A value of a layer is shown, and nothing else. -/
theorem Patch.isSome_shown? (p : Patch) (setting : Setting) :
    (p.shown? setting).isSome = (p.value? setting).isSome := by
  cases setting with
  | databaseUrl | bindAddress | dateFormat | logLevel => rfl
  | _ => exact Option.isSome_map

/-- Under a layer a setting has the value that the layer gives, or else the one before. -/
theorem Setting.shown_patched (s : Settings) (p : Patch) (setting : Setting) :
    setting.shown (s.patched p) = (p.shown? setting).getD (setting.shown s) := by
  cases setting <;> simp only [shown, Settings.patched, Patch.shown?, Option.getD_map]

namespace Environment

variable {environment : Environment} {setting : Setting}

/-- A variable that counts gives a value unless it is reported. -/
theorem isSome_value? (h : environment.error? setting = none) :
    (environment.value? setting).isSome = (environment.given? setting).isSome := by
  unfold error? at h
  unfold value? text?
  cases hgiven : environment.given? setting with
  | none => rfl
  | some given =>
    rw [hgiven, Option.bind_some] at h
    cases hvalue : setting.ofVariable? given.2 with
    | none => simp [hvalue] at h
    | some value => simp [hvalue]

/-- The layer of an environment gives a value exactly to the settings with a variable that counts. -/
theorem isSome_shown?_of_patch {patch : Patch} (h : environment.patch = .ok patch) (setting : Setting) :
    (patch.shown? setting).isSome = (environment.given? setting).isSome := by
  rw [patch_eq, okUnless_eq_ok_iff] at h
  obtain ⟨hnone, rfl⟩ := h
  rw [Patch.isSome_shown?, Patch.value?_ofValues]
  exact isSome_value? (List.findSome?_eq_none_iff.1 hnone setting setting.mem_all)

/-- A variable that counts is one of the setting's and set to more than white space. -/
theorem of_given? {name value : String} (h : environment.given? setting = some (name, value)) :
    name ∈ setting.variableNames ∧ environment.lookup name = some value ∧ Text.blank value = false := by
  obtain ⟨name', hname, hvalue⟩ := List.exists_of_findSome?_eq_some h
  obtain ⟨value', hlookup, heq⟩ := Option.map_eq_some_iff.1 hvalue
  obtain ⟨hlookup, hblank⟩ := Option.filter_eq_some_iff.1 hlookup
  cases heq
  exact ⟨hname, hlookup, by simpa using hblank⟩

end Environment

namespace Settings

/-- Where the value of a setting comes from. -/
inductive Layer where
  | caller
  | variable (name : String)
  | file (path : String)
  | default
deriving DecidableEq

/-- The topmost layer that gives a value to a setting, with that value as it is shown. -/
def supplied (site : Site) (options : LoadOptions) (setting : Setting) : Layer × String :=
  let caller := (options.overrides.shown? setting).map fun value => (Layer.caller, value)
  let environment := do
    let (name, _) ← site.environment.given? setting
    let value ← (← site.environment.patch.toOption).shown? setting
    return (Layer.variable name, value)
  let file := do
    let path ← path? site.files options.configPath
    let value ← (← (filePatch site options).toOption).shown? setting
    return (Layer.file path, value)
  (caller.or (environment.or file)).getD (.default, setting.shown .default)

/-- What is loaded are the defaults under the three layers. -/
theorem load_eq_ok {site : Site} {options : LoadOptions} {settings : Settings}
    (h : load site options = .ok settings) :
    ∃ file environment, filePatch site options = .ok file ∧ site.environment.patch = .ok environment ∧
      settings = ((default.patched file).patched environment).patched options.overrides := by
  obtain ⟨file, hfile, h⟩ := bind_eq_ok_iff.1 h
  obtain ⟨environment, henvironment, h⟩ := bind_eq_ok_iff.1 h
  refine ⟨file, environment, hfile, henvironment, ?_⟩
  unfold validate at h
  split at h
  · contradiction
  · exact (Except.ok.inj h).symm

section Supplied

variable {site : Site} {options : LoadOptions} {setting : Setting} {value : String}

/-- What the caller gives counts most. -/
theorem supplied_of_caller (hcaller : options.overrides.shown? setting = some value) :
    supplied site options setting = (.caller, value) := by
  simp [supplied, hcaller]

/-- Then comes the variable of the setting that counts. -/
theorem supplied_of_given {patch : Patch} {name text : String}
    (hcaller : options.overrides.shown? setting = none) (hpatch : site.environment.patch = .ok patch)
    (hgiven : site.environment.given? setting = some (name, text)) :
    ∃ value, patch.shown? setting = some value ∧ supplied site options setting = (.variable name, value) := by
  have hsome := Environment.isSome_shown?_of_patch hpatch setting
  rw [hgiven, Option.isSome_some] at hsome
  obtain ⟨value, hvalue⟩ := Option.isSome_iff_exists.1 hsome
  exact ⟨value, hvalue, by simp [supplied, hcaller, hgiven, hpatch, Except.toOption, hvalue]⟩

/-- Then the settings file. -/
theorem supplied_of_file {patch : Patch} {path : String} (hcaller : options.overrides.shown? setting = none)
    (hgiven : site.environment.given? setting = none) (hpath : path? site.files options.configPath = some path)
    (hpatch : filePatch site options = .ok patch) (hvalue : patch.shown? setting = some value) :
    supplied site options setting = (.file path, value) := by
  simp [supplied, hcaller, hgiven, hpath, hpatch, Except.toOption, hvalue]

/-- And last the defaults. -/
theorem supplied_of_none {patch : Patch} (hcaller : options.overrides.shown? setting = none)
    (hgiven : site.environment.given? setting = none) (hpatch : filePatch site options = .ok patch)
    (hnone : patch.shown? setting = none) :
    supplied site options setting = (.default, setting.shown .default) := by
  simp [supplied, hcaller, hgiven, hpatch, Except.toOption, hnone]

/-- Where there is no settings file its layer gives nothing. -/
theorem shown?_of_path?_eq_none {patch : Patch} (hpath : path? site.files options.configPath = none)
    (hpatch : filePatch site options = .ok patch) : patch.shown? setting = none := by
  simp only [filePatch, hpath] at hpatch
  split at hpatch
  · contradiction
  · cases hpatch
    exact Patch.shown?_empty setting

/-- A setting is loaded with the value that the topmost layer gives. -/
theorem supplied_snd {settings : Settings} (h : load site options = .ok settings) (setting : Setting) :
    (supplied site options setting).2 = setting.shown settings := by
  obtain ⟨file, environment, hfile, henvironment, rfl⟩ := load_eq_ok h
  rw [Setting.shown_patched, Setting.shown_patched, Setting.shown_patched]
  cases hcaller : options.overrides.shown? setting with
  | some value => rw [supplied_of_caller hcaller, Option.getD_some]
  | none =>
    cases hgiven : site.environment.given? setting with
    | some given =>
      obtain ⟨value, hvalue, hsupplied⟩ := supplied_of_given hcaller henvironment hgiven
      rw [hsupplied, hvalue, Option.getD_none, Option.getD_some]
    | none =>
      have hnone : environment.shown? setting = none := by
        rw [← Option.not_isSome_iff_eq_none, Environment.isSome_shown?_of_patch henvironment, hgiven]
        simp
      rw [hnone, Option.getD_none, Option.getD_none]
      cases hvalue : file.shown? setting with
      | none => rw [supplied_of_none hcaller hgiven hfile hvalue, Option.getD_none]
      | some value =>
        cases hpath : path? site.files options.configPath with
        | none => simp [shown?_of_path?_eq_none hpath hfile] at hvalue
        | some path => rw [supplied_of_file hcaller hgiven hpath hfile hvalue, Option.getD_some]

end Supplied

end Settings

end SignOff
