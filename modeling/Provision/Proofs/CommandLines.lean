import Mathlib.Data.List.Nodup
import Mathlib.Data.List.Perm.Basic
import Provision.Command.Line
import Provision.Proofs.Hexadecimal
import Provision.Proofs.Outcome

/-! Command lines that are written out, and read back.

A setting is what one word says: a switch, and its value behind an equals sign. The words of
settings of different switches are read as the settings, one by one, `read_settings`, and as each
sets a value of its own, their order makes no difference, `foldl_apply_perm`. What is not said is
taken from the environment, where only three of the values can be found. `parse_rendered` puts this
together for the verb that makes an instance. -/
namespace Provision

namespace CommandLine

/-! ### Settings -/

/-- What can be said behind the verb. -/
inductive Setting
  | dataDir (path : Path)
  | instanceName (name : Name)
  | genesis (path : Path)
  | cache (units : UInt64)
  | dryRun
  | verbosity (level : Verbosity)
deriving DecidableEq

namespace Setting

variable {setting other : Setting} {given : GivenValues}

def switch : Setting → Switch
  | .dataDir _ => .dataDir
  | .instanceName _ => .instanceName
  | .genesis _ => .genesis
  | .cache _ => .cache
  | .dryRun => .dryRun
  | .verbosity _ => .verbosity

/-- The value as a text. -/
def value : Setting → List Char
  | .dataDir path | .genesis path => path
  | .instanceName name => name
  | .cache units => Numeral.decimal units.toNat
  | .dryRun => []
  | .verbosity level => Numeral.decimal level.rank

/-- The value, as far as it stands in the word. -/
def shown (setting : Setting) : Option (List Char) :=
  if setting.switch.takesValue then some setting.value else none

def word (setting : Setting) : CommandWord :=
  '-' :: '-' :: (setting.switch.name ++ (setting.shown.map ('=' :: ·)).getD [])

/-- The values with that of the setting among them. -/
def apply (given : GivenValues) : Setting → GivenValues
  | .dataDir path => { given with dataDir := some path }
  | .instanceName name => { given with instanceName := some name }
  | .genesis path => { given with genesis := some path }
  | .cache units => { given with cache := some units }
  | .dryRun => { given with dryRun := true }
  | .verbosity level => { given with verbosity := some level }

/-- A path that is said is not empty. -/
def IsSayable : Setting → Prop
  | .dataDir path | .genesis path => path ≠ []
  | .instanceName _ | .cache _ | .dryRun | .verbosity _ => True

theorem readPath_of_ne_nil {switch : Switch} {path : Path} (h : path ≠ []) :
    GivenValues.readPath switch path = .ok path := by
  rw [GivenValues.readPath, if_neg (by simpa using h)]

theorem readVerbosity_rank (level : Verbosity) :
    GivenValues.readVerbosity (Numeral.decimal level.rank) = .ok level := by
  cases level <;> rfl

theorem set_value (sayable : setting.IsSayable) :
    given.set setting.switch setting.value = .ok (setting.apply given) := by
  cases setting with
  | dataDir path | genesis path =>
    simp only [switch, value, GivenValues.set, readPath_of_ne_nil sayable]
    rfl
  | instanceName name => rfl
  | cache units =>
    simp only [switch, value, GivenValues.set, GivenValues.readCache, Numeral.readUInt64_decimal]
    rfl
  | dryRun => rfl
  | verbosity level =>
    simp only [switch, value, GivenValues.set, readVerbosity_rank]
    rfl

theorem has_apply (given : GivenValues) (setting : Setting) (switch : Switch) :
    (setting.apply given).has switch = (setting.switch == switch || given.has switch) := by
  cases setting <;> cases switch <;> rfl

theorem apply_comm (h : setting.switch ≠ other.switch) :
    other.apply (setting.apply given) = setting.apply (other.apply given) := by
  cases setting <;> cases other <;> first | rfl | exact absurd rfl h

end Setting

/-! ### Words -/

theorem cutAtEquals_append {name : List Char} (h : '=' ∉ name) (value : Option (List Char)) :
    cutAtEquals (name ++ (value.map ('=' :: ·)).getD []) = (name, value) := by
  induction name with
  | nil =>
    cases value <;> rfl
  | cons c name ih =>
    rw [List.mem_cons, not_or] at h
    rw [List.cons_append, cutAtEquals, if_neg (Ne.symm h.1), ih h.2]

theorem equals_notMem_name (switch : Switch) : '=' ∉ switch.name := by
  cases switch <;> decide

theorem shape_word (setting : Setting) :
    shape setting.word = .long setting.switch.name setting.shown := by
  have hcut := cutAtEquals_append (equals_notMem_name setting.switch) setting.shown
  obtain ⟨c, rest, hname⟩ : ∃ c rest, setting.switch.name = c :: rest := by
    cases setting <;> exact ⟨_, _, rfl⟩
  rw [hname, List.cons_append] at hcut
  rw [Setting.word, hname, List.cons_append, shape, hcut]
  intro h
  cases h

theorem named?_switch (setting : Setting) :
    CommandLevel.named? (some .init) setting.switch.name = some setting.switch := by
  cases setting <;> rfl

theorem named?_verbosity (level : CommandLevel) :
    CommandLevel.named? level Switch.verbosity.name = some .verbosity := by
  cases level with
  | none => rfl
  | some verb => cases verb <;> rfl

/-- A setting that is new and sayable is taken as it is. -/
theorem takeLong_setting {level : CommandLevel} {setting : Setting} {given : GivenValues}
    (named : CommandLevel.named? level setting.switch.name = some setting.switch)
    (sayable : setting.IsSayable) (new : given.has setting.switch = false) :
    Progress.takeLong level ⟨given, none⟩ setting.switch.name setting.shown =
      .ok ⟨setting.apply given, none⟩ := by
  have htake : Progress.take ⟨given, none⟩ setting.switch setting.value =
      .ok ⟨setting.apply given, none⟩ := by
    show (given.enter setting.switch setting.value >>= fun given =>
      .ok (⟨given, none⟩ : Progress)) = _
    rw [GivenValues.enter, new, if_neg Bool.false_ne_true, Setting.set_value sayable]
    rfl
  unfold Progress.takeLong
  rw [named, Setting.shown]
  cases hvalue : setting.switch.takesValue with
  | true =>
    simp only [if_true, hvalue, htake]
  | false =>
    have hempty : setting.value = [] := by
      cases setting <;> first | rfl | cases hvalue
    rw [hempty] at htake
    simp only [Bool.false_eq_true, if_false, Progress.takeAlone, hvalue, htake]

theorem read_setting {level : CommandLevel} {setting : Setting} {given : GivenValues}
    (named : CommandLevel.named? level setting.switch.name = some setting.switch)
    (sayable : setting.IsSayable) (new : given.has setting.switch = false)
    (words : List CommandWord) :
    read level ⟨given, none⟩ (setting.word :: words) =
      read level ⟨setting.apply given, none⟩ words := by
  rw [read.eq_def]
  simp only [shape_word, takeLong_setting named sayable new]
  rfl

/-- Settings of different switches are read one by one. -/
theorem read_settings {settings : List Setting} {given : GivenValues}
    (sayable : ∀ setting ∈ settings, setting.IsSayable)
    (distinct : (settings.map Setting.switch).Nodup)
    (new : ∀ setting ∈ settings, given.has setting.switch = false) :
    read (some .init) ⟨given, none⟩ (settings.map Setting.word) =
      .ok (⟨settings.foldl Setting.apply given, none⟩, none) := by
  induction settings generalizing given with
  | nil => rfl
  | cons setting settings ih =>
    obtain ⟨hfirst, hsayable⟩ := List.forall_mem_cons.mp sayable
    obtain ⟨hnew, hrest⟩ := List.forall_mem_cons.mp new
    rw [List.map_cons, List.nodup_cons] at distinct
    rw [List.map_cons, read_setting (named?_switch setting) hfirst hnew]
    refine ih hsayable distinct.2 ?_
    intro other hother
    have hne : setting.switch ≠ other.switch :=
      fun he => distinct.1 (he ▸ List.mem_map_of_mem hother)
    rw [Setting.has_apply, beq_false_of_ne hne, Bool.false_or]
    exact hrest other hother

/-- The order of settings makes no difference. -/
theorem foldl_apply_perm {settings others : List Setting} (h : settings.Perm others)
    (distinct : (settings.map Setting.switch).Nodup) (given : GivenValues) :
    settings.foldl Setting.apply given = others.foldl Setting.apply given := by
  refine h.foldl_eq' (fun setting hs other ho given => ?_) given
  by_cases heq : setting = other
  · rw [heq]
  · exact Setting.apply_comm fun he => heq (List.inj_on_of_nodup_map distinct hs ho he)

/-! ### What is said and what is not -/

/-- The options of an instance, as far as they are said. -/
structure Stated where
  dataDir : Option Path := none
  instanceName : Option Name := none
  genesis : Option Path := none
  cache : Option UInt64 := none
  dryRun : Bool := false
deriving DecidableEq

namespace Stated

variable {stated : Stated} {environment : List Char → Option (List Char)}

/-- All options are said. -/
def all (options : InitOptions) : Stated where
  dataDir := some options.dataDir
  instanceName := some options.instanceName
  genesis := some options.genesis
  cache := some options.cache
  dryRun := options.dryRun

/-- What is said, and the verbosity if it is said as well. -/
def settings (stated : Stated) (verbosity : Option Verbosity) : List Setting :=
  (verbosity.map Setting.verbosity).toList ++ (stated.dataDir.map Setting.dataDir).toList ++
    (stated.instanceName.map Setting.instanceName).toList ++
      (stated.genesis.map Setting.genesis).toList ++ (stated.cache.map Setting.cache).toList ++
        if stated.dryRun then [.dryRun] else []

/-- What has been given when the settings have been read. -/
def given (stated : Stated) (verbosity : Option Verbosity) : GivenValues where
  dataDir := stated.dataDir
  instanceName := stated.instanceName
  genesis := stated.genesis
  cache := stated.cache
  dryRun := stated.dryRun
  verbosity := verbosity

/-- With what the environment has in place of options that are not said. The cache and the dry run
are not looked up there. -/
def completed (stated : Stated) (environment : List Char → Option (List Char)) : Stated where
  dataDir := stated.dataDir <|> environment "GENINIT_DATA_DIR".toList
  instanceName := stated.instanceName <|> environment "GENINIT_INSTANCE_NAME".toList
  genesis := stated.genesis <|> environment "GENINIT_GENESIS".toList
  cache := stated.cache
  dryRun := stated.dryRun

/-- The options, if the two paths are known. The others have defaults. -/
def options (stated : Stated) : Except UsageError InitOptions :=
  match stated.dataDir, stated.genesis with
  | some dataDir, some genesis =>
    .ok
      { dataDir, genesis
        instanceName := stated.instanceName.getD Instance.defaultName
        cache := stated.cache.getD 16
        dryRun := stated.dryRun }
  | none, some _ => .error (.missing [.dataDir])
  | some _, none => .error (.missing [.genesis])
  | none, none => .error (.missing [.dataDir, .genesis])

/-- No path that is known is empty. -/
structure IsSound (stated : Stated) : Prop where
  dataDir : stated.dataDir ≠ some []
  genesis : stated.genesis ≠ some []

theorem toList_switches {α : Type} {say : α → Setting} {switch : Switch}
    (h : ∀ value, (say value).switch = switch) (value : Option α) :
    ((value.map say).toList.map Setting.switch).Sublist [switch] := by
  cases value with
  | none => exact List.nil_sublist _
  | some value => simp [h]

/-- No switch is said twice. -/
theorem nodup_settings (stated : Stated) (verbosity : Option Verbosity) :
    ((stated.settings verbosity).map Setting.switch).Nodup := by
  have hdryRun : ((if stated.dryRun then [Setting.dryRun] else []).map Setting.switch).Sublist
      [Switch.dryRun] := by
    cases stated.dryRun <;> simp [Setting.switch]
  have hsublist : ((stated.settings verbosity).map Setting.switch).Sublist
      ([.verbosity] ++ [.dataDir] ++ [.instanceName] ++ [.genesis] ++ [.cache] ++ [.dryRun]) := by
    simp only [settings, List.map_append]
    refine (((((toList_switches ?_ verbosity).append (toList_switches ?_ stated.dataDir)).append
      (toList_switches ?_ stated.instanceName)).append (toList_switches ?_ stated.genesis)).append
      (toList_switches ?_ stated.cache)).append hdryRun
    all_goals
      intro
      rfl
  exact hsublist.nodup (by decide)

theorem foldl_settings (stated : Stated) (verbosity : Option Verbosity) :
    (stated.settings verbosity).foldl Setting.apply {} = stated.given verbosity := by
  obtain ⟨dataDir, instanceName, genesis, cache, dryRun⟩ := stated
  cases verbosity <;> cases dataDir <;> cases instanceName <;> cases genesis <;> cases cache <;>
    cases dryRun <;> rfl

theorem sayable_settings {verbosity : Option Verbosity} (h : stated.IsSound) {setting : Setting}
    (hs : setting ∈ stated.settings verbosity) : setting.IsSayable := by
  simp only [settings, List.mem_append, Option.mem_toList, Option.map_eq_some_iff] at hs
  rcases hs with ((((⟨_, _, rfl⟩ | ⟨path, hpath, rfl⟩) | ⟨_, _, rfl⟩) | ⟨path, hpath, rfl⟩) |
    ⟨_, _, rfl⟩) | hs
  · trivial
  · rintro rfl
    exact h.dataDir hpath
  · trivial
  · rintro rfl
    exact h.genesis hpath
  · trivial
  · split at hs
    · rw [List.mem_singleton.mp hs]
      trivial
    · cases hs

end Stated

/-! ### What is taken from the environment -/

section Environment

variable {environment : List Char → Option (List Char)} {switches : List Switch}

theorem complete_of_has {given : GivenValues} {switch : Switch} (has : given.has switch = true) :
    given.complete environment (switch :: switches) = given.complete environment switches := by
  rw [GivenValues.complete, if_pos has]

theorem complete_of_absent {given : GivenValues} {switch : Switch}
    (absent : switch.environmentName?.bind environment = none) :
    given.complete environment (switch :: switches) = given.complete environment switches := by
  rw [GivenValues.complete, absent]
  split <;> rfl

theorem complete_of_found {given : GivenValues} {setting : Setting}
    (new : given.has setting.switch = false) (sayable : setting.IsSayable)
    (found : setting.switch.environmentName?.bind environment = some setting.value) :
    given.complete environment (setting.switch :: switches) =
      (setting.apply given).complete environment switches := by
  rw [GivenValues.complete, new, if_neg Bool.false_ne_true, found]
  show (given.set setting.switch setting.value >>= fun given => _) = _
  rw [Setting.set_value sayable]
  rfl

variable {stated : Stated} {verbosity : Option Verbosity}

theorem complete_dataDir {known : Option Path}
    (hknown : (stated.dataDir <|> environment "GENINIT_DATA_DIR".toList) = known)
    (nonempty : known ≠ some []) :
    (stated.given verbosity).complete environment (.dataDir :: switches) =
      (Stated.given { stated with dataDir := known } verbosity).complete environment switches := by
  obtain ⟨dataDir⟩ := stated
  subst hknown
  cases dataDir with
  | some path => exact complete_of_has rfl
  | none =>
    cases hpath : environment "GENINIT_DATA_DIR".toList with
    | none => exact complete_of_absent hpath
    | some path =>
      have hne : path ≠ [] := fun he => nonempty (he ▸ hpath)
      exact @complete_of_found _ _ _ (.dataDir path) rfl hne hpath

theorem complete_instanceName {known : Option Name}
    (hknown : (stated.instanceName <|> environment "GENINIT_INSTANCE_NAME".toList) = known) :
    (stated.given verbosity).complete environment (.instanceName :: switches) =
      (Stated.given { stated with instanceName := known } verbosity).complete environment
        switches := by
  obtain ⟨dataDir, instanceName⟩ := stated
  subst hknown
  cases instanceName with
  | some name => exact complete_of_has rfl
  | none =>
    cases hname : environment "GENINIT_INSTANCE_NAME".toList with
    | none => exact complete_of_absent hname
    | some name => exact @complete_of_found _ _ _ (.instanceName name) rfl trivial hname

theorem complete_genesis {known : Option Path}
    (hknown : (stated.genesis <|> environment "GENINIT_GENESIS".toList) = known)
    (nonempty : known ≠ some []) :
    (stated.given verbosity).complete environment (.genesis :: switches) =
      (Stated.given { stated with genesis := known } verbosity).complete environment switches := by
  obtain ⟨dataDir, instanceName, genesis⟩ := stated
  subst hknown
  cases genesis with
  | some path => exact complete_of_has rfl
  | none =>
    cases hpath : environment "GENINIT_GENESIS".toList with
    | none => exact complete_of_absent hpath
    | some path =>
      have hne : path ≠ [] := fun he => nonempty (he ▸ hpath)
      exact @complete_of_found _ _ _ (.genesis path) rfl hne hpath

/-- The three values that the environment may have are found there, and no others. -/
theorem complete_given (sound : (stated.completed environment).IsSound) :
    (stated.given verbosity).complete environment (CommandLevel.switches (some .init)) =
      .ok ((stated.completed environment).given verbosity) := by
  rw [CommandLevel.switches, complete_dataDir rfl, complete_instanceName rfl,
    complete_genesis rfl, complete_of_absent rfl, complete_of_absent rfl, complete_of_absent rfl,
    complete_of_absent rfl]
  · rfl
  · exact sound.genesis
  · exact sound.dataDir

theorem command_given (stated : Stated) (verbosity : Option Verbosity) :
    (stated.given verbosity).command .init = stated.options.map .init := by
  obtain ⟨dataDir, instanceName, genesis⟩ := stated
  cases dataDir <;> cases genesis <;> rfl

end Environment

/-! ### Whole lines -/

/-- The words of a line with the verb that makes an instance: the verbosity stands before the verb
or anywhere behind it, and the settings stand behind it in any order. -/
inductive Renders (stated : Stated) (verbosity : Verbosity) : List CommandWord → Prop
  | before {settings : List Setting} : settings.Perm (stated.settings none) →
    Renders stated verbosity
      ((Setting.verbosity verbosity).word :: Verb.init.name :: settings.map Setting.word)
  | behind {settings : List Setting} : settings.Perm (stated.settings (some verbosity)) →
    Renders stated verbosity (Verb.init.name :: settings.map Setting.word)

section Rendered

variable {stated : Stated} {verbosity : Verbosity} {environment : List Char → Option (List Char)}

/-- Paths that are said are known. -/
theorem isSound_of_completed (sound : (stated.completed environment).IsSound) :
    stated.IsSound := by
  obtain ⟨dataDir, instanceName, genesis⟩ := stated
  constructor
  · rintro rfl
    exact sound.dataDir rfl
  · rintro rfl
    exact sound.genesis rfl

theorem read_of_perm (sound : stated.IsSound) {said : Option Verbosity} {settings : List Setting}
    (h : settings.Perm (stated.settings said)) :
    read (some .init) {} (settings.map Setting.word) = .ok (⟨stated.given said, none⟩, none) := by
  have hdistinct : (settings.map Setting.switch).Nodup :=
    (h.map Setting.switch).nodup_iff.mpr (stated.nodup_settings said)
  have hnew : ∀ setting ∈ settings, GivenValues.has {} setting.switch = false := by
    intro setting _
    cases setting <;> rfl
  rw [read_settings (fun _ hs => Stated.sayable_settings sound (h.mem_iff.mp hs)) hdistinct hnew,
    foldl_apply_perm h hdistinct, stated.foldl_settings]

theorem readVerb_of_perm (sound : (stated.completed environment).IsSound)
    {said : Option Verbosity} {settings : List Setting}
    (h : settings.Perm (stated.settings said)) :
    readVerb environment .init (settings.map Setting.word) =
      (stated.completed environment).options.map fun options =>
        ((stated.completed environment).given said, .init options) := by
  rw [readVerb, read_of_perm (isSound_of_completed sound) h]
  show (GivenValues.complete environment (CommandLevel.switches (some .init)) (stated.given said)
    >>= fun given => given.command .init >>= fun command => .ok (given, command)) = _
  rw [complete_given sound]
  show (GivenValues.command _ .init >>= fun command => .ok (_, command)) = _
  rw [command_given]
  cases (stated.completed environment).options <;> rfl

/-- The words in front of the verb and the verb. -/
theorem read_before (verbosity : Verbosity) (words : List CommandWord) :
    read none {} ((Setting.verbosity verbosity).word :: Verb.init.name :: words) =
      .ok (⟨{ verbosity := some verbosity }, none⟩, some (.init, words)) := by
  have hsayable : (Setting.verbosity verbosity).IsSayable := trivial
  rw [read_setting (named?_verbosity none) hsayable rfl]
  rfl

/-- A line that has been written out is read as what it says, with what the environment has in
place of what it does not say. -/
theorem parse_of_renders {words : List CommandWord} (renders : Renders stated verbosity words)
    (sound : (stated.completed environment).IsSound) :
    parse environment words =
      (stated.completed environment).options.map fun options => ⟨verbosity, .init options⟩ := by
  cases renders with
  | @before settings hperm =>
    rw [parse, read_before]
    show (readVerb environment .init (settings.map Setting.word) >>= fun result => _) = _
    rw [readVerb_of_perm sound hperm]
    cases (stated.completed environment).options <;> rfl
  | @behind settings hperm =>
    have hverb : read none {} (Verb.init.name :: settings.map Setting.word) =
        .ok ({}, some (.init, settings.map Setting.word)) := rfl
    rw [parse, hverb]
    show (readVerb environment .init (settings.map Setting.word) >>= fun result => _) = _
    rw [readVerb_of_perm sound hperm]
    cases (stated.completed environment).options <;> rfl

end Rendered

/-! ### What never comes from the environment -/

/-- The values of two switches, and the verbosity, are the same. -/
structure Keeps (given given' : GivenValues) : Prop where
  cache : given'.cache = given.cache
  dryRun : given'.dryRun = given.dryRun
  verbosity : given'.verbosity = given.verbosity

theorem keeps_of_set {given given' : GivenValues} {switch : Switch} {value : List Char}
    {name : List Char} (named : switch.environmentName? = some name)
    (h : given.set switch value = .ok given') : Keeps given given' := by
  cases switch with
  | dataDir | genesis =>
    obtain ⟨path, -, rfl⟩ := map_eq_ok_iff.mp h
    constructor <;> rfl
  | instanceName =>
    cases h
    constructor <;> rfl
  | cache | dryRun | dataDirAbs | id | verbosity | help | version => cases named

theorem keeps_of_complete {environment : List Char → Option (List Char)} {switches : List Switch}
    {given given' : GivenValues} (h : given.complete environment switches = .ok given') :
    Keeps given given' := by
  induction switches generalizing given with
  | nil =>
    cases h
    constructor <;> rfl
  | cons switch switches ih =>
    rw [GivenValues.complete] at h
    split at h
    · exact ih h
    cases hvalue : switch.environmentName?.bind environment with
    | none =>
      rw [hvalue] at h
      exact ih h
    | some value =>
      rw [hvalue] at h
      obtain ⟨name, hname, -⟩ := Option.bind_eq_some_iff.mp hvalue
      obtain ⟨between, hset, hrest⟩ := bind_eq_ok_iff.mp h
      have hfirst := keeps_of_set hname hset
      have hlater := ih hrest
      exact ⟨hlater.cache.trans hfirst.cache, hlater.dryRun.trans hfirst.dryRun,
        hlater.verbosity.trans hfirst.verbosity⟩

/-- What is read from the words of a line alone, when it is one that makes an instance: the values
in front of the verb, and those behind it. -/
def entered (words : List CommandWord) : Except UsageError (GivenValues × GivenValues) := do
  match ← read none {} words with
  | (progress, none) =>
    let before ← progress.settle
    return (before, {})
  | (progress, some (verb, rest)) =>
    let (inner, _) ← read (some verb) {} rest
    return (← progress.settle, ← inner.settle)

theorem options_of_command {given : GivenValues} {verb : Verb} {options : InitOptions}
    (h : given.command verb = .ok (.init options)) :
    options.cache = given.cache.getD 16 ∧ options.dryRun = given.dryRun := by
  unfold GivenValues.command at h
  split at h <;> cases h
  exact ⟨rfl, rfl⟩

theorem entered_of_parse {environment : List Char → Option (List Char)}
    {words : List CommandWord} {verbosity : Verbosity} {options : InitOptions}
    (h : parse environment words = .ok ⟨verbosity, .init options⟩) :
    ∃ before behind, entered words = .ok (before, behind) ∧
      verbosity = (behind.verbosity <|> before.verbosity).getD .info ∧
        options.cache = behind.cache.getD 16 ∧ options.dryRun = behind.dryRun := by
  obtain ⟨⟨progress, called⟩, hread, h⟩ := bind_eq_ok_iff.mp h
  cases called with
  | none =>
    obtain ⟨before, -, hnone⟩ := bind_eq_ok_iff.mp h
    cases hnone
  | some called =>
    obtain ⟨verb, rest⟩ := called
    obtain ⟨⟨inner, command⟩, hverb, h⟩ := bind_eq_ok_iff.mp h
    obtain ⟨before, hbefore, hline⟩ := bind_eq_ok_iff.mp h
    obtain ⟨⟨behind, _⟩, hbehind, hverb⟩ := bind_eq_ok_iff.mp hverb
    obtain ⟨given, hgiven, hverb⟩ := bind_eq_ok_iff.mp hverb
    obtain ⟨full, hfull, hverb⟩ := bind_eq_ok_iff.mp hverb
    obtain ⟨last, hcommand, hpair⟩ := bind_eq_ok_iff.mp hverb
    cases hpair
    cases hline
    have hkeeps := keeps_of_complete hfull
    obtain ⟨hcache, hdryRun⟩ := options_of_command hcommand
    refine ⟨before, given, ?_, ?_, ?_, ?_⟩
    · rw [entered, hread]
      show (read (some verb) {} rest >>= fun result => progress.settle >>= fun before =>
        result.1.settle >>= fun behind => .ok (before, behind)) = _
      rw [hbehind]
      show (progress.settle >>= fun before => behind.settle >>= fun behind =>
        .ok (before, behind)) = _
      rw [hbefore, hgiven]
      rfl
    · rw [hkeeps.verbosity]
    · rw [hcache, hkeeps.cache]
    · rw [hdryRun, hkeeps.dryRun]

/-- The environment has no say in the verbosity, the cache and the dry run, whatever the words. -/
theorem parse_agree {words : List CommandWord} {environment other : List Char → Option (List Char)}
    {verbosity verbosity' : Verbosity} {options options' : InitOptions}
    (h : parse environment words = .ok ⟨verbosity, .init options⟩)
    (h' : parse other words = .ok ⟨verbosity', .init options'⟩) :
    verbosity = verbosity' ∧ options.cache = options'.cache ∧ options.dryRun = options'.dryRun := by
  obtain ⟨before, behind, hentered, hverbosity, hcache, hdryRun⟩ := entered_of_parse h
  obtain ⟨_, _, hentered', hverbosity', hcache', hdryRun'⟩ := entered_of_parse h'
  rw [hentered] at hentered'
  cases hentered'
  exact ⟨hverbosity.trans hverbosity'.symm, hcache.trans hcache'.symm,
    hdryRun.trans hdryRun'.symm⟩

/-! ### In short -/

/-- **A line that says all options is read as these options and its verbosity, in any order and
whatever the environment has. Options that are not said are taken from the environment, and then
from the defaults; without one of the paths the line is refused. The cache and the dry run are
never taken from the environment.** -/
theorem parse_rendered :
    (∀ (options : InitOptions) (verbosity : Verbosity) words environment,
      options.dataDir ≠ [] → options.genesis ≠ [] → Renders (.all options) verbosity words →
        parse environment words = .ok ⟨verbosity, .init options⟩) ∧
      (∀ stated verbosity words environment, Renders stated verbosity words →
        (stated.completed environment).IsSound →
          parse environment words = (stated.completed environment).options.map fun options =>
            ⟨verbosity, .init options⟩) ∧
      ∀ words environment other verbosity verbosity' options options',
        parse environment words = .ok ⟨verbosity, .init options⟩ →
          parse other words = .ok ⟨verbosity', .init options'⟩ →
            verbosity = verbosity' ∧ options.cache = options'.cache ∧
              options.dryRun = options'.dryRun := by
  refine ⟨?_, ?_, ?_⟩
  · intro options verbosity words environment hdata hgenesis hrenders
    have hsound : ((Stated.all options).completed environment).IsSound :=
      ⟨fun h => hdata (Option.some.inj h), fun h => hgenesis (Option.some.inj h)⟩
    rw [parse_of_renders hrenders hsound]
    rfl
  · intro stated verbosity words environment hrenders hsound
    exact parse_of_renders hrenders hsound
  · intro words environment other verbosity verbosity' options options'
    exact parse_agree

/-- The genesis path has a dash, blanks and equals signs in it, the instance name is empty, and the
data directory is in the environment. -/
theorem parse_rendered_odd :
    parse (fun name => if name = "GENINIT_DATA_DIR".toList then some ['/', 'd'] else none)
      [['i', 'n', 'i', 't'], "--cache=7".toList, "--genesis=-g =1".toList,
        "--verbosity=5".toList, "--dry-run".toList, "--instance-name=".toList] =
      .ok ⟨.trace, .init ⟨['/', 'd'], [], ['-', 'g', ' ', '=', '1'], 7, true⟩⟩ := by
  have hrenders : Renders ⟨none, some [], some ['-', 'g', ' ', '=', '1'], some 7, true⟩ .trace
      (Verb.init.name :: [Setting.cache 7, .genesis ['-', 'g', ' ', '=', '1'], .verbosity .trace,
        .dryRun, .instanceName []].map Setting.word) := .behind (by decide)
  exact parse_rendered.2.1 _ _ _ _ hrenders ⟨by decide, by decide⟩

end CommandLine
end Provision
