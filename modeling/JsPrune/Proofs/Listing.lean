import JsPrune.Command.Arguments
import Mathlib.Data.List.Basic

/-!
# What the arguments list

The values of `--enable` and of `--disable` add up over a command line. A value can be given in
several ways (`Setting.Gives`), it is read when the argument after it has been recognised, and what
stands before it and after it is arbitrary, except that a lone `--` ends the options.

A value that has been seen and not yet been looked at is promised (`Reading.Promises`). An argument
breaks no promise (`promises_take`), and settling redeems it (`Settles.redeems`), so no argument can
take a listed name away again.

Main result: `listed_of_ofArguments`.
-/

namespace JsPrune

/-- The names that are listed under a setting. -/
def Options.listed (options : Options) : Command.Setting → List String
  | .enable => options.enabled
  | .disable => options.disabled
  | _ => []

namespace Command

/-! ## Values among the arguments -/

/-- The argument does not start like an option. A lone dash does not. -/
def IsPlain (argument : String) : Prop := ∀ first rest, argument.toList ≠ '-' :: first :: rest

/-- Short names of switches, as they can stand before another short name. -/
def AreSwitches (names : List Char) : Prop :=
  ∀ name ∈ names, ∃ switch, Request.ofShort? name = some (.switch switch)

/-- The ways to give a value to a setting: attached to its long or short name, with an equals sign
or, if that can not be mistaken, without one behind the short name, or as the next argument. -/
inductive Setting.Gives (setting : Setting) (value : String) : List String → Prop
  /-- As in `--enable=a,b`. -/
  | long : Gives setting value ["--" ++ (Request.setting setting).long ++ "=" ++ value]
  /-- As in `--enable a,b`. -/
  | longNext (hplain : IsPlain value) :
    Gives setting value ["--" ++ (Request.setting setting).long, value]
  /-- As in `-e=a,b` or, with a switch before it, `-be=a,b`. -/
  | short {names : List Char} {name : Char} (hnames : AreSwitches names)
    (hname : (Request.setting setting).short? = some name) :
    Gives setting value [String.ofList ('-' :: (names ++ name :: '=' :: value.toList))]
  /-- As in `-ea,b`. -/
  | shortJoined {names : List Char} {name first : Char} {rest : List Char}
    (hnames : AreSwitches names) (hname : (Request.setting setting).short? = some name)
    (hvalue : value.toList = first :: rest) (hfirst : first ≠ '=') :
    Gives setting value [String.ofList ('-' :: (names ++ name :: value.toList))]
  /-- As in `-e a,b`. -/
  | shortNext {names : List Char} {name : Char} (hnames : AreSwitches names)
    (hname : (Request.setting setting).short? = some name) (hplain : IsPlain value) :
    Gives setting value [String.ofList ('-' :: (names ++ [name])), value]

/-- Somewhere among the options the setting is given a value that has the name in it. -/
def Setting.Lists (setting : Setting) (arguments : List String) (name : String) : Prop :=
  ∃ before words after value, arguments = before ++ words ++ after ∧ "--" ∉ before ∧
    setting.Gives value words ∧ name ∈ value.splitOn ","

/-! ## Names -/

/-- Every request is known by its long name. -/
theorem ofLong?_long (request : Request) : Request.ofLong? request.long = some request := by
  rcases request with switch | setting
  · cases switch <;> rfl
  · cases setting <;> rfl

/-- A setting with a short name is known by it. -/
theorem ofShort?_of_short? {setting : Setting} {name : Char}
    (h : (Request.setting setting).short? = some name) :
    Request.ofShort? name = some (.setting setting) := by
  cases setting <;> cases h <;> rfl

/-- Long names have at least one character, and no equals sign. -/
theorem long_plain (setting : Setting) : (Request.setting setting).long.toList ≠ [] ∧
    ∀ c ∈ (Request.setting setting).long.toList, (c != '=') = true := by
  have plain : (Request.setting setting).long.toList.all (· != '=') = true := by
    cases setting <;> rfl
  exact ⟨by cases setting <;> decide, List.all_eq_true.mp plain⟩

/-- A dash is the short name of nothing. -/
theorem ne_dash_of_ofShort? {name : Char} {request : Request}
    (h : Request.ofShort? name = some request) : name ≠ '-' := by
  rintro rfl
  cases h

/-! ## Promises -/

/-- Two steps that succeed together succeed one after the other. -/
theorem exists_of_bind_eq_ok {ε α β : Type} {first : Except ε α} {next : α → Except ε β} {b : β}
    (h : first >>= next = .ok b) : ∃ a, first = .ok a ∧ next a = .ok b := by
  cases first with
  | error e => cases h
  | ok a => exact ⟨a, rfl, h⟩

namespace Reading

variable {reading after : Reading} {setting : Setting} {value : String}

/-- The names in the value are listed under the setting, or they will be when what is pending is
looked at. -/
def Promises (reading : Reading) (setting : Setting) (value : String) : Prop :=
  value.splitOn "," ⊆ reading.options.listed setting ∨ reading.pending = .value setting (some value)

/-- What was promised stays promised, and whether options can still come does not change. -/
structure Keeps (reading after : Reading) : Prop where
  promises : ∀ {setting value}, setting.isRepeatable = true → reading.Promises setting value →
    after.Promises setting value
  verbatim : after.verbatim = reading.verbatim

/-- Every promise is redeemed. -/
structure Settles (reading after : Reading) : Prop where
  redeems : ∀ {setting value}, setting.isRepeatable = true → reading.Promises setting value →
    value.splitOn "," ⊆ after.options.listed setting
  verbatim : after.verbatim = reading.verbatim

theorem Keeps.refl (reading : Reading) : Keeps reading reading := ⟨fun _ h => h, rfl⟩

/-- What is kept twice is kept. -/
theorem Keeps.trans {middle : Reading} (first : Keeps reading middle) (second : Keeps middle after) :
    Keeps reading after :=
  ⟨fun hr h => second.promises hr (first.promises hr h), second.verbatim.trans first.verbatim⟩

/-- A reading that settles loses nothing. -/
theorem Settles.keeps (h : Settles reading after) : Keeps reading after :=
  ⟨fun hr hp => .inl (h.redeems hr hp), h.verbatim⟩

/-- More may be listed when all is settled. -/
theorem Settles.more {middle : Reading} (h : Settles reading middle)
    (hlisted : ∀ setting, middle.options.listed setting ⊆ after.options.listed setting)
    (hverbatim : after.verbatim = middle.verbatim) : Settles reading after where
  redeems hr hp := List.Subset.trans (h.redeems hr hp) (hlisted _)
  verbatim := hverbatim.trans h.verbatim

/-- Settings with longer lists of features list more. -/
theorem listed_subset {options more : Options} (henabled : options.enabled ⊆ more.enabled)
    (hdisabled : options.disabled ⊆ more.disabled) (setting : Setting) :
    options.listed setting ⊆ more.listed setting := by
  cases setting <;> first | exact henabled | exact hdisabled | exact List.Subset.refl _

/-- A value is added to what its setting lists, and nothing is taken out of a list. -/
theorem listed_store {options stored : Options} (h : setting.store options value = .ok stored) :
    (∀ other, options.listed other ⊆ stored.listed other) ∧
      (setting.isRepeatable = true → value.splitOn "," ⊆ stored.listed setting) := by
  -- Settings other than the two lists leave both of them alone.
  have same := listed_subset (List.Subset.refl options.enabled) (List.Subset.refl options.disabled)
  cases setting with
  | output =>
    rw [Setting.store] at h
    obtain ⟨path, _, h⟩ := exists_of_bind_eq_ok h
    cases h
    exact ⟨same, nofun⟩
  | enable =>
    cases h
    exact ⟨listed_subset (List.subset_append_left ..) (List.Subset.refl _),
      fun _ => List.subset_append_right ..⟩
  | disable =>
    cases h
    exact ⟨listed_subset (List.Subset.refl _) (List.subset_append_left ..),
      fun _ => List.subset_append_right ..⟩
  | indent =>
    rw [Setting.store] at h
    split at h
    · cases h
      exact ⟨same, nofun⟩
    · cases h
  | emit =>
    rw [Setting.store] at h
    split at h
    · cases h
      exact ⟨same, nofun⟩
    · split at h
      · cases h
        exact ⟨same, nofun⟩
      · cases h
  | guard | logLevel =>
    cases h
    exact ⟨same, nofun⟩

/-- Storing a value needs a text that the setting can take. -/
theorem store_eq_ok {text : Option String} (h : reading.store setting text = .ok after) :
    ∃ value options, text = some value ∧ setting.store reading.options value = .ok options ∧
      after.options = options ∧ after.verbatim = reading.verbatim := by
  unfold store at h
  split at h
  · cases h
  · next value =>
    split at h
    · cases h
    · obtain ⟨options, hstore, h⟩ := exists_of_bind_eq_ok h
      cases h
      exact ⟨value, options, rfl, hstore, rfl, rfl⟩

/-- Looking at what is pending redeems what was promised. -/
theorem settles_of_settle (h : reading.settle = .ok after) : Settles reading after := by
  unfold settle at h
  split at h
  · next hnothing =>
    cases h
    refine ⟨fun _ hp => ?_, rfl⟩
    rcases hp with hlisted | hpending
    · exact hlisted
    · rw [hnothing] at hpending
      cases hpending
  · next given text hgiven =>
    obtain ⟨value, options, rfl, hstore, rfl, hverbatim⟩ := store_eq_ok h
    obtain ⟨more, names⟩ := listed_store hstore
    refine ⟨fun hr hp => ?_, hverbatim⟩
    rcases hp with hlisted | hsame
    · exact List.Subset.trans hlisted (more _)
    -- The promise is what is pending, so its names are stored now.
    · rw [hgiven] at hsame
      cases hsame
      exact names hr
  · next path hpath =>
    obtain ⟨input, _, h⟩ := exists_of_bind_eq_ok h
    cases h
    refine ⟨fun {setting _} _ hp => ?_, rfl⟩
    rcases hp with hlisted | hpending
    · cases setting <;> exact hlisted
    · rw [hpath] at hpending
      cases hpending

/-- Turning a switch on looks at what is pending first. -/
theorem settles_turnOn {switch : Switch} (h : reading.turnOn switch = .ok after) :
    Settles reading after := by
  obtain ⟨settled, hsettle, h⟩ := exists_of_bind_eq_ok h
  split at h
  · cases h
  · obtain ⟨options, hoptions, h⟩ := exists_of_bind_eq_ok h
    cases h
    refine (settles_of_settle hsettle).more (fun setting => ?_) rfl
    cases switch <;> cases hoptions <;> cases setting <;> exact List.Subset.refl _

/-- An attached value is looked at at once, another one is waited for. -/
theorem set_cases {attached : Option String} (h : reading.set setting attached = .ok after) :
    Keeps reading after ∧
      (∀ value, attached = some value → setting.isRepeatable = true → after.Promises setting value) ∧
      (attached = none → after.pending = .value setting none) := by
  obtain ⟨settled, hsettle, h⟩ := exists_of_bind_eq_ok h
  have settles := settles_of_settle hsettle
  cases attached with
  | none =>
    cases h
    exact ⟨⟨fun hr hp => .inl (settles.redeems hr hp), settles.verbatim⟩, nofun, fun _ => rfl⟩
  | some text =>
    obtain ⟨value, options, hvalue, hstore, rfl, hverbatim⟩ := store_eq_ok h
    cases hvalue
    obtain ⟨more, names⟩ := listed_store hstore
    refine ⟨(settles.more more hverbatim).keeps, ?_, nofun⟩
    rintro _ ⟨⟩ hr
    exact .inl (names hr)

/-- A long argument loses nothing that was listed. -/
theorem keeps_takeLong {text : List Char} (h : reading.takeLong text = .ok after) :
    Keeps reading after := by
  unfold takeLong at h
  simp only at h
  split at h
  · cases h
  · cases h
  · exact (settles_turnOn h).keeps
  · exact (set_cases h).1

/-- Short arguments lose nothing that was listed. -/
theorem keeps_takeShort {names : List Char} (h : reading.takeShort names = .ok after) :
    Keeps reading after := by
  induction names generalizing reading with
  | nil =>
    cases h
    exact .refl _
  | cons name rest ih =>
    unfold takeShort at h
    split at h
    · cases h
    · obtain ⟨turned, hturn, h⟩ := exists_of_bind_eq_ok h
      exact (settles_turnOn hturn).keeps.trans (ih h)
    · exact (set_cases h).1

/-- Neither does an input. -/
theorem keeps_takeInput {path : String} (h : reading.takeInput path = .ok after) :
    Keeps reading after := by
  unfold takeInput at h
  extract_lets second input at h
  split at h
  · cases h
  · obtain ⟨settled, hsettle, h⟩ := exists_of_bind_eq_ok h
    cases h
    have settles := settles_of_settle hsettle
    exact ⟨fun hr hp => .inl (settles.redeems hr hp), settles.verbatim⟩

/-- An argument breaks no promise. Only a lone `--` ends the options, and it does nothing else. -/
theorem take_cases {argument : String} (h : reading.take argument = .ok after) :
    (argument = "--" ∧ after = { reading with verbatim := true }) ∨ Keeps reading after := by
  unfold take at h
  split at h
  · exact .inr (keeps_takeInput h)
  · split at h
    · next hdashes =>
      cases h
      exact .inl ⟨String.toList_inj.mp hdashes, rfl⟩
    · exact .inr (keeps_takeLong h)
    · exact .inr (keeps_takeShort h)
    · split at h
      · next hwaits =>
        cases h
        refine .inr ⟨fun _ hp => ?_, rfl⟩
        rcases hp with hlisted | hpending
        · exact .inl hlisted
        · rw [hwaits] at hpending
          cases hpending
      · exact .inr (keeps_takeInput h)

/-- A promise outlives the next argument, if the setting can be repeated. -/
theorem promises_take {argument : String} (h : reading.take argument = .ok after)
    (hr : setting.isRepeatable = true) (hp : reading.Promises setting value) :
    after.Promises setting value := by
  rcases take_cases h with ⟨_, rfl⟩ | keeps
  · exact hp
  · exact keeps.promises hr hp

/-- A promise outlives all further arguments. -/
theorem promises_foldlM {arguments : List String} (h : arguments.foldlM take reading = .ok after)
    (hr : setting.isRepeatable = true) (hp : reading.Promises setting value) :
    after.Promises setting value := by
  induction arguments generalizing reading with
  | nil =>
    cases h
    exact hp
  | cons argument rest ih =>
    rw [List.foldlM_cons] at h
    obtain ⟨middle, htake, h⟩ := exists_of_bind_eq_ok h
    exact ih h (promises_take htake hr hp)

/-- Without two dashes alone the arguments stay arguments. -/
theorem verbatim_foldlM {arguments : List String} (h : arguments.foldlM take reading = .ok after)
    (hdashes : "--" ∉ arguments) : after.verbatim = reading.verbatim := by
  induction arguments generalizing reading with
  | nil =>
    cases h
    rfl
  | cons argument rest ih =>
    rw [List.foldlM_cons] at h
    obtain ⟨middle, htake, h⟩ := exists_of_bind_eq_ok h
    rw [List.mem_cons, not_or] at hdashes
    rcases take_cases htake with ⟨hsame, _⟩ | keeps
    · exact absurd hsame.symm hdashes.1
    · exact (ih h hdashes.2).trans keeps.verbatim

/-! ## Taking a value -/

/-- Two dashes with something behind them start a long argument. -/
theorem take_long {argument : String} {text : List Char} (hv : reading.verbatim = false)
    (h : argument.toList = '-' :: '-' :: text) (hne : text ≠ []) :
    reading.take argument = reading.takeLong text := by
  cases text with
  | nil => exact absurd rfl hne
  | cons first rest => simp only [take, hv, h, Bool.false_eq_true, if_false]

/-- One dash with a name behind it starts short arguments. -/
theorem take_short {argument : String} {name : Char} {rest : List Char} (hv : reading.verbatim = false)
    (h : argument.toList = '-' :: name :: rest) (hname : name ≠ '-') :
    reading.take argument = reading.takeShort (name :: rest) := by
  unfold take
  rw [hv, if_neg Bool.false_ne_true, h]
  split
  · next heq => exact absurd (List.cons.inj (List.cons.inj heq).2).1 hname
  · next heq => exact absurd (List.cons.inj (List.cons.inj heq).2).1 hname
  · next heq =>
    cases heq
    rfl
  · next hnone => exact absurd rfl (hnone _ _)

/-- A long name by itself is set, and its value comes next. -/
theorem takeLong_next (reading : Reading) (setting : Setting) :
    reading.takeLong (Request.setting setting).long.toList = reading.set setting none := by
  cases setting <;> rfl

/-- A long name with an equals sign has its value with it. -/
theorem takeLong_attached (reading : Reading) (setting : Setting) (value : String) :
    reading.takeLong ((Request.setting setting).long.toList ++ '=' :: value.toList)
      = reading.set setting (some value) := by
  obtain ⟨_, hplain⟩ := long_plain setting
  have name : ((Request.setting setting).long.toList ++ '=' :: value.toList).takeWhile (· != '=')
      = (Request.setting setting).long.toList := by
    rw [List.takeWhile_append_of_pos hplain]
    exact List.append_nil _
  have rest : ((Request.setting setting).long.toList ++ '=' :: value.toList).dropWhile (· != '=')
      = '=' :: value.toList := by
    rw [List.dropWhile_append_of_pos hplain]
    rfl
  rw [takeLong, name, rest, String.ofList_toList, ofLong?_long]
  show reading.set setting (some (String.ofList value.toList)) = _
  rw [String.ofList_toList]

/-- The switches before the short name of a setting are turned on first. -/
theorem takeShort_setting {names rest : List Char} {name : Char} (hnames : AreSwitches names)
    (hname : (Request.setting setting).short? = some name)
    (h : reading.takeShort (names ++ name :: rest) = .ok after) :
    ∃ middle : Reading, middle.verbatim = reading.verbatim ∧
      middle.set setting (attachedShort rest) = .ok after := by
  induction names generalizing reading with
  | nil =>
    rw [List.nil_append, takeShort, ofShort?_of_short? hname] at h
    exact ⟨reading, rfl, h⟩
  | cons first others ih =>
    obtain ⟨switch, hswitch⟩ := hnames first (List.mem_cons_self ..)
    rw [List.cons_append, takeShort, hswitch] at h
    obtain ⟨turned, hturn, h⟩ := exists_of_bind_eq_ok h
    obtain ⟨middle, hverbatim, hset⟩ := ih (fun c hc => hnames c (List.mem_cons_of_mem _ hc)) h
    exact ⟨middle, hverbatim.trans (settles_turnOn hturn).verbatim, hset⟩

/-- All short names in an argument, when the last of them is that of a setting. -/
theorem take_shorts {names rest : List Char} {name : Char} (hv : reading.verbatim = false)
    (hnames : AreSwitches names) (hname : (Request.setting setting).short? = some name)
    (h : reading.take (String.ofList ('-' :: (names ++ name :: rest))) = .ok after) :
    ∃ middle : Reading, middle.verbatim = false ∧
      middle.set setting (attachedShort rest) = .ok after := by
  have taken : reading.take (String.ofList ('-' :: (names ++ name :: rest)))
      = reading.takeShort (names ++ name :: rest) := by
    cases names with
    | nil => exact take_short hv String.toList_ofList (ne_dash_of_ofShort? (ofShort?_of_short? hname))
    | cons first others =>
      obtain ⟨switch, hswitch⟩ := hnames first (List.mem_cons_self ..)
      exact take_short hv String.toList_ofList (ne_dash_of_ofShort? hswitch)
  rw [taken] at h
  obtain ⟨middle, hverbatim, hset⟩ := takeShort_setting hnames hname h
  exact ⟨middle, hverbatim.trans hv, hset⟩

/-- A setting that waits for its value takes the next argument. -/
theorem promises_next {middle : Reading} (hv : reading.verbatim = false) (hplain : IsPlain value)
    (hset : reading.set setting none = .ok middle) (h : middle.take value = .ok after) :
    after.Promises setting value := by
  obtain ⟨keeps, _, hwaits⟩ := set_cases hset
  have waiting : middle.verbatim = false := keeps.verbatim.trans hv
  unfold take at h
  rw [waiting, if_neg Bool.false_ne_true] at h
  split at h
  · next heq => exact absurd heq (hplain _ _)
  · next heq => exact absurd heq (hplain _ _)
  · next heq => exact absurd heq (hplain _ _)
  · rw [hwaits rfl] at h
    cases h
    exact .inr rfl

/-- Reading one argument is taking it. -/
theorem take_of_foldlM_one {word : String} (h : [word].foldlM take reading = .ok after) :
    reading.take word = .ok after := by
  rw [List.foldlM_cons] at h
  obtain ⟨taken, htake, h⟩ := exists_of_bind_eq_ok h
  cases h
  exact htake

/-- Reading two arguments is taking one after the other. -/
theorem take_of_foldlM_two {first second : String}
    (h : [first, second].foldlM take reading = .ok after) :
    ∃ middle : Reading, reading.take first = .ok middle ∧ middle.take second = .ok after := by
  rw [List.foldlM_cons] at h
  obtain ⟨middle, htake, h⟩ := exists_of_bind_eq_ok h
  exact ⟨middle, htake, take_of_foldlM_one h⟩

/-- Arguments that give a value to a setting are a promise, wherever they stand among the options. -/
theorem promises_of_gives {words : List String} (hg : setting.Gives value words)
    (hr : setting.isRepeatable = true) (hv : reading.verbatim = false)
    (h : words.foldlM take reading = .ok after) : after.Promises setting value := by
  have long := (long_plain setting).1
  -- One case for each way to give a value: attached, or as the argument behind.
  cases hg with
  | long =>
    have htake := take_of_foldlM_one h
    have spelled : ("--" ++ (Request.setting setting).long ++ "=" ++ value).toList
        = '-' :: '-' :: ((Request.setting setting).long.toList ++ '=' :: value.toList) := by simp
    rw [take_long hv spelled (by simp), takeLong_attached] at htake
    exact (set_cases htake).2.1 value rfl hr
  | longNext hplain =>
    obtain ⟨named, hnamed, htake⟩ := take_of_foldlM_two h
    have spelled : ("--" ++ (Request.setting setting).long).toList
        = '-' :: '-' :: (Request.setting setting).long.toList := by simp
    rw [take_long hv spelled long, takeLong_next] at hnamed
    exact promises_next hv hplain hnamed htake
  | short hnames hname =>
    obtain ⟨middle, _, hset⟩ := take_shorts hv hnames hname (take_of_foldlM_one h)
    rw [attachedShort, String.ofList_toList] at hset
    exact (set_cases hset).2.1 value rfl hr
  | shortJoined hnames hname hvalue hfirst =>
    obtain ⟨middle, _, hset⟩ := take_shorts hv hnames hname (take_of_foldlM_one h)
    have attached : attachedShort value.toList = some value := by
      rw [attachedShort.eq_def]
      split
      · next hnil => rw [hvalue] at hnil; cases hnil
      · next hequals => rw [hvalue] at hequals; exact absurd (List.cons.inj hequals).1 hfirst
      · rw [String.ofList_toList]
    rw [attached] at hset
    exact (set_cases hset).2.1 value rfl hr
  | shortNext hnames hname hplain =>
    obtain ⟨named, hnamed, htake⟩ := take_of_foldlM_two h
    obtain ⟨middle, hmiddle, hset⟩ := take_shorts hv hnames hname hnamed
    exact promises_next hmiddle hplain hset htake

end Reading

end Command

/-- A name that is listed among the arguments is listed in the settings that they ask for. -/
theorem Options.listed_of_ofArguments {arguments : List String} {options : Options}
    {setting : Command.Setting} {name : String} (h : Options.ofArguments arguments = .ok options)
    (hr : setting.isRepeatable = true) (hl : setting.Lists arguments name) :
    name ∈ options.listed setting := by
  obtain ⟨before, words, after, value, rfl, hdashes, hgives, hname⟩ := hl
  obtain ⟨last, htake, h⟩ := Command.exists_of_bind_eq_ok h
  obtain ⟨settled, hsettle, h⟩ := Command.exists_of_bind_eq_ok h
  cases h
  rw [List.foldlM_append, List.foldlM_append] at htake
  obtain ⟨given, hgiven, hafter⟩ := Command.exists_of_bind_eq_ok htake
  obtain ⟨reached, hbefore, hwords⟩ := Command.exists_of_bind_eq_ok hgiven
  have accepting := Command.Reading.verbatim_foldlM hbefore hdashes
  have promised := Command.Reading.promises_of_gives hgives hr accepting hwords
  have kept := Command.Reading.promises_foldlM hafter hr promised
  exact (Command.Reading.settles_of_settle hsettle).redeems hr kept hname

end JsPrune
