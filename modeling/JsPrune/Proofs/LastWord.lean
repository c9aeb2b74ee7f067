import JsPrune.Filter.FeatureSet
import JsPrune.Proofs.Listing
import Mathlib.Data.List.Induction

/-!
# The last word on a feature

A set of features is built up by calls, some of which take whole lists. Taken apart, a sequence of
calls is a sequence of single changes (`built_eq`), and of these only the last one that speaks of a
feature counts for it: the set heeds the changes so far (`Heeds`), one more change keeps it so
(`Heeds.apply`), and a verdict is read off (`Heeds.verdict_eq`).

The two lists of a set are where it can go wrong. An earlier call would win if some call put a name on
one list and left it on the other, so `Heeds` says of each list exactly which names are on it.

Main result: `verdict_lastWord`.
-/

namespace JsPrune

namespace FeatureSet

/-! ## Calls and changes -/

/-- A change to one thing that a set says. -/
inductive Change where
  /-- The build has a feature. -/
  | enable (feature : String)
  /-- The build leaves a feature out. -/
  | disable (feature : String)
  /-- The verdict on features that are not listed. -/
  | unlisted (verdict : Verdict)
  /-- The name of the guard function. -/
  | guard (name : String)

namespace Change

/-- The set after the change. -/
def apply (features : FeatureSet) : Change → FeatureSet
  | enable feature => features.enable feature
  | disable feature => features.disable feature
  | unlisted verdict => features.withUnlisted verdict
  | guard name => features.withGuard name

/-- The verdict that the change gives on a feature, if it speaks of it. -/
def on? (feature : String) : Change → Option Verdict
  | enable name => if name = feature then some .pass else none
  | disable name => if name = feature then some .fail else none
  | _ => none

/-- The verdict that the change gives on features that are not listed, if it speaks of them. -/
def onUnlisted? : Change → Option Verdict
  | unlisted verdict => some verdict
  | _ => none

end Change

/-- The calls that build up a set. -/
inductive Call where
  | enable (feature : String)
  | disable (feature : String)
  | enableAll (names : List String)
  | disableAll (names : List String)
  | withUnlisted (verdict : Verdict)
  | strict
  | withGuard (name : String)

namespace Call

/-- The set after the call. -/
def apply (features : FeatureSet) : Call → FeatureSet
  | enable feature => features.enable feature
  | disable feature => features.disable feature
  | enableAll names => features.enableAll names
  | disableAll names => features.disableAll names
  | withUnlisted verdict => features.withUnlisted verdict
  | strict => features.strict
  | withGuard name => features.withGuard name

/-- The call taken apart. -/
def changes : Call → List Change
  | enable feature => [.enable feature]
  | disable feature => [.disable feature]
  | enableAll names => names.map .enable
  | disableAll names => names.map .disable
  | withUnlisted verdict => [.unlisted verdict]
  | strict => [.unlisted .fail]
  | withGuard name => [.guard name]

/-- A call is its changes, one after the other. -/
theorem apply_eq (features : FeatureSet) (call : Call) :
    call.apply features = call.changes.foldl Change.apply features := by
  cases call with
  | enableAll names => exact (List.foldl_map (f := Change.enable) (g := Change.apply)).symm
  | disableAll names => exact (List.foldl_map (f := Change.disable) (g := Change.apply)).symm
  | _ => rfl

end Call

/-- The set that calls build up when nothing is known before. -/
def built (calls : List Call) : FeatureSet := calls.foldl Call.apply empty

/-- Calls are their changes, one after the other. -/
theorem built_eq (calls : List Call) :
    built calls = (calls.flatMap Call.changes).foldl Change.apply empty := by
  rw [built, List.foldl_flatMap]
  exact congrArg (List.foldl · empty calls) (funext₂ Call.apply_eq)

/-! ## What is said last -/

/-- What the changes say last, of all that they say. -/
def lastWord (says? : Change → Option Verdict) (changes : List Change) : Option Verdict :=
  (changes.filterMap says?).getLast?

/-- The last word is in the second list, if anything is said there. -/
theorem lastWord_append (says? : Change → Option Verdict) (first second : List Change) :
    lastWord says? (first ++ second) = (lastWord says? second).or (lastWord says? first) := by
  rw [lastWord, List.filterMap_append, List.getLast?_append]
  rfl

/-- The last change has the last word, if it says anything. -/
theorem lastWord_concat (says? : Change → Option Verdict) (changes : List Change) (change : Change) :
    lastWord says? (changes ++ [change]) = (says? change).or (lastWord says? changes) := by
  rw [lastWord_append]
  cases h : says? change <;> simp [lastWord, h]

/-- What is said last is said. -/
theorem exists_of_lastWord {says? : Change → Option Verdict} {changes : List Change} {verdict : Verdict}
    (h : lastWord says? changes = some verdict) : ∃ change ∈ changes, says? change = some verdict :=
  List.mem_filterMap.mp (List.mem_of_getLast? h)

/-- Where no change says anything there is no last word. -/
theorem lastWord_eq_none {says? : Change → Option Verdict} {changes : List Change}
    (h : ∀ change ∈ changes, says? change = none) : lastWord says? changes = none := by
  rw [lastWord, List.filterMap_eq_nil_iff.mpr h]
  rfl

/-- Names that are all put on one list. -/
theorem lastWord_map {speak : String → Change} {feature : String} {verdict : Verdict}
    (h : ∀ name, (speak name).on? feature = if name = feature then some verdict else none)
    (names : List String) : lastWord (Change.on? feature) (names.map speak)
      = if feature ∈ names then some verdict else none := by
  induction names using List.reverseRecOn with
  | nil => rfl
  | append_singleton names name ih =>
    rw [List.map_append, List.map_singleton, lastWord_concat, h, ih]
    by_cases hname : name = feature
    · simp [hname]
    · simp [hname, Ne.symm hname]

/-- A feature is spoken of to have it or to leave it out, never to leave it open. -/
theorem lastWord_on_ne_next (feature : String) (changes : List Change) :
    lastWord (Change.on? feature) changes ≠ some .next := by
  intro h
  obtain ⟨change, _, hsays⟩ := exists_of_lastWord h
  unfold Change.on? at hsays
  split at hsays
  · split at hsays <;> cases hsays
  · split at hsays <;> cases hsays
  · cases hsays

/-! ## Sets that heed what is said -/

/-- A list with one more name on it follows a word that puts the name there. -/
theorem mem_insert_iff_or {names : List String} {name feature : String} {verdict : Verdict}
    {last : Option Verdict} (h : feature ∈ names ↔ last = some verdict) :
    feature ∈ names.insert name ↔
      (if name = feature then some verdict else none).or last = some verdict := by
  rw [List.mem_insert_iff, h]
  by_cases hname : name = feature
  · simp [hname]
  · simp [hname, Ne.symm hname]

/-- A list with a name taken off follows a word that puts the name elsewhere. -/
theorem mem_filter_iff_or {names : List String} {name feature : String} {verdict other : Verdict}
    {last : Option Verdict} (h : feature ∈ names ↔ last = some verdict) (hother : other ≠ verdict) :
    feature ∈ names.filter (· != name) ↔
      (if name = feature then some other else none).or last = some verdict := by
  rw [List.mem_filter, h]
  by_cases hname : name = feature
  · simp [hname, hother]
  · simp [hname, Ne.symm hname]

/-- The set says what the changes say last. -/
structure Heeds (features : FeatureSet) (changes : List Change) : Prop where
  /-- A name is enabled when the last change that speaks of it enables it. -/
  enabled : ∀ feature, feature ∈ features.enabled ↔ lastWord (Change.on? feature) changes = some .pass
  /-- A name is disabled when the last change that speaks of it disables it. -/
  disabled : ∀ feature, feature ∈ features.disabled ↔ lastWord (Change.on? feature) changes = some .fail
  /-- The verdict on other names is the last one given. -/
  unlisted : features.unlisted = (lastWord Change.onUnlisted? changes).getD .next

namespace Heeds

variable {features : FeatureSet} {changes : List Change}

theorem nothing : Heeds empty [] := ⟨fun _ => ⟨nofun, nofun⟩, fun _ => ⟨nofun, nofun⟩, rfl⟩

/-- One more change: what it says counts, and where it says nothing, what was said before. -/
theorem concat {after : FeatureSet} {change : Change}
    (henabled : ∀ feature, feature ∈ after.enabled ↔
      (change.on? feature).or (lastWord (Change.on? feature) changes) = some .pass)
    (hdisabled : ∀ feature, feature ∈ after.disabled ↔
      (change.on? feature).or (lastWord (Change.on? feature) changes) = some .fail)
    (hunlisted : after.unlisted
      = (change.onUnlisted?.or (lastWord Change.onUnlisted? changes)).getD .next) :
    Heeds after (changes ++ [change]) where
  enabled feature := by rw [lastWord_concat, henabled]
  disabled feature := by rw [lastWord_concat, hdisabled]
  unlisted := by rw [lastWord_concat, hunlisted]

/-- One more change is heeded. -/
theorem apply (h : Heeds features changes) (change : Change) :
    Heeds (change.apply features) (changes ++ [change]) := by
  cases change with
  -- A name goes on one list and off the other, so each list changes for this name only.
  | enable name =>
    exact concat (fun feature => mem_insert_iff_or (h.enabled feature))
      (fun feature => mem_filter_iff_or (h.disabled feature) (by decide)) h.unlisted
  | disable name =>
    exact concat (fun feature => mem_filter_iff_or (h.enabled feature) (by decide))
      (fun feature => mem_insert_iff_or (h.disabled feature)) h.unlisted
  | unlisted verdict => exact concat h.enabled h.disabled rfl
  | guard name => exact concat h.enabled h.disabled h.unlisted

/-- However many changes there are, the set heeds them. -/
theorem foldl (changes : List Change) : Heeds (changes.foldl Change.apply empty) changes := by
  induction changes using List.reverseRecOn with
  | nil => exact nothing
  | append_singleton changes change ih =>
    rw [List.foldl_append]
    exact ih.apply change

/-- All calls are heeded. -/
theorem built (calls : List Call) : Heeds (built calls) (calls.flatMap Call.changes) := by
  rw [built_eq]
  exact foldl _

/-- No name is on both lists. -/
theorem disjoint (h : Heeds features changes) : features.enabled.Disjoint features.disabled := by
  intro feature henabled hdisabled
  rw [h.enabled] at henabled
  rw [h.disabled, henabled] at hdisabled
  cases hdisabled

/-- A set that heeds some changes gives the verdict of the last word. -/
theorem verdict_eq (h : Heeds features changes) (feature : String) :
    features.verdict feature = (lastWord (Change.on? feature) changes).getD
      ((lastWord Change.onUnlisted? changes).getD .next) := by
  have enabled := h.enabled feature
  have disabled := h.disabled feature
  rw [← h.unlisted]
  cases hlast : lastWord (Change.on? feature) changes with
  | none => simp [verdict, enabled, disabled, hlast]
  | some last =>
    cases last with
    | pass => simp [verdict, enabled, hlast]
    | fail => simp [verdict, enabled, disabled, hlast]
    | next => exact absurd hlast (lastWord_on_ne_next feature changes)

end Heeds

end FeatureSet

/-! ## Settings -/

namespace Options

open FeatureSet

/-- The calls that build up the features of the settings. -/
def calls (options : Options) : List Call :=
  [.withGuard options.guard, .enableAll options.enabled, .disableAll options.disabled]
    ++ if options.strict then [.strict] else []

theorem features_eq (options : Options) : options.features = built options.calls := by
  unfold features calls
  cases options.strict <;> rfl

/-- The changes that the settings of a run make: the features that are enabled, those that are
disabled, and what is said of all others. -/
theorem changes_eq (options : Options) : options.calls.flatMap Call.changes
    = [.guard options.guard] ++ options.enabled.map .enable ++ options.disabled.map .disable
      ++ if options.strict then [.unlisted .fail] else [] := by
  unfold calls
  cases options.strict <;> simp [Call.changes]

/-- Being disabled is the last that is said of a name. -/
theorem lastWord_on (options : Options) (feature : String) :
    lastWord (Change.on? feature) (options.calls.flatMap Call.changes)
      = if feature ∈ options.disabled then some .fail
        else if feature ∈ options.enabled then some .pass else none := by
  have strict : lastWord (Change.on? feature)
      (if options.strict then [.unlisted .fail] else []) = none := by
    cases options.strict <;> rfl
  have guard : lastWord (Change.on? feature) [.guard options.guard] = none := rfl
  rw [changes_eq, lastWord_append, lastWord_append, lastWord_append, strict, guard,
    lastWord_map fun _ => rfl, lastWord_map fun _ => rfl]
  by_cases hdisabled : feature ∈ options.disabled <;> simp [hdisabled]

/-- Only a strict run says something of features that are not listed. -/
theorem lastWord_onUnlisted (options : Options) :
    lastWord Change.onUnlisted? (options.calls.flatMap Call.changes)
      = if options.strict then some .fail else none := by
  have enabled : lastWord Change.onUnlisted? (options.enabled.map .enable) = none :=
    lastWord_eq_none (List.forall_mem_map.mpr fun _ _ => rfl)
  have disabled : lastWord Change.onUnlisted? (options.disabled.map .disable) = none :=
    lastWord_eq_none (List.forall_mem_map.mpr fun _ _ => rfl)
  rw [changes_eq, lastWord_append, lastWord_append, lastWord_append, enabled, disabled]
  cases options.strict <;> rfl

/-- What the settings say of a name. -/
theorem verdict_features (options : Options) (feature : String) :
    options.features.verdict feature
      = if feature ∈ options.disabled then .fail
        else if feature ∈ options.enabled then .pass
        else if options.strict then .fail else .next := by
  rw [features_eq, (Heeds.built _).verdict_eq, lastWord_on, lastWord_onUnlisted]
  split
  · rfl
  · split
    · rfl
    · cases options.strict <;> rfl

end Options

namespace FeatureSet

/-- **The last call wins.** Whatever calls build up a set of features, no name is on both of its lists,
and its verdict on a name is that of the last change that speaks of the name, or, if there is none, the
last one given on names that are not listed, or else nothing; other names and the guard do not come
into it. So in the settings of a run a name that is disabled is left out, also if it is enabled too;
and this is what comes of arguments that list a name both as enabled and as disabled, in whatever order
and in whichever of the ways to list it. -/
theorem verdict_lastWord (calls : List Call) :
    (built calls).enabled.Disjoint (built calls).disabled ∧
    (∀ feature, (built calls).verdict feature
      = (lastWord (Change.on? feature) (calls.flatMap Call.changes)).getD
        ((lastWord Change.onUnlisted? (calls.flatMap Call.changes)).getD .next)) ∧
    (∀ (options : Options) (feature : String), options.features.verdict feature
      = if feature ∈ options.disabled then .fail
        else if feature ∈ options.enabled then .pass
        else if options.strict then .fail else .next) ∧
    ∀ (arguments : List String) (options : Options) (feature : String),
      Options.ofArguments arguments = .ok options →
      Command.Setting.enable.Lists arguments feature → Command.Setting.disable.Lists arguments feature →
      feature ∈ options.enabled ∧ feature ∈ options.disabled ∧
        options.features.verdict feature = .fail := by
  have heeds := Heeds.built calls
  refine ⟨heeds.disjoint, heeds.verdict_eq, Options.verdict_features, ?_⟩
  intro arguments options feature hoptions henable hdisable
  have enabled := Options.listed_of_ofArguments hoptions rfl henable
  have disabled := Options.listed_of_ofArguments hoptions rfl hdisable
  refine ⟨enabled, disabled, ?_⟩
  rw [Options.verdict_features]
  exact if_pos disabled

/-- Two names that are spoken of more than once, one that is not, and one that the arguments list both
ways. -/
theorem verdict_lastWord_contested :
    let calls : List Call := [.enableAll ["a", "b"], .strict, .disable "a", .withGuard "feature",
      .disable "b", .enable "b", .withUnlisted .next]
    let arguments := ["--disable=b,x", "-me", "a,b", "--strict"]
    ((built calls).verdict "a" = .fail ∧ (built calls).verdict "b" = .pass ∧
      (built calls).verdict "c" = .next) ∧
    ∃ options, Options.ofArguments arguments = .ok options ∧
      Command.Setting.enable.Lists arguments "b" ∧ Command.Setting.disable.Lists arguments "b" ∧
      "b" ∈ options.enabled ∧ "b" ∈ options.disabled ∧ options.features.verdict "b" = .fail := by
  intro calls arguments
  obtain ⟨_, said, _, listed⟩ := verdict_lastWord calls
  have accepted : Options.ofArguments arguments = .ok { Options.standard with
      enabled := "a,b".splitOn ",", disabled := "b,x".splitOn ",", minify := true, strict := true } := rfl
  have lists : "b,x".splitOn "," = ["b", "x"] ∧ "a,b".splitOn "," = ["a", "b"] := by
    -- Splitting goes from character to character: a letter, the comma, a letter, the end.
    constructor
    all_goals
      rw [String.splitOn, if_neg (by decide), String.splitOnAux, if_neg (by decide),
        if_neg (by decide), String.splitOnAux, if_neg (by decide), if_pos (by decide)]
      dsimp only
      rw [if_pos (by decide), String.splitOnAux, if_neg (by decide), if_neg (by decide),
        String.splitOnAux, if_pos (by decide)]
      rfl
  have switches : Command.AreSwitches ['m'] := by
    intro name hname
    rw [List.mem_singleton.mp hname]
    exact ⟨.minify, rfl⟩
  have enable : Command.Setting.enable.Lists arguments "b" :=
    ⟨["--disable=b,x"], ["-me", "a,b"], ["--strict"], "a,b", rfl, by decide,
      .shortNext switches rfl nofun, by rw [lists.2]; decide⟩
  have disable : Command.Setting.disable.Lists arguments "b" :=
    ⟨[], ["--disable=b,x"], ["-me", "a,b", "--strict"], "b,x", rfl, by decide, .long,
      by rw [lists.1]; decide⟩
  exact ⟨⟨said "a", said "b", said "c"⟩, _, accepted, enable, disable,
    listed arguments _ "b" accepted enable disable⟩

end FeatureSet

end JsPrune
