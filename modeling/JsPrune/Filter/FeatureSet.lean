import JsPrune.Filter.DeadBranch

/-!
# Feature guards

A program asks for a feature by calling a guard function with the feature's name. A `FeatureSet`
says which features a build has and which it leaves out; a feature is never both, and the last word
on it counts. With `FeatureSet.known` the guards of a program become decided tests.
-/

namespace JsPrune

/-- Features with and without, and what to say of all others. -/
structure FeatureSet where
  /-- Features that the build has. -/
  enabled : List String
  /-- Features that the build leaves out. -/
  disabled : List String
  /-- The verdict on all other features. -/
  unlisted : Verdict
  /-- The name of the guard function. -/
  guard : String
deriving DecidableEq

namespace FeatureSet

/-- The guard function's name unless another is given. -/
def defaultGuard : String := "has"

/-- Nothing is known of any feature. -/
def empty : FeatureSet := ⟨[], [], .next, defaultGuard⟩

/-- The build has `feature`. -/
def enable (features : FeatureSet) (feature : String) : FeatureSet :=
  { features with
    enabled := features.enabled.insert feature
    disabled := features.disabled.filter (· != feature) }

/-- The build leaves `feature` out. -/
def disable (features : FeatureSet) (feature : String) : FeatureSet :=
  { features with
    enabled := features.enabled.filter (· != feature)
    disabled := features.disabled.insert feature }

/-- The build has each of `names`. -/
def enableAll (features : FeatureSet) (names : List String) : FeatureSet :=
  names.foldl enable features

/-- The build leaves out each of `names`. -/
def disableAll (features : FeatureSet) (names : List String) : FeatureSet :=
  names.foldl disable features

/-- Sets the verdict on features that are not listed. -/
def withUnlisted (features : FeatureSet) (verdict : Verdict) : FeatureSet :=
  { features with unlisted := verdict }

/-- What is not listed is left out. -/
def strict (features : FeatureSet) : FeatureSet := features.withUnlisted .fail

/-- Sets the name of the guard function. -/
def withGuard (features : FeatureSet) (name : String) : FeatureSet :=
  { features with guard := name }

/-- The verdict on a feature. -/
def verdict (features : FeatureSet) (feature : String) : Verdict :=
  if features.enabled.contains feature then .pass
  else if features.disabled.contains feature then .fail
  else features.unlisted

/-- The feature that a node asks for: it is a call of the guard with a single string. -/
def guarded? (features : FeatureSet) : Node → Option String
  | .call .plain (.identifier name) [.string feature] =>
    if name == features.guard then some feature else none
  | _ => none

/-- What the features say about a test. -/
def known (features : FeatureSet) : Predicate := fun node =>
  ((features.guarded? node).map features.verdict).getD .next

/-- The filter that prunes what the features decide. -/
def filter {σ : Type} (features : FeatureSet) : Filter σ :=
  DeadBranch.filter features.known fun _ state => state

end FeatureSet

end JsPrune
