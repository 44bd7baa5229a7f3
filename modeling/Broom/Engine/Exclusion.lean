import Broom.Core.Regexp
import Broom.Engine.Spec

/-!
# Keeping the caller

The library's configuration that a worker makes from its spec: the IAM user whose keys are
in use is left out by a regular expression for the name. The expression is the quoted name
between the two anchors, so it matches this name and no other.
-/

namespace Broom.Engine

open Broom.Core

/-- The part of the library's configuration that the worker sets: the expressions for the
names of IAM users that are left out. -/
structure Config where
  iamUserNames : List Regexp := []

/-- The configuration for a spec; none where the expression does not compile. -/
def buildConfig (spec : Spec) : Option Config :=
  if spec.excludeIAMUserName = "" then some {}
  else do
    let re ← Regexp.compile
      ("^".toList ++ Regexp.quoteMeta spec.excludeIAMUserName.toList ++ "$".toList)
    return { iamUserNames := [re] }

/-- The library leaves an IAM user out if one of the expressions matches the name. -/
def Config.excludes (cfg : Config) (userName : String) : Bool :=
  cfg.iamUserNames.any fun re => re.matchString userName.toList

/-- Without a name there is no rule. -/
theorem buildConfig_empty {spec : Spec} (h : spec.excludeIAMUserName = "") :
    buildConfig spec = some {} := by
  rw [buildConfig, if_pos h]

/-- The rule for a name leaves out this user alone. -/
theorem buildConfig_name {spec : Spec} (h : spec.excludeIAMUserName ≠ "") :
    ∃ cfg, buildConfig spec = some cfg ∧
      ∀ u, cfg.excludes u = true ↔ u = spec.excludeIAMUserName := by
  obtain ⟨re, hcompile, hmatch⟩ := Regexp.compile_exactly spec.excludeIAMUserName.toList
  refine ⟨⟨[re]⟩, ?_, fun u => ?_⟩
  · have hpattern : "^".toList ++ Regexp.quoteMeta spec.excludeIAMUserName.toList ++ "$".toList =
        Regexp.exactly spec.excludeIAMUserName.toList := by
      rw [Regexp.exactly, List.append_assoc]
      rfl
    rw [buildConfig, if_neg h, hpattern, hcompile]
    rfl
  · rw [Config.excludes, List.any_cons, List.any_nil, Bool.or_false, hmatch, String.toList_inj]

end Broom.Engine
