import PageSync.Decimal

/-!
# Policies

A policy says when the children of a container are sent anew as a whole instead of being compared
one by one, and how deep a pass may go. Two ratios of numbers of children decide; both have to lie
between zero and one.
-/

namespace PageSync

/-- When to send the children of a container anew, and how deep a pass may go. -/
structure Policy where
  /-- A container that grew is sent anew if the ratio of shown to current children is below this. -/
  minRetained : Float := 0.1
  /-- A container is sent anew if the ratio of changes to current children is above this. -/
  maxChanged : Float := 0.9
  /-- How many levels below the top of a tree a pass may reach. -/
  depthLimit : UInt64 := 512

/-- The two ratios of a policy. -/
inductive PolicyRatio
  /-- The least ratio of shown children. -/
  | retained
  /-- The greatest ratio of changes. -/
  | changed
deriving DecidableEq

/-- The name by which a report mentions a ratio. -/
def PolicyRatio.name : PolicyRatio → String
  | .retained => "minimum_retained_ratio"
  | .changed => "maximum_change_ratio"

/-- Why a policy can't be followed. -/
inductive PolicyError
  /-- A ratio is not a number between zero and one. -/
  | ratioOutOfRange (ratio : PolicyRatio) (value : Float)
  /-- The depth limit is zero. -/
  | zeroDepthLimit

/-- The text that reports a policy which can't be followed. -/
def PolicyError.message : PolicyError → String
  | .ratioOutOfRange ratio value =>
    "`" ++ ratio.name ++ "` must be a finite ratio within 0..=1, but was " ++ Decimal.ofFloat value
  | .zeroDepthLimit => "`depth_limit` must not be zero"

namespace Policy

/-- Whether a number lies between zero and one. No comparison with a number that is none holds. -/
def inUnit (value : Float) : Bool := 0 ≤ value && value ≤ 1

/-- Refuses a policy that can't be followed. -/
def check (policy : Policy) : Except PolicyError Unit :=
  if !inUnit policy.minRetained then .error (.ratioOutOfRange .retained policy.minRetained)
  else if !inUnit policy.maxChanged then .error (.ratioOutOfRange .changed policy.maxChanged)
  else if policy.depthLimit = 0 then .error .zeroDepthLimit
  else .ok ()

/-- The ratio of two numbers of children. -/
def ratio (part whole : Nat) : Float := part.toUInt64.toFloat / whole.toUInt64.toFloat

/-- Whether a container that grew from one number of children to another is sent anew without any
comparison. -/
def prefersReplacement (policy : Policy) (shown current : Nat) : Bool :=
  shown < current && ratio shown current < policy.minRetained

/-- Whether so many changes are too many for a container with so many current children. An emptied
container is never sent anew: to remove its children is cheapest. -/
def rejectsChanges (policy : Policy) (changes current : Nat) : Bool :=
  0 < current && policy.maxChanged < ratio changes current

end Policy

end PageSync
