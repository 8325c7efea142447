import Mathlib.Tactic.Common
import PageSync.Policy

/-!
# Thresholds

A policy that can be followed never sends the children of a container anew because of no changes
(`Policy.rejectsChanges_zero`): the ratio of no changes to any number of children is zero, or no
number at all, and neither is above a threshold that lies between zero and one.
-/

namespace PageSync

open Float.Model (UnpackedFloat Format)

namespace Policy

variable {policy : Policy} {x y : UnpackedFloat}

/-! ### Zero and what is no number -/

/-- Whether a number is zero, or none at all. -/
def IsNil (x : UnpackedFloat) : Prop := x = .notANumber ∨ ∃ sign, x = .zero sign

/-- What is written as bits is read as zero again, or as no number. -/
lemma IsNil.unpack_pack (h : IsNil x) : IsNil (Float.Model.pack x).unpack := by
  rcases h with rfl | ⟨sign, rfl⟩
  · have hpack : (Float.Model.pack .notANumber).unpack = .notANumber := rfl
    exact .inl hpack
  · have hpack : (Float.Model.pack (.zero sign)).unpack = .zero sign := by cases sign <;> rfl
    exact .inr ⟨sign, hpack⟩

/-- Zero divided by whatever it is stays zero, or is no number. -/
lemma isNil_zero_div (x : UnpackedFloat) :
    IsNil (UnpackedFloat.div Format.binary64 (.zero .positive) x) := by
  cases x with
  | notANumber => exact .inl rfl
  | zero => exact .inl rfl
  | infinity => exact .inr ⟨_, rfl⟩
  | finite => exact .inr ⟨_, rfl⟩

lemma isNil_ratio_zero (n : Nat) : IsNil (ratio 0 n).toModel.unpack :=
  (isNil_zero_div _).unpack_pack

/-- A number that is not below zero is not below what is zero or no number. -/
lemma IsNil.not_lt (hy : IsNil y) (hx : UnpackedFloat.le (.zero .positive) x = true) :
    UnpackedFloat.lt x y = false := by
  rcases hy with rfl | ⟨sign, rfl⟩
  · cases x <;> rfl
  · cases x with
    | notANumber => rfl
    | zero => rfl
    | infinity s =>
      cases s with
      | positive => rfl
      | negative => cases hx
    | finite s =>
      cases s with
      | positive => rfl
      | negative => cases hx

/-! ### Thresholds of policies -/

lemma lt_iff {a b : Float} :
    a < b ↔ UnpackedFloat.lt a.toModel.unpack b.toModel.unpack = true := decide_eq_true_iff

lemma le_iff {a b : Float} :
    a ≤ b ↔ UnpackedFloat.le a.toModel.unpack b.toModel.unpack = true := decide_eq_true_iff

/-- What is checked of a policy that can be followed. -/
lemma of_check_eq_ok (h : policy.check = .ok ()) :
    inUnit policy.minRetained = true ∧ inUnit policy.maxChanged = true ∧ policy.depthLimit ≠ 0 := by
  rw [check] at h
  split_ifs at h with hretained hchanged hdepth
  exact ⟨by simpa using hretained, by simpa using hchanged, hdepth⟩

/-- No changes are never too many. -/
theorem rejectsChanges_zero (h : policy.check = .ok ()) (current : Nat) :
    policy.rejectsChanges 0 current = false := by
  obtain ⟨-, hchanged, -⟩ := of_check_eq_ok h
  rw [inUnit, Bool.and_eq_true] at hchanged
  have hle := le_iff.1 (of_decide_eq_true hchanged.1)
  have hlt : ¬ policy.maxChanged < ratio 0 current := by
    rw [lt_iff, (isNil_ratio_zero current).not_lt hle]
    exact Bool.false_ne_true
  rw [rejectsChanges, decide_eq_false hlt, Bool.and_false]

/-- A container that did not grow is compared. -/
lemma prefersReplacement_self (policy : Policy) (n : Nat) : policy.prefersReplacement n n = false := by
  rw [prefersReplacement, decide_eq_false (Nat.lt_irrefl n), Bool.false_and]

end Policy

end PageSync
