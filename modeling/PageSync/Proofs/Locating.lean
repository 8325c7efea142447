import Mathlib.Data.ENat.Lattice
import Mathlib.Data.Set.Card
import PageSync.Proofs.Arena
import PageSync.Proofs.Faults

/-!
# Where a contradiction is

A pass that fails because its view contradicts itself about a container shows the way to it. That is
the end of the chain of parents of the container, and of a long chain one node more than the depth limit
(`View.Locates`), whatever the view says, also of a chain without end
(`View.chainLength_eq_top_iff`). The only exception is the greatest depth limit: there the number of
nodes overflows, and no way is shown (`Differ.pass_located`, `Differ.pass_unlocated`).
-/

namespace PageSync

namespace View

variable {view : View} {n p : NodeId} {k : Nat}

/-! ### The length of a chain -/

/-- The node so many steps up the chain that starts at a node and goes on with its parent, the parent of
that, and so on. -/
def above (view : View) : Nat → NodeId → Option NodeId
  | 0, n => some n
  | k + 1, n => (view.parent n).bind (view.above k)

/-- How many nodes that chain has: one for each number of steps that leads to a node. -/
noncomputable def chainLength (view : View) (n : NodeId) : ℕ∞ :=
  {k | (view.above k n).isSome}.encard

lemma above_succ_of_top (h : view.parent n = none) (k : Nat) : view.above (k + 1) n = none := by
  rw [above, h, Option.bind_none]

lemma above_succ_of_parent (h : view.parent n = some p) (k : Nat) :
    view.above (k + 1) n = view.above k p := by
  rw [above, h, Option.bind_some]

lemma chainLength_of_top (h : view.parent n = none) : view.chainLength n = 1 := by
  have honly : {k | (view.above k n).isSome} = {0} := by
    ext k
    cases k with
    | zero => exact iff_of_true rfl rfl
    | succ k => simp [above_succ_of_top h]
  rw [chainLength, honly, Set.encard_singleton]

lemma chainLength_of_parent (h : view.parent n = some p) :
    view.chainLength n = view.chainLength p + 1 := by
  have hshift : {k | (view.above k n).isSome} =
      insert 0 (Nat.succ '' {k | (view.above k p).isSome}) := by
    ext k
    cases k with
    | zero => exact iff_of_true rfl (Set.mem_insert _ _)
    | succ k => simp [above_succ_of_parent h]
  rw [chainLength, hshift, Set.encard_insert_of_notMem (by simp), Nat.succ_injective.encard_image,
    chainLength]

/-- Of a chain all nodes are listed, or so many of them as are asked for. -/
lemma length_climb (k : Nat) (n : NodeId) :
    ((view.climb k n).length : ℕ∞) = min (k : ℕ∞) (view.chainLength n) := by
  induction k generalizing n with
  | zero => simp [climb]
  | succ k ih =>
    rw [climb_succ, List.length_cons, Nat.cast_succ, Nat.cast_succ]
    cases hp : view.parent n with
    | none =>
      rw [chainLength_of_top hp, min_eq_right le_add_self]
      rfl
    | some p =>
      dsimp only
      rw [ih, chainLength_of_parent hp, min_add_add_right]

/-- Exactly those chains have no end that come to a node which is above itself. -/
theorem chainLength_eq_top_iff : view.chainLength n = ⊤ ↔
    ∃ m, Covers view.parent m n ∧ IsAbove view.parent m m := by
  constructor
  · intro htop
    by_contra! hnone
    -- there are more nodes in such a chain than there are identifiers
    have hlength : ((view.climb (NodeId.count + 1) n).length : ℕ∞) = _ := length_climb _ n
    rw [htop, min_top_right, Nat.cast_inj] at hlength
    have hle := NodeId.length_le_count (nodup_climb_of hnone (NodeId.count + 1))
    omega
  · rintro ⟨m, hcov, hself⟩
    have hnever (k : Nat) (n : NodeId) (hn : Covers view.parent m n) : (view.above k n).isSome := by
      induction k generalizing n with
      | zero => rfl
      | succ k ih =>
        have habove : IsAbove view.parent m n := hself.trans_covers hn
        obtain ⟨p, hp, hmp⟩ := isAbove_iff_parent.1 habove
        rw [above_succ_of_parent hp]
        exact ih p hmp
    have hall : {k | (view.above k n).isSome} = Set.univ :=
      Set.eq_univ_of_forall fun k => hnever k n hcov
    rw [chainLength, hall, Set.encard_univ, ENat.card_eq_top_of_infinite]

/-! ### Ways to a container -/

/-- Whether a path leads down to a container, from the top of its tree or from so many levels above the
container as the limit says. -/
structure Locates (view : View) (limit : Nat) (path : List NodeId) (c : NodeId) : Prop where
  /-- There is something to see. -/
  ne_nil : path ≠ []
  /-- The path ends at the container. -/
  getLast?_eq : path.getLast? = some c
  /-- Each node is the parent of the next one. -/
  isChain : path.IsChain fun upper lower => view.parent lower = some upper
  /-- The whole chain is shown, or one node more than the limit. -/
  length_eq : (path.length : ℕ∞) = min ((limit + 1 : Nat) : ℕ∞) (view.chainLength c)

end View

namespace Pass

variable (pass : Pass)

lemma path_eq_nil (hlimit : (pass.policy.depthLimit + 1).toNat = 0) (c : NodeId) :
    pass.path c = [] := by
  rw [path, hlimit]
  rfl

lemma locates_path
    (hlimit : (pass.policy.depthLimit + 1).toNat = pass.policy.depthLimit.toNat + 1) (c : NodeId) :
    pass.view.Locates pass.policy.depthLimit.toNat (pass.path c) c := by
  have hlast : (pass.path c).getLast? = some c := by
    rw [path, hlimit, List.getLast?_reverse, View.head?_climb_succ]
  refine ⟨?_, hlast, ?_, ?_⟩
  · rintro hnil
    rw [hnil] at hlast
    cases hlast
  · rw [path, List.isChain_reverse]
    exact View.isChain_climb _ c
  · rw [path, List.length_reverse, hlimit, View.length_climb]

end Pass

namespace Differ

variable {differ : Differ} {view : View} {top c : NodeId} {reason : Inconsistency}
  {path : List NodeId}

lemma path_eq_of_pass (h : (differ.pass view top).1 = .error (.inconsistent c reason path)) :
    path = Pass.path ⟨view, differ.policy, top⟩ c := by
  rw [pass] at h
  split at h
  · cases h
  · split at h
    · split at h
      · cases h
      · rcases reports_of_run h with hreports | ⟨_, _, _, _, hsibling, -⟩
        · exact hreports.path_eq c reason path rfl
        · cases hsibling
    · cases h

/-- Whatever a view says: a pass that fails because of a contradiction locates the container, and the
number of nodes to show does not overflow, unless the depth limit is the greatest number of 64 bits. With
that limit no way to the container is shown. -/
theorem pass_located (h : (differ.pass view top).1 = .error (.inconsistent c reason path)) :
    (differ.policy.depthLimit.toNat + 1 < UInt64.size →
      (differ.policy.depthLimit + 1).toNat = differ.policy.depthLimit.toNat + 1 ∧
        view.Locates differ.policy.depthLimit.toNat path c) ∧
    (differ.policy.depthLimit.toNat + 1 = UInt64.size →
      (differ.policy.depthLimit + 1).toNat = 0 ∧ path = []) := by
  obtain rfl := path_eq_of_pass h
  have hadd : (differ.policy.depthLimit + 1).toNat =
      (differ.policy.depthLimit.toNat + 1) % UInt64.size := UInt64.toNat_add _ _
  constructor
  · intro hlt
    rw [Nat.mod_eq_of_lt hlt] at hadd
    exact ⟨hadd, Pass.locates_path ⟨view, differ.policy, top⟩ hadd c⟩
  · intro heq
    rw [heq, Nat.mod_self] at hadd
    exact ⟨hadd, Pass.path_eq_nil ⟨view, differ.policy, top⟩ hadd c⟩

end Differ

/-! ### A container with a lost child -/

/-- A container below the top, with the given node for its parent. It was shown with a child that is
still below it, but that it does not list. -/
def View.lapsed (parent : Option NodeId) : View where
  contains n := n.number ≤ 2
  entry n :=
    if n = ⟨0⟩ then { tag := "div", children := some [⟨1⟩], changedBelow := true }
    else if n = ⟨1⟩ then
      { tag := "div", children := some [], parent, shownChildren := some [⟨2⟩], changedBelow := true }
    else if n = ⟨2⟩ then { tag := "div", parent := some ⟨1⟩, changedBelow := true }
    else {}

namespace Differ

/-- Whether a pass under a depth limit finds that the container has lost its child, and shows the given
way to it. -/
def findsLapse (limit : UInt64) (parent : Option NodeId) (path : List NodeId) : Bool :=
  match (pass { policy := { depthLimit := limit } } (.lapsed parent) ⟨0⟩).1 with
  | .error (.inconsistent c reason path') =>
    decide (c = ⟨1⟩ ∧ reason = .unequalCounts 1 0 ∧ path' = path)
  | _ => false

variable {limit : UInt64} {parent : Option NodeId} {path : List NodeId}

lemma pass_lapsed (h : findsLapse limit parent path) :
    (pass { policy := { depthLimit := limit } } (.lapsed parent) ⟨0⟩).1 =
      .error (.inconsistent ⟨1⟩ (.unequalCounts 1 0) path) := by
  rw [findsLapse] at h
  split at h
  · next c reason path' heq =>
    obtain ⟨rfl, rfl, rfl⟩ := of_decide_eq_true h
    exact heq
  · cases h

/-- The parent of the container is below it: the chain has no end, and of its nodes three are shown if
the depth limit is two. -/
theorem pass_located_lapsed :
    (View.lapsed (some ⟨2⟩)).chainLength ⟨1⟩ = ⊤ ∧
    (pass { policy := { depthLimit := 2 } } (.lapsed (some ⟨2⟩)) ⟨0⟩).1 =
      .error (.inconsistent ⟨1⟩ (.unequalCounts 1 0) [⟨1⟩, ⟨2⟩, ⟨1⟩]) ∧
    (View.lapsed (some ⟨2⟩)).Locates 2 [⟨1⟩, ⟨2⟩, ⟨1⟩] ⟨1⟩ := by
  have hparent : (View.lapsed (some ⟨2⟩)).parent ⟨1⟩ = some ⟨2⟩ := by decide
  have hchild : (View.lapsed (some ⟨2⟩)).parent ⟨2⟩ = some ⟨1⟩ := by decide
  have hself : IsAbove (View.lapsed (some ⟨2⟩)).parent ⟨1⟩ ⟨1⟩ :=
    isAbove_iff_parent.2 ⟨⟨2⟩, hparent, .of_parent hchild⟩
  have hfinds : findsLapse 2 (some ⟨2⟩) [⟨1⟩, ⟨2⟩, ⟨1⟩] := by decide +kernel
  have hpass := pass_lapsed hfinds
  refine ⟨View.chainLength_eq_top_iff.2 ⟨⟨1⟩, .refl _, hself⟩, hpass, ?_⟩
  exact ((pass_located hpass).1 (by decide)).2

/-- The greatest depth limit is a valid one, but no way is shown with it: nothing says that the
container is below the top. -/
theorem pass_unlocated :
    ({ depthLimit := 18446744073709551615 } : Policy).check = .ok () ∧
    (pass { policy := { depthLimit := 18446744073709551615 } } (.lapsed (some ⟨0⟩)) ⟨0⟩).1 =
      .error (.inconsistent ⟨1⟩ (.unequalCounts 1 0) []) ∧
    ¬ (View.lapsed (some ⟨0⟩)).Locates 18446744073709551615 [] ⟨1⟩ := by
  have hfinds : findsLapse 18446744073709551615 (some ⟨0⟩) [] := by decide +kernel
  exact ⟨rfl, pass_lapsed hfinds, fun hlocates => hlocates.ne_nil rfl⟩

end Differ

end PageSync
