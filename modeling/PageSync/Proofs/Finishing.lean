import PageSync.Proofs.Ensuring
import PageSync.Proofs.Passes

/-!
# What a pass is done with

A pass is done with nodes of the tree that it walks, and with no others, whatever the records say
(`Differ.covers_of_settled`). For it goes down from the top along the current children alone: a child
that stays where it is was looked up by its current parent.
-/

namespace PageSync

namespace Pass

variable {A : NodeId → Prop} {pass : Pass} {n : NodeId}

/-- Whether a pass is done with nodes of one kind alone. -/
def Finishes (A : NodeId → Prop) (s : Progress) : Prop := ∀ y ∈ s.finished, A y

lemma lasting_finishes : Lasting (Finishes A) := by
  intro s s' _ hfinished hs
  rwa [Finishes, hfinished]

lemma ensures_markDone (hn : A n) : Ensures (Finishes A) (markDone n) (Finishes A) := by
  intro s hs y hy
  rcases List.mem_append.1 hy with hy | hy
  · exact hs y hy
  · obtain rfl := List.mem_singleton.1 hy
    exact hn

lemma ensures_walk (pass : Pass) (h : pass.view.IsForest) (levels into : Nat)
    (hn : Covers pass.view.parent pass.root n) :
    Ensures (Finishes (Covers pass.view.parent pass.root)) (pass.walk levels into n)
      (Finishes (Covers pass.view.parent pass.root)) := by
  induction levels generalizing into n with
  | zero => exact .throw _
  | succ levels ih =>
    have hchild (number : Nat) (c : NodeId) (hc : pass.view.parent c = some n) :=
      ih number (hn.trans (.of_parent hc))
    rw [walk]
    split
    · refine lasting_finishes.walkChanged lasting_finishes lasting_finishes (fun _ _ => id)
        (fun _ number => ?_) (ensures_markDone hn)
      exact lasting_finishes.enduring.compareChildren (fun _ _ _ => id) fun x _ => hchild number x
    · exact lasting_finishes.enduring.walkSettled (ensures_markDone hn) fun x hx =>
        hchild _ x (h.parent_of_mem hx)

end Pass

/-- A pass that succeeds is done with nodes of its tree alone. -/
theorem Differ.covers_of_settled {differ : Differ} {view : View} {top n : NodeId} {delta : Delta}
    (h : view.IsForest) (hpass : (differ.pass view top).1 = .ok delta)
    (hn : .settled n ∈ delta.notices) : Covers view.parent top n := by
  obtain ⟨-, -, -, s, hrun, -, hnotices, -⟩ := Differ.of_pass_eq_ok hpass
  have hwalk := Pass.ensures_walk ⟨view, differ.policy, top⟩ h
    (differ.policy.depthLimit.toNat + 1) Ledger.first (.refl top)
  have hfinished := (hwalk { tables := differ.tables.emptied } (by simp [Pass.Finishes])).of_run hrun
  exact hfinished n (by simpa [hnotices] using hn)

end PageSync
