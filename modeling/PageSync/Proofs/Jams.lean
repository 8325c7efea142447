import PageSync.Proofs.Passes

/-!
# Passes that can't succeed

Where a container has one child left and the records of the two contradict each other, a pass that
comes to the container fails under every policy, for it has to compare that child with the ones that
were shown. `View.Jams view n` says that such a container lies below `n`, down a line of
only children that every pass follows.
-/

namespace PageSync

/-- Whether a container has one child left, and will not be sent anew when it is compared. -/
structure View.Narrows (view : View) (container child : NodeId) (shown : List NodeId) : Prop where
  /-- There is one child. -/
  children_eq : (view.entry container).children = some [child]
  /-- The children that are shown are recorded. -/
  shownChildren_eq : (view.entry container).shownChildren = some shown
  /-- There are such children. -/
  shown_ne_nil : shown ≠ []
  /-- None is shown twice. -/
  nodup_shown : shown.Nodup
  /-- The container is not sent anew as a matter of course. -/
  replacesChildren_eq : (view.entry container).replacesChildren = false

/-- Whether a line of only children leads from a node to a container whose records contradict those of
its child. -/
inductive View.Jams (view : View) : NodeId → Prop
  /-- The child is among the children that are shown, or it is recorded as one, but not both. -/
  | here {container child : NodeId} {shown : List NodeId}
    (hnarrows : view.Narrows container child shown)
    (hcontradiction : ¬ (child ∈ shown ↔ view.shownParent child = some container)) :
    view.Jams container
  /-- The child stays where it is, and the contradiction is below it. -/
  | deeper {container child : NodeId} {shown : List NodeId}
    (hnarrows : view.Narrows container child shown) (hshown : child ∈ shown)
    (hparent : view.shownParent child = some container) (hbelow : view.Jams child) :
    view.Jams container

namespace Pass

variable {pass : Pass} {container child n : NodeId} {shown : List NodeId} {s : Progress}

lemma filter_parent_eq (h : pass.view.IsForest) (hnarrows : pass.view.Narrows container child shown) :
    shown.filter (fun node => pass.view.parent node = some container) =
      if child ∈ shown then [child] else [] := by
  have hparent (x : NodeId) : pass.view.parent x = some container ↔ x = child := by
    rw [← h.mem_children, View.childList_of_some hnarrows.children_eq, List.mem_singleton]
  simp only [hparent]
  rw [List.filter_eq child]
  split
  · next hmem => rw [List.count_eq_one_of_mem hnarrows.nodup_shown hmem, List.replicate_one]
  · next hmem => rw [List.count_eq_zero_of_not_mem hmem, List.replicate_zero]

/-- A walk over a container with a single child that has been recorded compares it. -/
lemma yields_walk_of_narrows (hnarrows : pass.view.Narrows container child shown) (levels into : Nat)
    (hcompare : ∀ number s', s'.tables = s.tables → Yields (pass.compareChildren
      (pass.walk levels number) number container shown [child]) s' (fun _ _ => False)
        fun _ => True) :
    Yields (pass.walk (levels + 1) into container) s (fun _ _ => False) fun _ => True := by
  have hcompared := View.compared_of_some hnarrows.children_eq hnarrows.shownChildren_eq
    (List.cons_ne_nil child [])
  have hempty : shown.isEmpty = false := by simpa using hnarrows.shown_ne_nil
  have hpolicy : pass.policy.prefersReplacement shown.length [child].length = false := by
    have hlength := List.length_pos_of_ne_nil hnarrows.shown_ne_nil
    simp [Policy.prefersReplacement, Nat.not_lt.2 hlength]
  rw [walk, hcompared]
  simp only [walkChanged, yields_bind, yields_get]
  cases s.ledger.find? container with
  | some number =>
    simp only [yields_ite, yields_contradict, yields_throw, implies_true, and_self]
  | none =>
    simp only [hempty, hpolicy, hnarrows.replacesChildren_eq, Bool.or_false, Bool.false_eq_true,
      if_false, yields_bind, yields_note, yields_noteOn]
    exact Yields.of_fails (hcompare _ _ rfl)

lemma yields_takeIn_singleton {number : Nat} {Q : List NodeId → Progress → Prop} {F : PassError → Prop}
    (hin : pass.view.shownParent child = some container →
      Q [child] { s with tables := { s.tables with
        places := s.tables.places.insert child { old := 0, new := 0, target := 0 } } })
    (hout : pass.view.shownParent child ≠ some container →
      ∀ s', s'.tables = s.tables → Q [] s') :
    Yields (pass.takeIn number container 0 0 [child]) s Q F := by
  rw [takeIn, yields_ite]
  constructor
  · intro hparent
    simpa only [takeIn, yields_bind, yields_setPlace, yields_pure] using hin hparent
  · intro hparent
    rw [markNew, yields_bind, yields_ite]
    simp only [takeIn, yields_bind, yields_note, yields_noteOn, yields_pure]
    exact ⟨fun _ => hout hparent _ rfl, fun _ => hout hparent _ rfl⟩

/-- Where the records of a single child contradict those of its container, the comparison fails. -/
lemma yields_compareChildren_of_contradiction (h : pass.view.IsForest)
    (hnarrows : pass.view.Narrows container child shown)
    (hcontradiction : ¬ (child ∈ shown ↔ pass.view.shownParent child = some container))
    (descend : NodeId → Walk Unit) (number : Nat) :
    Yields (pass.compareChildren descend number container shown [child]) s (fun _ _ => False)
      fun _ => True := by
  rw [compareChildren]
  simp only [yields_bind, yields_noteOn, filter_parent_eq h hnarrows]
  apply yields_takeIn_singleton
  · intro hparent
    have hshown : child ∉ shown := fun hshown => hcontradiction (iff_of_true hshown hparent)
    simp [hshown]
  · intro hparent s' _
    have hshown : child ∈ shown := by
      by_contra hshown
      exact hcontradiction (iff_of_false hshown hparent)
    simp [hshown]

/-- Where a single child stays, the comparison fails if the walk fails below it. -/
lemma yields_compareChildren_of_stays (h : pass.view.IsForest)
    (hnarrows : pass.view.Narrows container child shown) (hshown : child ∈ shown)
    (hparent : pass.view.shownParent child = some container) {descend : NodeId → Walk Unit}
    (hdescend : ∀ s', s'.tables.moved = s.tables.moved →
      Yields (descend child) s' (fun _ _ => False) fun _ => True)
    (hmoved : s.tables.moved.contains child = false) (number : Nat) :
    Yields (pass.compareChildren descend number container shown [child]) s (fun _ _ => False)
      fun _ => True := by
  rw [compareChildren]
  simp only [yields_bind, yields_noteOn, filter_parent_eq h hnarrows, if_pos hshown]
  apply yields_takeIn_singleton
  · intro _
    simp only [List.length_singleton, ne_eq, not_true_eq_false, if_false, countStayed, yields_bind,
      yields_place?, Std.TreeMap.getElem?_insert_self, yields_setPlace, yields_pure, align,
      yields_isMoved, hmoved, Bool.false_eq_true, alignChild, if_true]
    exact Yields.of_fails (hdescend _ rfl)
  · exact fun hnot => absurd hparent hnot

/-- A walk that comes to a jammed container fails. -/
lemma yields_walk_of_jams (h : pass.view.IsForest) (hjams : pass.view.Jams n) (levels into : Nat)
    (s : Progress) (hmoved : ∀ x, s.tables.moved.contains x = false) :
    Yields (pass.walk levels into n) s (fun _ _ => False) fun _ => True := by
  induction hjams generalizing levels into s with
  | here hnarrows hcontradiction =>
    cases levels with
    | zero => exact yields_throw.2 trivial
    | succ levels =>
      exact yields_walk_of_narrows hnarrows levels into fun number s' _ =>
        yields_compareChildren_of_contradiction h hnarrows hcontradiction _ number
  | deeper hnarrows hshown hparent _ ih =>
    cases levels with
    | zero => exact yields_throw.2 trivial
    | succ levels =>
      apply yields_walk_of_narrows hnarrows levels into
      intro number s' hs'
      have hmoved' (x : NodeId) : s'.tables.moved.contains x = false := hs' ▸ hmoved x
      refine yields_compareChildren_of_stays h hnarrows hshown hparent (fun s'' hs'' => ?_)
        (hmoved' _) number
      exact ih _ _ s'' fun x => hs'' ▸ hmoved' x

end Pass

/-- A pass over a tree whose top is jammed fails, whatever the policy. -/
lemma Differ.pass_ne_ok_of_jams {differ : Differ} {view : View} {top : NodeId} {delta : Delta}
    (h : view.IsForest) (hjams : view.Jams top) : (differ.pass view top).1 ≠ .ok delta := by
  intro hpass
  obtain ⟨-, -, -, s, hrun, -⟩ := of_pass_eq_ok hpass
  have hyields : Pass.Yields (Pass.gather ⟨view, differ.policy, top⟩)
      { tables := differ.tables.emptied } (fun _ _ => False) fun _ => True :=
    Pass.yields_walk_of_jams h hjams _ _ _ (by simp [Tables.emptied])
  exact hyields.of_run hrun

end PageSync
