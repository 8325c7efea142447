import PageSync.Proofs.Records

/-!
# Moves

A move takes a node out of its parent and hangs it below another one. Both halves are of one kind:
the parent of a node and the children of a container are recorded and then changed
(`Forest.relink`). What the forest says about the page that is shown stays the same
(`Forest.keeps_move`), and the forest stays well-formed, with marks on all ancestors of every changed
node (`Forest.WellFormed.move`).
-/

namespace PageSync

namespace Forest

variable {f g : Forest} {a n x y container parent child : NodeId} {i : Item} {index : Nat}
  {change : Item → Item} {arrange : List NodeId → List NodeId} {up : Option NodeId}

/-- Gives a node another parent, or none, and changes the children of a container, both after they
have been recorded. -/
def relink (f : Forest) (n container : NodeId) (arrange : List NodeId → List NodeId)
    (up : Option NodeId) : Forest :=
  (((f.recordParent n).recordChildren container).update container fun item =>
    { item with children := item.children.map arrange }
  ).update n fun item => { item with parent := up }

lemma takeOut_of_top (h : f.view.parent n = none) : f.takeOut n = f := by
  rw [takeOut, ← parent_view, h]

lemma takeOut_of_parent (h : f.view.parent n = some parent) :
    f.takeOut n = f.relink n parent (fun children => children.filter (· ≠ n)) none := by
  rw [takeOut, ← parent_view, h, relink]

lemma move_eq (f : Forest) (container : NodeId) (index : Nat) (child : NodeId) :
    f.move container index child = (f.takeOut child).relink child container
      (fun children => children.insertIdx index child) (some container) := rfl

/-! ### The present state -/

lemma now_relink (f : Forest) (n container : NodeId) (arrange : List NodeId → List NodeId)
    (up : Option NodeId) : (f.relink n container arrange up).now x =
      ((f.now x).map fun item =>
        if container = x then { item with children := item.children.map arrange } else item).map
          fun item => if n = x then { item with parent := up } else item := by
  rw [relink, now_update (by exact fun _ => rfl), now_update (by exact fun _ => rfl),
    now_recordChildren, now_recordParent]

lemma contains_relink : (f.relink n container arrange up).contains x = f.contains x := by
  rw [contains_eq, contains_eq, now_relink, Option.isSome_map, Option.isSome_map]

lemma isContainer_relink :
    (f.relink n container arrange up).view.isContainer x = f.view.isContainer x := by
  rw [isContainer_eq, isContainer_eq, now_relink]
  cases f.now x with
  | none => rfl
  | some i => by_cases hn : n = x <;> by_cases hc : container = x <;> simp [hn, hc]

lemma replacesChildren_relink : ((f.relink n container arrange up).view.entry x).replacesChildren =
    (f.view.entry x).replacesChildren := by
  rw [replacesChildren_eq, replacesChildren_eq, now_relink]
  cases f.now x with
  | none => rfl
  | some i => by_cases hn : n = x <;> by_cases hc : container = x <;> simp [hn, hc]

lemma parent_relink (hn : f.contains n) : (f.relink n container arrange up).view.parent x =
    if x = n then up else f.view.parent x := by
  rw [parent_view, parent_view, parent?_eq, parent?_eq, now_relink]
  obtain ⟨i, hi⟩ := Option.isSome_iff_exists.1 ((contains_eq f n).symm.trans hn)
  by_cases hx : x = n
  · subst hx
    simp [hi]
  · cases f.now x with
    | none => simp [hx]
    | some j => by_cases hc : container = x <;> simp [hx, hc, Ne.symm hx]

lemma children_relink (hc : f.view.isContainer container) :
    (f.relink n container arrange up).view.children x =
      if x = container then arrange (f.view.children x) else f.view.children x := by
  obtain ⟨i, hi, hchildren⟩ := get?_of_isContainer hc
  obtain ⟨cs, hcs⟩ : ∃ cs, i.settle.children = some cs := Option.isSome_iff_exists.1 hchildren
  rw [children_eq, children_eq, now_relink]
  by_cases hx : x = container
  · subst hx
    by_cases hn : n = x <;> simp [now, hi, hcs, hn]
  · cases f.now x with
    | none => simp [hx]
    | some j => by_cases hn : n = x <;> simp [hx, hn, Ne.symm hx]

/-! ### Records -/

lemma isSome_recordParent (hi : (f.recordParent n).get? n = some i) : i.record.parent.isSome := by
  rw [recordParent, get?_update, if_pos rfl] at hi
  obtain ⟨j, -, rfl⟩ := Option.map_eq_some_iff.1 hi
  simp

lemma isSome_recordChildren (f : Forest) (n : NodeId) :
    ∀ i, (f.recordChildren n).get? n = some i → i.children.isSome → i.record.children.isSome := by
  refine markAbove_induct (motive := fun g => ∀ i, g.get? n = some i → i.children.isSome →
    i.record.children.isSome) ?_ ?_ n
  · intro i hi hc
    rw [get?_update, if_pos rfl] at hi
    obtain ⟨j, -, rfl⟩ := Option.map_eq_some_iff.1 hi
    simpa using .inr hc
  · intro g a hg i hi hc
    rw [mark, get?_update] at hi
    split at hi
    · next h =>
      subst h
      obtain ⟨j, hj, rfl⟩ := Option.map_eq_some_iff.1 hi
      exact hg j hj hc
    · exact hg i hi hc

/-- Once the parent and the children are recorded, changing them keeps what is shown. -/
lemma recorded_keeps_relink (hn : f.contains n) :
    ((f.recordParent n).recordChildren container).Keeps (f.relink n container arrange up) := by
  have hchildren : ∀ j, ((f.recordParent n).recordChildren container).get? container = some j →
      j.Keeps { j with children := j.children.map arrange } :=
    fun j hj => j.keeps_children (isSome_recordChildren _ _ j hj) arrange
  apply ((Keeps.refl _).update hchildren).update
  intro j hj
  -- the parent is still recorded when it is changed
  obtain ⟨i, hi⟩ := contains_iff.1 ((Keeps.refl f).recordParent n |>.contains hn)
  obtain ⟨j', hj', hij⟩ :=
    (((Keeps.refl _).recordChildren container).update hchildren).item n i hi
  obtain rfl : j' = j := Option.some.inj (hj'.symm.trans hj)
  exact Item.keeps_parent (hij.isSome_parent (isSome_recordParent hi)) up

lemma keeps_relink (hn : f.contains n) : f.Keeps (f.relink n container arrange up) :=
  (((Keeps.refl f).recordParent n).recordChildren container).trans (recorded_keeps_relink hn)

/-! ### Pending changes and marks -/

lemma mem_ancestors_iff (h : f.view.IsForest) :
    a ∈ f.ancestors n ↔ f.contains n ∧ Covers f.view.parent a n := by
  rw [ancestors]
  split
  · next hn => simp [hn, View.mem_climb_iff h.acyclic]
  · next hn => simp [hn]

/-- A parent is a node of the forest. -/
lemma contains_of_parent (h : f.view.IsForest) (hp : f.view.parent n = some parent) :
    f.contains parent := by
  obtain ⟨i, hi, -⟩ :=
    get?_of_isContainer (View.isContainer_of_mem_children ((h.mem_children n parent).2 hp))
  exact contains_iff.2 ⟨i, hi⟩

lemma contains_of_isAbove (h : f.view.IsForest) (ha : IsAbove f.view.parent a n) :
    f.contains a := by
  obtain ⟨c, hc, -⟩ := isAbove_iff_child.1 ha
  exact contains_of_parent h hc

/-- All ancestors of a node are told of a change. -/
lemma isMarked_markAbove (h : f.view.IsForest) (ha : IsAbove f.view.parent a n) :
    ((f.markAbove n).view.entry a).IsMarked := by
  obtain ⟨p, hp, hcov⟩ := isAbove_iff_parent.1 ha
  have hmem : a ∈ f.ancestors p := (mem_ancestors_iff h).2 ⟨contains_of_parent h hp, hcov⟩
  obtain ⟨before, behind, hsplit⟩ := List.append_of_mem hmem
  have hknown : (before.foldl mark f).contains a :=
    foldl_mark_induct (motive := fun g => g.contains a) (contains_of_isAbove h ha)
      (fun g b hg => by rwa [contains_congr (now_mark g b)]) before
  have hself : (((before.foldl mark f).mark a).view.entry a).IsMarked := by
    obtain ⟨i, hi⟩ := contains_iff.1 hknown
    have hmark : ((before.foldl mark f).mark a).get? a =
        some { i with record := { i.record with changedBelow := true } } := by
      rw [mark, get?_update, if_pos rfl, hi]
      rfl
    rw [entry_of_get? hmark]
    exact .inl rfl
  rw [markAbove, ← parent_view, hp]
  change (((f.ancestors p).foldl mark f).view.entry a).IsMarked
  rw [hsplit, List.foldl_append, List.foldl_cons]
  exact foldl_mark_induct (motive := fun g => (g.view.entry a).IsMarked) hself
    (fun g b hg => ((Keeps.refl g).update fun j _ => j.keeps_changedBelow).isMarked hg) behind

lemma isSome_shownChildren_recordChildren (hc : f.view.isContainer container) :
    ((f.recordChildren container).view.entry container).shownChildren.isSome := by
  obtain ⟨i, hi, hchildren⟩ := get?_of_isContainer hc
  obtain ⟨j, hj, hij⟩ := ((Keeps.refl f).recordChildren container).item container i hi
  rw [entry_of_get? hj]
  exact isSome_recordChildren f container j hj (hij.isSome_children_eq.trans hchildren)

/-- A container whose children are recorded is marked, and so are its ancestors. -/
lemma isMarked_recordChildren (h : f.view.IsForest) (hc : f.view.isContainer container)
    (ha : Covers f.view.parent a container) :
    ((f.recordChildren container).view.entry a).IsMarked := by
  rcases covers_iff_eq_or_isAbove.1 ha with rfl | ha
  · exact .inr (isSome_shownChildren_recordChildren hc)
  · have hnow : (f.update container fun item => { item with record :=
        { item.record with children := item.record.children.or item.children } }).now = f.now :=
      now_update_of_settle fun _ => rfl
    exact isMarked_markAbove (isForest_congr hnow h) (by rwa [parent_congr hnow])

lemma isPending_update (hchange : ∀ i, (change i).entry.IsPending → i.entry.IsPending)
    (hx : ((f.update n change).view.entry x).IsPending) : (f.view.entry x).IsPending := by
  cases hi : f.get? n with
  | none => rwa [entry_update_of_none hi] at hx
  | some i =>
    by_cases hn : n = x
    · subst hn
      rw [entry_update hi] at hx
      rw [entry_of_get? hi]
      exact hchange i hx
    · rwa [entry_update_of_ne hn] at hx

lemma isPending_markAbove (hx : ((f.markAbove n).view.entry x).IsPending) :
    (f.view.entry x).IsPending :=
  markAbove_induct (motive := fun g => (g.view.entry x).IsPending → (f.view.entry x).IsPending) id
    (fun g _ hg hx => hg (isPending_update (by exact fun _ h => h) hx)) n hx

/-- Only the children of one container are recorded. -/
lemma isPending_recordChildren (hx : ((f.recordChildren n).view.entry x).IsPending) :
    (f.view.entry x).IsPending ∨ x = n := by
  by_cases hn : x = n
  · exact .inr hn
  · have hx := isPending_markAbove hx
    rw [entry_update_of_ne (Ne.symm hn)] at hx
    exact .inl hx

lemma isPending_relink (hx : ((f.relink n container arrange up).view.entry x).IsPending) :
    (f.view.entry x).IsPending ∨ x = container := by
  have hx := isPending_update (by exact fun _ h => h) (isPending_update (by exact fun _ h => h) hx)
  apply (isPending_recordChildren hx).imp_left
  intro hx
  exact isPending_update (by exact fun _ h => h) hx

/-- The container whose children change is marked, and so are its ancestors. -/
lemma isMarked_relink (h : f.view.IsForest) (hn : f.contains n)
    (hc : f.view.isContainer container) (ha : Covers f.view.parent a container) :
    ((f.relink n container arrange up).view.entry a).IsMarked := by
  have hnow := now_recordParent f n
  refine (recorded_keeps_relink hn).isMarked (isMarked_recordChildren (isForest_congr hnow h) ?_ ?_)
  · rwa [isContainer_congr hnow]
  · rwa [parent_congr hnow]

lemma isSome_shownChildren_relink (hn : f.contains n) (hc : f.view.isContainer container) :
    ((f.relink n container arrange up).view.entry container).shownChildren.isSome := by
  refine (recorded_keeps_relink hn).isSome_shownChildren (isSome_shownChildren_recordChildren ?_)
  rwa [isContainer_congr (now_recordParent f n)]

/-! ### Well-formed forests -/

/-- Whether the parents and children of a forest agree with each other and form trees, and the page is
one of them. -/
structure Rooted (f : Forest) : Prop extends f.view.IsForest where
  /-- The top of the page is a node. -/
  contains_root : f.contains f.root
  /-- It has no parent. -/
  parent_root : f.view.parent f.root = none

/-- Whether the parents and children of a forest agree with each other and form trees, the page is one
of them and shown nowhere below, and all ancestors of a changed node are marked. -/
structure WellFormed (f : Forest) : Prop extends f.view.IsForest where
  /-- The top of the page is a node. -/
  contains_root : f.contains f.root
  /-- It has no parent. -/
  parent_root : f.view.parent f.root = none
  /-- It is not shown under a parent either. -/
  shownParent_root : f.view.shownParent f.root = none
  /-- A walk from the top of a tree comes to every node that something may have changed about. -/
  reaches : ∀ n a, (f.view.entry n).IsPending → IsAbove f.view.parent a n →
    (f.view.entry a).IsMarked

lemma WellFormed.rooted (h : f.WellFormed) : f.Rooted := ⟨h.toIsForest, h.contains_root, h.parent_root⟩

/-- Where all nodes stay where they are, the page is still one of the trees. -/
lemma Rooted.of_still (h : f.Rooted) (hkeeps : f.Keeps g) (hparent : g.view.parent = f.view.parent)
    (hchildren : g.view.children = f.view.children) : g.Rooted where
  toIsForest := h.toIsForest.congr hparent hchildren
  contains_root := by
    rw [hkeeps.root_eq]
    exact hkeeps.contains h.contains_root
  parent_root := by
    rw [hkeeps.root_eq, hparent]
    exact h.parent_root

/-- A page stays where it is when another node gets another parent. -/
lemma Rooted.relink (h : f.Rooted) (hn : f.contains n) (hroot : n ≠ f.root)
    (hforest : (f.relink n container arrange up).view.IsForest) :
    (f.relink n container arrange up).Rooted where
  toIsForest := hforest
  contains_root := by
    rw [(keeps_relink hn).root_eq]
    exact (keeps_relink hn).contains h.contains_root
  parent_root := by
    rw [(keeps_relink hn).root_eq, parent_relink hn, if_neg hroot.symm]
    exact h.parent_root

namespace WellFormed

/-- Where all nodes stay where they are, it is enough that changed nodes can be reached. -/
lemma of_still (h : f.WellFormed) (hkeeps : f.Keeps g) (hparent : g.view.parent = f.view.parent)
    (hchildren : g.view.children = f.view.children)
    (hpending : ∀ x, (g.view.entry x).IsPending → (f.view.entry x).IsPending ∨
      ∀ a, IsAbove f.view.parent a x → (g.view.entry a).IsMarked) : g.WellFormed where
  toIsForest := (h.rooted.of_still hkeeps hparent hchildren).toIsForest
  contains_root := (h.rooted.of_still hkeeps hparent hchildren).contains_root
  parent_root := (h.rooted.of_still hkeeps hparent hchildren).parent_root
  shownParent_root := by
    rw [hkeeps.root_eq, hkeeps.shownParent_eq]
    exact h.shownParent_root
  reaches x a hx ha := by
    rw [hparent] at ha
    rcases hpending x hx with hold | hmarked
    · exact hkeeps.isMarked (h.reaches x a hold ha)
    · exact hmarked a ha

/-- What has changed can still be reached after a move if the ancestors that a node gets are those of
the container. -/
lemma relink (h : f.WellFormed) (hn : f.contains n) (hroot : n ≠ f.root)
    (hc : f.view.isContainer container)
    (hforest : (f.relink n container arrange up).view.IsForest)
    (habove : ∀ a x, IsAbove (f.relink n container arrange up).view.parent a x →
      IsAbove f.view.parent a x ∨ Covers f.view.parent a container) :
    (f.relink n container arrange up).WellFormed where
  toIsForest := hforest
  contains_root := (h.rooted.relink hn hroot hforest).contains_root
  parent_root := (h.rooted.relink hn hroot hforest).parent_root
  shownParent_root := by
    rw [(keeps_relink hn).root_eq, (keeps_relink hn).shownParent_eq]
    exact h.shownParent_root
  reaches x a hx ha := by
    rcases habove a x ha with hold | hcov
    · rcases isPending_relink hx with hx | rfl
      · exact (keeps_relink hn).isMarked (h.reaches x a hx hold)
      · exact isMarked_relink h.toIsForest hn hc hold.covers
    · exact isMarked_relink h.toIsForest hn hc hcov

end WellFormed

/-! ### Taking nodes out -/

lemma contains_of_parent_eq_some (hp : f.view.parent n = some parent) : f.contains n := by
  obtain ⟨i, hi, -⟩ := get?_of_parent? ((parent_view f n).symm.trans hp)
  exact contains_iff.2 ⟨i, hi⟩

lemma keeps_takeOut (f : Forest) (n : NodeId) : f.Keeps (f.takeOut n) := by
  cases hp : f.view.parent n with
  | none =>
    rw [takeOut_of_top hp]
    exact .refl f
  | some p =>
    rw [takeOut_of_parent hp]
    exact keeps_relink (contains_of_parent_eq_some hp)

lemma contains_takeOut : (f.takeOut n).contains x = f.contains x := by
  cases hp : f.view.parent n with
  | none => rw [takeOut_of_top hp]
  | some p => rw [takeOut_of_parent hp, contains_relink]

lemma isContainer_takeOut : (f.takeOut n).view.isContainer x = f.view.isContainer x := by
  cases hp : f.view.parent n with
  | none => rw [takeOut_of_top hp]
  | some p => rw [takeOut_of_parent hp, isContainer_relink]

lemma replacesChildren_takeOut : ((f.takeOut n).view.entry x).replacesChildren =
    (f.view.entry x).replacesChildren := by
  cases hp : f.view.parent n with
  | none => rw [takeOut_of_top hp]
  | some p => rw [takeOut_of_parent hp, replacesChildren_relink]

lemma parent_takeOut : (f.takeOut n).view.parent x = if x = n then none else f.view.parent x := by
  cases hp : f.view.parent n with
  | none =>
    rw [takeOut_of_top hp]
    split
    · next hx => rw [hx, hp]
    · rfl
  | some p => rw [takeOut_of_parent hp, parent_relink (contains_of_parent_eq_some hp)]

lemma children_takeOut (h : f.view.IsForest) :
    (f.takeOut n).view.children x = (f.view.children x).filter (· ≠ n) := by
  have hfilter (hx : f.view.parent n ≠ some x) :
      (f.view.children x).filter (· ≠ n) = f.view.children x := by
    refine List.filter_eq_self.2 fun y hy => decide_eq_true ?_
    rintro rfl
    exact hx (h.parent_of_mem hy)
  cases hp : f.view.parent n with
  | none =>
    rw [takeOut_of_top hp, hfilter]
    simp [hp]
  | some p =>
    have hc := View.isContainer_of_mem_children ((h.mem_children n p).2 hp)
    rw [takeOut_of_parent hp, children_relink hc]
    split
    · rfl
    · next hx => rw [hfilter (by simpa [hp] using Ne.symm hx)]

lemma isForest_takeOut (h : f.view.IsForest) (n : NodeId) : (f.takeOut n).view.IsForest :=
  h.detach (fun _ => parent_takeOut) fun _ => children_takeOut h

lemma Rooted.takeOut (h : f.Rooted) (hroot : n ≠ f.root) : (f.takeOut n).Rooted := by
  have hforest := isForest_takeOut h.toIsForest n
  cases hp : f.view.parent n with
  | none => rwa [takeOut_of_top hp]
  | some p =>
    rw [takeOut_of_parent hp] at hforest ⊢
    exact h.relink (contains_of_parent_eq_some hp) hroot hforest

/-- Taking a node out leaves a well-formed forest. -/
lemma WellFormed.takeOut (h : f.WellFormed) (hroot : n ≠ f.root) : (f.takeOut n).WellFormed := by
  have hforest := isForest_takeOut h.toIsForest n
  cases hp : f.view.parent n with
  | none => rwa [takeOut_of_top hp]
  | some p =>
    have hc := View.isContainer_of_mem_children ((h.mem_children n p).2 hp)
    have hn := contains_of_parent_eq_some hp
    rw [takeOut_of_parent hp] at hforest ⊢
    refine h.relink hn hroot hc hforest fun a x ha => .inl (ha.of_le fun y q hq => ?_)
    rw [parent_relink hn] at hq
    split at hq
    · cases hq
    · exact hq

/-! ### Hanging nodes elsewhere -/

lemma keeps_move (hn : f.contains child) : f.Keeps (f.move container index child) := by
  rw [move_eq]
  exact (keeps_takeOut f child).trans (keeps_relink (contains_takeOut.trans hn))

lemma contains_move : (f.move container index child).contains x = f.contains x := by
  rw [move_eq, contains_relink, contains_takeOut]

lemma replacesChildren_move : ((f.move container index child).view.entry x).replacesChildren =
    (f.view.entry x).replacesChildren := by
  rw [move_eq, replacesChildren_relink, replacesChildren_takeOut]

lemma isSome_shownChildren_move (hn : f.contains child) (hc : f.view.isContainer container) :
    ((f.move container index child).view.entry container).shownChildren.isSome := by
  rw [move_eq]
  exact isSome_shownChildren_relink (contains_takeOut.trans hn) (isContainer_takeOut.trans hc)

lemma parent_move (hn : f.contains child) : (f.move container index child).view.parent x =
    if x = child then some container else f.view.parent x := by
  rw [move_eq, parent_relink (contains_takeOut.trans hn), parent_takeOut]
  split <;> rfl

lemma children_move (h : f.view.IsForest) (hc : f.view.isContainer container) :
    (f.move container index child).view.children x =
      if x = container then ((f.view.children x).filter (· ≠ child)).insertIdx index child
      else (f.view.children x).filter (· ≠ child) := by
  rw [move_eq, children_relink (isContainer_takeOut.trans hc), children_takeOut h]

/-- What is above a node once another one is taken out was above it before. -/
lemma not_covers_takeOut (hcov : ¬ Covers f.view.parent child container) :
    ¬ Covers (f.takeOut child).view.parent child container := fun hcov' =>
  hcov (hcov'.of_le fun x p hp => by
    rw [parent_takeOut] at hp
    split at hp
    · cases hp
    · exact hp)

lemma isForest_move (h : f.view.IsForest) (hn : f.contains child)
    (hc : f.view.isContainer container) (hcov : ¬ Covers f.view.parent child container)
    (hindex : index ≤ ((f.view.children container).filter (· ≠ child)).length) :
    (f.move container index child).view.IsForest := by
  refine (isForest_takeOut h child).attach ?_ (not_covers_takeOut hcov) ?_
    (fun x => parent_relink (contains_takeOut.trans hn))
    fun x => children_relink (isContainer_takeOut.trans hc)
  · rw [parent_takeOut, if_pos rfl]
  · rwa [children_takeOut h]

lemma Rooted.move (h : f.Rooted) (hn : f.contains child) (hroot : child ≠ f.root)
    (hc : f.view.isContainer container) (hcov : ¬ Covers f.view.parent child container)
    (hindex : index ≤ ((f.view.children container).filter (· ≠ child)).length) :
    (f.move container index child).Rooted := by
  have hforest := isForest_move h.toIsForest hn hc hcov hindex
  rw [move_eq] at hforest ⊢
  refine (h.takeOut hroot).relink (contains_takeOut.trans hn) ?_ hforest
  rwa [(keeps_takeOut f child).root_eq]

/-- Moving a node into a container outside of its tree leaves a well-formed forest. -/
lemma WellFormed.move (h : f.WellFormed) (hn : f.contains child) (hroot : child ≠ f.root)
    (hc : f.view.isContainer container) (hcov : ¬ Covers f.view.parent child container)
    (hindex : index ≤ ((f.view.children container).filter (· ≠ child)).length) :
    (f.move container index child).WellFormed := by
  have hn' : (f.takeOut child).contains child := contains_takeOut.trans hn
  have hforest := isForest_move h.toIsForest hn hc hcov hindex
  rw [move_eq] at hforest ⊢
  refine (h.takeOut hroot).relink hn' ?_ (isContainer_takeOut.trans hc) hforest ?_
  · rwa [(keeps_takeOut f child).root_eq]
  · intro a x ha
    refine (ha.of_attach (not_covers_takeOut hcov) fun y p hp => ?_).imp_right (·.2)
    rw [parent_relink hn'] at hp
    split at hp
    · next hy => exact .inr ⟨hy, (Option.some.inj hp).symm⟩
    · exact .inl hp

end Forest

end PageSync
