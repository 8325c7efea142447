import PageSync.View
import PageSync.Proofs.Ancestry
import PageSync.Proofs.Subtrees

/-!
# Views of a forest

A view is a forest if its lists of children and its parents say the same and no node is below
itself. Then every chain of parents ends before the identifiers are used up, so that `View.climb`
lists all ancestors of a node, and the description of a node consists of the descriptions of its
children (`View.IsForest.describe_eq`): the bound on the levels is never felt.
-/

namespace PageSync

namespace View

variable {view : View} {a n p c : NodeId} {m : Node}

/-- How many levels a node is below the top of its tree. -/
def depth (view : View) (n : NodeId) : Nat := (view.climb NodeId.count n).length - 1

/-- Whether the current parents and children agree with each other and form trees. -/
structure IsForest (view : View) : Prop where
  /-- A node is among the children of its parent and nowhere else. -/
  mem_children : ∀ n c, n ∈ view.children c ↔ view.parent n = some c
  /-- No child is listed twice. -/
  nodup_children : ∀ c, (view.children c).Nodup
  /-- No node is above itself. -/
  acyclic : Acyclic view.parent

/-! ### Chains of parents -/

lemma climb_succ (k : Nat) (n : NodeId) : view.climb (k + 1) n =
    n :: match view.parent n with
      | none => []
      | some parent => view.climb k parent := rfl

/-- A chain depends on the parents alone. -/
lemma climb_congr {view' : View} (h : ∀ n, view'.parent n = view.parent n) (k : Nat) (n : NodeId) :
    view'.climb k n = view.climb k n := by
  induction k generalizing n with
  | zero => rfl
  | succ k ih =>
    rw [climb_succ, climb_succ, h]
    cases view.parent n with
    | none => rfl
    | some p => simp [ih]

lemma climb_eq_take {k m : Nat} (h : k ≤ m) (n : NodeId) :
    view.climb k n = (view.climb m n).take k := by
  induction k generalizing m n with
  | zero => rfl
  | succ k ih =>
    obtain ⟨m, rfl⟩ : ∃ m', m = m' + 1 := ⟨m - 1, by omega⟩
    rw [climb_succ, climb_succ, List.take_succ_cons]
    cases view.parent n with
    | none => simp
    | some p => simp [ih (Nat.le_of_succ_le_succ h) p]

lemma covers_of_mem_climb {k : Nat} (h : a ∈ view.climb k n) : Covers view.parent a n := by
  induction k generalizing n with
  | zero => simp [climb] at h
  | succ k ih =>
    rw [climb_succ] at h
    rcases List.mem_cons.1 h with rfl | h
    · exact .refl _
    · cases hp : view.parent n with
      | none => simp [hp] at h
      | some p => exact (ih (by simpa [hp] using h)).trans (.of_parent hp)

/-- A chain that comes to no node which is above itself comes to no node twice. -/
lemma nodup_climb_of (h : ∀ m, Covers view.parent m n → ¬ IsAbove view.parent m m) (k : Nat) :
    (view.climb k n).Nodup := by
  induction k generalizing n with
  | zero => exact List.nodup_nil
  | succ k ih =>
    rw [climb_succ]
    cases hp : view.parent n with
    | none => exact List.nodup_singleton n
    | some p =>
      refine List.nodup_cons.2 ⟨fun hn => ?_, ih fun m hm => h m (hm.trans (.of_parent hp))⟩
      exact h n (.refl _) (isAbove_iff_parent.2 ⟨p, hp, covers_of_mem_climb hn⟩)

lemma nodup_climb (hac : Acyclic view.parent) (k : Nat) (n : NodeId) : (view.climb k n).Nodup :=
  nodup_climb_of (fun m _ => hac m) k

lemma length_climb_le (hac : Acyclic view.parent) (k : Nat) (n : NodeId) :
    (view.climb k n).length ≤ NodeId.count :=
  NodeId.length_le_count (nodup_climb hac k n)

/-- The chain of parents ends before the identifiers are used up. -/
lemma climb_count (hac : Acyclic view.parent) (n : NodeId) : view.climb NodeId.count n =
    n :: match view.parent n with
      | none => []
      | some parent => view.climb NodeId.count parent := by
  rw [← climb_succ, climb_eq_take (Nat.le_succ _) n, List.take_of_length_le]
  exact length_climb_le hac _ n

lemma mem_climb_iff (hac : Acyclic view.parent) :
    a ∈ view.climb NodeId.count n ↔ Covers view.parent a n := by
  refine ⟨covers_of_mem_climb, fun h => ?_⟩
  induction h using Relation.ReflTransGen.head_induction_on with
  | refl =>
    rw [climb_count hac]
    exact List.mem_cons_self
  | head hp _ ih =>
    rw [climb_count hac, hp]
    exact List.mem_cons_of_mem _ ih

lemma depth_of_top (hac : Acyclic view.parent) (h : view.parent n = none) : view.depth n = 0 := by
  rw [depth, climb_count hac, h]
  rfl

lemma depth_of_parent (hac : Acyclic view.parent) (h : view.parent n = some p) :
    view.depth n = view.depth p + 1 := by
  have hpos : 0 < (view.climb NodeId.count p).length := by
    rw [climb_count hac]
    exact Nat.succ_pos _
  simp only [depth, climb_count hac n, h, List.length_cons]
  omega

lemma depth_lt_count (hac : Acyclic view.parent) (n : NodeId) : view.depth n < NodeId.count := by
  have := length_climb_le hac NodeId.count n
  have : 0 < NodeId.count := by decide
  rw [depth]
  omega

/-! ### Descriptions -/

/-- A description depends on element names, attributes and children alone. -/
lemma describe_congr {view' : View} (h : ∀ n, (view'.entry n).tag = (view.entry n).tag ∧
    (view'.entry n).attributes = (view.entry n).attributes ∧
      (view'.entry n).children = (view.entry n).children) (n : NodeId) :
    view'.describe n = view.describe n := by
  have hto (levels : Nat) (n : NodeId) : view'.describeTo levels n = view.describeTo levels n := by
    induction levels generalizing n with
    | zero => rw [describeTo, describeTo, (h n).1, (h n).2.1]
    | succ levels ih => rw [describeTo, describeTo, (h n).1, (h n).2.1, (h n).2.2, funext ih]
  exact hto _ n

lemma childList_of_none (h : (view.entry n).children = none) : view.children n = [] := by
  simp [children, Entry.childList, h]

lemma childList_of_some {cs : List NodeId} (h : (view.entry n).children = some cs) :
    view.children n = cs := by
  simp [children, Entry.childList, h]

lemma isContainer_of_mem_children (h : c ∈ view.children n) : view.isContainer n = true := by
  by_contra hn
  rw [childList_of_none (Option.not_isSome_iff_eq_none.1 hn)] at h
  cases h

namespace IsForest

variable (h : view.IsForest)

include h

lemma parent_of_mem (hc : c ∈ view.children n) : view.parent c = some n :=
  (h.mem_children c n).1 hc

/-- Induction from the leaves of a forest upwards. -/
lemma induct_below {motive : NodeId → Prop}
    (step : ∀ n, (∀ c ∈ view.children n, motive c) → motive n) (n : NodeId) : motive n := by
  -- a child is one level deeper, and no node is as deep as there are identifiers
  induction hk : NodeId.count - view.depth n using Nat.strong_induction_on generalizing n with
  | _ k ih =>
    refine step n fun c hc => ih _ ?_ c rfl
    have := depth_of_parent h.acyclic (h.parent_of_mem hc)
    have := depth_lt_count h.acyclic c
    omega

lemma describeTo_eq {levels levels' : Nat} (hl : NodeId.count ≤ levels + view.depth n)
    (hl' : NodeId.count ≤ levels' + view.depth n) :
    view.describeTo levels n = view.describeTo levels' n := by
  have hlt := depth_lt_count h.acyclic n
  induction levels generalizing levels' n with
  | zero => omega
  | succ levels ih =>
    obtain ⟨levels', rfl⟩ : ∃ l, levels' = l + 1 := ⟨levels' - 1, by omega⟩
    rw [describeTo, describeTo]
    cases hcs : (view.entry n).children with
    | none => rfl
    | some cs =>
      simp only [Node.container.injEq, true_and]
      apply List.map_congr_left
      intro c hc
      have hdepth := depth_of_parent h.acyclic (h.parent_of_mem (childList_of_some hcs ▸ hc))
      exact ih (by omega) (by omega) (depth_lt_count h.acyclic c)

/-- The description of a node consists of the descriptions of its children. -/
lemma describe_eq (n : NodeId) : view.describe n =
    match (view.entry n).children with
    | none => .leaf n (view.entry n).tag (view.entry n).attributes
    | some children =>
      .container n (view.entry n).tag (view.entry n).attributes (children.map view.describe) := by
  have hmore : view.describeTo NodeId.count n = view.describeTo (NodeId.count + 1) n :=
    h.describeTo_eq (by omega) (by omega)
  rw [describe, hmore, describeTo]
  rfl

lemma describe_container (hc : (view.entry n).isContainer = true) :
    view.describe n = .container n (view.entry n).tag (view.entry n).attributes
      ((view.children n).map view.describe) := by
  obtain ⟨cs, hcs⟩ := Option.isSome_iff_exists.1 hc
  rw [h.describe_eq, childList_of_some hcs, hcs]

lemma describe_leaf (hc : (view.entry n).isContainer = false) :
    view.describe n = .leaf n (view.entry n).tag (view.entry n).attributes := by
  rw [h.describe_eq, Option.isSome_eq_false_iff.1 hc |> Option.isNone_iff_eq_none.1]

@[simp] lemma id_describe (n : NodeId) : (view.describe n).id = n := by
  rw [h.describe_eq]
  split <;> rfl

@[simp] lemma tag_describe (n : NodeId) : (view.describe n).tag = (view.entry n).tag := by
  rw [h.describe_eq]
  split <;> rfl

@[simp] lemma attributes_describe (n : NodeId) :
    (view.describe n).attributes = (view.entry n).attributes := by
  rw [h.describe_eq]
  split <;> rfl

@[simp] lemma isContainer_describe (n : NodeId) :
    (view.describe n).isContainer = (view.entry n).isContainer := by
  rw [h.describe_eq, Entry.isContainer]
  split <;> simp_all [Node.isContainer]

lemma childList_describe (n : NodeId) :
    (view.describe n).childList = (view.children n).map view.describe := by
  rw [h.describe_eq]
  split
  · next hcs => rw [childList_of_none hcs]; rfl
  · next hcs => rw [childList_of_some hcs]; rfl

@[simp] lemma map_id_childList_describe (n : NodeId) :
    (view.describe n).childList.map Node.id = view.children n := by
  rw [h.childList_describe, List.map_map]
  exact (List.map_congr_left fun c _ => h.id_describe c).trans (List.map_id _)

/-- A description has the nodes that the described one covers. -/
lemma mem_ids_describe {y : NodeId} : y ∈ (view.describe n).ids ↔ Covers view.parent n y := by
  induction n using h.induct_below with
  | step n ih =>
    rw [Node.mem_ids_iff, h.id_describe, h.childList_describe, covers_iff_eq_or_isAbove,
      isAbove_iff_child]
    apply or_congr eq_comm
    constructor
    · rintro ⟨d, hd, hy⟩
      obtain ⟨c, hc, rfl⟩ := List.mem_map.1 hd
      exact ⟨c, h.parent_of_mem hc, (ih c hc).1 hy⟩
    · rintro ⟨c, hp, hcov⟩
      have hc := (h.mem_children c n).2 hp
      exact ⟨_, List.mem_map_of_mem hc, (ih c hc).2 hcov⟩

/-! ### Moves -/

lemma congr {view' : View} (hparent : view'.parent = view.parent)
    (hchildren : view'.children = view.children) : view'.IsForest where
  mem_children := by rw [hparent, hchildren]; exact h.mem_children
  nodup_children := by rw [hchildren]; exact h.nodup_children
  acyclic := by rw [hparent]; exact h.acyclic

/-- A node that is taken out of its parent leaves a forest. -/
lemma detach {view' : View} (hparent : ∀ x, view'.parent x = if x = n then none else view.parent x)
    (hchildren : ∀ c, view'.children c = (view.children c).filter (· ≠ n)) : view'.IsForest where
  mem_children x c := by
    rw [hchildren, hparent, List.mem_filter, h.mem_children]
    by_cases hx : x = n <;> simp [hx]
  nodup_children c := by
    rw [hchildren]
    exact (h.nodup_children c).filter _
  acyclic := by
    apply h.acyclic.of_le
    intro x p hp
    rw [hparent] at hp
    split at hp
    · cases hp
    · exact hp

/-- A tree that is hung below a node outside of it leaves a forest. -/
lemma attach {view' : View} {index : Nat} (hn : view.parent n = none)
    (hcov : ¬ Covers view.parent n c) (hindex : index ≤ (view.children c).length)
    (hparent : ∀ x, view'.parent x = if x = n then some c else view.parent x)
    (hchildren : ∀ x, view'.children x =
      if x = c then (view.children x).insertIdx index n else view.children x) :
    view'.IsForest where
  mem_children x d := by
    have hnone (e : NodeId) : n ∉ view.children e := by
      rw [h.mem_children, hn]
      exact Option.some_ne_none e ∘ Eq.symm
    rw [hchildren, hparent]
    split
    · next hd =>
      subst hd
      rw [List.mem_insertIdx hindex, h.mem_children]
      by_cases hx : x = n <;> simp [hx]
    · next hd =>
      by_cases hx : x = n
      · subst hx
        simpa [hnone d] using Ne.symm hd
      · simp [hx, h.mem_children]
  nodup_children d := by
    have hnone : n ∉ view.children d := by
      rw [h.mem_children, hn]
      exact Option.some_ne_none d ∘ Eq.symm
    rw [hchildren]
    split
    · next hd =>
      subst hd
      rw [(List.perm_insertIdx n _ hindex).nodup_iff]
      exact List.nodup_cons.2 ⟨hnone, h.nodup_children d⟩
    · exact h.nodup_children d
  acyclic := by
    apply h.acyclic.of_attach hcov
    intro x p hp
    rw [hparent] at hp
    split at hp
    · next hx => exact .inr ⟨hx, (Option.some.inj hp).symm⟩
    · exact .inl hp

/-! ### Nodes of a description -/

/-- A description consists of descriptions of the nodes below. -/
lemma mem_preorder_describe (hm : m ∈ (view.describe n).preorder) :
    m = view.describe m.id ∧ Covers view.parent n m.id := by
  refine ⟨?_, h.mem_ids_describe.1 (Node.mem_ids.2 ⟨m, hm, rfl⟩)⟩
  induction n using h.induct_below with
  | step n ih =>
    rcases Node.mem_preorder_iff.1 hm with rfl | ⟨d, hd, hm⟩
    · rw [h.id_describe]
    · rw [h.childList_describe] at hd
      obtain ⟨c, hc, rfl⟩ := List.mem_map.1 hd
      exact ih c hc hm

/-- A node is described as expected if each node below is as in the expected description. -/
lemma describe_eq_self {t : Node} (ht : ∀ m ∈ t.preorder, (view.entry m.id).tag = m.tag ∧
    (view.entry m.id).attributes = m.attributes ∧
      (view.entry m.id).children = m.children?.map (·.map Node.id)) : view.describe t.id = t := by
  induction t using Node.induct_childList with
  | step t ih =>
    obtain ⟨htag, hattributes, hchildren⟩ := ht t t.self_mem_preorder
    apply Node.eq_of_parts_eq
    · exact h.id_describe t.id
    · exact (h.tag_describe t.id).trans htag
    · exact (h.attributes_describe t.id).trans hattributes
    · rw [h.isContainer_describe, Entry.isContainer, hchildren]
      cases t <;> rfl
    · have hids : view.children t.id = t.childList.map Node.id := by
        rw [children, Entry.childList, hchildren]
        cases t <;> rfl
      rw [h.childList_describe, hids, List.map_map]
      refine (List.map_congr_left fun c hc => ih c hc fun m hm => ht m ?_).trans (List.map_id _)
      exact Node.mem_preorder_iff.2 (.inr ⟨c, hc, hm⟩)

/-- No node is described twice. -/
lemma nodup_ids_describe (n : NodeId) : (view.describe n).ids.Nodup := by
  induction n using h.induct_below with
  | step n ih =>
    cases hc : (view.entry n).isContainer with
    | false =>
      rw [h.describe_leaf hc]
      simp
    | true =>
      rw [h.describe_container hc, Node.nodup_container]
      refine ⟨?_, ?_, ?_⟩
      · intro d hd hmem
        obtain ⟨c, hc, rfl⟩ := List.mem_map.1 hd
        exact h.acyclic.not_covers_parent (h.parent_of_mem hc) (h.mem_ids_describe.1 hmem)
      · intro d hd
        obtain ⟨c, hc, rfl⟩ := List.mem_map.1 hd
        exact ih c hc
      · rw [List.pairwise_map]
        refine (h.nodup_children n).imp_of_mem fun {c d} hc hd hne y hy hy' => ?_
        exact h.acyclic.not_covers_both (h.parent_of_mem hc) (h.parent_of_mem hd) hne
          (h.mem_ids_describe.1 hy) (h.mem_ids_describe.1 hy')

end IsForest

end View

end PageSync
