import PageSync.Proofs.Shown

/-!
# Coherent views

A view is coherent if its records form trees just as its current children and parents do. What the
client shows is then a forest of its own (`View.shown`), and the view depicts the subtree of it below
any node that is a top now (`View.Coherent.depicts`). Nothing is asked of attributes, or of the marks
that lead a walk to what has changed.
-/

namespace PageSync

namespace View

variable {view : View} {n : NodeId}

/-- The forest that the client shows: recorded children and parents stand in for the current ones. -/
def shown (view : View) : View where
  contains := view.contains
  entry n :=
    { view.entry n with
      children := (view.entry n).children.map fun _ => (view.entry n).shownChildList
      parent := (view.entry n).shownParent }

/-- Whether the records of a view agree with each other and form trees, and what it says of the current
children and parents does so too. -/
structure Coherent (view : View) : Prop extends view.IsForest where
  /-- No children are recorded for a leaf. -/
  leaf : ∀ n, view.isContainer n = false → (view.entry n).shownChildren = none
  /-- A node is among the children that are shown in its shown parent, and nowhere else. -/
  mem_shown : ∀ n c, n ∈ (view.entry c).shownChildList ↔ view.shownParent n = some c
  /-- No child is shown twice. -/
  nodup_shown : ∀ c, (view.entry c).shownChildList.Nodup
  /-- No node is shown above itself. -/
  acyclic_shown : Acyclic view.shownParent

namespace Coherent

variable (h : view.Coherent)

include h

lemma children_shown (n : NodeId) : view.shown.children n = (view.entry n).shownChildList := by
  cases hcs : (view.entry n).children with
  | some cs => simp [children, Entry.childList, shown, hcs]
  | none =>
    have hleaf := h.leaf n (by rw [isContainer, Entry.isContainer, hcs]; rfl)
    simp [children, Entry.childList, Entry.shownChildList, shown, hcs, hleaf]

/-- What the client shows is a forest. -/
lemma isForest_shown : view.shown.IsForest where
  mem_children n c := by
    rw [h.children_shown]
    exact h.mem_shown n c
  nodup_children c := by
    rw [h.children_shown]
    exact h.nodup_shown c
  acyclic := h.acyclic_shown

lemma map_id_childList_shown (n : NodeId) :
    (view.shown.describe n).childList.map Node.id = (view.entry n).shownChildList := by
  rw [h.isForest_shown.map_id_childList_describe, h.children_shown]

/-- Below a node that is a top now, the view depicts what the client shows there. -/
lemma depicts (htop : view.parent n = none) : view.Depicts (view.shown.describe n) where
  toIsForest := h.toIsForest
  nodup := h.isForest_shown.nodup_ids_describe n
  entry_matches m hm := by
    obtain ⟨hm, -⟩ := h.isForest_shown.mem_preorder_describe hm
    rw [hm, h.isForest_shown.id_describe]
    refine ⟨?_, (h.isForest_shown.tag_describe _).symm,
      fun _ => (h.isForest_shown.attributes_describe _).symm, fun _ => ?_⟩
    · rw [h.isForest_shown.isContainer_describe]
      exact Option.isSome_map.symm
    · rw [h.map_id_childList_shown]
  shownParent_eq m hm c hc := by
    obtain ⟨hm, -⟩ := h.isForest_shown.mem_preorder_describe hm
    rw [hm] at hc
    rw [← h.mem_shown, ← h.map_id_childList_shown]
    exact List.mem_map_of_mem hc
  parent_top := by rwa [h.isForest_shown.id_describe]

/-- No node is recorded below a container without being shown there. -/
lemma not_hasStrays : ¬ view.HasStrays (view.shown.describe n) := by
  rintro ⟨m, hm, -, x, hx, hnot⟩
  obtain ⟨hm, -⟩ := h.isForest_shown.mem_preorder_describe hm
  apply hnot
  rw [hm, h.map_id_childList_shown, h.mem_shown, hx]

end Coherent

/-! ### A page on which children drift apart -/

/-- A list and a paragraph that are shown in a container change places there, and the only item of the
list leaves it for the container. -/
def drifted : View where
  contains n := decide (n.number < 4)
  entry n :=
    if n = ⟨0⟩ then
      { tag := "div", children := some [⟨2⟩, ⟨1⟩, ⟨3⟩], shownChildren := some [⟨1⟩, ⟨2⟩],
        changedBelow := true }
    else if n = ⟨1⟩ then
      { tag := "ul", children := some [], parent := some ⟨0⟩, shownChildren := some [⟨3⟩],
        shownParent := some ⟨0⟩, replacesChildren := true }
    else if n = ⟨2⟩ then { tag := "p", parent := some ⟨0⟩, shownParent := some ⟨0⟩ }
    else if n = ⟨3⟩ then { tag := "li", parent := some ⟨0⟩, shownParent := some ⟨1⟩ }
    else {}

/-- What holds of the four nodes of the view, and of nodes that nothing is known of, holds of all. -/
lemma drifted_cases {motive : NodeId → Prop} (div : motive ⟨0⟩) (ul : motive ⟨1⟩) (p : motive ⟨2⟩)
    (li : motive ⟨3⟩)
    (other : ∀ n, n ≠ ⟨0⟩ → n ≠ ⟨1⟩ → n ≠ ⟨2⟩ → n ≠ ⟨3⟩ → drifted.entry n = {} → motive n)
    (n : NodeId) : motive n := by
  by_cases h₀ : n = ⟨0⟩
  · exact h₀ ▸ div
  by_cases h₁ : n = ⟨1⟩
  · exact h₁ ▸ ul
  by_cases h₂ : n = ⟨2⟩
  · exact h₂ ▸ p
  by_cases h₃ : n = ⟨3⟩
  · exact h₃ ▸ li
  exact other n h₀ h₁ h₂ h₃ (by simp [drifted, h₀, h₁, h₂, h₃])

lemma parent_drifted (n : NodeId) :
    drifted.parent n = if n ∈ [⟨2⟩, ⟨1⟩, ⟨3⟩] then some ⟨0⟩ else none := by
  induction n using drifted_cases with
  | other n h₀ h₁ h₂ h₃ hentry => simp [parent, hentry, h₁, h₂, h₃]
  | _ => rfl

lemma shownParent_drifted (n : NodeId) : drifted.shownParent n =
    if n ∈ [⟨1⟩, ⟨2⟩] then some ⟨0⟩ else if n = ⟨3⟩ then some ⟨1⟩ else none := by
  induction n using drifted_cases with
  | other n h₀ h₁ h₂ h₃ hentry => simp [shownParent, hentry, h₁, h₂, h₃]
  | _ => rfl

lemma children_drifted (n : NodeId) :
    drifted.children n = if n = ⟨0⟩ then [⟨2⟩, ⟨1⟩, ⟨3⟩] else [] := by
  induction n using drifted_cases with
  | other n h₀ h₁ h₂ h₃ hentry => simp [children, Entry.childList, hentry, h₀]
  | _ => rfl

lemma shownChildList_drifted (n : NodeId) :
    (drifted.entry n).shownChildList =
      if n = ⟨0⟩ then [⟨1⟩, ⟨2⟩] else if n = ⟨1⟩ then [⟨3⟩] else [] := by
  induction n using drifted_cases with
  | other n h₀ h₁ h₂ h₃ hentry => simp [Entry.shownChildList, Entry.childList, hentry, h₀, h₁]
  | _ => rfl

lemma coherent_drifted : drifted.Coherent where
  mem_children n c := by
    rw [children_drifted, parent_drifted]
    grind
  nodup_children c := by
    rw [children_drifted]
    split <;> simp
  acyclic := Acyclic.of_flat fun n p hp => by
    rw [parent_drifted] at hp ⊢
    grind
  leaf n hn := by
    induction n using drifted_cases with
    | div => cases hn
    | ul => cases hn
    | p => rfl
    | li => rfl
    | other n h₀ h₁ h₂ h₃ hentry => rw [hentry]
  mem_shown n c := by
    rw [shownChildList_drifted, shownParent_drifted]
    grind
  nodup_shown c := by
    rw [shownChildList_drifted]
    split_ifs <;> simp
  acyclic_shown := by
    apply Acyclic.of_lt fun n => if n = ⟨3⟩ then 2 else if n = ⟨0⟩ then 0 else 1
    intro n p hp
    rw [shownParent_drifted] at hp
    grind

end View

end PageSync
