import PageSync.Pass.Walk
import PageSync.Proofs.Views

/-!
# What a view says that the client shows

`View.Depicts view page` says that `page` is shown according to the view, as far as the nodes of
`page` are concerned: each of them is recorded with the children and the parent that it has there,
and attributes that differ are marked as changed. `View.Remembers view page` says moreover that every
ancestor of a node with recorded children or changed attributes is marked, so that a walk from the top
comes to that node.

Nothing is asked of other nodes. A node that is not shown may be recorded as a child of one that is;
`View.HasStrays` says that there are such nodes, which a pass can't tell from children that stayed.
-/

namespace PageSync

namespace Entry

/-- Whether a node looks in its view as the client shows it, up to changes that are marked. -/
structure Matches (entry : Entry) (m : Node) : Prop where
  /-- Leaves are known as leaves and containers as containers. -/
  isContainer_eq : entry.isContainer = m.isContainer
  /-- The element name is the one that is shown. -/
  tag_eq : entry.tag = m.tag
  /-- Attributes other than the ones shown are marked. -/
  attributes_eq : entry.attributesChanged = false → entry.attributes = m.attributes
  /-- The children of a container are known as they are shown. -/
  shownChildList_eq : m.isContainer = true → entry.shownChildList = m.childList.map Node.id

/-- Whether something about the node itself may have changed. -/
def IsPending (entry : Entry) : Prop :=
  entry.attributesChanged = true ∨ entry.shownChildren.isSome = true

/-- Whether a walk that comes to the node goes on below it. -/
def IsMarked (entry : Entry) : Prop :=
  entry.changedBelow = true ∨ entry.shownChildren.isSome = true

end Entry

namespace View

/-- Whether a view says that the client shows a page. -/
structure Depicts (view : View) (page : Node) : Prop extends view.IsForest where
  /-- No node is shown twice. -/
  nodup : page.ids.Nodup
  /-- The nodes of the page are known as they are shown. -/
  entry_matches : ∀ m ∈ page.preorder, (view.entry m.id).Matches m
  /-- The nodes of the page are known to be shown under their parents. -/
  shownParent_eq : ∀ m ∈ page.preorder, ∀ c ∈ m.childList, view.shownParent c.id = some m.id
  /-- The page is not below any other node now. -/
  parent_top : view.parent page.id = none

/-- Whether a view says that the client shows a page, and marks all changes to it. -/
structure Remembers (view : View) (page : Node) : Prop extends view.Depicts page where
  /-- A walk from the top comes to every node that something may have changed about. -/
  reaches : ∀ n a, (view.entry n).IsPending → IsAbove view.parent a n → (view.entry a).IsMarked

/-- Whether a node is recorded as a child of a shown container that has other children where the
client shows it, while it is not one of them. -/
def HasStrays (view : View) (page : Node) : Prop :=
  ∃ m ∈ page.preorder, m.childList ≠ [] ∧
    ∃ n, view.shownParent n = some m.id ∧ n ∉ m.childList.map Node.id

/-- Whether the shown and the current children of a container agree with the parents that are recorded
for them. -/
structure Accords (view : View) (c : NodeId) : Prop where
  /-- A current child that was shown in the container is one of its shown children. -/
  mem_shown : ∀ n ∈ view.children c, view.shownParent n = some c →
    n ∈ (view.entry c).shownChildList
  /-- A shown child that is still below the container is one of its current children. -/
  mem_current : ∀ n ∈ (view.entry c).shownChildList, view.parent n = some c → n ∈ view.children c

variable {view : View} {page t : Node} {n : NodeId} {shown current : List NodeId}

/-! ### What there is to compare -/

lemma of_compared_eq_some (h : (view.entry n).compared = some (shown, current)) :
    (view.entry n).children = some current ∧ (view.entry n).shownChildren = some shown := by
  rw [Entry.compared] at h
  split at h
  · split at h
    · cases h
    · next hc hs _ =>
      cases h
      exact ⟨hc, hs⟩
  · cases h

lemma compared_of_some (hc : (view.entry n).children = some current)
    (hs : (view.entry n).shownChildren = some shown) (hne : current ≠ []) :
    (view.entry n).compared = some (shown, current) := by
  simp [Entry.compared, hc, hs, hne]

lemma unmarked_of_compared_none (h : (view.entry n).compared = none)
    (hb : (view.entry n).changedBelow = false) (hmarked : (view.entry n).IsMarked) :
    view.children n = [] := by
  rw [Entry.IsMarked, hb, Option.isSome_iff_exists] at hmarked
  obtain ⟨shown, hs⟩ := hmarked.resolve_left Bool.false_ne_true
  cases hc : (view.entry n).children with
  | none => exact childList_of_none hc
  | some current =>
    by_contra hne
    rw [childList_of_some hc] at hne
    rw [compared_of_some hc hs hne] at h
    cases h

namespace Depicts

variable (h : view.Depicts page) (ht : t ∈ page.preorder)

include h ht

/-- Where there is nothing to compare, the current children are those that are shown. -/
lemma children_of_compared_none (hcomp : (view.entry t.id).compared = none) :
    view.children t.id = t.childList.map Node.id := by
  have hmatches := h.entry_matches t ht
  cases hc : (view.entry t.id).children with
  | none =>
    have hkind : t.isContainer = false := by rw [← hmatches.isContainer_eq, Entry.isContainer, hc]; rfl
    rw [childList_of_none hc, Node.childList_of_isContainer_eq_false hkind]
    rfl
  | some current =>
    have hkind : t.isContainer = true := by rw [← hmatches.isContainer_eq, Entry.isContainer, hc]; rfl
    rw [← hmatches.shownChildList_eq hkind, Entry.shownChildList, childList_of_some hc]
    cases hs : (view.entry t.id).shownChildren with
    | none => exact (childList_of_some hc).symm
    | some shown =>
      by_cases hempty : shown = [] ∧ current = []
      · simp [hempty]
      · simp [Entry.compared, hc, hs, hempty] at hcomp

lemma isContainer_of_compared_some (hcomp : (view.entry t.id).compared = some (shown, current)) :
    t.isContainer = true := by
  rw [← (h.entry_matches t ht).isContainer_eq, Entry.isContainer, (of_compared_eq_some hcomp).1]
  rfl

/-- What there is to compare are the shown children and the current ones. -/
lemma children_of_compared_some (hcomp : (view.entry t.id).compared = some (shown, current)) :
    view.children t.id = current ∧ t.childList.map Node.id = shown := by
  obtain ⟨hc, hs⟩ := of_compared_eq_some hcomp
  refine ⟨childList_of_some hc, ?_⟩
  rw [← (h.entry_matches t ht).shownChildList_eq (h.isContainer_of_compared_some ht hcomp),
    Entry.shownChildList, hs]
  rfl

end Depicts

end View

end PageSync
