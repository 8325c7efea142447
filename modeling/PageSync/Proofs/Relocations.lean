import Mathlib.Tactic.Common
import Mathlib.Data.List.Nodup
import PageSync.Pass.Children

/-!
# Which children are moved

Which children are moved when two lists of the same children are followed side by side depends on
nothing but the two lists (`Pass.relocated`). Where the lists differ, the child that has come farther is
moved; how far a child has come is measured from the positions that have been reached in both lists,
which advance as children are kept or moved.

If two neighbouring blocks of children have changed places, the distances are the lengths of the two
blocks as long as the blocks are followed, so that all children of the shorter one are moved and no
others (`Pass.relocated_swapped`).
-/

namespace PageSync

namespace Pass

/-- Follows the current children until a given shown child stays or is moved, and goes on from there.
The result extends the list of the children that have been moved so far. -/
def relocateChild (stayed before : List NodeId) (node : NodeId) (old : Nat)
    (next : Nat → List NodeId → List NodeId → List NodeId) :
    Nat → List NodeId → List NodeId → List NodeId
  | _, [], moves => moves
  | new, other :: rest, moves =>
    if other ∈ moves then relocateChild stayed before node old next (new + 1) rest moves
    else if node = other then next (new + 1) rest moves
    else if distance new (stayed.idxOf other) < distance old (before.idxOf node) then
      next new (other :: rest) (moves ++ [node])
    else relocateChild stayed before node old next (new + 1) rest (moves ++ [other])

/-- Follows the shown children that have stayed, and the current ones beside them. -/
def relocate (stayed before : List NodeId) :
    Nat → List NodeId → Nat → List NodeId → List NodeId → List NodeId
  | _, [], _, _, moves => moves
  | old, node :: rest, new, others, moves =>
    if node ∈ moves then relocate stayed before (old + 1) rest new others moves
    else
      relocateChild stayed before node old (relocate stayed before (old + 1) rest) new others moves

/-- The children that are moved, given those that have stayed in their shown and in their current
order. -/
def relocated (stayed before : List NodeId) : List NodeId :=
  relocate stayed before 0 stayed 0 before []

variable {stayed before rest others moves nodes us as bs ws : List NodeId} {node other y : NodeId}
  {old new i : Nat} {next : Nat → List NodeId → List NodeId → List NodeId}

/-! ### Children that come next in both lists -/

/-- Children that come next in both lists are kept. -/
lemma relocate_append_append (hnodes : ∀ y ∈ nodes, y ∉ moves) :
    relocate stayed before old (nodes ++ rest) new (nodes ++ others) moves =
      relocate stayed before (old + nodes.length) rest (new + nodes.length) others moves := by
  induction nodes generalizing old new with
  | nil => rfl
  | cons y nodes ih =>
    have hy := hnodes y List.mem_cons_self
    rw [List.cons_append, List.cons_append, relocate, if_neg hy, relocateChild, if_neg hy, if_pos rfl,
      ih fun z hz => hnodes z (List.mem_cons_of_mem y hz), List.length_cons]
    congr 1 <;> omega

/-- Of children in the same order none is moved. -/
lemma relocated_self (nodes : List NodeId) : relocated nodes nodes = [] := by
  have hall : relocate nodes nodes 0 (nodes ++ []) 0 (nodes ++ []) [] = _ :=
    relocate_append_append fun _ _ => List.not_mem_nil
  simpa [relocated, relocate] using hall

/-! ### Children that have been moved -/

lemma relocateChild_skip (hnodes : ∀ y ∈ nodes, y ∈ moves) :
    relocateChild stayed before node old next new (nodes ++ others) moves =
      relocateChild stayed before node old next (new + nodes.length) others moves := by
  induction nodes generalizing new with
  | nil => rfl
  | cons y nodes ih =>
    rw [List.cons_append, relocateChild, if_pos (hnodes y List.mem_cons_self),
      ih fun z hz => hnodes z (List.mem_cons_of_mem y hz), List.length_cons]
    congr 1
    omega

/-- Children that have been moved are left out when they come next among the current ones. -/
lemma relocate_skip_current (hnodes : ∀ y ∈ nodes, y ∈ moves) :
    relocate stayed before old rest new (nodes ++ others) moves =
      relocate stayed before old rest (new + nodes.length) others moves := by
  induction rest generalizing old with
  | nil => rfl
  | cons node rest ih => rw [relocate, relocate, ih, relocateChild_skip hnodes]

/-- They are left out when they come next among the shown ones. -/
lemma relocate_skip_shown (hnodes : ∀ y ∈ nodes, y ∈ moves) :
    relocate stayed before old (nodes ++ rest) new others moves =
      relocate stayed before (old + nodes.length) rest new others moves := by
  induction nodes generalizing old with
  | nil => rfl
  | cons y nodes ih =>
    rw [List.cons_append, relocate, if_pos (hnodes y List.mem_cons_self),
      ih fun z hz => hnodes z (List.mem_cons_of_mem y hz), List.length_cons]
    congr 1
    omega

/-! ### Blocks of children -/

/-- Shown children are moved as long as they have come farther than the next current one. -/
lemma relocate_shown_block (hnodup : (moves ++ nodes).Nodup) (hother : other ∉ moves)
    (hne : other ∉ nodes)
    (hfar : ∀ i y, nodes[i]? = some y →
      distance new (stayed.idxOf other) < distance (old + i) (before.idxOf y)) :
    relocate stayed before old (nodes ++ rest) new (other :: others) moves =
      relocate stayed before (old + nodes.length) rest new (other :: others) (moves ++ nodes) := by
  induction nodes generalizing old moves with
  | nil =>
    rw [List.append_nil]
    rfl
  | cons y nodes ih =>
    obtain ⟨hne, hothers⟩ := not_or.1 (List.mem_cons.not.1 hne)
    have hy : y ∉ moves := fun hy =>
      (List.nodup_append.1 hnodup).2.2 y hy y List.mem_cons_self rfl
    have hstep : relocate stayed before old (y :: nodes ++ rest) new (other :: others) moves =
        relocate stayed before (old + 1) (nodes ++ rest) new (other :: others) (moves ++ [y]) := by
      rw [List.cons_append, relocate, if_neg hy, relocateChild, if_neg hother, if_neg (Ne.symm hne),
        if_pos (by simpa using hfar 0 y rfl)]
    rw [hstep, ih (by simpa using hnodup) (by simp [hother, hne]) hothers, List.length_cons,
      List.append_assoc]
    · congr 1
      omega
    · intro i z hz
      rw [Nat.add_assoc, Nat.add_comm 1]
      exact hfar (i + 1) z hz

/-- Current children are moved as long as the next shown one has not come farther. -/
lemma relocateChild_current_block (hnodup : (moves ++ nodes).Nodup) (hne : node ∉ nodes)
    (hfar : ∀ i y, nodes[i]? = some y →
      distance old (before.idxOf node) ≤ distance (new + i) (stayed.idxOf y)) :
    relocateChild stayed before node old next new (nodes ++ others) moves =
      relocateChild stayed before node old next (new + nodes.length) others (moves ++ nodes) := by
  induction nodes generalizing new moves with
  | nil =>
    rw [List.append_nil]
    rfl
  | cons y nodes ih =>
    obtain ⟨hne, hothers⟩ := not_or.1 (List.mem_cons.not.1 hne)
    have hy : y ∉ moves := fun hy =>
      (List.nodup_append.1 hnodup).2.2 y hy y List.mem_cons_self rfl
    have hnear : ¬ distance new (stayed.idxOf y) < distance old (before.idxOf node) :=
      Nat.not_lt.2 (by simpa using hfar 0 y rfl)
    rw [List.cons_append, relocateChild, if_neg hy, if_neg hne, if_neg hnear,
      ih (by simpa using hnodup) hothers, List.length_cons, List.append_assoc]
    · congr 1
      omega
    · intro i z hz
      rw [Nat.add_assoc, Nat.add_comm 1]
      exact hfar (i + 1) z hz

lemma relocate_current_block (hnodup : (moves ++ nodes).Nodup) (hnode : node ∉ moves)
    (hne : node ∉ nodes)
    (hfar : ∀ i y, nodes[i]? = some y →
      distance old (before.idxOf node) ≤ distance (new + i) (stayed.idxOf y)) :
    relocate stayed before old (node :: rest) new (nodes ++ others) moves =
      relocate stayed before old (node :: rest) (new + nodes.length) others (moves ++ nodes) := by
  rw [relocate, if_neg hnode, relocateChild_current_block hnodup hne hfar, relocate,
    if_neg (by simp [hnode, hne])]

/-- When only children are left that come next in both lists, no more are moved. -/
lemma relocate_rest (hrest : ∀ y ∈ rest, y ∉ moves) :
    relocate stayed before old rest new rest moves = moves := by
  have hall : relocate stayed before old (rest ++ []) new (rest ++ []) moves = _ :=
    relocate_append_append hrest
  simpa [relocate] using hall

/-! ### Two blocks that have changed places -/

/-- A member of a list without repetition stands nowhere else. -/
lemma idxOf_of_getElem? (hnodup : nodes.Nodup) (hy : nodes[i]? = some y) : nodes.idxOf y = i := by
  obtain ⟨hi, rfl⟩ := List.getElem?_eq_some_iff.1 hy
  exact hnodup.idxOf_getElem i hi

/-- Where a member of a block stands. -/
lemma idxOf_block (hnodup : (us ++ (as ++ ws)).Nodup) (hy : as[i]? = some y) :
    (us ++ (as ++ ws)).idxOf y = us.length + i := by
  obtain ⟨hi, -⟩ := List.getElem?_eq_some_iff.1 hy
  apply idxOf_of_getElem? hnodup
  rw [List.getElem?_append_right (Nat.le_add_right _ _), Nat.add_sub_cancel_left,
    List.getElem?_append_left hi, hy]

lemma perm_swapped (us as bs ws : List NodeId) :
    (us ++ as ++ bs ++ ws).Perm (us ++ bs ++ as ++ ws) := by
  rw [List.append_assoc us as bs, List.append_assoc us bs as]
  exact (List.perm_append_comm.append_left us).append_right ws

/-- The children of the shorter one of two blocks, or of the second one if both have the same length. -/
def fewer (as bs : List NodeId) : List NodeId := if as.length < bs.length then as else bs

lemma length_fewer (as bs : List NodeId) : (fewer as bs).length = min as.length bs.length := by
  rw [fewer]
  split <;> omega

/-- Whether two lists of the same children differ in the order of two neighbouring blocks. -/
structure Swapped (us as bs ws stayed before : List NodeId) : Prop where
  /-- The shown order. -/
  stayed_eq : stayed = us ++ (as ++ (bs ++ ws))
  /-- The current order. -/
  before_eq : before = us ++ (bs ++ (as ++ ws))
  /-- No child is listed twice. -/
  nodup : stayed.Nodup

namespace Swapped

variable (h : Swapped us as bs ws stayed before)

include h

lemma nodup_before : before.Nodup := by
  have hperm : stayed.Perm before := by
    simpa [h.stayed_eq, h.before_eq] using perm_swapped us as bs ws
  exact hperm.nodup_iff.1 h.nodup

/-- A member of the first block stands behind the second one now. -/
lemma distance_first (hy : as[i]? = some y) : distance (us.length + i) (before.idxOf y) = bs.length := by
  have hidx : before.idxOf y = us.length + bs.length + i := by
    have hbefore : before = us ++ bs ++ (as ++ ws) := by rw [h.before_eq, List.append_assoc]
    rw [hbefore, idxOf_block (hbefore ▸ h.nodup_before) hy, List.length_append]
  rw [hidx, distance]
  omega

/-- A member of the second block stood behind the first one. -/
lemma distance_second (hy : bs[i]? = some y) :
    distance (us.length + i) (stayed.idxOf y) = as.length := by
  have hidx : stayed.idxOf y = us.length + as.length + i := by
    have hstayed : stayed = us ++ as ++ (bs ++ ws) := by rw [h.stayed_eq, List.append_assoc]
    rw [hstayed, idxOf_block (hstayed ▸ h.nodup) hy, List.length_append]
  rw [hidx, distance]
  omega

lemma nodup_blocks : (as ++ bs ++ ws).Nodup := by
  have hnodup := h.nodup
  rw [h.stayed_eq, ← List.append_assoc as] at hnodup
  exact (List.nodup_append.1 hnodup).2.1

/-- The children of the first block are moved if there are fewer of them. -/
lemma relocated_of_lt (hlt : as.length < bs.length) : relocated stayed before = as := by
  have hlength : 0 < bs.length := by omega
  obtain ⟨b, bs', rfl⟩ := List.exists_cons_of_length_pos hlength
  have hnodup := List.nodup_append.1 h.nodup_blocks
  have hapart : ∀ y ∈ b :: bs', y ∉ as := fun y hb ha =>
    (List.nodup_append.1 hnodup.1).2.2 y ha y hb rfl
  have hrest : ∀ y ∈ ws, y ∉ as := fun y hw ha =>
    hnodup.2.2 y (List.mem_append_left _ ha) y hw rfl
  have hfar : ∀ i y, as[i]? = some y →
      distance us.length (stayed.idxOf b) < distance (us.length + i) (before.idxOf y) := by
    intro i y hy
    have hb : (b :: bs')[0]? = some b := rfl
    rw [h.distance_first hy, ← Nat.add_zero us.length, h.distance_second hb]
    exact hlt
  calc relocated stayed before
      = relocate stayed before 0 (us ++ (as ++ (b :: bs' ++ ws))) 0
          (us ++ (b :: bs' ++ (as ++ ws))) [] := by
        rw [relocated, ← h.stayed_eq, ← h.before_eq]
    _ = relocate stayed before us.length (as ++ (b :: bs' ++ ws)) us.length
          (b :: bs' ++ (as ++ ws)) [] := by
        rw [relocate_append_append (by simp), Nat.zero_add]
    _ = relocate stayed before (us.length + as.length) (b :: bs' ++ ws) us.length
          (b :: bs' ++ (as ++ ws)) as :=
        relocate_shown_block hnodup.1.of_append_left List.not_mem_nil (hapart b List.mem_cons_self) hfar
    _ = as := by
        rw [relocate_append_append hapart, relocate_skip_current fun _ => id, relocate_rest hrest]

/-- The children of the second block are moved if there are not more of them. -/
lemma relocated_of_le (has : as ≠ []) (hle : bs.length ≤ as.length) : relocated stayed before = bs := by
  obtain ⟨a, as', rfl⟩ := List.exists_cons_of_ne_nil has
  have hnodup := List.nodup_append.1 h.nodup_blocks
  have hapart : ∀ y ∈ a :: as', y ∉ bs := fun y ha hb =>
    (List.nodup_append.1 hnodup.1).2.2 y ha y hb rfl
  have hrest : ∀ y ∈ ws, y ∉ bs := fun y hw hb =>
    hnodup.2.2 y (List.mem_append_right _ hb) y hw rfl
  have hfar : ∀ i y, bs[i]? = some y →
      distance us.length (before.idxOf a) ≤ distance (us.length + i) (stayed.idxOf y) := by
    intro i y hy
    have ha : (a :: as')[0]? = some a := rfl
    rw [h.distance_second hy, ← Nat.add_zero us.length, h.distance_first ha]
    exact hle
  calc relocated stayed before
      = relocate stayed before 0 (us ++ (a :: as' ++ (bs ++ ws))) 0
          (us ++ (bs ++ (a :: as' ++ ws))) [] := by
        rw [relocated, ← h.stayed_eq, ← h.before_eq]
    _ = relocate stayed before us.length (a :: as' ++ (bs ++ ws)) us.length
          (bs ++ (a :: as' ++ ws)) [] := by
        rw [relocate_append_append (by simp), Nat.zero_add]
    _ = relocate stayed before us.length (a :: as' ++ (bs ++ ws)) (us.length + bs.length)
          (a :: as' ++ ws) bs :=
        relocate_current_block hnodup.1.of_append_right List.not_mem_nil (hapart a List.mem_cons_self)
          hfar
    _ = bs := by
        rw [relocate_append_append hapart, relocate_skip_shown fun _ => id, relocate_rest hrest]

end Swapped

/-- If two neighbouring blocks of children have changed places, the children of the shorter block are
moved, or those of the second one if both have the same length. -/
theorem relocated_swapped (hnodup : (us ++ as ++ bs ++ ws).Nodup) (has : as ≠ []) :
    relocated (us ++ as ++ bs ++ ws) (us ++ bs ++ as ++ ws) = fewer as bs := by
  have h : Swapped us as bs ws (us ++ as ++ bs ++ ws) (us ++ bs ++ as ++ ws) :=
    ⟨by simp, by simp, hnodup⟩
  rw [fewer]
  split
  · next hlt => exact h.relocated_of_lt hlt
  · next hle => exact h.relocated_of_le has (Nat.not_lt.1 hle)

end Pass

end PageSync
