import Mathlib.Tactic.Common
import Mathlib.Data.List.Nodup
import Mathlib.Data.List.Pairwise
import PageSync.Node

/-!
# Subtrees of a description

Facts about the nodes of a described subtree: which identifiers it has, where a node of it stands,
and how deep it goes. Proofs about descriptions go by `Node.induct`, which gives a container all of
its children at once.
-/

namespace PageSync

namespace Node

/-- Induction over a description, with one hypothesis for each child of a container. -/
@[elab_as_elim, induction_eliminator]
theorem induct {motive : Node → Prop}
    (leaf : ∀ id tag attributes, motive (.leaf id tag attributes))
    (container : ∀ id tag attributes children, (∀ child ∈ children, motive child) →
      motive (.container id tag attributes children))
    (node : Node) : motive node := by
  cases node with
  | leaf id tag attributes => exact leaf id tag attributes
  | container id tag attributes children =>
    exact container id tag attributes children fun child _ => induct leaf container child

/-- The children of a node; a leaf has none. -/
def childList : Node → List Node
  | .leaf .. => []
  | .container _ _ _ children => children

/-- The greatest number of levels that a node of the subtree is below its top. -/
def height : Node → Nat
  | .leaf .. => 0
  | .container _ _ _ children => heights children
where
  /-- One level more than the greatest height of several subtrees, or none without any. -/
  heights : List Node → Nat
    | [] => 0
    | node :: rest => max (node.height + 1) (heights rest)

/-- Induction over a description by way of the lists of children. -/
lemma induct_childList {motive : Node → Prop}
    (step : ∀ t : Node, (∀ c ∈ t.childList, motive c) → motive t) (node : Node) : motive node := by
  induction node with
  | leaf id tag attributes => exact step _ (by simp [childList])
  | container id tag attributes children ih => exact step _ ih

variable {id gone : NodeId} {tag : String} {attributes : Attributes} {children : List Node}
  {t m c : Node} {y : NodeId}

lemma childList_of_isContainer_eq_false (h : t.isContainer = false) : t.childList = [] := by
  cases t with
  | leaf => rfl
  | container => cases h

lemma eq_leaf (h : t.isContainer = false) : t = .leaf t.id t.tag t.attributes := by
  cases t with
  | leaf => rfl
  | container => cases h

lemma eq_container (h : t.isContainer = true) :
    t = .container t.id t.tag t.attributes t.childList := by
  cases t with
  | leaf => cases h
  | container => rfl

/-- A node is known by its own parts and its children. -/
lemma eq_of_parts_eq (hid : t.id = m.id) (htag : t.tag = m.tag)
    (hattributes : t.attributes = m.attributes) (hkind : t.isContainer = m.isContainer)
    (hchildren : t.childList = m.childList) : t = m := by
  cases hm : m.isContainer with
  | false => rw [eq_leaf hm, eq_leaf (hkind.trans hm), hid, htag, hattributes]
  | true => rw [eq_container hm, eq_container (hkind.trans hm), hid, htag, hattributes, hchildren]

/-! ### Nodes and identifiers -/

lemma preorders_eq_flatMap (nodes : List Node) :
    preorder.preorders nodes = nodes.flatMap preorder := by
  induction nodes with
  | nil => rfl
  | cons node rest ih => simp [preorder.preorders, ih]

@[simp] lemma preorder_leaf : (leaf id tag attributes).preorder = [leaf id tag attributes] := rfl

@[simp] lemma preorder_container : (container id tag attributes children).preorder =
    container id tag attributes children :: children.flatMap preorder := by
  rw [preorder, preorders_eq_flatMap]

@[simp] lemma ids_leaf : (leaf id tag attributes).ids = [id] := rfl

@[simp] lemma ids_container :
    (container id tag attributes children).ids = id :: children.flatMap ids := by
  simp [ids, List.map_flatMap, Node.id]
  rfl

@[simp] lemma id_leaf : (leaf id tag attributes).id = id := rfl

@[simp] lemma id_container : (container id tag attributes children).id = id := rfl

lemma mem_ids : y ∈ t.ids ↔ ∃ m ∈ t.preorder, m.id = y := List.mem_map

lemma self_mem_preorder (t : Node) : t ∈ t.preorder := by
  cases t <;> simp

lemma id_mem_ids (t : Node) : t.id ∈ t.ids := mem_ids.2 ⟨t, t.self_mem_preorder, rfl⟩

lemma mem_ids_iff : y ∈ t.ids ↔ y = t.id ∨ ∃ c ∈ t.childList, y ∈ c.ids := by
  cases t <;> simp [childList]

lemma ids_eq_cons (t : Node) : t.ids = t.id :: t.childList.flatMap ids := by
  cases t <;> simp [childList]

lemma mem_preorder_iff : m ∈ t.preorder ↔ m = t ∨ ∃ c ∈ t.childList, m ∈ c.preorder := by
  cases t <;> simp [childList]

/-- The nodes of a subtree are nodes of the whole. -/
lemma preorder_subset (hm : m ∈ t.preorder) (hc : c ∈ m.preorder) : c ∈ t.preorder := by
  induction t with
  | leaf => simp_all
  | container id tag attributes children ih =>
    rw [preorder_container] at hm ⊢
    rcases List.mem_cons.1 hm with rfl | hm
    · simpa using hc
    · obtain ⟨child, hchild, hm⟩ := List.mem_flatMap.1 hm
      exact List.mem_cons_of_mem _ (List.mem_flatMap.2 ⟨child, hchild, ih child hchild hm⟩)

lemma child_mem_preorder (hc : c ∈ children) :
    c ∈ (container id tag attributes children).preorder := by
  rw [preorder_container]
  exact List.mem_cons_of_mem _ (List.mem_flatMap.2 ⟨c, hc, c.self_mem_preorder⟩)

lemma mem_preorder_of_mem_childList (hm : m ∈ t.preorder) (hc : c ∈ m.childList) :
    c ∈ t.preorder := by
  cases m with
  | leaf => simp [childList] at hc
  | container => exact preorder_subset hm (child_mem_preorder hc)

/-- Every node but the topmost one is a child of another. -/
lemma exists_parent (hm : m ∈ t.preorder) : m = t ∨ ∃ p ∈ t.preorder, m ∈ p.childList := by
  induction t with
  | leaf => simp_all
  | container id tag attributes children ih =>
    rw [preorder_container] at hm
    rcases List.mem_cons.1 hm with rfl | hm
    · exact .inl rfl
    · obtain ⟨child, hchild, hm⟩ := List.mem_flatMap.1 hm
      right
      rcases ih child hchild hm with rfl | ⟨p, hp, hmp⟩
      · exact ⟨_, self_mem_preorder _, hchild⟩
      · exact ⟨p, preorder_subset (child_mem_preorder hchild) hp, hmp⟩

/-! ### Subtrees without repetition -/

lemma nodup_container :
    (container id tag attributes children).ids.Nodup ↔
      (∀ c ∈ children, id ∉ c.ids) ∧ (∀ c ∈ children, c.ids.Nodup) ∧
        children.Pairwise fun c d => ∀ y ∈ c.ids, y ∉ d.ids := by
  rw [ids_container, List.nodup_cons, List.nodup_flatMap]
  refine and_congr (by simp) (and_congr .rfl ?_)
  exact ⟨fun h => h.imp fun hcd y hc hd => hcd hc hd, fun h => h.imp fun hcd y hc hd => hcd y hc hd⟩

lemma nodup_of_mem (h : t.ids.Nodup) (hm : m ∈ t.preorder) : m.ids.Nodup := by
  induction t with
  | leaf => simp_all
  | container id tag attributes children ih =>
    rw [preorder_container] at hm
    rcases List.mem_cons.1 hm with rfl | hm
    · exact h
    · obtain ⟨child, hchild, hm⟩ := List.mem_flatMap.1 hm
      exact ih child hchild ((nodup_container.1 h).2.1 child hchild) hm

/-- A node of a subtree without repetition is told apart by its identifier. -/
lemma eq_of_id_eq (h : t.ids.Nodup) (hm : m ∈ t.preorder) (hc : c ∈ t.preorder)
    (hid : m.id = c.id) : m = c :=
  List.inj_on_of_nodup_map h hm hc hid

lemma nodup_map_id (h : (container id tag attributes children).ids.Nodup) :
    (children.map Node.id).Nodup := by
  rw [List.Nodup, List.pairwise_map]
  refine (nodup_container.1 h).2.2.imp fun {c d} (hcd : ∀ y ∈ c.ids, y ∉ d.ids) heq => ?_
  exact hcd c.id c.id_mem_ids (heq ▸ d.id_mem_ids)

lemma notMem_ids_of_mem_childList (h : t.ids.Nodup) (hc : c ∈ t.childList) : t.id ∉ c.ids := by
  cases t with
  | leaf => simp [childList] at hc
  | container => exact (nodup_container.1 h).1 c hc

/-- No child of any node has the identifier of the topmost node. -/
lemma id_ne_of_mem_childList (h : t.ids.Nodup) (hm : m ∈ t.preorder) (hc : c ∈ m.childList) :
    c.id ≠ t.id := by
  intro hid
  obtain rfl : c = t := eq_of_id_eq h (mem_preorder_of_mem_childList hm hc) t.self_mem_preorder hid
  exact notMem_ids_of_mem_childList (nodup_of_mem h hm) hc (mem_ids.2 ⟨m, hm, rfl⟩)

/-- Children of one node have no nodes in common. -/
lemma pairwise_childList (h : t.ids.Nodup) :
    t.childList.Pairwise fun c d => ∀ y ∈ c.ids, y ∉ d.ids := by
  cases t with
  | leaf => exact .nil
  | container => exact (nodup_container.1 h).2.2

/-- No node is shown in two children. -/
lemma notMem_ids_of_ne (h : t.ids.Nodup) (hc : c ∈ t.childList) (hm : m ∈ t.childList) (hne : c ≠ m)
    (hy : y ∈ c.ids) : y ∉ m.ids := by
  have hsymm : Std.Symm fun c m : Node => ∀ y ∈ c.ids, y ∉ m.ids :=
    ⟨fun _ _ hcm y hym hyc => hcm y hyc hym⟩
  exact (pairwise_childList h).forall hc hm hne y hy

lemma nodup_map_id_childList (h : t.ids.Nodup) : (t.childList.map Node.id).Nodup := by
  cases t with
  | leaf => exact .nil
  | container => exact nodup_map_id h

/-! ### Height -/

@[simp] lemma height_leaf : (leaf id tag attributes).height = 0 := rfl

lemma height_lt_of_mem (hc : c ∈ children) :
    c.height < (container id tag attributes children).height := by
  rw [height]
  induction children with
  | nil => simp at hc
  | cons d rest ih =>
    rw [height.heights]
    rcases List.mem_cons.1 hc with rfl | hc
    · omega
    · have := ih hc
      omega

lemma height_lt_of_mem_childList (hc : c ∈ t.childList) : c.height < t.height := by
  cases t with
  | leaf => simp [childList] at hc
  | container => exact height_lt_of_mem hc

/-- A subtree has more nodes than levels below its topmost node. -/
lemma height_lt_length_ids (t : Node) : t.height < t.ids.length := by
  induction t with
  | leaf => exact Nat.one_pos
  | container id tag attributes children ih =>
    rw [ids_container, List.length_cons, Nat.lt_succ_iff, height]
    induction children with
    | nil => exact Nat.zero_le _
    | cons child rest ihrest =>
      have hchild := ih child List.mem_cons_self
      have hrest := ihrest fun c hc => ih c (List.mem_cons_of_mem _ hc)
      rw [height.heights, List.flatMap_cons, List.length_append]
      omega

end Node

end PageSync
