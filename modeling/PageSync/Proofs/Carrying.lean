import Mathlib.Data.List.Pairwise
import PageSync.Proofs.Shares

/-!
# Contributions carry the client

Every planned contribution carries a client that shows the old subtree of a node to the current one
(`Pass.Planned.carries`). The proof follows the plan: the contributions of the children are combined
stage by stage, each keeping to nodes of its own.
-/

namespace PageSync

namespace Pass

open Node (Runs)

variable {pass : Pass} {page t : Node} {share : Share} {id : NodeId} {tag : String}
  {attributes : Attributes} {parts : List (Node × Share)} {M M' : Node × Share → Node}
  {current : List NodeId}

/-! ### Several children stage by stage -/

/-- The child that a client shows at a place before the last stage: the one kept there, brought
as far as that, or else the one that has been inserted. -/
def slot (pass : Pass) (parts : List (Node × Share)) (M' : Node × Share → Node) (n : NodeId) :
    Node :=
  ((parts.find? (·.1.id = n)).map M').getD (pass.view.describe n)

/-- Members that contribute nothing can be left out. -/
lemma flatMap_eq_filter {α β : Type*} {l : List α} {p : α → Bool} {g : α → List β}
    (hg : ∀ a ∈ l, p a = false → g a = []) : l.flatMap g = (l.filter p).flatMap g := by
  induction l with
  | nil => rfl
  | cons a l ih =>
    have hl := ih fun b hb => hg b (List.mem_cons_of_mem _ hb)
    cases hpa : p a with
    | true => rw [List.filter_cons_of_pos hpa, List.flatMap_cons, List.flatMap_cons, hl]
    | false =>
      rw [List.filter_cons_of_neg (by simp [hpa]), List.flatMap_cons, hl,
        hg a List.mem_cons_self hpa, List.nil_append]

/-- What is known of the kept children of one container. -/
structure Siblings (pass : Pass) (id : NodeId) (current : List NodeId)
    (parts : List (Node × Share)) (M M' : Node × Share → Node) : Prop where
  /-- Each is carried to its current state by its own contribution. -/
  via : ∀ p ∈ parts, pass.Via p.1 p.2 (M p) (M' p)
  /-- They have no shown nodes in common. -/
  apart : parts.Pairwise fun p q => ∀ y ∈ p.1.ids, y ∉ q.1.ids
  /-- The container is not shown below them. -/
  notMem : ∀ p ∈ parts, id ∉ p.1.ids
  /-- They are current children, in this order. -/
  order : (parts.map (·.1.id)).Sublist current
  /-- The current children are listed once. -/
  nodup : current.Nodup
  /-- The current children are children of the container. -/
  parent : ∀ n ∈ current, pass.view.parent n = some id
  /-- The container is in the tree of the pass. -/
  inTree : Covers pass.view.parent pass.root id

namespace Siblings

variable (hs : pass.Siblings id current parts M M')

include hs

lemma runs_deleted (tag : String) (attributes : Attributes) :
    Runs (fun _ => True) (.container id tag attributes (parts.map (·.1)))
    ((parts.flatMap (·.2.deleted)).map .delete) (.container id tag attributes (parts.map M)) := by
  rw [List.map_flatMap]
  refine Runs.each [] (fun p y => y ∈ p.1.ids) ?_ ?_ ?_ hs.apart hs.notMem (by simp)
  · exact fun p hp => (hs.via p hp).deletes.mono fun _ _ => trivial
  · exact fun p _ y hy => hy
  · exact fun p hp y hy => ((hs.via p hp).kept y hy).1

lemma runs_altered : Runs (fun _ => True) (.container id tag attributes (parts.map M))
    ((parts.flatMap (·.2.altered)).map pass.alteration)
    (.container id tag attributes (parts.map M')) := by
  rw [List.map_flatMap]
  refine Runs.each [] (fun p y => y ∈ p.1.ids) ?_ ?_ ?_ hs.apart hs.notMem (by simp)
  · exact fun p hp => (hs.via p hp).alters.mono fun _ _ => trivial
  · exact fun p hp y hy => ((hs.via p hp).kept y hy).1
  · exact fun p hp y hy => ((hs.via p hp).kept y ((hs.via p hp).ids_eq ▸ hy)).1

lemma id_eq {p : Node × Share} (hp : p ∈ parts) : (M' p).id = p.1.id := by
  rw [(hs.via p hp).alters.id_eq, (hs.via p hp).deletes.id_eq]

lemma find?_eq {p : Node × Share} (hp : p ∈ parts) :
    parts.find? (·.1.id = p.1.id) = some p := by
  have hnodup : (parts.map (·.1.id)).Nodup := hs.nodup.sublist hs.order
  cases hfind : parts.find? (·.1.id = p.1.id) with
  | none => simpa using List.find?_eq_none.1 hfind p hp
  | some q =>
    have hid : q.1.id = p.1.id := by simpa using List.find?_some hfind
    rw [List.inj_on_of_nodup_map hnodup (List.mem_of_find?_eq_some hfind) hp hid]

lemma slot_of_mem {p : Node × Share} (hp : p ∈ parts) : pass.slot parts M' p.1.id = M' p := by
  rw [slot, hs.find?_eq hp]
  rfl

omit hs in
lemma find?_eq_none {n : NodeId} (hn : n ∉ parts.map (·.1.id)) :
    parts.find? (·.1.id = n) = none := by
  refine List.find?_eq_none.2 fun p hp hid => hn ?_
  exact List.mem_map.2 ⟨p, hp, by simpa using hid⟩

omit hs in
lemma slot_of_notMem {n : NodeId} (hn : n ∉ parts.map (·.1.id)) :
    pass.slot parts M' n = pass.view.describe n := by
  rw [slot, find?_eq_none hn]
  rfl

lemma map_slot : (parts.map (·.1.id)).map (pass.slot parts M') = parts.map M' := by
  rw [List.map_map]
  exact List.map_congr_left fun p hp => hs.slot_of_mem hp

lemma filter_kept : current.filter (· ∈ parts.map (·.1.id)) = parts.map (·.1.id) :=
  Node.filter_eq_of_sublist hs.order hs.nodup (by simp)

lemma id_slot (h : pass.view.IsForest) (n : NodeId) : (pass.slot parts M' n).id = n := by
  by_cases hn : n ∈ parts.map (·.1.id)
  · obtain ⟨p, hp, rfl⟩ := List.mem_map.1 hn
    rw [hs.slot_of_mem hp, hs.id_eq hp]
  · rw [slot_of_notMem hn, h.id_describe]

/-- No node comes or goes when attributes are sent. -/
lemma ids_container_eq {attributes' : Attributes} :
    (Node.container id tag attributes' (parts.map M')).ids =
      (Node.container id tag attributes (parts.map M)).ids := by
  rw [Node.ids_container, Node.ids_container, List.flatMap_map, List.flatMap_map]
  exact congrArg (id :: ·) (List.flatMap_congr fun p hp => (hs.via p hp).ids_eq)

/-- In a slot stands what was shown there, as far as it is left, or what belongs there. -/
lemma mem_ids_slot (h : pass.view.IsForest) {n y : NodeId} (hy : y ∈ (pass.slot parts M' n).ids) :
    Covers pass.view.parent n y ∨ ∃ p ∈ parts, p.1.id = n ∧ y ∈ p.1.ids ∧
      (Covers pass.view.parent pass.root y → Covers pass.view.parent n y) := by
  by_cases hn : n ∈ parts.map (·.1.id)
  · obtain ⟨p, hp, rfl⟩ := List.mem_map.1 hn
    rw [hs.slot_of_mem hp, (hs.via p hp).ids_eq] at hy
    exact .inr ⟨p, hp, rfl, (hs.via p hp).kept y hy⟩
  · rw [slot_of_notMem hn] at hy
    exact .inl (h.mem_ids_describe.1 hy)

/-- What stands in one slot does not belong into another. -/
lemma notMem_ids_slot (h : pass.view.IsForest) {n k y : NodeId} (hn : n ∈ current)
    (hk : k ∈ current) (hne : k ≠ n) (hcov : Covers pass.view.parent n y) :
    y ∉ (pass.slot parts M' k).ids := by
  intro hy
  have hroot : Covers pass.view.parent pass.root y :=
    (hs.inTree.trans (.of_parent (hs.parent n hn))).trans hcov
  have hky : Covers pass.view.parent k y := by
    rcases hs.mem_ids_slot h hy with hky | ⟨p, -, -, -, hky⟩
    · exact hky
    · exact hky hroot
  exact h.acyclic.not_covers_both (hs.parent k hk) (hs.parent n hn) hne hky hcov

/-- No node stands or belongs in two slots. -/
lemma notMem_slots (h : pass.view.IsForest) {n k y : NodeId} (hn : n ∈ current) (hk : k ∈ current)
    (hne : n ≠ k) (hy : y ∈ (pass.slot parts M' n).ids ∨ Covers pass.view.parent n y) :
    ¬ (y ∈ (pass.slot parts M' k).ids ∨ Covers pass.view.parent k y) := by
  rintro (hyk | hcov')
  · rcases hy with hyn | hcov
    · rcases hs.mem_ids_slot h hyn with hcov | ⟨p, hp, rfl, hyp, -⟩
      · exact hs.notMem_ids_slot h hn hk hne.symm hcov hyk
      · rcases hs.mem_ids_slot h hyk with hcov' | ⟨q, hq, rfl, hyq, -⟩
        · exact hs.notMem_ids_slot h hk hn hne hcov' hyn
        · have hsymm : Std.Symm fun p q : Node × Share => ∀ y ∈ p.1.ids, y ∉ q.1.ids :=
            ⟨fun p q hpq y hyq hyp => hpq y hyp hyq⟩
          exact hs.apart.forall hp hq (fun e => hne (e ▸ rfl)) y hyp hyq
    · exact hs.notMem_ids_slot h hn hk hne.symm hcov hyk
  · rcases hy with hyn | hcov
    · exact hs.notMem_ids_slot h hk hn hne hcov' hyn
    · exact h.acyclic.not_covers_both (hs.parent n hn) (hs.parent k hk) hne hcov hcov'

lemma runs_inserted (h : pass.view.IsForest) : Runs (fun y => ¬ Covers pass.view.parent id y)
    (.container id tag attributes (parts.map M'))
    (pass.insertions id (parts.map (·.1.id)) none current)
    (.container id tag attributes (current.map (pass.slot parts M'))) := by
  have hkept : (current.filter (· ∈ parts.map (·.1.id))).map (pass.slot parts M') =
      parts.map M' := by
    rw [hs.filter_kept, hs.map_slot]
  rw [← hkept]
  refine Node.runs_insertions h (hs.id_slot h) (fun n _ hn => slot_of_notMem hn) hs.nodup
    hs.parent fun n hn k hk hne y hcov => hs.notMem_ids_slot h hn hk hne hcov

/-- What the parts contribute to the last stage, child by child. -/
lemma flatMap_rest : (current.flatMap fun n =>
    ((parts.find? (·.1.id = n)).map (·.2.rest)).getD []) = parts.flatMap (·.2.rest) := by
  have hnone : ∀ n ∈ current, n ∉ parts.map (·.1.id) →
      ((parts.find? (·.1.id = n)).map (·.2.rest)).getD [] = [] := by
    intro n _ hn
    rw [find?_eq_none hn]
    rfl
  have hsome : ∀ p ∈ parts,
      ((parts.find? (·.1.id = p.1.id)).map (·.2.rest)).getD [] = p.2.rest := by
    intro p hp
    rw [hs.find?_eq hp]
    rfl
  rw [flatMap_eq_filter (p := (· ∈ parts.map (·.1.id))) (by simpa using hnone), hs.filter_kept,
    List.flatMap_map]
  exact List.flatMap_congr hsome

lemma runs_rest (h : pass.view.IsForest) (tag : String) (attributes : Attributes) :
    Runs (fun y => ¬ Covers pass.view.parent id y)
    (.container id tag attributes (current.map (pass.slot parts M')))
    (parts.flatMap (·.2.rest))
    (.container id tag attributes (current.map pass.view.describe)) := by
  rw [← hs.flatMap_rest]
  refine Runs.each []
    (fun n y => y ∈ (pass.slot parts M' n).ids ∨ Covers pass.view.parent n y) ?_ ?_ ?_ ?_ ?_
    (by simp)
  · intro n hn
    by_cases hmem : n ∈ parts.map (·.1.id)
    · obtain ⟨p, hp, rfl⟩ := List.mem_map.1 hmem
      rw [hs.find?_eq hp, hs.slot_of_mem hp]
      apply (hs.via p hp).completes.mono
      rintro y (hy | hy) hcov
      · exact hy (.trans (.of_parent (hs.parent _ hn)) hcov)
      · exact hy (.inr hcov)
    · have hfind : parts.find? (·.1.id = n) = none := find?_eq_none hmem
      rw [hfind, slot_of_notMem hmem]
      exact .nil _
  · exact fun n _ y hy => .inl hy
  · exact fun n _ y hy => .inr (h.mem_ids_describe.1 hy)
  · refine hs.nodup.imp_of_mem fun {n k} hn hk hne y hy hy' => ?_
    exact hs.notMem_slots h hn hk hne hy hy'
  · rintro n hn (hy | hcov)
    · rcases hs.mem_ids_slot h hy with hcov | ⟨p, hp, -, hy, -⟩
      · exact h.acyclic.not_covers_parent (hs.parent n hn) hcov
      · exact hs.notMem p hp hy
    · exact h.acyclic.not_covers_parent (hs.parent n hn) hcov

end Siblings

/-! ### Whole subtrees -/

section Remembers

variable (h : pass.view.Remembers page) (ht : t ∈ page.preorder)

include h ht

lemma describe_of_container (hkind : t.isContainer = true) :
    pass.view.describe t.id = .container t.id t.tag (pass.view.entry t.id).attributes
      ((pass.view.children t.id).map pass.view.describe) := by
  have hmatches := h.entry_matches t ht
  rw [h.describe_container (hmatches.isContainer_eq.trans hkind), hmatches.tag_eq]

lemma describe_of_leaf (hkind : t.isContainer = false) :
    pass.view.describe t.id = .leaf t.id t.tag (pass.view.entry t.id).attributes := by
  have hmatches := h.entry_matches t ht
  rw [h.describe_leaf (hmatches.isContainer_eq.trans hkind), hmatches.tag_eq]

/-- If the children of a node are shown as they are, then its attributes alone may differ. -/
lemma describe_eq_dress (hchildren : (pass.view.children t.id).map pass.view.describe = t.childList) :
    pass.view.describe t.id = t.dress t.id (pass.view.entry t.id).attributes := by
  have hself : ∀ c ∈ t.childList, t.id ∉ c.ids := fun c hc =>
    Node.notMem_ids_of_mem_childList (Node.nodup_of_mem h.nodup ht) hc
  cases hkind : t.isContainer with
  | false => rw [describe_of_leaf h ht hkind, Node.dress_eq_leaf hkind]
  | true => rw [describe_of_container h ht hkind, hchildren, Node.dress_eq_container hkind hself]

omit ht in
/-- A subtree about which nothing is pending is shown as it is. -/
lemma describe_of_calm (ht : t ∈ page.preorder)
    (hcalm : ∀ n, Covers pass.view.parent t.id n → ¬ (pass.view.entry n).IsPending) :
    pass.view.describe t.id = t := by
  induction t using Node.induct_childList with
  | step t ih =>
    obtain ⟨hattributes, hshown⟩ := not_or.1 (hcalm _ (.refl _))
    have hcompared : (pass.view.entry t.id).compared = none := by
      rw [Entry.compared, Option.not_isSome_iff_eq_none.1 hshown]
      split <;> simp_all
    have hchildren := h.children_of_compared_none ht hcompared
    have hdescribe : (pass.view.children t.id).map pass.view.describe = t.childList := by
      rw [hchildren, List.map_map]
      conv_rhs => rw [← List.map_id t.childList]
      refine List.map_congr_left fun c hc => ih c hc (Node.mem_preorder_of_mem_childList ht hc) ?_
      intro n hcov
      have hparent := h.parent_of_mem (hchildren ▸ List.mem_map_of_mem hc)
      exact hcalm n (.trans (.of_parent hparent) hcov)
    rw [describe_eq_dress h ht hdescribe,
      (h.entry_matches t ht).attributes_eq (Bool.not_eq_true _ ▸ hattributes), Node.dress_self]
    exact fun c hc => Node.notMem_ids_of_mem_childList (Node.nodup_of_mem h.nodup ht) hc

/-- Without a mark nothing below a node is pending, so that its children are shown as they are. -/
lemma map_describe_of_unmarked (hcompared : (pass.view.entry t.id).compared = none)
    (hunmarked : (pass.view.entry t.id).changedBelow = false) :
    (pass.view.children t.id).map pass.view.describe = t.childList := by
  have hchildren := h.children_of_compared_none ht hcompared
  rw [hchildren, List.map_map]
  conv_rhs => rw [← List.map_id t.childList]
  apply List.map_congr_left
  intro c hc
  apply describe_of_calm h (Node.mem_preorder_of_mem_childList ht hc)
  intro n hcov hpending
  have hc : c.id ∈ pass.view.children t.id := hchildren ▸ List.mem_map_of_mem hc
  have hmarked := h.reaches n t.id hpending (.trans_covers (.of_parent (h.parent_of_mem hc)) hcov)
  rw [View.unmarked_of_compared_none hcompared hunmarked hmarked] at hc
  cases hc

/-- A node with nothing new but its attributes is carried along by them. -/
lemma carries_of_same_children
    (hchildren : (pass.view.children t.id).map pass.view.describe = t.childList) :
    pass.Carries t { altered := pass.ownAltered t.id } := by
  have hself : ∀ c ∈ t.childList, t.id ∉ c.ids := fun c hc =>
    Node.notMem_ids_of_mem_childList (Node.nodup_of_mem h.nodup ht) hc
  have hdescribe := describe_eq_dress h ht hchildren
  refine ⟨t, pass.view.describe t.id, .nil _, fun y hy => ⟨hy, ?_⟩, ?_, ?_, .nil _⟩
  · intro _
    rwa [← h.mem_ids_describe, hdescribe, Node.ids_dress]
  · rw [hdescribe]
    exact Node.runs_ownAltered hself (h.entry_matches t ht).attributes_eq
  · rw [hdescribe, Node.ids_dress]

/-- The kept children of a node, each carried by its own contribution. -/
lemma siblings_of_kept (hcov : Covers pass.view.parent pass.root t.id)
    (hvia : ∀ p ∈ parts, pass.Via p.1 p.2 (M p) (M' p))
    (hshown : (parts.map (·.1)).Sublist t.childList)
    (hcurrent : (parts.map (·.1.id)).Sublist (pass.view.children t.id)) :
    pass.Siblings t.id (pass.view.children t.id) parts M M' where
  via := hvia
  apart := by
    have hpairwise := Node.pairwise_childList (Node.nodup_of_mem h.nodup ht)
    exact List.pairwise_map.1 (hpairwise.sublist hshown)
  notMem p hp := Node.notMem_ids_of_mem_childList (Node.nodup_of_mem h.nodup ht)
    (hshown.subset (List.mem_map_of_mem hp))
  order := hcurrent
  nodup := h.nodup_children t.id
  parent _ hn := h.parent_of_mem hn
  inTree := hcov

omit h ht in
/-- What is left of a node whose kept children are each carried on. -/
lemma kept_of_siblings (hshown : (parts.map (·.1)).Sublist t.childList)
    (hs : pass.Siblings t.id current parts M M') {y : NodeId}
    (hy : y ∈ (Node.container t.id tag attributes (parts.map M)).ids) :
    y ∈ t.ids ∧ (Covers pass.view.parent pass.root y → Covers pass.view.parent t.id y) := by
  rcases Node.mem_ids_iff.1 hy with rfl | ⟨c, hc, hyc⟩
  · exact ⟨t.id_mem_ids, fun _ => .refl _⟩
  · obtain ⟨p, hp, rfl⟩ := List.mem_map.1 hc
    obtain ⟨hyp, hcov⟩ := (hs.via p hp).kept y hyc
    have hchild := hshown.subset (List.mem_map_of_mem hp)
    have hparent := hs.parent _ (hs.order.subset (List.mem_map_of_mem hp))
    exact ⟨Node.mem_ids_iff.2 (.inr ⟨_, hchild, hyp⟩),
      fun hroot => .trans (.of_parent hparent) (hcov hroot)⟩

/-- The attributes of a node and of its kept children are brought up to date. -/
lemma runs_attributes (hs : pass.Siblings t.id current parts M M') :
    Runs (fun _ => True) (.container t.id t.tag t.attributes (parts.map M))
      ((pass.ownAltered t.id ++ parts.flatMap (·.2.altered)).map pass.alteration)
      (.container t.id t.tag (pass.view.entry t.id).attributes (parts.map M')) := by
  set m := Node.container t.id t.tag t.attributes (parts.map M) with hm
  have hself : ∀ c ∈ m.childList, m.id ∉ c.ids := by
    intro c hc hmem
    obtain ⟨p, hp, rfl⟩ := List.mem_map.1 hc
    exact hs.notMem p hp ((hs.via p hp).kept _ hmem).1
  have hown := Node.runs_ownAltered hself (h.entry_matches t ht).attributes_eq
  rw [Node.dress_eq_container rfl hself] at hown
  rw [List.map_append]
  exact hown.append hs.runs_altered

/-- A node with the children that it is shown with is carried along by their contributions. -/
lemma carries_through (hcov : Covers pass.view.parent pass.root t.id)
    (hcompared : (pass.view.entry t.id).compared = none)
    (hchildren : parts.map (·.1) = t.childList) (hcarries : ∀ p ∈ parts, pass.Carries p.1 p.2) :
    pass.Carries t
      { deleted := parts.flatMap (·.2.deleted)
        altered := pass.ownAltered t.id ++ parts.flatMap (·.2.altered)
        rest := parts.flatMap (·.2.rest) } := by
  have hcurrent : pass.view.children t.id = parts.map (·.1.id) := by
    rw [h.children_of_compared_none ht hcompared, ← hchildren, List.map_map]
    rfl
  choose! M M' hvia using hcarries
  have hshown : (parts.map (·.1)).Sublist t.childList := hchildren ▸ List.Sublist.refl _
  have hs := siblings_of_kept h ht hcov hvia hshown (hcurrent ▸ List.Sublist.refl _)
  cases hkind : t.isContainer with
  | false =>
    have hnil := Node.childList_of_isContainer_eq_false hkind
    obtain rfl : parts = [] := List.map_eq_nil_iff.1 (hchildren.trans hnil)
    simpa using carries_of_same_children h ht (by simp [hcurrent, hnil])
  | true =>
    refine ⟨.container t.id t.tag t.attributes (parts.map M),
      .container t.id t.tag (pass.view.entry t.id).attributes (parts.map M'), ?_, ?_, ?_, ?_, ?_⟩
    · have hdeleted := hs.runs_deleted t.tag t.attributes
      rwa [hchildren, ← Node.eq_container hkind] at hdeleted
    · exact fun y hy => kept_of_siblings hshown hs hy
    · exact runs_attributes h ht hs
    · exact hs.ids_container_eq
    · rw [describe_of_container h ht hkind]
      have hrest := hs.runs_rest h.toIsForest t.tag (pass.view.entry t.id).attributes
      rwa [hcurrent, hs.map_slot, ← hcurrent] at hrest

/-- A node with other children than it is shown with is carried along by the removal of those that
are gone, the insertion of those that are new, and the contributions of the others. -/
lemma carries_mixed {shown gone : List NodeId} (hcov : Covers pass.view.parent pass.root t.id)
    (hcompared : (pass.view.entry t.id).compared = some (shown, current)) (hgone : gone.Nodup)
    (hmem : ∀ n, n ∈ gone ↔ n ∈ shown ∧ n ∉ parts.map (·.1.id))
    (hshown : (parts.map (·.1)).Sublist t.childList)
    (hcurrent : (parts.map (·.1.id)).Sublist current)
    (hcarries : ∀ p ∈ parts, pass.Carries p.1 p.2) :
    pass.Carries t
      { deleted := gone ++ parts.flatMap (·.2.deleted)
        rest := (pass.ownAltered t.id ++ parts.flatMap (·.2.altered)).map pass.alteration ++
          pass.insertions t.id (parts.map (·.1.id)) none current ++ parts.flatMap (·.2.rest) } := by
  have hkind := h.isContainer_of_compared_some ht hcompared
  obtain ⟨rfl, rfl⟩ := h.children_of_compared_some ht hcompared
  have hnodup := Node.nodup_of_mem h.nodup ht
  choose! M M' hvia using hcarries
  have hs := siblings_of_kept h ht hcov hvia hshown hcurrent
  refine ⟨.container t.id t.tag t.attributes (parts.map M), _, ?_, ?_, .nil _, rfl, ?_⟩
  · have hchildren : t.childList.filter (·.id ∉ gone) = parts.map (·.1) := by
      have hids := Node.nodup_map_id_childList hnodup
      apply Node.filter_eq_of_sublist hshown hids.of_map
      intro c hc
      simp only [decide_eq_true_eq, hmem, List.mem_map_of_mem hc, true_and, not_not]
      constructor
      · intro hmem
        obtain ⟨p, hp, hid⟩ := List.mem_map.1 hmem
        have hpc := hshown.subset (List.mem_map_of_mem (f := (·.1)) hp)
        exact List.inj_on_of_nodup_map hids hpc hc hid ▸ List.mem_map_of_mem hp
      · rintro hmem
        obtain ⟨p, hp, rfl⟩ := List.mem_map.1 hmem
        exact List.mem_map.2 ⟨p, hp, rfl⟩
    have hdelete := Node.runs_delete_children t.tag t.attributes
      (fun c hc => Node.notMem_ids_of_mem_childList hnodup hc) (Node.pairwise_childList hnodup)
      hgone fun n hn => ((hmem n).1 hn).1
    rw [hchildren, ← Node.eq_container hkind] at hdelete
    rw [List.map_append]
    exact hdelete.append (hs.runs_deleted t.tag t.attributes)
  · exact fun y hy => kept_of_siblings hshown hs hy
  · rw [describe_of_container h ht hkind]
    have hattributes := (runs_attributes h ht hs).mono
      (X := fun y => ¬ Covers pass.view.parent t.id y) fun _ _ => trivial
    exact (hattributes.append (hs.runs_inserted h.toIsForest)).append (hs.runs_rest h.toIsForest _ _)

/-- A node whose children are sent anew is carried along by that, once no node is left below it that
is to be inserted elsewhere. -/
lemma carries_anew {shown gone : List NodeId} {levels : Nat} (hroot : pass.root = page.id)
    (hcompared : (pass.view.entry t.id).compared = some (shown, current))
    (hevicted : pass.evicted t.id levels t.id shown = .ok gone) :
    pass.Carries t
      { deleted := gone
        rest := .replaceChildren t.id (current.map pass.view.describe) ::
          (pass.ownAltered t.id).map pass.alteration } := by
  have hkind := h.isContainer_of_compared_some ht hcompared
  obtain ⟨rfl, rfl⟩ := h.children_of_compared_some ht hcompared
  have hnodup := Node.nodup_of_mem h.nodup ht
  obtain ⟨cs, hdeletes, hcs⟩ := evicted_runs h.toDepicts hroot t.id t.tag t.attributes []
    (fun c hc => ⟨Node.mem_preorder_of_mem_childList ht hc, Node.id_ne_of_mem_childList h.nodup ht hc⟩)
    (fun c hc => Node.notMem_ids_of_mem_childList hnodup hc) (Node.pairwise_childList hnodup)
    (by simp) (fun _ => .refl _) hevicted
  rw [List.nil_append, List.nil_append, ← Node.eq_container hkind] at hdeletes
  refine ⟨_, _, hdeletes, ?_, .nil _, rfl, ?_⟩
  · intro y hy
    rcases Node.mem_ids_iff.1 hy with rfl | ⟨c, hc, hyc⟩
    · exact ⟨t.id_mem_ids, fun _ => .refl _⟩
    · obtain ⟨⟨d, hd, hyd⟩, hcov⟩ := hcs c hc y hyc
      exact ⟨Node.mem_ids_iff.2 (.inr ⟨d, hd, hyd⟩), hcov⟩
  · have hdescribe := describe_of_container h ht hkind
    have hnew := h.nodup_ids_describe t.id
    rw [hdescribe, Node.ids_container] at hnew
    obtain ⟨hid, hnew⟩ := List.nodup_cons.1 hnew
    have hself : ∀ c ∈ (pass.view.children t.id).map pass.view.describe, t.id ∉ c.ids :=
      fun c hc hmem => hid (List.mem_flatMap.2 ⟨c, hc, hmem⟩)
    refine .cons ⟨⟨_, Node.self_mem_preorder _, rfl, rfl⟩, hnew, ?_⟩ ?_ ?_
    · intro y hy hmem
      rw [Node.arrange_container_self, Node.ids_container, List.flatMap_nil,
        List.mem_singleton] at hmem
      exact hid (hmem ▸ hy)
    · intro y hy hout
      refine hout (h.mem_ids_describe.1 ?_)
      rw [hdescribe, Node.ids_container]
      exact List.mem_cons_of_mem _ hy
    · rw [Node.perform, Node.arrange_container_self]
      set m := Node.container t.id t.tag t.attributes
        ((pass.view.children t.id).map pass.view.describe) with hm
      have hown := Node.runs_ownAltered (t := m) hself (h.entry_matches t ht).attributes_eq
      rw [Node.dress_eq_container (t := m) rfl hself] at hown
      rw [hdescribe]
      exact hown.mono fun _ _ => trivial

omit ht in
/-- Every planned contribution carries the client from the shown subtree to the current one. -/
theorem Planned.carries (hroot : pass.root = page.id) (hplan : pass.Planned t share)
    (ht : t ∈ page.preorder) (hcov : Covers pass.view.parent pass.root t.id) :
    pass.Carries t share := by
  have hbelow {t c : Node} (ht : t ∈ page.preorder) (hcov : Covers pass.view.parent pass.root t.id)
      (hc : c.id ∈ pass.view.children t.id) : Covers pass.view.parent pass.root c.id :=
    hcov.trans (.of_parent (h.parent_of_mem hc))
  induction hplan with
  | still compared unmarked =>
    exact carries_of_same_children h ht (map_describe_of_unmarked h ht compared unmarked)
  | @through t parts compared children planned ih =>
    apply carries_through h ht hcov compared children
    intro p hp
    have hc : p.1 ∈ t.childList := children ▸ List.mem_map_of_mem hp
    have hcurrent := h.children_of_compared_none ht compared
    exact ih p hp (Node.mem_preorder_of_mem_childList ht hc)
      (hbelow ht hcov (hcurrent ▸ List.mem_map_of_mem hc))
  | @mixed t shown current parts compared nodup_removals mem_removals shown_order current_order _
      planned ih =>
    refine carries_mixed h ht hcov compared nodup_removals mem_removals shown_order current_order
      fun p hp => ?_
    have hc : p.1 ∈ t.childList := shown_order.subset (List.mem_map_of_mem hp)
    have hcurrent := (h.children_of_compared_some ht compared).1
    exact ih p hp (Node.mem_preorder_of_mem_childList ht hc)
      (hbelow ht hcov (hcurrent ▸ current_order.subset (List.mem_map_of_mem hp)))
  | anew compared _ evicted => exact carries_anew h ht hroot compared evicted

end Remembers

end Pass

end PageSync
