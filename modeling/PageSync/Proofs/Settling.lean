import PageSync.Session
import PageSync.Proofs.Edits
import PageSync.Proofs.Finishing

/-!
# After a pass

A pass that succeeds makes a forest forget its records: those of all nodes if the pass went over the
page, and else those of the nodes in the tree that it went over (`Forest.SettledBy`). From then on the
forest says that the client shows the tree as it is now
(`Forest.SettledBy.remembers`).
-/

namespace PageSync

namespace View

variable {view : View} {top n : NodeId} {m : Node}

/-- Whether a view says that a node is shown as it is, as far as its place is concerned. -/
def IsSettled (view : View) (n : NodeId) : Prop :=
  (view.entry n).shownChildren = none ∧ view.shownParent n = view.parent n

/-- Whether no other nodes than the children that are shown are recorded as children of the containers
on the page. -/
def IsExact (view : View) (page : Node) : Prop :=
  ∀ m ∈ page.preorder, ∀ n, view.shownParent n = some m.id → n ∈ m.childList.map Node.id

lemma IsExact.not_hasStrays {page : Node} (h : view.IsExact page) : ¬ view.HasStrays page := by
  rintro ⟨m, hm, -, n, hn, hnot⟩
  exact hnot (h m hm n hn)

namespace IsForest

variable (h : view.IsForest)

include h

/-- A tree whose nodes are all settled is remembered as it is. -/
lemma remembers_describe (htop : view.parent top = none)
    (hsettled : ∀ n, Covers view.parent top n → view.IsSettled n)
    (hreaches : ∀ n a, (view.entry n).IsPending → IsAbove view.parent a n →
      (view.entry a).IsMarked) : view.Remembers (view.describe top) where
  toIsForest := h
  nodup := h.nodup_ids_describe top
  entry_matches m hm := by
    obtain ⟨hm, hcov⟩ := h.mem_preorder_describe hm
    rw [hm, h.id_describe]
    refine ⟨(h.isContainer_describe _).symm, (h.tag_describe _).symm,
      fun _ => (h.attributes_describe _).symm, fun _ => ?_⟩
    rw [Entry.shownChildList, (hsettled m.id hcov).1, h.map_id_childList_describe]
    rfl
  shownParent_eq m hm c hc := by
    obtain ⟨hm, hcov⟩ := h.mem_preorder_describe hm
    rw [hm, h.childList_describe] at hc
    obtain ⟨n, hn, rfl⟩ := List.mem_map.1 hc
    have hparent := h.parent_of_mem hn
    rw [h.id_describe, (hsettled n (hcov.trans (.of_parent hparent))).2, hparent]
  parent_top := by rwa [h.id_describe]
  reaches := hreaches

/-- Where all nodes are settled, the records are exact. -/
lemma isExact_describe (top : NodeId) (hsettled : ∀ n, view.IsSettled n) :
    view.IsExact (view.describe top) := by
  intro m hm n hn
  obtain ⟨hm, -⟩ := h.mem_preorder_describe hm
  rw [hm, h.map_id_childList_describe, h.mem_children, ← (hsettled n).2, hn]

end IsForest

end View

namespace Forest

variable {f g : Forest} {top n : NodeId}

/-- Whether a forest is the one after a successful pass over a tree, in which the records of the tree
are forgotten, or all records if the tree is the page. -/
structure SettledBy (f : Forest) (top : NodeId) (g : Forest) : Prop where
  /-- The page has the same top. -/
  root_eq : g.root = f.root
  /-- The next new node gets the same number. -/
  nextNumber_eq : g.nextNumber = f.nextNumber
  /-- Every node is in the same state. -/
  now_eq : g.now = f.now
  /-- The records of the tree are forgotten. -/
  forgotten : ∀ n i, top = f.root ∨ Covers f.view.parent top n → g.get? n = some i →
    i.record = {}
  /-- Those of other trees are kept. -/
  kept : ∀ n, top ≠ f.root → ¬ Covers f.view.parent top n → g.get? n = f.get? n

namespace SettledBy

variable (hs : f.SettledBy top g)

include hs

lemma isSettled (hn : top = f.root ∨ Covers f.view.parent top n) : g.view.IsSettled n := by
  rw [View.IsSettled, View.shownParent, View.parent]
  cases hi : g.get? n with
  | none => simp [entry_of_get?_none hi]
  | some i => simp [entry_of_get? hi, Item.entry, Item.shownParent, hs.forgotten n i hn hi]

lemma not_isPending (hn : top = f.root ∨ Covers f.view.parent top n) :
    ¬ (g.view.entry n).IsPending := by
  cases hi : g.get? n with
  | none => simp [entry_of_get?_none hi, Entry.IsPending]
  | some i => simp [entry_of_get? hi, Item.entry, Entry.IsPending, hs.forgotten n i hn hi]

/-- The forest is still well-formed. -/
lemma wellFormed (h : f.WellFormed) : g.WellFormed where
  toIsForest := isForest_congr hs.now_eq h.toIsForest
  contains_root := by
    rw [hs.root_eq, contains_congr hs.now_eq]
    exact h.contains_root
  parent_root := by
    rw [hs.root_eq, parent_congr hs.now_eq]
    exact h.parent_root
  shownParent_root := by
    rw [hs.root_eq]
    by_cases hroot : top = f.root ∨ Covers f.view.parent top f.root
    · rw [(hs.isSettled hroot).2, parent_congr hs.now_eq]
      exact h.parent_root
    · rw [not_or] at hroot
      rw [View.shownParent, entry_congr (hs.kept _ hroot.1 hroot.2)]
      exact h.shownParent_root
  reaches n a hn ha := by
    rw [parent_congr hs.now_eq] at ha
    have hother : ¬ (top = f.root ∨ Covers f.view.parent top n) := fun h => hs.not_isPending h hn
    rw [not_or] at hother
    have habove : ¬ Covers f.view.parent top a := fun hcov => hother.2 (hcov.trans ha.covers)
    rw [entry_congr (hs.kept n hother.1 hother.2)] at hn
    rw [entry_congr (hs.kept a hother.1 habove)]
    exact h.reaches n a hn ha

/-- The tree is remembered as it is. -/
lemma remembers (h : f.WellFormed) (htop : f.view.parent top = none) :
    g.view.Remembers (g.view.describe top) := by
  have hwell := hs.wellFormed h
  refine hwell.toIsForest.remembers_describe ?_ (fun n hn => hs.isSettled (.inr ?_)) hwell.reaches
  · rwa [parent_congr hs.now_eq]
  · rwa [parent_congr hs.now_eq] at hn

end SettledBy

/-! ### Passes settle trees -/

lemma top?_eq_some_iff (h : f.view.IsForest) (htop : f.view.parent top = none)
    (hn : f.contains n) : f.top? n = some top ↔ Covers f.view.parent top n := by
  rw [top?, ancestors, if_pos hn]
  refine ⟨fun hlast => View.covers_of_mem_climb (List.mem_of_getLast? hlast), fun hcov => ?_⟩
  induction hcov using Relation.ReflTransGen.head_induction_on with
  | refl =>
    rw [View.climb_count h.acyclic, htop]
    rfl
  | head hxy _ ih =>
    rw [View.climb_count h.acyclic, hxy, List.getLast?_cons, ih (contains_of_parent h hxy)]
    rfl

/-- The records of single nodes are forgotten, those of others are not. -/
lemma get?_foldl_settle (nodes : List NodeId) (f : Forest) (n : NodeId) :
    (nodes.foldl settle f).get? n = (f.get? n).map fun i => if n ∈ nodes then i.settle else i := by
  induction nodes generalizing f with
  | nil => simp
  | cons x rest ih =>
    rw [List.foldl_cons, ih, get?_settle]
    by_cases hx : x = n
    · subst hx
      by_cases hrest : x ∈ rest <;> simp [hrest, Function.comp_def, Item.settle]
    · rw [if_neg hx]
      simp [Ne.symm hx]

lemma foldl_settle_eq (nodes : List NodeId) (f : Forest) :
    (nodes.foldl settle f).root = f.root ∧ (nodes.foldl settle f).nextNumber = f.nextNumber := by
  induction nodes generalizing f with
  | nil => exact ⟨rfl, rfl⟩
  | cons x rest ih => exact ih (f.settle x)

lemma now_foldl_settle (nodes : List NodeId) (f : Forest) : (nodes.foldl settle f).now = f.now := by
  funext n
  rw [now, now, get?_foldl_settle, Option.map_map]
  apply Option.map_congr
  intro i _
  by_cases hn : n ∈ nodes <;> simp [hn, Item.settle]

/-- To forget the records of some nodes of a tree and then those of the whole tree settles the tree. -/
lemma settledBy_finish (h : f.view.IsForest) (htop : f.view.parent top = none)
    {nodes : List NodeId} (hnodes : ∀ n ∈ nodes, Covers f.view.parent top n) :
    f.SettledBy top ((nodes.foldl settle f).finish top) := by
  have hnow := now_foldl_settle nodes f
  have hroot := (foldl_settle_eq nodes f).1
  have hforest := isForest_congr hnow h
  have htop' : (nodes.foldl settle f).view.parent top = none := by rwa [parent_congr hnow]
  have hcond (n : NodeId) (hn : f.contains n) : (nodes.foldl settle f).top? n = some top ↔
      Covers f.view.parent top n := by
    rw [top?_eq_some_iff hforest htop', parent_congr hnow]
    rwa [contains_congr hnow]
  refine ⟨hroot, (foldl_settle_eq nodes f).2, ?_, ?_, ?_⟩
  · rw [← hnow]
    funext n
    rw [now, now, get?_finish, Option.map_map]
    apply Option.map_congr
    intro i _
    rw [Function.comp_apply]
    split <;> rfl
  · intro n i hn hi
    rw [get?_finish] at hi
    obtain ⟨j, hj, rfl⟩ := Option.map_eq_some_iff.1 hi
    have hknown : f.contains n := by
      rw [← contains_congr hnow]
      exact contains_iff.2 ⟨j, hj⟩
    rw [if_pos]
    · rfl
    · rwa [hroot, hcond n hknown]
  · intro n hne hn
    rw [get?_finish, get?_foldl_settle, Option.map_map]
    cases hi : f.get? n with
    | none => rfl
    | some i =>
      have hnot : ¬ (top = (nodes.foldl settle f).root ∨
          (nodes.foldl settle f).top? n = some top) := by
        rw [hroot, hcond n (contains_iff.2 ⟨i, hi⟩), not_or]
        exact ⟨hne, hn⟩
      have hmem : n ∉ nodes := fun hmem => hn (hnodes n hmem)
      simp [hnot, hmem]

lemma fst_pass (f : Forest) (differ : Differ) (top : NodeId) :
    (Session.pass ⟨f, differ⟩ top).1 = (differ.pass f.view top).1 := by
  rw [Session.pass]
  split
  · next heq => rw [heq]
  · next heq => rw [heq]

/-- A successful pass settles the tree that it goes over. -/
theorem settledBy_of_pass {differ : Differ} {delta : Delta} (h : f.view.IsForest)
    (hpass : (Session.pass ⟨f, differ⟩ top).1 = .ok delta) :
    (differ.pass f.view top).1 = .ok delta ∧
      f.SettledBy top (Session.pass ⟨f, differ⟩ top).2.forest := by
  have hdelta := (fst_pass f differ top).symm.trans hpass
  refine ⟨hdelta, ?_⟩
  have hforest : (Session.pass ⟨f, differ⟩ top).2.forest = delta.notices.foldl heed f := by
    rw [Session.pass]
    split
    · next e differ' heq => rw [heq] at hdelta; cases hdelta
    · next delta' differ' heq =>
      rw [heq] at hdelta
      cases hdelta
      rfl
  obtain ⟨-, -, htop, s, -, -, hnotices, -⟩ := Differ.of_pass_eq_ok hdelta
  have hheed : delta.notices.foldl heed f = (s.finished.foldl settle f).finish top := by
    rw [hnotices, List.foldl_append, List.foldl_map]
    rfl
  rw [hforest, hheed]
  refine settledBy_finish h htop fun n hn => Differ.covers_of_settled h hdelta ?_
  rw [hnotices]
  exact List.mem_append_left _ (List.mem_map_of_mem hn)

end Forest

end PageSync
