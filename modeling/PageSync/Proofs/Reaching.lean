import PageSync.Proofs.Cleaning

/-!
# Marks on the way to a change

A walk from the top of a tree goes on below a node only if the node is marked. Marks are set on the
ancestors that a node has when it changes, and are not set again when its tree is hung elsewhere. Still
no change is ever out of reach: in every forest that comes about by edits and passes, the parent of a
node is marked if the record of the node says that it, or something below it, has changed
(`Forest.isMarked_of_arises`).

The property is a local one (`Forest.Propagates`), between a node and its parent, so that a step has to
be looked at only where it sets marks or makes links.
-/

namespace PageSync

/-- Whether a node or something below it may have changed. -/
def Entry.IsStirred (entry : Entry) : Prop :=
  entry.attributesChanged = true ∨ entry.shownChildren.isSome = true ∨ entry.changedBelow = true

lemma Entry.IsMarked.isStirred {entry : Entry} (h : entry.IsMarked) : entry.IsStirred := .inr h.symm

lemma View.IsClean.not_isStirred {view : View} {n : NodeId} (h : view.IsClean n) :
    ¬ (view.entry n).IsStirred := by
  simp [Entry.IsStirred, h.attributesChanged_eq, h.shownChildren_eq, h.changedBelow_eq]

namespace Forest

variable {f g : Forest} {a n p x container child : NodeId} {index : Nat} {change : Item → Item}
  {dressing : Attributes → Attributes} {arrange : List NodeId → List NodeId} {up : Option NodeId}
  {tag : String} {children : Option (List NodeId)} {e : Edit} {page : Node}

/-- Whether the parent of each node with changes at or below it is marked. -/
def Propagates (f : Forest) : Prop :=
  ∀ n p, (f.view.entry n).IsStirred → f.view.parent n = some p → (f.view.entry p).IsMarked

/-- A marked parent has a marked parent in turn, and so on to the top. -/
lemma Propagates.isMarked (h : f.Propagates) (hn : (f.view.entry n).IsStirred)
    (ha : IsAbove f.view.parent a n) : (f.view.entry a).IsMarked := by
  induction ha with
  | single hp => exact h _ _ hn hp
  | tail _ hp ih => exact h _ _ ih.isStirred hp

/-! ### Where marks are set -/

lemma isStirred_update (hchange : ∀ i, (change i).entry.IsStirred → i.entry.IsStirred)
    (hx : ((f.update n change).view.entry x).IsStirred) : (f.view.entry x).IsStirred := by
  cases hi : f.get? n with
  | none => rwa [entry_update_of_none hi] at hx
  | some i =>
    by_cases hn : n = x
    · subst hn
      rw [entry_update hi] at hx
      rw [entry_of_get? hi]
      exact hchange i hx
    · rwa [entry_update_of_ne hn] at hx

lemma isStirred_foldl_mark (nodes : List NodeId)
    (hx : ((nodes.foldl mark f).view.entry x).IsStirred) :
    (f.view.entry x).IsStirred ∨ x ∈ nodes := by
  induction nodes generalizing f with
  | nil => exact .inl hx
  | cons a rest ih =>
    rcases ih hx with hx | hx
    · by_cases ha : a = x
      · exact .inr (ha ▸ List.mem_cons_self)
      · rw [mark, entry_update_of_ne ha] at hx
        exact .inl hx
    · exact .inr (List.mem_cons_of_mem a hx)

/-- Only the nodes above a given one are told. -/
lemma isStirred_markAbove (h : f.view.IsForest) (hx : ((f.markAbove n).view.entry x).IsStirred) :
    (f.view.entry x).IsStirred ∨ IsAbove f.view.parent x n := by
  rw [markAbove] at hx
  split at hx
  · exact .inl hx
  · next p hp =>
    refine (isStirred_foldl_mark (f.ancestors p) hx).imp_right fun hmem => ?_
    rw [← parent_view] at hp
    exact isAbove_iff_parent.2 ⟨p, hp, ((mem_ancestors_iff h).1 hmem).2⟩

/-- To record the children of a container concerns the container and its ancestors. -/
lemma isStirred_recordChildren (h : f.view.IsForest)
    (hx : ((f.recordChildren container).view.entry x).IsStirred) :
    (f.view.entry x).IsStirred ∨ Covers f.view.parent x container := by
  have hnow : (f.update container fun item => { item with record :=
      { item.record with children := item.record.children.or item.children } }).now = f.now :=
    now_update_of_settle fun _ => rfl
  rcases isStirred_markAbove (isForest_congr hnow h) hx with hx | hx
  · by_cases hself : container = x
    · exact .inr (hself ▸ .refl _)
    · rw [entry_update_of_ne hself] at hx
      exact .inl hx
  · rw [parent_congr hnow] at hx
    exact .inr hx.covers

lemma isStirred_relink (h : f.view.IsForest)
    (hx : ((f.relink n container arrange up).view.entry x).IsStirred) :
    (f.view.entry x).IsStirred ∨ Covers f.view.parent x container := by
  have hnow := now_recordParent f n
  have hx := isStirred_update (by exact fun _ h => h) (isStirred_update (by exact fun _ h => h) hx)
  rcases isStirred_recordChildren (isForest_congr hnow h) hx with hx | hx
  · exact .inl (isStirred_update (by exact fun _ h => h) hx)
  · exact .inr (parent_congr hnow ▸ hx)

/-! ### Steps -/

lemma Propagates.add (h : f.Propagates) (hnew : f.contains ⟨f.nextNumber⟩ = false) :
    (f.add tag children).2.Propagates := by
  intro x p hx hp
  rw [parent_add hnew] at hp
  by_cases hself : x = ⟨f.nextNumber⟩
  · rw [hself, entry_add_self] at hx
    simp [Entry.IsStirred] at hx
  · rw [entry_add_of_ne hself] at hx
    have hne : p ≠ ⟨f.nextNumber⟩ := by
      rintro rfl
      have hold := h x _ hx hp
      rw [entry_of_get?_none (Option.not_isSome_iff_eq_none.1 (Bool.eq_false_iff.1 hnew))] at hold
      simp [Entry.IsMarked] at hold
    rw [entry_add_of_ne hne]
    exact h x p hx hp

/-- A node that is hung below a container, or below none, has changed at most together with it, and
the container is marked. -/
lemma Propagates.relink (h : f.Propagates) (hforest : f.view.IsForest) (hn : f.contains n)
    (hc : f.view.isContainer container) (hup : ∀ p, up = some p → p = container) :
    (f.relink n container arrange up).Propagates := by
  intro x p hx hp
  rw [parent_relink hn] at hp
  split at hp
  · obtain rfl := hup p hp
    exact isMarked_relink hforest hn hc (.refl p)
  · rcases isStirred_relink hforest hx with hx | hcov
    · exact (keeps_relink hn).isMarked (h x p hx hp)
    · -- the node gets its marks from the container, and its parent does so too
      exact isMarked_relink hforest hn hc ((Covers.of_parent hp).trans hcov)

lemma Propagates.takeOut (h : f.Propagates) (hforest : f.view.IsForest) (n : NodeId) :
    (f.takeOut n).Propagates := by
  cases hp : f.view.parent n with
  | none => rwa [takeOut_of_top hp]
  | some p =>
    have hc := View.isContainer_of_mem_children ((hforest.mem_children n p).2 hp)
    rw [takeOut_of_parent hp]
    exact h.relink hforest (contains_of_parent_eq_some hp) hc (by simp)

lemma Propagates.move (h : f.Propagates) (hforest : f.view.IsForest) (hn : f.contains child)
    (hc : f.view.isContainer container) : (f.move container index child).Propagates := by
  rw [move_eq]
  apply (h.takeOut hforest child).relink (isForest_takeOut hforest child)
  · exact contains_takeOut.trans hn
  · exact isContainer_takeOut.trans hc
  · exact fun p hp => (Option.some.inj hp).symm

lemma Propagates.redress (h : f.Propagates) (hforest : f.view.IsForest) :
    (f.redress n dressing).Propagates := by
  intro x p hx hp
  rw [parent_redress] at hp
  by_cases hself : n = x
  · subst hself
    exact isMarked_redress hforest dressing (.of_parent hp)
  · rcases isStirred_markAbove (isForest_redressed hforest dressing) hx with hx | habove
    · rw [entry_update_of_ne hself, entry_update_of_ne hself] at hx
      exact (keeps_redress f n dressing).isMarked (h x p hx hp)
    · rw [parent_update (by exact fun _ => rfl), parent_update (by exact fun _ => rfl)] at habove
      exact isMarked_redress hforest dressing ((Covers.of_parent hp).trans_isAbove habove)

/-- Each step by which edits are carried out leaves the parents of changed nodes marked. -/
lemma Step.propagates (h : f.Propagates) (hforest : f.view.IsForest) (hstep : f.Step g) :
    g.Propagates := by
  cases hstep with
  | add hnew hchildren => exact h.add hnew
  | takeOut hroot => exact h.takeOut hforest _
  | move hn hroot hc hancestors hindex => exact h.move hforest hn hc
  | attributes hn change => exact h.redress hforest
  | setting container value =>
    intro x p hx hp
    rw [parent_update (by exact fun _ => rfl)] at hp
    have hkeeps := (Step.setting (f := f) container value).keeps
    exact hkeeps.isMarked (h x p (isStirred_update (by exact fun _ h => h) hx) hp)

lemma Steps.propagates (h : f.Propagates) (hrooted : f.Rooted) (hsteps : f.Steps g) :
    g.Propagates := by
  induction hsteps with
  | refl => exact h
  | tail hsteps hstep ih => exact hstep.propagates ih (Steps.rooted hrooted hsteps).toIsForest

/-! ### Forgetting -/

/-- Where the nodes below a node whose record is forgotten are forgotten as well, no change loses the
mark above it. -/
lemma Propagates.forget (h : f.Propagates) (forgotten : NodeId → Prop)
    (hparent : g.view.parent = f.view.parent) (hclean : ∀ n, forgotten n → g.view.IsClean n)
    (hkept : ∀ n, ¬ forgotten n → g.get? n = f.get? n)
    (hbelow : ∀ n p, f.view.parent n = some p → forgotten p → forgotten n) : g.Propagates := by
  intro n p hn hp
  rw [hparent] at hp
  have hnot : ¬ forgotten n := fun hforgotten => (hclean n hforgotten).not_isStirred hn
  rw [entry_congr (hkept p fun hforgotten => hnot (hbelow n p hp hforgotten))]
  rw [entry_congr (hkept n hnot)] at hn
  exact h n p hn hp

/-- A node is in the same tree as its parent. -/
lemma top?_of_parent (h : f.view.IsForest) (hp : f.view.parent n = some p) :
    f.top? n = f.top? p := by
  rw [top?, top?, ancestors, ancestors, if_pos (contains_of_parent_eq_some hp),
    if_pos (contains_of_parent h hp), View.climb_count h.acyclic, hp, List.getLast?_cons]
  obtain ⟨top, hlast, -⟩ := View.exists_top h.acyclic p
  rw [hlast]
  rfl

lemma Propagates.finish (h : f.Propagates) (hforest : f.view.IsForest) (top : NodeId) :
    (f.finish top).Propagates := by
  refine h.forget (fun n => top = f.root ∨ f.top? n = some top)
    (parent_congr (forgets_finish f top).now_eq) (fun n hn => isClean_of_record fun i hi => ?_)
    (fun n hn => ?_) fun n p hp => ?_
  · rw [get?_finish] at hi
    obtain ⟨j, -, rfl⟩ := Option.map_eq_some_iff.1 hi
    rw [if_pos hn]
    rfl
  · rw [get?_finish]
    simp only [if_neg hn, Option.map_id']
  · rw [top?_of_parent hforest hp]
    exact id

lemma Propagates.pass (h : f.Propagates) (hforest : f.view.IsForest) (differ : Differ)
    (top : NodeId) : (Session.pass ⟨f, differ⟩ top).2.forest.Propagates := by
  cases hpass : (Session.pass ⟨f, differ⟩ top).1 with
  | error e => rwa [forest_of_pass_error hpass]
  | ok delta =>
    obtain ⟨-, hs⟩ := settledBy_of_pass hforest hpass
    refine h.forget (fun n => top = f.root ∨ Covers f.view.parent top n)
      (parent_congr hs.now_eq) (fun n => hs.isClean) (fun n hn => ?_) fun n p hp hcov => ?_
    · rw [not_or] at hn
      exact hs.kept n hn.1 hn.2
    · exact hcov.imp_right fun hcov => hcov.trans (.of_parent hp)

/-! ### All forests -/

/-- Whether a forest comes about from a page that its client shows, by edits, by passes over its trees
and by requests to forget the records of a tree, in any order. -/
inductive Arises : Forest → Prop
  /-- A page to start with. -/
  | begins {f : Forest} {page : Node} (h : f.Begins page) : Arises f
  /-- An edit, accepted or not. There are identifiers for its new nodes. -/
  | edit {f : Forest} (h : Arises f) (e : Edit) (hroom : f.HasRoom e.size) : Arises (f.edit e)
  /-- A pass under any policy, successful or not. -/
  | pass {f : Forest} (h : Arises f) (differ : Differ) (top : NodeId) :
    Arises (Session.pass ⟨f, differ⟩ top).2.forest
  /-- A request to forget the records of a tree. -/
  | finish {f : Forest} (h : Arises f) (top : NodeId) : Arises (f.finish top)

lemma Begins.propagates (h : f.Begins page) : f.Propagates := by
  intro n p hn
  have hpresents := h.presents
  refine absurd hn (isClean_of_record fun i hi => ?_).not_isStirred
  obtain ⟨m, hm, rfl⟩ := Node.mem_ids.1 (hpresents.mem_ids_of_get? hi)
  obtain ⟨j, hj, hshows⟩ := hpresents.item hm
  obtain rfl := Option.some.inj (hj.symm.trans hi)
  exact hshows.record_eq

lemma Arises.propagates (h : f.Arises) : f.Rooted ∧ f.Propagates := by
  induction h with
  | begins h => exact ⟨h.presents.wellFormed.rooted, h.propagates⟩
  | edit _ e hroom ih =>
    have hsteps := ih.1.steps_edit hroom
    exact ⟨hsteps.rooted ih.1, hsteps.propagates ih.2 ih.1⟩
  | pass _ differ top ih =>
    refine ⟨?_, ih.2.pass ih.1.toIsForest differ top⟩
    exact pass_induct differ top ih.1 fun _ _ hforgets hrooted => hrooted.forget hforgets
  | @finish f _ top ih =>
    exact ⟨ih.1.forget (forgets_finish f top), ih.2.finish ih.1.toIsForest top⟩

/-- In every forest that comes about by edits, passes and requests to forget the records of a tree: if
the attributes of a node have changed, its children are recorded or something below it has changed,
then the node's parent is marked, and so are all other nodes above. -/
theorem isMarked_of_arises {f : Forest} (h : f.Arises) :
    (∀ n p, (f.view.entry n).IsStirred → f.view.parent n = some p → (f.view.entry p).IsMarked) ∧
      ∀ n a, (f.view.entry n).IsStirred → IsAbove f.view.parent a n → (f.view.entry a).IsMarked :=
  ⟨h.propagates.2, fun _ _ hn ha => h.propagates.2.isMarked hn ha⟩

/-- A list beside the page gets an entry, a pass goes over the page, the attributes of the entry change,
and the list is put on the page. -/
def hung : Forest :=
  (Session.pass ⟨(new "body").edits
    [.addContainer "ul", .addLeaf "li", .append ⟨1⟩ ⟨2⟩], {}⟩ ⟨0⟩).2.forest.edits
      [.setAttribute ⟨2⟩ "class" "new", .append ⟨0⟩ ⟨1⟩]

/-- The change of the entry can be reached from the top of the page, though the list was not on it
then. -/
theorem isMarked_of_hung :
    hung.Arises ∧ (hung.view.entry ⟨2⟩).IsStirred ∧ (hung.view.entry ⟨1⟩).IsMarked ∧
      (hung.view.entry ⟨0⟩).IsMarked := by
  have harises : hung.Arises :=
    ((((((Arises.begins (.new "body")).edit (.addContainer "ul") (by decide)).edit
      (.addLeaf "li") (by decide)).edit (.append ⟨1⟩ ⟨2⟩) (by decide)).pass {} ⟨0⟩).edit
        (.setAttribute ⟨2⟩ "class" "new") (by decide +kernel)).edit (.append ⟨0⟩ ⟨1⟩)
          (by decide +kernel)
  have hstirred : (hung.view.entry ⟨2⟩).IsStirred := .inl (by decide +kernel)
  have hlist : hung.view.parent ⟨2⟩ = some ⟨1⟩ := by decide +kernel
  have hpage : hung.view.parent ⟨1⟩ = some ⟨0⟩ := by decide +kernel
  obtain ⟨hparent, habove⟩ := isMarked_of_arises harises
  refine ⟨harises, hstirred, hparent ⟨2⟩ ⟨1⟩ hstirred hlist, habove ⟨2⟩ ⟨0⟩ hstirred ?_⟩
  exact (IsAbove.of_parent hpage).trans_covers (.of_parent hlist)

end Forest

end PageSync
