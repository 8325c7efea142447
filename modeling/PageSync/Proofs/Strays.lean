import PageSync.Proofs.Failures
import PageSync.Proofs.Runs

/-!
# Keeping a tree in sync with a client of its own

A client can be kept in sync with a tree that is not the page. Every pass over the tree that succeeds
is accepted, whatever else happens to the forest. But a node that has left the tree keeps the record of
its parent, which the pass does not forget; when it comes back, a pass takes it for a child that has
stayed, and fails. `Run.pass_iff_not_hasStrays` says that this is the only cause: after no edits a pass
fails but for its policy, exactly if there are no such nodes.
-/

namespace PageSync

namespace Forest

variable {f g : Forest} {page shown : Node} {top n : NodeId}

/-- Whether a forest comes about by edits and passes over any of its trees, under any policies, from a
page that its client shows. -/
inductive Reachable : Forest → Prop
  /-- A page to start with. -/
  | begins {f : Forest} {page : Node} (h : f.Begins page) : Reachable f
  /-- An edit, accepted or not. -/
  | edit {f : Forest} (h : Reachable f) (e : Edit) (hroom : f.HasRoom e.size) : Reachable (f.edit e)
  /-- A pass, successful or not. -/
  | pass {f : Forest} (h : Reachable f) (differ : Differ) (top : NodeId) :
    Reachable (Session.pass ⟨f, differ⟩ top).2.forest

lemma Reachable.edits {es : List Edit} (h : f.Reachable) (hallows : f.Allows n es) :
    (f.edits es).Reachable := by
  induction es generalizing f with
  | nil => exact h
  | cons e es ih => exact ih (h.edit e hallows.1) hallows.2.2

lemma Reachable.wellFormed (h : f.Reachable) : f.WellFormed := by
  induction h with
  | begins h => exact h.presents.wellFormed
  | edit _ e hroom ih => exact (steps_edit ih hroom).wellFormed ih
  | @pass f _ differ top ih =>
    cases hpass : (Session.pass ⟨f, differ⟩ top).1 with
    | ok delta => exact (settledBy_of_pass ih.toIsForest hpass).2.wellFormed ih
    | error e => rwa [forest_of_pass_error hpass]

/-- After a pass over one of its trees a forest follows the tree. -/
lemma follows_of_pass {differ : Differ} {delta : Delta} (h : f.WellFormed)
    (hpass : (Session.pass ⟨f, differ⟩ top).1 = .ok delta) :
    (Session.pass ⟨f, differ⟩ top).2.forest.Follows top
      ((Session.pass ⟨f, differ⟩ top).2.forest.view.describe top) := by
  obtain ⟨hdelta, hs⟩ := settledBy_of_pass h.toIsForest hpass
  obtain ⟨-, hknown, htop, -⟩ := Differ.of_pass_eq_ok hdelta
  exact Follows.settledBy h hs htop hknown

/-! ### Deep policies -/

/-- The policy that goes as deep as there are levels. -/
def deepest : Policy := { depthLimit := 18446744073709551615 }

lemma check_deepest : deepest.check = .ok () := rfl

lemma height_le_deepest (hnodup : page.ids.Nodup) : page.height ≤ deepest.depthLimit.toNat :=
  page.height_lt_length_ids.le.trans ((NodeId.length_le_count hnodup).trans (by decide))

lemma depth_le_deepest (h : f.view.IsForest) (n : NodeId) :
    f.view.depth n ≤ deepest.depthLimit.toNat :=
  (View.depth_lt_count h.acyclic n).le.trans (by decide)

/-! ### Strays -/

lemma mem_nodes (hn : f.contains n) : n ∈ f.nodes := by
  rw [contains, get?, Std.TreeMap.isSome_getElem?_iff_mem] at hn
  exact Std.TreeMap.mem_keys.2 hn

lemma hasStrays_iff : f.view.HasStrays page ↔
    ∃ m ∈ page.preorder, m.childList ≠ [] ∧
      ∃ n ∈ f.nodes, f.view.shownParent n = some m.id ∧ n ∉ m.childList.map Node.id := by
  refine ⟨fun ⟨m, hm, hne, n, hn, hnot⟩ => ⟨m, hm, hne, n, ?_, hn, hnot⟩,
    fun ⟨m, hm, hne, n, _, hn, hnot⟩ => ⟨m, hm, hne, n, hn, hnot⟩⟩
  apply mem_nodes
  by_contra hunknown
  rw [View.shownParent, entry_of_get?_none (Option.not_isSome_iff_eq_none.1 hunknown)] at hn
  cases hn

instance (f : Forest) (page : Node) : Decidable (f.view.HasStrays page) :=
  decidable_of_iff' _ hasStrays_iff

namespace Follows

variable (h : f.Follows top page)

include h

/-- A node of the page that has children there is known as it is shown. -/
lemma knows {m : Node} (hm : m ∈ page.preorder) (hne : m.childList ≠ []) : f.Knows m := by
  have hmatches := h.remembers.entry_matches m hm
  have hkind : m.isContainer = true := by
    by_contra hkind
    exact hne (Node.childList_of_isContainer_eq_false (Bool.eq_false_of_not_eq_true hkind))
  exact ⟨hmatches.isContainer_eq.trans hkind, hmatches.shownChildList_eq hkind, hne,
    Node.nodup_map_id_childList (Node.nodup_of_mem h.remembers.nodup hm)⟩

/-- On the way from the top of the page to a node with children all nodes are known. -/
lemma knows_path {m : Node} {rest : List Node} (hpath : page.Path rest m) (hne : m.childList ≠ []) :
    ∀ q ∈ page :: rest, f.Knows q := by
  intro q hq
  apply h.knows (hpath.mem_preorder q hq)
  rcases hpath.childList_ne_nil q hq with rfl | hq
  · exact hne
  · exact hq

/-- A stray is not on the page. -/
lemma notMem_ids_of_stray {m : Node} (hm : m ∈ page.preorder)
    (hn : f.view.shownParent n = some m.id) (hnot : n ∉ m.childList.map Node.id) :
    n ∉ page.ids := by
  intro hmem
  obtain ⟨q, hq, rfl⟩ := Node.mem_ids.1 hmem
  rcases Node.exists_parent hq with rfl | ⟨p, hp, hqp⟩
  · rw [h.id_eq, h.shownParent_top] at hn
    cases hn
  · rw [h.remembers.shownParent_eq p hp q hqp] at hn
    rw [Node.eq_of_id_eq h.remembers.nodup hp hm (Option.some.inj hn)] at hqp
    exact hnot (List.mem_map_of_mem hqp)

/-- Where there are strays, edits lead to a tree that no pass can go over. -/
lemma leads_jams_of_hasStrays (hstrays : f.view.HasStrays page) :
    ∃ es, f.Allows top es ∧ (f.edits es).view.IsForest ∧ (f.edits es).view.Jams top := by
  obtain ⟨m, hm, hne, n, hn, hnot⟩ := hstrays
  obtain ⟨rest, hpath⟩ := Node.exists_path hm
  have hnew := h.notMem_ids_of_stray hm hn hnot
  have hknown : f.contains n := by
    by_contra hunknown
    rw [View.shownParent, entry_of_get?_none (Option.not_isSome_iff_eq_none.1 hunknown)] at hn
    cases hn
  have hroot : n ≠ f.root := by
    rintro rfl
    simp [h.wellFormed.shownParent_root] at hn
  have hpathids : n ∉ (page :: rest).map Node.id := fun hmem => by
    obtain ⟨q, hq, hid⟩ := List.mem_map.1 hmem
    exact hnew (Node.mem_ids.2 ⟨q, hpath.mem_preorder q hq, hid⟩)
  have hjams := leads_jams h.wellFormed h.remembers.nodup hpath h.remembers.parent_top
    (h.knows_path hpath hne)
    (fun c _ p hp hc => h.remembers.shownParent_eq p hp c hc) hknown hroot hpathids
    fun hiff => hnot (hiff.2 hn)
  rwa [h.id_eq] at hjams

end Follows

end Forest

open Forest

/-- If a client starts with a tree as it is after a successful pass, and the tree is not hung below
another node, then each pass over it that succeeds sends operations that the client accepts one by one,
and the client then shows the tree as the forest describes it. After whatever edits, no pass under a
policy that can be followed and goes deep enough fails exactly if no node outside of the page that is
shown is recorded as a child of a container there that has children. -/
theorem Run.pass_iff_not_hasStrays {f g : Forest} {shown : Node} {top : NodeId} {differ : Differ}
    {delta : Delta} (hreachable : f.Reachable)
    (hpass : (Session.pass ⟨f, differ⟩ top).1 = .ok delta)
    (hrun : Run top (Session.pass ⟨f, differ⟩ top).2.forest
      ((Session.pass ⟨f, differ⟩ top).2.forest.view.describe top) g shown) :
    (∀ differ delta, (Session.pass ⟨g, differ⟩ top).1 = .ok delta →
      ∃ shown', shown.applyAll? delta.operations = some shown' ∧
        (Session.pass ⟨g, differ⟩ top).2.forest.describe top = .ok shown') ∧
    ((∀ es differ, g.Allows top es → differ.policy.check = .ok () →
        shown.height ≤ differ.policy.depthLimit.toNat →
        (∀ n, (g.edits es).contains n → (g.edits es).view.depth n ≤ differ.policy.depthLimit.toNat) →
        ∃ delta, (Session.pass ⟨g.edits es, differ⟩ top).1 = .ok delta) ↔
      ¬ g.view.HasStrays shown) := by
  have hfollows := hrun.follows (follows_of_pass hreachable.wellFormed hpass)
  refine ⟨fun differ delta hpass => exists_accepted hfollows hpass, ?_, ?_⟩
  · intro hok hstrays
    obtain ⟨es, hallows, hforest, hjams⟩ := hfollows.leads_jams_of_hasStrays hstrays
    obtain ⟨delta, hdelta⟩ := hok es { policy := deepest } hallows check_deepest
      (height_le_deepest hfollows.remembers.nodup) fun n _ => depth_le_deepest hforest n
    exact Differ.pass_ne_ok_of_jams hforest hjams ((fst_pass _ _ _).symm.trans hdelta)
  · intro hstrays es differ hallows hpolicy hheight hdepth
    have hafter := hfollows.edits hallows
    have hkeeps := (steps_edits hfollows.wellFormed hallows).keeps
    refine hafter.exists_pass_ok hpolicy (fun hstrays' => hstrays ?_) hheight
      fun n hn => hdepth n (hafter.contains hn)
    obtain ⟨m, hm, hne, n, hn, hnot⟩ := hstrays'
    exact ⟨m, hm, hne, n, (hkeeps.shownParent_eq n).symm.trans hn, hnot⟩

/-! ### A list outside of the page -/

namespace Forest

/-- Makes a detached list of two entries. -/
def listing : List Edit :=
  [.addContainer "ul", .addLeaf "a", .addLeaf "b", .append ⟨1⟩ ⟨2⟩, .append ⟨1⟩ ⟨3⟩]

/-- An empty page with a list beside it, after a pass over the list. -/
def listed : Forest := (Session.pass ⟨(new "body").edits listing, {}⟩ ⟨1⟩).2.forest

/-- The same after an entry has been taken out of the list, and another pass over the list. -/
def shortened : Forest := (Session.pass ⟨listed.edit (.remove ⟨3⟩), {}⟩ ⟨1⟩).2.forest

end Forest

/-- As long as no pass has gone without it, an entry that is taken out of the list can be put back. -/
theorem Run.pass_restored :
    ∃ delta, (Session.pass ⟨(listed.edit (.remove ⟨3⟩)).edits [.append ⟨1⟩ ⟨3⟩], {}⟩ ⟨1⟩).1 =
      .ok delta := by
  have hallows : (new "body").Allows ⟨0⟩ listing := by decide +kernel
  obtain ⟨delta, hdelta⟩ :
      ∃ delta, (Session.pass ⟨(new "body").edits listing, {}⟩ ⟨1⟩).1 = .ok delta :=
    exists_eq_ok (by decide +kernel)
  have hrun : Run ⟨1⟩ listed (listed.view.describe ⟨1⟩) (listed.edit (.remove ⟨3⟩))
      (listed.view.describe ⟨1⟩) :=
    Run.start.edit (.remove ⟨3⟩) (by decide +kernel) (by decide +kernel)
  have hreachable : ((new "body").edits listing).Reachable :=
    (Reachable.begins (.new "body")).edits hallows
  have hdepth : ∀ n ∈ ((listed.edit (.remove ⟨3⟩)).edits [.append ⟨1⟩ ⟨3⟩]).nodes,
      ((listed.edit (.remove ⟨3⟩)).edits [.append ⟨1⟩ ⟨3⟩]).view.depth n ≤ 512 := by
    decide +kernel
  exact (Run.pass_iff_not_hasStrays hreachable hdelta hrun).2.2 (by decide +kernel)
    [.append ⟨1⟩ ⟨3⟩] {} (by decide +kernel) rfl (by decide +kernel) fun n hn => hdepth n (mem_nodes hn)

/-- After a pass that goes without the entry, the entry cannot come back: the next pass fails, though it
goes deeper than any of the trees and only passes over the list have been run. -/
theorem Run.not_pass_shortened :
    listed.Reachable ∧ (∃ delta, (Session.pass ⟨(new "body").edits listing, {}⟩ ⟨1⟩).1 = .ok delta) ∧
      Run ⟨1⟩ listed (listed.view.describe ⟨1⟩) (shortened.edit (.append ⟨1⟩ ⟨3⟩))
        (shortened.view.describe ⟨1⟩) ∧
      (∀ n, (shortened.edit (.append ⟨1⟩ ⟨3⟩)).contains n →
        (shortened.edit (.append ⟨1⟩ ⟨3⟩)).view.depth n ≤ ({} : Policy).depthLimit.toNat) ∧
      ¬ ∃ delta, (Session.pass ⟨shortened.edit (.append ⟨1⟩ ⟨3⟩), {}⟩ ⟨1⟩).1 = .ok delta := by
  have hallows : (new "body").Allows ⟨0⟩ listing := by decide +kernel
  have hrun : Run ⟨1⟩ listed (listed.view.describe ⟨1⟩) (listed.edit (.remove ⟨3⟩))
      (listed.view.describe ⟨1⟩) :=
    Run.start.edit (.remove ⟨3⟩) (by decide +kernel) (by decide +kernel)
  obtain ⟨delta, hdelta⟩ :
      ∃ delta, (Session.pass ⟨listed.edit (.remove ⟨3⟩), {}⟩ ⟨1⟩).1 = .ok delta :=
    exists_eq_ok (by decide +kernel)
  have hclient : (Session.pass ⟨listed.edit (.remove ⟨3⟩), {}⟩ ⟨1⟩).1.toOption.bind (fun delta =>
      (listed.view.describe ⟨1⟩).applyAll? delta.operations) = some (shortened.view.describe ⟨1⟩) := by
    decide +kernel
  rw [hdelta] at hclient
  refine ⟨((Reachable.begins (.new "body")).edits hallows).pass {} ⟨1⟩,
    exists_eq_ok (by decide +kernel), ?_, ?_, ?_⟩
  · exact (hrun.passed {} hdelta hclient).edit (.append ⟨1⟩ ⟨3⟩) (by decide +kernel)
      (by decide +kernel)
  · intro n hn
    have hdepth : ∀ n ∈ (shortened.edit (.append ⟨1⟩ ⟨3⟩)).nodes,
        (shortened.edit (.append ⟨1⟩ ⟨3⟩)).view.depth n ≤ ({} : Policy).depthLimit.toNat := by
      decide +kernel
    exact hdepth n (mem_nodes hn)
  · rintro ⟨delta, hdelta⟩
    have hfails : (Session.pass ⟨shortened.edit (.append ⟨1⟩ ⟨3⟩), {}⟩ ⟨1⟩).1.isOk = false := by
      decide +kernel
    rw [hdelta] at hfails
    cases hfails

end PageSync
