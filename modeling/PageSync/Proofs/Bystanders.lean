import PageSync.Proofs.Agreement
import PageSync.Proofs.Likeness
import PageSync.Proofs.Strays

/-!
# Passes over other trees than the page

A pass over a tree that is detached from the page forgets the records of all its nodes. As long as the
client of the page shows none of these nodes, later passes over the page take no notice. But if it does
show one of them, the records that are left contradict what has been forgotten, and edits can make the
next pass over the page fail for it (`Run.pass_after_detached_iff`).
-/

namespace PageSync

namespace Forest

variable {f g : Forest} {page : Node} {top other n : NodeId}

/-! ### The page and a tree beside it -/

lemma SettledBy.alike (hs : f.SettledBy other g) (hother : other ≠ f.root)
    (hdisjoint : ∀ n ∈ page.ids, ¬ Covers f.view.parent other n) : Alike (· ∈ page.ids) f g :=
  ⟨hs.root_eq, hs.nextNumber_eq, hs.now_eq, fun n hn => hs.kept n hother (hdisjoint n hn)⟩

/-- A node whose record has been forgotten is not recorded below a node of another tree. -/
lemma SettledBy.shownParent_ne {m : NodeId} (hs : f.SettledBy other g)
    (htop : f.view.parent other = none) (hn : Covers f.view.parent other n)
    (hm : ¬ Covers f.view.parent other m) : g.view.shownParent n ≠ some m := by
  rw [(hs.isSettled (.inr hn)).2, parent_congr hs.now_eq]
  intro hparent
  rcases covers_iff_eq_or_isAbove.1 hn with rfl | habove
  · rw [htop] at hparent
    cases hparent
  · exact hm (habove.covers_parent hparent)

/-- To forget the records of nodes off the page keeps the records of the page exact. -/
lemma SettledBy.isExact (hs : f.SettledBy other g) (hexact : f.view.IsExact page)
    (hother : other ≠ f.root) (htop : f.view.parent other = none)
    (hdisjoint : ∀ n ∈ page.ids, ¬ Covers f.view.parent other n) : g.view.IsExact page := by
  intro m hm n hn
  by_cases hcov : Covers f.view.parent other n
  · exact absurd hn (hs.shownParent_ne htop hcov (hdisjoint m.id (Node.mem_ids.2 ⟨m, hm, rfl⟩)))
  · rw [View.shownParent, entry_congr (hs.kept n hother hcov)] at hn
    exact hexact m hm n hn

namespace Follows

variable (h : f.Follows top page)

include h

/-- A forest still follows the page after a pass over a tree without nodes of the page. -/
lemma of_settledBy (hs : f.SettledBy other g) (hother : other ≠ f.root)
    (hdisjoint : ∀ n ∈ page.ids, ¬ Covers f.view.parent other n) : g.Follows top page := by
  have hwell := hs.wellFormed h.wellFormed
  have hentry (m : Node) (hm : m ∈ page.preorder) : g.view.entry m.id = f.view.entry m.id :=
    entry_congr (hs.kept m.id hother (hdisjoint m.id (Node.mem_ids.2 ⟨m, hm, rfl⟩)))
  refine ⟨hwell, ?_, h.id_eq, ?_, ?_⟩
  · exact {
      toIsForest := hwell.toIsForest
      nodup := h.remembers.nodup
      entry_matches := fun m hm => by
        rw [hentry m hm]
        exact h.remembers.entry_matches m hm
      shownParent_eq := fun m hm c hc => by
        rw [View.shownParent, hentry c (Node.mem_preorder_of_mem_childList hm hc)]
        exact h.remembers.shownParent_eq m hm c hc
      parent_top := by
        rw [parent_congr hs.now_eq]
        exact h.remembers.parent_top
      reaches := hwell.reaches }
  · rw [contains_congr hs.now_eq]
    exact h.contains_top
  · rw [← h.id_eq, View.shownParent, hentry page page.self_mem_preorder, h.id_eq]
    exact h.shownParent_top

lemma isExact_edits {es : List Edit} (hallows : f.Allows n es) (hexact : f.view.IsExact page) :
    (f.edits es).view.IsExact page := by
  intro m hm n hn
  rw [(steps_edits h.wellFormed hallows).keeps.shownParent_eq] at hn
  exact hexact m hm n hn

/-- Forests that are alike up to nodes off the page look the same to a pass over the page. -/
lemma agrees (halike : Alike (· ∈ page.ids) f g) (hf : f.view.IsExact page)
    (hg : g.view.IsExact page) {policy policy' : Policy} (hpolicy : policy' = policy) :
    Pass.Agrees (· ∈ page.ids) ⟨f.view, policy, top⟩ ⟨g.view, policy', top⟩ where
  policy_eq := hpolicy
  root_eq := rfl
  parent_eq := parent_congr halike.now_eq
  now_eq n := by
    obtain ⟨htag, hattributes, hchildren, -⟩ := entry_present_congr halike.now_eq n
    exact ⟨htag, hattributes, hchildren⟩
  entry_eq n hn := entry_congr (halike.get?_eq n hn)
  shownParent_iff c hc n := by
    obtain ⟨m, hm, rfl⟩ := Node.mem_ids.1 hc
    have hentry (hn : n ∈ m.childList.map Node.id) : g.view.shownParent n = f.view.shownParent n := by
      obtain ⟨d, hd, rfl⟩ := List.mem_map.1 hn
      have hmem := Node.mem_ids.2 ⟨d, Node.mem_preorder_of_mem_childList hm hd, rfl⟩
      rw [View.shownParent, View.shownParent, entry_congr (halike.get?_eq d.id hmem)]
    constructor
    · intro hn
      rwa [← hentry (hg m hm n hn)]
    · intro hn
      rwa [hentry (hf m hm n hn)]
  isShown_of_mem n hn hkind x hx := by
    obtain ⟨m, hm, rfl⟩ := Node.mem_ids.1 hn
    have hmatches := h.remembers.entry_matches m hm
    rw [hmatches.shownChildList_eq (hmatches.isContainer_eq.symm.trans hkind)] at hx
    obtain ⟨d, hd, rfl⟩ := List.mem_map.1 hx
    exact Node.mem_ids.2 ⟨d, Node.mem_preorder_of_mem_childList hm hd, rfl⟩

/-- A pass over the page takes no notice of an earlier pass over a tree without nodes of the page. -/
lemma fst_pass_eq {es : List Edit} {differ differ' : Differ} (hexact : f.view.IsExact page)
    (hs : f.SettledBy other g) (hother : other ≠ f.root) (htop : f.view.parent other = none)
    (hdisjoint : ∀ n ∈ page.ids, ¬ Covers f.view.parent other n) (hallows : f.Allows top es)
    (hpolicy : differ'.policy = differ.policy) :
    (Session.pass ⟨g.edits es, differ'⟩ top).1 = (Session.pass ⟨f.edits es, differ⟩ top).1 := by
  have halike := hs.alike hother hdisjoint
  have hexact' := hs.isExact hexact hother htop hdisjoint
  have hagrees := (h.edits hallows).agrees (halike.edits es) (h.isExact_edits hallows hexact)
    ((h.of_settledBy hs hother hdisjoint).isExact_edits (halike.allows hallows) hexact')
      hpolicy
  rw [fst_pass, fst_pass]
  refine Differ.fst_pass_eq_of_agrees hagrees
    (congrFun (halike.edits es).contains_eq top) ?_
  exact h.id_eq ▸ Node.mem_ids.2 ⟨page, page.self_mem_preorder, rfl⟩

/-- After a pass over a tree with nodes of the page, edits lead to a page that no pass can go over. -/
lemma leads_jams_of_settledBy {x : NodeId} (hs : f.SettledBy other g) (hroot : top = f.root)
    (hother : other ≠ f.root) (htop : f.view.parent other = none) (hx : x ∈ page.ids)
    (hcov : Covers f.view.parent other x) :
    ∃ es, g.Allows top es ∧ (g.edits es).view.IsForest ∧ (g.edits es).view.Jams top := by
  have hrootcov : ¬ Covers f.view.parent other f.root := fun hcov =>
    hother (hcov.eq_of_top h.wellFormed.parent_root)
  obtain ⟨q, hq, rfl⟩ := Node.mem_ids.1 hx
  obtain ⟨rest, m, c, hpath, hc, hcovc, hrest⟩ := Node.exists_path_until
    (Covers f.view.parent other) (by rwa [h.id_eq, hroot]) hq hcov
  have hentry (p : Node) (hp : p ∈ page :: rest) : g.view.entry p.id = f.view.entry p.id :=
    entry_congr (hs.kept p.id hother (hrest p hp))
  have hknows : ∀ p ∈ page :: rest, g.Knows p := fun p hp =>
    (h.knows_path hpath (List.ne_nil_of_mem hc) p hp).congr (hentry p hp)
  have hmem : m ∈ page :: rest := hpath.getLast_eq ▸ List.getLast_mem _
  -- the record of the first node is forgotten, that of its shown parent is not
  have hparent : g.view.shownParent c.id ≠ some m.id :=
    hs.shownParent_ne htop hcovc (hrest m hmem)
  have hjams := leads_jams (hs.wellFormed h.wellFormed) h.remembers.nodup hpath
    (by rw [parent_congr hs.now_eq]; exact h.remembers.parent_top) hknows
    (fun d hd p hp hdp => ?_) (n := c.id) ?_ ?_ ?_
    fun hiff => hparent (hiff.1 (List.mem_map_of_mem hc))
  · rwa [h.id_eq] at hjams
  · rw [View.shownParent, hentry d (List.mem_cons_of_mem page hd)]
    exact h.remembers.shownParent_eq p hp d hdp
  · rw [contains_congr hs.now_eq]
    exact h.contains (Node.mem_ids.2 ⟨c, Node.mem_preorder_of_mem_childList hpath.mem hc, rfl⟩)
  · rintro heq
    rw [heq, hs.root_eq] at hcovc
    exact hrootcov hcovc
  · intro hid
    obtain ⟨p, hp, hpc⟩ := List.mem_map.1 hid
    exact hrest p hp (hpc ▸ hcovc)

end Follows

end Forest

open Forest

/-- A pass over a detached tree leaves the results of all later passes over the page as they would have
been without it, after whatever edits, exactly if the client of the page shows none of the nodes of the
tree. -/
theorem Run.pass_after_detached_iff {f g : Forest} {page shown : Node} {other : NodeId}
    {differ : Differ} {delta : Delta} (hbegins : f.Begins page)
    (hrun : Run f.root f page g shown) (hother : other ≠ g.root)
    (hpass : (Session.pass ⟨g, differ⟩ other).1 = .ok delta) :
    (∀ es differ₁ differ₂, g.Allows g.root es → differ₁.policy = differ₂.policy →
        (Session.pass ⟨(Session.pass ⟨g, differ⟩ other).2.forest.edits es, differ₁⟩ g.root).1.map
            (·.operations) =
          (Session.pass ⟨g.edits es, differ₂⟩ g.root).1.map (·.operations)) ↔
      ∀ n ∈ (g.view.describe other).ids, n ∉ shown.ids := by
  obtain ⟨hfollows, hexact⟩ := hrun.follows_root hbegins
  have hforest := hfollows.wellFormed.toIsForest
  obtain ⟨hdelta, hs⟩ := settledBy_of_pass hforest hpass
  obtain ⟨-, -, htop, -⟩ := Differ.of_pass_eq_ok hdelta
  constructor
  · intro hsame n hn hshown
    obtain ⟨es, hallows, hforest', hjams⟩ := hfollows.leads_jams_of_settledBy hs rfl hother htop hshown
      (hforest.mem_ids_describe.1 hn)
    have halike : Alike (fun _ => False) (Session.pass ⟨g, differ⟩ other).2.forest g :=
      ⟨hs.root_eq.symm, hs.nextNumber_eq.symm, hs.now_eq.symm, fun _ h => h.elim⟩
    have hallows := halike.allows hallows
    have hafter := hfollows.edits hallows
    obtain ⟨delta, hdelta⟩ : ∃ delta,
        (Session.pass ⟨g.edits es, { policy := deepest }⟩ g.root).1 = .ok delta :=
      hafter.exists_pass_ok check_deepest (hfollows.isExact_edits hallows hexact).not_hasStrays
        (height_le_deepest hafter.remembers.nodup)
        fun n _ => depth_le_deepest hafter.wellFormed.toIsForest n
    have hsame := hsame es { policy := deepest } { policy := deepest } hallows rfl
    rw [hdelta] at hsame
    cases hdelta' : (Session.pass ⟨(Session.pass ⟨g, differ⟩ other).2.forest.edits es,
        { policy := deepest }⟩ g.root).1 with
    | error e =>
      rw [hdelta'] at hsame
      cases hsame
    | ok delta' =>
      exact Differ.pass_ne_ok_of_jams hforest' hjams ((fst_pass _ _ _).symm.trans hdelta')
  · intro hdisjoint es differ₁ differ₂ hallows hpolicy
    have hdisjoint' : ∀ n ∈ shown.ids, ¬ Covers g.view.parent other n := fun n hn hcov =>
      hdisjoint n (hforest.mem_ids_describe.2 hcov) hn
    rw [hfollows.fst_pass_eq hexact hs hother htop hdisjoint' hallows hpolicy]

/-- An empty page, and beside it a list that has never been on the page. -/
def Forest.beside : Forest := (new "body").edit (.addContainer "ul")

/-- A pass over the list makes no difference to the page that the list is put on. -/
theorem Run.pass_after_detached_new :
    (Session.pass ⟨(Session.pass ⟨beside, {}⟩ ⟨1⟩).2.forest.edits [.append ⟨0⟩ ⟨1⟩], {}⟩ ⟨0⟩).1.map
        (·.operations) =
      (Session.pass ⟨beside.edits [.append ⟨0⟩ ⟨1⟩], {}⟩ ⟨0⟩).1.map (·.operations) := by
  have hallows : (new "body").Allows ⟨0⟩ [.addContainer "ul"] := by decide +kernel
  have hrun : Run ⟨0⟩ (new "body") (.container ⟨0⟩ "body" .empty []) beside
      (.container ⟨0⟩ "body" .empty []) := Run.start.edits hallows
  obtain ⟨delta, hdelta⟩ : ∃ delta, (Session.pass ⟨beside, {}⟩ ⟨1⟩).1 = .ok delta :=
    exists_eq_ok (by decide +kernel)
  exact (Run.pass_after_detached_iff (.new "body") hrun (by decide) hdelta).2 (by decide +kernel)
    [.append ⟨0⟩ ⟨1⟩] {} {} (by decide +kernel) rfl

/-! ### A container that comes back to the page -/

/-- A page with an empty container. -/
def Node.divided : Node := .container ⟨0⟩ "body" .empty [.container ⟨1⟩ "div" .empty []]

/-- The page, loaded. -/
def Forest.divided : Forest := (ofPage Node.divided).toOption.getD (new "body")

/-- Between taking the container out of the page and putting it back, a pass over the container makes
the difference whether the page can be sent. -/
theorem Run.pass_after_detached_ne :
    divided.Begins Node.divided ∧
      Run ⟨0⟩ divided Node.divided (divided.edit (.remove ⟨1⟩)) Node.divided ∧
      (∃ delta, (Session.pass ⟨divided.edit (.remove ⟨1⟩), {}⟩ ⟨1⟩).1 = .ok delta) ∧
      (Session.pass ⟨(Session.pass ⟨divided.edit (.remove ⟨1⟩), {}⟩ ⟨1⟩).2.forest.edits
          [.append ⟨0⟩ ⟨1⟩], {}⟩ ⟨0⟩).1.map (·.operations) ≠
        (Session.pass ⟨(divided.edit (.remove ⟨1⟩)).edits [.append ⟨0⟩ ⟨1⟩], {}⟩ ⟨0⟩).1.map
          (·.operations) := by
  have hallows : divided.Allows ⟨0⟩ [.remove ⟨1⟩] := by decide +kernel
  obtain ⟨f, hf⟩ : ∃ f, ofPage Node.divided = .ok f := exists_eq_ok (by decide +kernel)
  have hload : ofPage Node.divided = .ok divided := by
    rw [divided, hf]
    rfl
  refine ⟨.load hload, Run.start.edits hallows, exists_eq_ok (by decide +kernel), fun heq => ?_⟩
  have hok := congrArg Except.isOk heq
  revert hok
  decide +kernel

end PageSync
