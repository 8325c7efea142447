import PageSync.Proofs.Bystanders
import PageSync.Proofs.Histories
import PageSync.Proofs.Ratios

/-!
# Edits that cancel out

If the children of all nodes on a page are those that are shown again, then a pass over the page sends
nothing, whatever has been recorded in between (`Forest.IsSent.pass_of_restored`). For a container with
recorded children is compared then, none of the children is removed or inserted, and no threshold makes
anything of that.
-/

namespace PageSync

variable {view : View} {page t : Node} {differ : Differ}

/-- Whether a node is as it is shown: it has the same children, and its attributes are not marked as
changed. If its children are to be compared nevertheless, then not to be sent anew on every change. -/
structure View.IsStillAt (view : View) (m : Node) : Prop where
  /-- The children are those that are shown. -/
  children_eq : view.children m.id = m.childList.map Node.id
  /-- The attributes are those that are shown. -/
  attributesChanged_eq : (view.entry m.id).attributesChanged = false
  /-- The children are compared, if there is anything to compare. -/
  replacesChildren_eq : (view.entry m.id).compared.isSome →
    (view.entry m.id).replacesChildren = false

/-- Whether all nodes of a tree are as they are shown. -/
def View.IsStill (view : View) (t : Node) : Prop := ∀ m ∈ t.preorder, view.IsStillAt m

/-- Whether the nodes on a page are still below the nodes that they are shown below. -/
def View.StaysPut (view : View) (page : Node) : Prop :=
  ∀ m ∈ page.preorder, ∀ c ∈ m.childList, view.parent c.id = some m.id

namespace View

lemma IsStill.staysPut (h : view.IsStill page) (hforest : view.IsForest) : view.StaysPut page :=
  fun m hm _ hc => hforest.parent_of_mem ((h m hm).children_eq ▸ List.mem_map_of_mem hc)

lemma IsStill.child {c : Node} (h : view.IsStill t) (hc : c ∈ t.childList) : view.IsStill c :=
  fun m hm => h m (Node.preorder_subset (Node.mem_preorder_of_mem_childList t.self_mem_preorder hc) hm)

lemma StaysPut.covers (h : view.StaysPut page) (ht : t ∈ page.preorder) {n : NodeId}
    (hn : n ∈ t.ids) : Covers view.parent t.id n := by
  induction t using Node.induct_childList with
  | step t ih =>
    rcases Node.mem_ids_iff.1 hn with rfl | ⟨c, hc, hn⟩
    · exact .refl _
    · exact (Covers.of_parent (h t ht c hc)).trans
        (ih c hc (Node.mem_preorder_of_mem_childList ht hc) hn)

/-- On a page whose nodes stay where they are shown, nothing is pending below an unmarked one. -/
lemma StaysPut.not_isPending (hput : view.StaysPut page) (h : view.Remembers page)
    (ht : t ∈ page.preorder) (hcompared : (view.entry t.id).compared = none)
    (hunmarked : (view.entry t.id).changedBelow = false) {n : NodeId}
    (hn : n ∈ t.childList.flatMap Node.ids) : ¬ (view.entry n).IsPending := by
  intro hpending
  obtain ⟨c, hc, hn⟩ := List.mem_flatMap.1 hn
  have habove : IsAbove view.parent t.id n := (IsAbove.of_parent (hput t ht c hc)).trans_covers
    (hput.covers (Node.mem_preorder_of_mem_childList ht hc) hn)
  have hnone := unmarked_of_compared_none hcompared hunmarked (h.reaches n t.id hpending habove)
  rw [h.children_of_compared_none ht hcompared, List.map_eq_nil_iff] at hnone
  simp [hnone] at hc

/-- On a page whose nodes stay where they are shown, none of them is deeper. -/
lemma StaysPut.depth_le (h : view.StaysPut page) (hacyclic : Acyclic view.parent)
    (ht : t ∈ page.preorder) {n : NodeId} (hn : n ∈ t.ids) :
    view.depth n ≤ view.depth t.id + t.height := by
  induction t using Node.induct_childList with
  | step t ih =>
    rcases Node.mem_ids_iff.1 hn with rfl | ⟨c, hc, hn⟩
    · exact Nat.le_add_right _ _
    · have hbelow := ih c hc (Node.mem_preorder_of_mem_childList ht hc) hn
      have hheight := Node.height_lt_of_mem_childList hc
      rw [depth_of_parent hacyclic (h t ht c hc)] at hbelow
      omega

/-- If the page is not too deep, none of its subtrees is. -/
lemma StaysPut.within (h : view.StaysPut page) (hacyclic : Acyclic view.parent) {limit : Nat}
    (hwithin : view.Within page limit) (ht : t ∈ page.preorder) : view.Within t limit := by
  induction page using Node.induct_childList with
  | step page ih =>
    rcases Node.mem_preorder_iff.1 ht with rfl | ⟨c, hc, ht⟩
    · exact hwithin
    · have hmem := Node.mem_preorder_of_mem_childList page.self_mem_preorder hc
      exact ih c hc (fun m hm => h m (Node.preorder_subset hmem hm))
        (hwithin.child hacyclic hc (h page page.self_mem_preorder c hc)) ht

/-- None is deeper below the top than the page is high. -/
lemma StaysPut.depth_le_height (h : view.StaysPut page) (hdepicts : view.Depicts page) {n : NodeId}
    (hn : n ∈ page.ids) : view.depth n ≤ page.height := by
  have hle := h.depth_le hdepicts.acyclic page.self_mem_preorder hn
  rwa [depth_of_top hdepicts.acyclic hdepicts.parent_top, Nat.zero_add] at hle

end View

namespace Pass

variable {pass : Pass} {share : Share} {c : NodeId} {kept nodes shown current : List NodeId}
  {parts : List (Node × Share)}

lemma insertions_eq_nil (hkept : ∀ n ∈ nodes, n ∈ kept) (before : Option NodeId) :
    pass.insertions c kept before nodes = [] := by
  induction nodes generalizing before with
  | nil => rfl
  | cons n rest ih =>
    rw [insertions, if_pos (hkept n List.mem_cons_self), List.nil_append]
    exact ih (fun m hm => hkept m (List.mem_cons_of_mem n hm)) _

/-- Children that are as many as the shown ones are not sent anew without any comparison. -/
lemma sendsAnew_of_length_eq (hne : shown ≠ []) (hlength : shown.length = current.length)
    (hflag : (pass.view.entry c).replacesChildren = false) :
    pass.sendsAnew c shown current = false := by
  rw [sendsAnew, hflag, hlength, Policy.prefersReplacement_self]
  simpa using hne

lemma shown_ne_nil_of_compared (hcompared : (pass.view.entry c).compared = some (nodes, nodes)) :
    nodes ≠ [] := by
  rintro rfl
  obtain ⟨hcurrent, hshown⟩ := View.of_compared_eq_some hcompared
  simp [Entry.compared, hcurrent, hshown] at hcompared

/-- Children because of which nothing is planned contribute nothing. -/
lemma flatMap_eq_nil (hparts : ∀ p ∈ parts, p.2 = {}) : parts.flatMap (·.2.deleted) = [] ∧
    parts.flatMap (·.2.altered) = [] ∧ parts.flatMap (·.2.rest) = [] := by
  simp +contextual [hparts]

/-- What is removed of children that have all stayed is what is moved. -/
lemma removals_of_stayed (hshown : ∀ n ∈ shown, pass.view.parent n = some c)
    (hcurrent : ∀ n ∈ current, pass.view.shownParent n = some c) :
    pass.removals c shown current = relocated shown current := by
  have hgone : shown.filter (fun n => pass.view.parent n ≠ some c) = [] :=
    List.filter_eq_nil_iff.2 fun n hn => by simp [hshown n hn]
  rw [removals, hgone, List.nil_append, List.filter_eq_self.2 fun n hn => by simp [hshown n hn],
    List.filter_eq_self.2 fun n hn => by simp [hcurrent n hn]]

/-- What is inserted then is what is moved. -/
lemma arrivals_of_subset (hsubset : current ⊆ shown) :
    pass.arrivals c shown current = current.filter (· ∈ pass.removals c shown current) :=
  List.filter_congr fun n hn => by simp [hsubset hn]

section Depicts

variable (h : pass.view.Depicts page) (ht : t ∈ page.preorder)

include h ht

/-- If the shown children are the current ones in some order, then some of them are moved. -/
lemma removals_of_perm (hcompared : (pass.view.entry t.id).compared = some (shown, current))
    (hperm : shown.Perm current) : pass.removals t.id shown current = relocated shown current := by
  obtain ⟨hcurrent, hshown⟩ := h.children_of_compared_some ht hcompared
  apply removals_of_stayed
  · exact fun n hn => h.parent_of_mem (hcurrent ▸ hperm.mem_iff.1 hn)
  · intro n hn
    obtain ⟨k, hk, rfl⟩ := List.mem_map.1 (hshown ▸ hperm.mem_iff.2 hn)
    exact h.shownParent_eq t ht k hk

/-- If they are in the same order, none is. -/
lemma removals_self (hcompared : (pass.view.entry t.id).compared = some (nodes, nodes)) :
    pass.removals t.id nodes nodes = [] :=
  (removals_of_perm h ht hcompared (.refl nodes)).trans (relocated_self nodes)

lemma changes_self (hcompared : (pass.view.entry t.id).compared = some (nodes, nodes)) :
    pass.changes t.id nodes nodes = 0 := by
  rw [changes, arrivals_of_subset (List.Subset.refl nodes), removals_self h ht hcompared]
  simp

/-- If the children of a node that is as it is shown are compared, then with themselves. -/
lemma shown_eq_of_compared (hstill : pass.view.IsStillAt t)
    (hcompared : (pass.view.entry t.id).compared = some (shown, current)) : shown = current := by
  obtain ⟨hcurrent, hshown⟩ := h.children_of_compared_some ht hcompared
  rw [← hcurrent, ← hshown, hstill.children_eq]

omit h ht in
lemma ownAltered_eq_nil (hstill : pass.view.IsStillAt t) : pass.ownAltered t.id = [] := by
  rw [ownAltered, hstill.attributesChanged_eq]
  rfl

/-- Kept children are all shown ones if none of these is removed. -/
lemma map_eq_childList (hcompared : (pass.view.entry t.id).compared = some (nodes, nodes))
    (hmem : ∀ n, n ∈ pass.removals t.id nodes nodes ↔ n ∈ nodes ∧ n ∉ parts.map (·.1.id))
    (hshown : (parts.map (·.1)).Sublist t.childList) : parts.map (·.1) = t.childList := by
  have hids := (h.children_of_compared_some ht hcompared).2
  have hkept : t.childList.map Node.id ⊆ parts.map (·.1.id) := by
    intro n hn
    by_contra hnot
    have hremoved := (hmem n).2 ⟨hids ▸ hn, hnot⟩
    rw [removals_self h ht hcompared] at hremoved
    cases hremoved
  have hnodup := Node.nodup_map_id_childList (Node.nodup_of_mem h.nodup ht)
  exact hshown.eq_of_length_le (by simpa using (hnodup.subperm hkept).length_le)

omit h ht in
/-- Whether what is planned because of a node is what is planned because of its children, unless
attributes are sent because of these. -/
structure PassesOn (pass : Pass) (t : Node) (share : Share) (parts : List (Node × Share)) : Prop where
  /-- Each child has its share. -/
  children : parts.map (·.1) = t.childList
  /-- The shares are planned ones. -/
  planned : ∀ p ∈ parts, pass.Planned p.1 p.2
  /-- Together they are the share of the node. -/
  share_eq : (∀ p ∈ parts, p.2.altered = []) →
    share = { deleted := parts.flatMap (·.2.deleted), rest := parts.flatMap (·.2.rest) }

/-- Because of a node that is as it is shown nothing is planned, if nothing below it is marked, or else
what is planned because of its children. -/
theorem Planned.of_isStillAt (hpolicy : pass.policy.check = .ok ()) (hstill : pass.view.IsStillAt t)
    (hplan : pass.Planned t share) :
    ((pass.view.entry t.id).compared = none ∧ (pass.view.entry t.id).changedBelow = false ∧
      share = {}) ∨ ∃ parts, pass.PassesOn t share parts := by
  have hown := ownAltered_eq_nil hstill
  cases hplan with
  | still compared unmarked => exact .inl ⟨compared, unmarked, by rw [hown]⟩
  | through compared children planned =>
    refine .inr ⟨_, children, planned, fun haltered => ?_⟩
    rw [hown, List.flatMap_eq_nil_iff.2 haltered]
    rfl
  | @mixed _ shown current parts compared nodup_removals mem_removals shown_order current_order
      accepted planned =>
    obtain rfl := shown_eq_of_compared h ht hstill compared
    have hchildren := map_eq_childList h ht compared mem_removals shown_order
    refine .inr ⟨_, hchildren, planned, fun haltered => ?_⟩
    have hkept : ∀ n ∈ shown, n ∈ parts.map (·.1.id) := by
      intro n hn
      rw [← (h.children_of_compared_some ht compared).2, ← hchildren, List.map_map] at hn
      exact hn
    rw [hown, List.flatMap_eq_nil_iff.2 haltered, removals_self h ht compared,
      insertions_eq_nil hkept]
    rfl
  | anew compared reason evicted =>
    obtain rfl := shown_eq_of_compared h ht hstill compared
    exfalso
    rcases reason with hanew | hrejects
    · rw [sendsAnew_of_length_eq (shown_ne_nil_of_compared compared) rfl
        (hstill.replacesChildren_eq (compared ▸ rfl))] at hanew
      cases hanew
    · rw [changes_self h ht compared, Policy.rejectsChanges_zero hpolicy] at hrejects
      cases hrejects

omit ht in
/-- Because of nodes that are all as they are shown nothing is planned. -/
theorem Planned.eq_empty (hpolicy : pass.policy.check = .ok ()) (ht : t ∈ page.preorder)
    (hstill : pass.view.IsStill t) (hplan : pass.Planned t share) : share = {} := by
  induction t using Node.induct_childList generalizing share with
  | step t ih =>
    obtain ⟨-, -, heq⟩ | ⟨parts, hparts⟩ :=
      hplan.of_isStillAt h ht hpolicy (hstill t t.self_mem_preorder)
    · exact heq
    · have hempty (p : Node × Share) (hp : p ∈ parts) : p.2 = {} := by
        have hc : p.1 ∈ t.childList := hparts.children ▸ List.mem_map_of_mem hp
        exact ih p.1 hc (Node.mem_preorder_of_mem_childList ht hc) (hstill.child hc)
          (hparts.planned p hp)
      obtain ⟨hdeleted, -, hrest⟩ := flatMap_eq_nil hempty
      rw [hparts.share_eq fun p hp => hempty p hp ▸ rfl, hdeleted, hrest]

end Depicts

end Pass

/-- A pass over a page whose nodes are as they are shown sends nothing, whatever else is recorded. -/
lemma Differ.pass_of_isStill (h : view.Depicts page) (hstill : view.IsStill page)
    (hknown : view.contains page.id = true) (hstrays : ¬ view.HasStrays page)
    (hpolicy : differ.policy.check = .ok ()) (hheight : page.height ≤ differ.policy.depthLimit.toNat) :
    ∃ delta, (differ.pass view page.id).1 = .ok delta ∧ delta.operations = [] := by
  have hdepth (n : NodeId) (hn : n ∈ page.ids) : view.depth n ≤ differ.policy.depthLimit.toNat :=
    ((hstill.staysPut h.toIsForest).depth_le_height h hn).trans hheight
  obtain ⟨delta, hdelta⟩ := pass_ok_of_depicts h hknown hpolicy hstrays hheight hdepth
  obtain ⟨share, hplanned, hops⟩ := planned_of_pass h hdelta
  have hempty : share = {} := by
    refine Pass.Planned.eq_empty ?_ ?_ page.self_mem_preorder ?_ hplanned
    exacts [h, hpolicy, hstill]
  refine ⟨delta, hdelta, ?_⟩
  rw [hops, hempty]
  rfl

namespace Forest

variable {f g s : Forest} {es : List Edit}

/-! ### Pages that have just been sent -/

/-- Whether the client shows the page of a forest as it is, since the page has just been loaded or
passed over, after whatever calls. -/
inductive IsSent : Forest → Prop
  /-- The page is a new one, or has been loaded. -/
  | begins {f : Forest} {page : Node} (hbegins : f.Begins page) : IsSent f
  /-- A pass over the page has succeeded. -/
  | passed {f g : Forest} {page : Node} {differ : Differ} {delta : Delta} (hbegins : f.Begins page)
    (hids : ∀ n ∈ page.ids, n.number.toNat + 1 < NodeId.count) (hcalls : f.Calls g)
    (hpass : (Session.pass ⟨g, differ⟩ g.root).1 = .ok delta) :
    IsSent (Session.pass ⟨g, differ⟩ g.root).2.forest

namespace IsSent

lemma isClean (h : s.IsSent) : s.Rooted ∧ ∀ n, s.view.IsClean n := by
  cases h with
  | begins hbegins =>
    obtain ⟨hrooted, hclean, -⟩ := (Since.begins hbegins).steps
    exact ⟨hrooted, hclean⟩
  | @passed f g page differ delta hbegins hids hcalls hpass =>
    obtain ⟨hsound, -⟩ := hcalls.keeps_sound (hbegins.sound hids)
    obtain ⟨-, hs⟩ := settledBy_of_pass hsound.toIsForest hpass
    have hcall : g.Call (Session.pass ⟨g, differ⟩ g.root).2.forest := .pass differ g.root
    exact ⟨(hcall.sound hsound).1.toRooted, fun n => hs.isClean (.inl rfl)⟩

/-- A forest that has just been sent follows its page. -/
lemma follows (h : s.IsSent) :
    s.Follows s.root (s.view.describe s.root) ∧ s.view.IsExact (s.view.describe s.root) := by
  obtain ⟨hrooted, hclean⟩ := h.isClean
  have hsettled (n : NodeId) : s.view.IsSettled n :=
    ⟨(hclean n).shownChildren_eq, (hclean n).shownParent_eq⟩
  have hshown : s.view.shownParent s.root = none :=
    (hclean s.root).shownParent_eq.trans hrooted.parent_root
  have hreaches : ∀ n a, (s.view.entry n).IsPending → IsAbove s.view.parent a n →
      (s.view.entry a).IsMarked := by
    intro n a hn _
    simp [Entry.IsPending, (hclean n).attributesChanged_eq, (hclean n).shownChildren_eq] at hn
  refine ⟨⟨?_, ?_, hrooted.toIsForest.id_describe _, hrooted.contains_root, hshown⟩, ?_⟩
  · exact ⟨hrooted.toIsForest, hrooted.contains_root, hrooted.parent_root, hshown, hreaches⟩
  · exact hrooted.toIsForest.remembers_describe hrooted.parent_root (fun n _ => hsettled n) hreaches
  · exact hrooted.toIsForest.isExact_describe _ hsettled

/-- After edits that leave the children of a node on the page as they were, and don't change its
attributes, the node is as it is shown. -/
lemma isStillAt (h : s.IsSent) {g : Forest} {m : Node} (hm : m ∈ (s.view.describe s.root).preorder)
    (hchildren : g.view.children m.id = s.view.children m.id)
    (hattributes : (g.view.entry m.id).attributesChanged = false)
    (hflag : (g.view.entry m.id).compared.isSome → (g.view.entry m.id).replacesChildren = false) :
    g.view.IsStillAt m := by
  obtain ⟨hrooted, -⟩ := h.isClean
  obtain ⟨hm, -⟩ := hrooted.toIsForest.mem_preorder_describe hm
  refine ⟨?_, hattributes, hflag⟩
  rw [hchildren, hm, hrooted.toIsForest.map_id_childList_describe, hrooted.toIsForest.id_describe]

/-- After edits that restore the children of all nodes on the page, and are not about attributes of
these nodes, the nodes are as they are shown. -/
lemma isStill (h : s.IsSent) (hallows : s.Allows s.root es)
    (hdressed : ∀ e ∈ es, ∀ n, e.dressed? = some n → n ∉ (s.view.describe s.root).ids)
    (hchildren : ∀ n ∈ (s.view.describe s.root).ids,
      (s.edits es).view.children n = s.view.children n)
    (hflags : ∀ n ∈ (s.view.describe s.root).ids,
      ((s.edits es).view.entry n).replacesChildren = false) :
    (s.edits es).view.IsStill (s.view.describe s.root) := by
  obtain ⟨hrooted, hclean⟩ := h.isClean
  obtain ⟨hfollows, -⟩ := h.follows
  intro m hm
  have hmem : m.id ∈ (s.view.describe s.root).ids := Node.mem_ids.2 ⟨m, hm, rfl⟩
  refine h.isStillAt hm (hchildren m.id hmem) ?_ fun _ => hflags m.id hmem
  rw [attributesChanged_edits_of_contains hrooted hallows (hfollows.contains hmem)
    fun e he heq => hdressed e he m.id heq hmem]
  exact (hclean m.id).attributesChanged_eq

/-- After edits that leave the children of all nodes on the page as they were when it was sent, and
are not about attributes of these nodes, a pass over the page succeeds and sends nothing, whatever the
edits have done to the nodes in between. This holds for all policies that can be followed and are deep
enough for the page, unless some container on the page is to be sent anew with all its children on
every change. -/
theorem pass_of_restored (h : s.IsSent) (hallows : s.Allows s.root es)
    (hdressed : ∀ e ∈ es, ∀ n, e.dressed? = some n → n ∉ (s.view.describe s.root).ids)
    (hchildren : ∀ n ∈ (s.view.describe s.root).ids,
      (s.edits es).view.children n = s.view.children n)
    (hflags : ∀ n ∈ (s.view.describe s.root).ids,
      ((s.edits es).view.entry n).replacesChildren = false)
    (hpolicy : differ.policy.check = .ok ())
    (hheight : (s.view.describe s.root).height ≤ differ.policy.depthLimit.toNat) :
    ∃ delta, (Session.pass ⟨s.edits es, differ⟩ (s.edits es).root).1 = .ok delta ∧
      delta.operations = [] := by
  obtain ⟨hfollows, hexact⟩ := h.follows
  have hafter := hfollows.edits hallows
  have hkeeps := (steps_edits hfollows.wellFormed hallows).keeps
  have hknown : (s.edits es).view.contains (s.view.describe s.root).id = true := by
    rw [hafter.id_eq]
    exact hafter.contains_top
  have hpass := Differ.pass_of_isStill hafter.remembers.toDepicts
    (h.isStill hallows hdressed hchildren hflags) hknown
    (hfollows.isExact_edits hallows hexact).not_hasStrays hpolicy hheight
  rwa [hafter.id_eq, ← hkeeps.root_eq, ← fst_pass] at hpass

/-- A list that has been sent is moved into another one and back, and the other list is taken out. -/
theorem pass_of_restored_moved :
    let g := (new "body").edits [.addContainer "ul", .append ⟨0⟩ ⟨1⟩]
    let s := (Session.pass ⟨g, {}⟩ g.root).2.forest
    let es : List Edit := [.addContainer "ol", .append ⟨0⟩ ⟨2⟩, .append ⟨2⟩ ⟨1⟩, .append ⟨0⟩ ⟨1⟩,
      .remove ⟨2⟩]
    ((s.edits es).view.entry ⟨0⟩).compared = some ([⟨1⟩], [⟨1⟩]) ∧
      ∃ delta, (Session.pass ⟨s.edits es, {}⟩ (s.edits es).root).1 = .ok delta ∧
        delta.operations = [] := by
  intro g s es
  have hcalls : (new "body").Calls g :=
    (Relation.ReflTransGen.single (.edit (.addContainer "ul") (by decide))).tail
      (.edit (.append ⟨0⟩ ⟨1⟩) (by decide))
  obtain ⟨delta, hdelta⟩ : ∃ delta, (Session.pass ⟨g, {}⟩ g.root).1 = .ok delta :=
    exists_eq_ok (by decide +kernel)
  have hsent : s.IsSent := .passed (.new "body") (by decide) hcalls hdelta
  refine ⟨by decide +kernel, ?_⟩
  exact hsent.pass_of_restored (show s.Allows s.root es by decide +kernel) (by simp [es, Edit.dressed?])
    (by decide +kernel) (by decide +kernel) rfl (by decide +kernel)

end IsSent

end Forest

end PageSync
