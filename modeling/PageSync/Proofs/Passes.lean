import PageSync.Differ
import PageSync.Proofs.Carrying
import PageSync.Proofs.Walking

/-!
# Passes bring the client up to date

If a view remembers the page that a client shows, then the operations of every successful pass are
accepted by the client, one by one, and lead to the current tree. A pass succeeds unless its policy
can't be followed, some node is too deep, or some node is wrongly recorded as the child of a shown
container.

A view that is faithful in all its records, like the one of a forest that has sent all its changes so
far, remembers the page and has no such nodes.
-/

namespace PageSync

variable {view : View} {page : Node} {differ : Differ} {delta : Delta}

namespace Pass

variable {pass : Pass}

/-- What a whole walk contributes to the first sheet is what the operations are. -/
lemma Contributes.operations_eq {t : Node} {share : Share} {s s' : Progress}
    (hshare : pass.Contributes t.id share Ledger.first s s') (hs : s.ledger = .start) :
    pass.operations s'.ledger =
      .ok (share.deleted.map .delete ++ (share.altered.map pass.alteration ++ share.rest)) := by
  obtain ⟨numbers, hsheet, htold⟩ := hshare.noted
  rw [hs] at hsheet htold
  have hsheet : s'.ledger.sheet Ledger.first = { altered := share.altered, nested := numbers } :=
    hsheet
  have hadditions : pass.additions (s'.ledger.sheet Ledger.first) =
      .ok (share.altered.map pass.alteration) := by
    rw [hsheet]
    rfl
  have hdeletions : (s'.ledger.sheet Ledger.first).deletions = [] := by
    rw [hsheet]
    rfl
  have hnested : Told pass s'.ledger s'.ledger.next (Ledger.first + 1)
      (s'.ledger.sheet Ledger.first).nested (share.deleted.map .delete) share.rest := by
    rw [hsheet]
    exact htold
  have hlt : Ledger.first < s'.ledger.next := by
    have hle := hshare.confined.next_le
    rw [hs] at hle
    exact Nat.lt_of_lt_of_le Nat.zero_lt_one hle
  have hfirst := Told.cons (Nat.zero_le _) hlt hnested hadditions (.nil 0)
  rw [hdeletions] at hfirst
  simpa using hfirst.operations_eq

/-- When a walk starts, nothing has been looked at. -/
lemma fresh_start (pass : Pass) (tables : Tables) (n : NodeId) :
    pass.Fresh { tables := tables.emptied } n :=
  fun _ _ => ⟨by simp [Ledger.find?, Ledger.start], by simp [Tables.emptied], by simp⟩

/-- What a walk may rely on when it starts. -/
lemma ahead_start (pass : Pass) (h : pass.view.Depicts page) (tables : Tables) :
    pass.Ahead page page (pass.policy.depthLimit.toNat + 1) Ledger.first
      { tables := tables.emptied } where
  mem := page.self_mem_preorder
  fresh := pass.fresh_start tables page.id
  into_lt := Nat.zero_lt_one
  isWhole := rfl
  levels_eq := by rw [View.depth_of_top h.acyclic h.parent_top]

/-- A whole walk leads to the operations of a planned share. -/
lemma yields_planned (pass : Pass) (h : pass.view.Depicts page) (hroot : pass.root = page.id)
    (tables : Tables) :
    Yields pass.gather { tables := tables.emptied }
      (fun _ s' => ∃ share, pass.Planned page share ∧ pass.operations s'.ledger =
        .ok (share.deleted.map .delete ++ (share.altered.map pass.alteration ++ share.rest)))
      (pass.MayFail page page) := by
  rw [gather, hroot]
  apply (descends_walk h _ page _ _ (pass.ahead_start h tables)).mono
  rintro _ s' ⟨⟨share, hplanned, hshare⟩, -⟩
  exact ⟨share, hplanned, hshare.operations_eq rfl⟩

/-- A planned share of a whole page leads to operations that a client accepts and that bring it up to
date. -/
lemma Planned.applyAll?_eq {share : Share} (h : pass.view.Remembers page)
    (hroot : pass.root = page.id) (hplanned : pass.Planned page share) :
    page.applyAll? (share.deleted.map .delete ++
      (share.altered.map pass.alteration ++ share.rest)) = some (pass.view.describe page.id) := by
  obtain ⟨m, m', hvia⟩ := hplanned.carries h hroot page.self_mem_preorder (hroot ▸ .refl _)
  have hnone {t t' : Node} {ops : List Operation} {outside : NodeId → Prop}
      (hruns : Node.Runs outside t ops t') : Node.Runs (fun _ => False) t ops t' :=
    hruns.mono fun _ hy => hy.elim
  exact ((hnone hvia.deletes).append
    ((hnone hvia.alters).append (hnone hvia.completes))).applyAll?_eq

end Pass

namespace Differ

/-- What there is to know about a pass that succeeded. -/
lemma of_pass_eq_ok {top : NodeId} (hpass : (differ.pass view top).1 = .ok delta) :
    differ.policy.check = .ok () ∧ view.contains top = true ∧ view.parent top = none ∧
      ∃ s', (Pass.gather ⟨view, differ.policy, top⟩).run { tables := differ.tables.emptied } =
          .ok () s' ∧
        Pass.operations ⟨view, differ.policy, top⟩ s'.ledger = .ok delta.operations ∧
        delta.notices = s'.finished.map .settled ++ [.finished top] ∧
        delta.ledger = s'.ledger := by
  rw [pass] at hpass
  cases hpolicy : differ.policy.check with
  | error e => simp [hpolicy] at hpass
  | ok _ =>
    cases hknown : view.contains top with
    | false => simp [hpolicy, hknown] at hpass
    | true =>
      cases hparent : view.parent top with
      | some p => simp [hpolicy, hknown, hparent] at hpass
      | none =>
        simp only [hpolicy, hknown, hparent, if_true, run] at hpass
        refine ⟨rfl, rfl, rfl, ?_⟩
        cases hrun : (Pass.gather ⟨view, differ.policy, top⟩).run
            { tables := differ.tables.emptied } with
        | error e s => simp [hrun] at hpass
        | ok _ s =>
          rw [hrun] at hpass
          simp only at hpass
          cases hops : Pass.operations ⟨view, differ.policy, top⟩ s.ledger with
          | error e => simp [hops, Except.map] at hpass
          | ok operations =>
            rw [hops] at hpass
            cases hpass
            exact ⟨s, rfl, hops, rfl, rfl⟩

/-- The operations of a pass over a page that is shown are those of a planned share. -/
lemma planned_of_pass (h : view.Depicts page) (hpass : (differ.pass view page.id).1 = .ok delta) :
    ∃ share, Pass.Planned ⟨view, differ.policy, page.id⟩ page share ∧ delta.operations =
      share.deleted.map .delete ++
        (share.altered.map (Pass.alteration ⟨view, differ.policy, page.id⟩) ++ share.rest) := by
  obtain ⟨-, -, -, s', hrun, hops, -⟩ := of_pass_eq_ok hpass
  obtain ⟨share, hplanned, hops'⟩ :=
    (Pass.yields_planned ⟨view, differ.policy, page.id⟩ h rfl differ.tables).of_run hrun
  rw [hops] at hops'
  exact ⟨share, hplanned, Except.ok.inj hops'⟩

/-- The operations of a pass lead from the page that the client shows to the current tree. -/
theorem accepted_of_remembers (h : view.Remembers page)
    (hpass : (differ.pass view page.id).1 = .ok delta) :
    page.applyAll? delta.operations = some (view.describe page.id) := by
  obtain ⟨share, hplanned, hops⟩ := planned_of_pass h.toDepicts hpass
  rw [hops]
  exact hplanned.applyAll?_eq h rfl

/-- A pass over a page that is shown succeeds under a policy that can be followed, if no node of the
page is too deep and no other node is recorded below its containers. -/
theorem pass_ok_of_depicts (h : view.Depicts page) (hknown : view.contains page.id = true)
    (hpolicy : differ.policy.check = .ok ()) (hstrays : ¬ view.HasStrays page)
    (hheight : page.height ≤ differ.policy.depthLimit.toNat)
    (hdepth : ∀ n ∈ page.ids, view.depth n ≤ differ.policy.depthLimit.toNat) :
    ∃ delta, (differ.pass view page.id).1 = .ok delta := by
  have hyields := Pass.yields_planned ⟨view, differ.policy, page.id⟩ h rfl differ.tables
  rw [pass, hpolicy]
  simp only [hknown, if_true, h.parent_top, run]
  cases hrun : (Pass.gather ⟨view, differ.policy, page.id⟩).run
      { tables := differ.tables.emptied } with
  | error e s =>
    rcases hyields.of_run_error hrun with ⟨-, hdeep⟩ | hstray
    · exact absurd (.of_top h.acyclic h.parent_top hheight hdepth) hdeep
    · exact absurd hstray hstrays
  | ok _ s =>
    obtain ⟨share, -, hops⟩ := hyields.of_run hrun
    simp [hops, Except.map]

end Differ

/-! ### Faithful views -/

namespace View

/-- Whether a view tells the truth about the current trees and about a page that is shown, and marks
every change. Changes may be marked that are none, and children recorded that are the same. -/
structure Faithful (view : View) (page : Node) : Prop where
  /-- A node is among the children of its parent and nowhere else. -/
  mem_children : ∀ n c, n ∈ view.children c ↔ view.parent n = some c
  /-- No child is listed twice. -/
  nodup_children : ∀ c, (view.children c).Nodup
  /-- No node is above itself. -/
  acyclic : Acyclic view.parent
  /-- No children are recorded for a leaf. -/
  leaf : ∀ n, view.isContainer n = false → (view.entry n).shownChildren = none
  /-- The page is not below any other node. -/
  parent_top : view.parent page.id = none
  /-- A node is among the children that are shown in its shown parent, and nowhere else. -/
  mem_shown : ∀ n c, n ∈ (view.entry c).shownChildList ↔ view.shownParent n = some c
  /-- No child is shown twice. -/
  nodup_shown : ∀ c, (view.entry c).shownChildList.Nodup
  /-- No node is shown above itself. -/
  acyclic_shown : Acyclic view.shownParent
  /-- The nodes of the page have these children. -/
  page_children : ∀ m ∈ page.preorder, (view.entry m.id).shownChildList = m.childList.map Node.id
  /-- They have the element names and kinds that they are shown with. -/
  page_kind : ∀ m ∈ page.preorder, view.isContainer m.id = m.isContainer ∧
    (view.entry m.id).tag = m.tag
  /-- Other attributes than the ones shown are marked. -/
  page_attributes : ∀ m ∈ page.preorder, (view.entry m.id).attributesChanged = false →
    (view.entry m.id).attributes = m.attributes
  /-- All ancestors of a node with recorded children or changed attributes are marked. -/
  marked : ∀ n a, (view.entry n).IsPending → IsAbove view.parent a n → (view.entry a).IsMarked

namespace Faithful

variable (h : view.Faithful page)

include h

/-- What is shown below a node is covered by it. -/
lemma covers_shown {m : Node} (hm : m ∈ page.preorder) {y : NodeId} (hy : y ∈ m.ids) :
    Covers view.shownParent m.id y := by
  induction m using Node.induct_childList with
  | step m ih =>
    rcases Node.mem_ids_iff.1 hy with rfl | ⟨c, hc, hyc⟩
    · exact .refl _
    · have hparent : view.shownParent c.id = some m.id :=
        (h.mem_shown c.id m.id).1 (h.page_children m hm ▸ List.mem_map_of_mem hc)
      exact (Covers.of_parent hparent).trans
        (ih c hc (Node.mem_preorder_of_mem_childList hm hc) hyc)

/-- No node is shown twice. -/
lemma nodup_ids {m : Node} (hm : m ∈ page.preorder) : m.ids.Nodup := by
  induction m using Node.induct_childList with
  | step m ih =>
    cases hkind : m.isContainer with
    | false =>
      rw [Node.eq_leaf hkind]
      simp
    | true =>
      have hparent : ∀ c ∈ m.childList, view.shownParent c.id = some m.id := fun c hc =>
        (h.mem_shown c.id m.id).1 (h.page_children m hm ▸ List.mem_map_of_mem hc)
      have hchild : ∀ c ∈ m.childList, c ∈ page.preorder := fun c hc =>
        Node.mem_preorder_of_mem_childList hm hc
      rw [Node.eq_container hkind, Node.nodup_container]
      refine ⟨?_, fun c hc => ih c hc (hchild c hc), ?_⟩
      · intro c hc hmem
        exact h.acyclic_shown.not_covers_parent (hparent c hc) (h.covers_shown (hchild c hc) hmem)
      · have hnodup := h.nodup_shown m.id
        rw [h.page_children m hm, List.Nodup, List.pairwise_map] at hnodup
        refine hnodup.imp_of_mem fun {c d} hc hd hne y hyc hyd => ?_
        exact h.acyclic_shown.not_covers_both (hparent c hc) (hparent d hd) hne
          (h.covers_shown (hchild c hc) hyc) (h.covers_shown (hchild d hd) hyd)

/-- A faithful view remembers the page. -/
lemma remembers : view.Remembers page where
  mem_children := h.mem_children
  nodup_children := h.nodup_children
  acyclic := h.acyclic
  nodup := h.nodup_ids page.self_mem_preorder
  entry_matches m hm := ⟨(h.page_kind m hm).1, (h.page_kind m hm).2, h.page_attributes m hm,
    fun _ => h.page_children m hm⟩
  shownParent_eq m hm c hc :=
    (h.mem_shown c.id m.id).1 (h.page_children m hm ▸ List.mem_map_of_mem hc)
  parent_top := h.parent_top
  reaches := h.marked

/-- In a faithful view no node is wrongly recorded as the child of a shown container. -/
lemma not_hasStrays : ¬ view.HasStrays page := by
  rintro ⟨m, hm, -, n, hparent, hn⟩
  exact hn (h.page_children m hm ▸ (h.mem_shown n m.id).2 hparent)

end Faithful

end View

/-! ### A page on which one child gives way to another -/

/-- A container that is shown with one child and has another one now. -/
def View.handover : View where
  contains n := decide (n.number < 3)
  entry n :=
    if n = ⟨0⟩ then { tag := "div", children := some [⟨2⟩], shownChildren := some [⟨1⟩] }
    else if n = ⟨1⟩ then { tag := "p", shownParent := some ⟨0⟩ }
    else if n = ⟨2⟩ then { tag := "q", parent := some ⟨0⟩ }
    else {}

/-- The container as it is shown. -/
def Node.handover : Node := .container ⟨0⟩ "div" .empty [.leaf ⟨1⟩ "p" .empty]

namespace View

lemma parent_handover (n : NodeId) :
    handover.parent n = if n = ⟨2⟩ then some ⟨0⟩ else none := by
  by_cases h0 : n = ⟨0⟩ <;> by_cases h1 : n = ⟨1⟩ <;> by_cases h2 : n = ⟨2⟩ <;>
    simp_all [parent, handover]

lemma shownParent_handover (n : NodeId) :
    handover.shownParent n = if n = ⟨1⟩ then some ⟨0⟩ else none := by
  by_cases h0 : n = ⟨0⟩ <;> by_cases h1 : n = ⟨1⟩ <;> by_cases h2 : n = ⟨2⟩ <;>
    simp_all [shownParent, handover]

lemma children_handover (n : NodeId) :
    handover.children n = if n = ⟨0⟩ then [⟨2⟩] else [] := by
  by_cases h0 : n = ⟨0⟩ <;> by_cases h1 : n = ⟨1⟩ <;> by_cases h2 : n = ⟨2⟩ <;>
    simp_all [children, Entry.childList, handover]

lemma shownChildList_handover (n : NodeId) :
    (handover.entry n).shownChildList = if n = ⟨0⟩ then [⟨1⟩] else [] := by
  by_cases h0 : n = ⟨0⟩ <;> by_cases h1 : n = ⟨1⟩ <;> by_cases h2 : n = ⟨2⟩ <;>
    simp_all [Entry.shownChildList, Entry.childList, handover]

lemma faithful_handover : handover.Faithful Node.handover where
  mem_children n c := by
    rw [children_handover, parent_handover]
    by_cases hc : c = ⟨0⟩ <;> by_cases hn : n = ⟨2⟩ <;> simp [hc, hn, eq_comm]
  nodup_children c := by
    rw [children_handover]
    split <;> simp
  acyclic := Acyclic.of_flat fun n p hp => by
    rw [parent_handover] at hp ⊢
    split at hp
    · obtain rfl := Option.some.inj hp
      rfl
    · cases hp
  leaf n hn := by
    by_cases h0 : n = ⟨0⟩
    · simp [h0, isContainer, Entry.isContainer, handover] at hn
    · by_cases h1 : n = ⟨1⟩ <;> by_cases h2 : n = ⟨2⟩ <;> simp_all [handover]
  parent_top := rfl
  mem_shown n c := by
    rw [shownChildList_handover, shownParent_handover]
    by_cases hc : c = ⟨0⟩ <;> by_cases hn : n = ⟨1⟩ <;> simp [hc, hn, eq_comm]
  nodup_shown c := by
    rw [shownChildList_handover]
    split <;> simp
  acyclic_shown := Acyclic.of_flat fun n p hp => by
    rw [shownParent_handover] at hp ⊢
    split at hp
    · obtain rfl := Option.some.inj hp
      rfl
    · cases hp
  page_children := by decide
  page_kind := by decide
  page_attributes := by decide
  marked n a _ ha := by
    obtain ⟨p, hp, hcov⟩ := isAbove_iff_parent.1 ha
    rw [parent_handover] at hp
    split at hp
    · obtain rfl := Option.some.inj hp
      obtain rfl := hcov.eq_of_top rfl
      exact .inr rfl
    · cases hp

end View

/-! ### Passes over faithful views -/

/-- A pass over a faithful view succeeds, under every policy that can be followed and is deep enough
for the nodes of the page, and a strict client that shows the page accepts its operations one by one
and then shows the current tree. -/
theorem Differ.pass_of_faithful (h : view.Faithful page) (hknown : view.contains page.id = true)
    (hpolicy : differ.policy.check = .ok ())
    (hheight : page.height ≤ differ.policy.depthLimit.toNat)
    (hdepth : ∀ n ∈ page.ids, view.depth n ≤ differ.policy.depthLimit.toNat) :
    ∃ delta, (differ.pass view page.id).1 = .ok delta ∧
      page.applyAll? delta.operations = some (view.describe page.id) := by
  obtain ⟨delta, hdelta⟩ := pass_ok_of_depicts h.remembers.toDepicts hknown hpolicy
    h.not_hasStrays hheight hdepth
  exact ⟨delta, hdelta, accepted_of_remembers h.remembers hdelta⟩

/-- The new child is sent. -/
theorem Differ.pass_handover : ∃ delta, (Differ.pass {} View.handover ⟨0⟩).1 = .ok delta ∧
    Node.handover.applyAll? delta.operations = some (View.handover.describe ⟨0⟩) := by
  have hdepth : ∀ n ∈ Node.handover.ids, View.handover.depth n ≤ 512 := by
    decide +kernel
  exact Differ.pass_of_faithful View.faithful_handover rfl rfl (by decide) hdepth

end PageSync
