import PageSync.Proofs.Coherence
import PageSync.Proofs.Ensuring
import PageSync.Proofs.Evictions
import PageSync.Proofs.Passes

/-!
# Evictions are exact

The search for the nodes that have to leave a container looks up where a node is now only if its
parent changed, and it goes no further below a node that leaves. What it finds are exactly the topmost
ones among the nodes shown below the container that stand elsewhere in the tree of the pass
(`Pass.mem_evicted_iff`), in the order in which they are shown. Nodes that are in no tree of the pass,
or elsewhere below the container, are never among them.

The lists on the sheets of a ledger are results of this search (`Pass.Later`), so that the same holds
of every container that a pass sends anew (`Differ.evictions_of_pass`).
-/

namespace PageSync

/-! ### Topmost nodes -/

/-- Whether a node of a subtree is one of a kind, and not below another one of that kind. -/
structure Node.IsTopmost (t : Node) (kind : NodeId → Prop) (n : NodeId) : Prop where
  /-- The node is in the subtree. -/
  mem : n ∈ t.ids
  /-- It is of the kind. -/
  of_kind : kind n
  /-- No other one of the kind is above it. -/
  eq_of_mem : ∀ m ∈ t.preorder, kind m.id → n ∈ m.ids → m.id = n

namespace Node

variable {t : Node} {kind : NodeId → Prop} {n : NodeId}

/-- A node of the kind hides all others below it. -/
lemma isTopmost_of_kind (ht : t.ids.Nodup) (hkind : kind t.id) : t.IsTopmost kind n ↔ n = t.id := by
  constructor
  · intro h
    exact (h.eq_of_mem t t.self_mem_preorder hkind h.mem).symm
  · rintro rfl
    refine ⟨t.id_mem_ids, hkind, fun m hm _ hmem => ?_⟩
    rcases mem_preorder_iff.1 hm with rfl | ⟨c, hc, hm⟩
    · rfl
    · obtain ⟨x, hx, hid⟩ := mem_ids.1 hmem
      have hmem : t.id ∈ c.ids := mem_ids.2 ⟨x, preorder_subset hm hx, hid⟩
      exact absurd hmem (notMem_ids_of_mem_childList ht hc)

/-- Below a node of another kind the topmost ones are those of its children. -/
lemma isTopmost_iff_child (ht : t.ids.Nodup) (hkind : ¬ kind t.id) :
    t.IsTopmost kind n ↔ ∃ c ∈ t.childList, c.IsTopmost kind n := by
  constructor
  · intro h
    rcases mem_ids_iff.1 h.mem with rfl | ⟨c, hc, hn⟩
    · exact absurd h.of_kind hkind
    · refine ⟨c, hc, hn, h.of_kind, fun m hm => h.eq_of_mem m ?_⟩
      exact preorder_subset (mem_preorder_of_mem_childList t.self_mem_preorder hc) hm
  · rintro ⟨c, hc, h⟩
    refine ⟨mem_ids_iff.2 (.inr ⟨c, hc, h.mem⟩), h.of_kind, fun m hm hmkind hmem => ?_⟩
    rcases mem_preorder_iff.1 hm with rfl | ⟨d, hd, hm⟩
    · exact absurd hmkind hkind
    · obtain ⟨x, hx, rfl⟩ := mem_ids.1 hmem
      have hnd : x.id ∈ d.ids := mem_ids.2 ⟨x, preorder_subset hm hx, rfl⟩
      obtain rfl : c = d := by
        by_contra hne
        exact notMem_ids_of_ne ht hc hd hne h.mem hnd
      exact h.eq_of_mem m hm hmkind hmem

end Node

/-- Whether a node stands in the tree below a top, but not below a container. -/
def View.IsOutside (view : View) (top container n : NodeId) : Prop :=
  Covers view.parent top n ∧ ¬ Covers view.parent container n

namespace Pass

variable {pass : Pass} {page t p c : Node} {container parent n : NodeId} {k levels : Nat}
  {up : Option NodeId} {gone : List NodeId} {cs : List Node} {s s' s₀ : Progress}

/-! ### Where nodes are -/

lemma findAbove_outside (htop : pass.view.parent pass.root = none)
    (h : pass.findAbove container k up = some .outside) :
    ∃ a, up = some a ∧ pass.view.IsOutside pass.root container a := by
  induction k generalizing up with
  | zero => cases h
  | succ k ih =>
    cases up with
    | none => cases h
    | some a =>
      refine ⟨a, rfl, ?_⟩
      rw [findAbove] at h
      split at h
      · cases h
      · next hcontainer =>
        split at h
        · next hroot =>
          subst hroot
          exact ⟨.refl _, fun hcov => hcontainer (hcov.eq_of_top htop).symm⟩
        · obtain ⟨b, hb, hroot, hnot⟩ := ih h
          refine ⟨hroot.trans (.of_parent hb), fun hcov => ?_⟩
          rcases covers_iff_eq_or_isAbove.1 hcov with rfl | habove
          · exact hcontainer rfl
          · exact hnot (habove.covers_parent hb)

/-- What the search finds out about a child is whether it is outside of the container, provided that its
shown parent is not. -/
lemma leaves_iff {b : Bool} (htop : pass.view.parent pass.root = none)
    (hparent : ¬ pass.view.IsOutside pass.root container parent) (hroot : n ≠ pass.root)
    (hcontainer : n ≠ container) (h : pass.leaves container parent n = .ok b) :
    b = true ↔ pass.view.IsOutside pass.root container n := by
  cases b with
  | false =>
    refine iff_of_false Bool.false_ne_true fun hn => hn.2 ?_
    refine covers_of_leaves_eq_false h (fun hcov => ?_) hroot hn.1
    by_contra hnot
    exact hparent ⟨hcov, hnot⟩
  | true =>
    refine iff_of_true rfl ?_
    rw [leaves] at h
    split at h
    · cases h
    · rw [whereabouts] at h
      split at h
      · next w hw =>
        cases w with
        | outside =>
          obtain ⟨a, ha, hcov, hnot⟩ := findAbove_outside htop hw
          refine ⟨hcov.trans (.of_parent ha), fun hcov => ?_⟩
          rcases covers_iff_eq_or_isAbove.1 hcov with rfl | habove
          · exact hcontainer rfl
          · exact hnot (habove.covers_parent ha)
        | inside => cases h
        | elsewhere => cases h
      · cases h

section Depicts

variable (h : pass.view.Depicts page) (hroot : pass.root = page.id) (ht : t ∈ page.preorder)

include h hroot ht

/-- What has to leave because of one child are the topmost nodes shown in it that are outside. -/
lemma evictedFrom_exact (hp : p ∈ t.preorder) (hc : c ∈ p.childList)
    (hout : ¬ pass.view.IsOutside pass.root t.id p.id)
    (hgone : pass.evictedFrom t.id levels p.id c.id = .ok gone)
    (hbelow : ¬ pass.view.IsOutside pass.root t.id c.id →
      pass.evicted t.id levels c.id (c.childList.map Node.id) = .ok gone →
      gone.Sublist (c.childList.flatMap Node.ids) ∧ ∀ n, n ∈ gone ↔
        ∃ d ∈ c.childList, d.IsTopmost (pass.view.IsOutside pass.root t.id) n) :
    gone.Sublist c.ids ∧ ∀ n, n ∈ gone ↔ c.IsTopmost (pass.view.IsOutside pass.root t.id) n := by
  have hpage : c ∈ page.preorder :=
    Node.mem_preorder_of_mem_childList (Node.preorder_subset ht hp) hc
  have hnodup := Node.nodup_of_mem h.nodup hpage
  have hleaves {b : Bool} (hb : pass.leaves t.id p.id c.id = .ok b) :
      b = true ↔ pass.view.IsOutside pass.root t.id c.id :=
    leaves_iff (hroot ▸ h.parent_top) hout
      (hroot ▸ Node.id_ne_of_mem_childList h.nodup (Node.preorder_subset ht hp) hc)
      (Node.id_ne_of_mem_childList (Node.nodup_of_mem h.nodup ht) hp hc) hb
  rcases evictedFrom_eq_ok hgone with ⟨hb, rfl⟩ | ⟨hb, hgone⟩
  · -- the child leaves, and hides what is below it
    refine ⟨by simp [c.id_mem_ids], fun n => ?_⟩
    rw [Node.isTopmost_of_kind hnodup ((hleaves hb).1 rfl), List.mem_singleton]
  · have hstays : ¬ pass.view.IsOutside pass.root t.id c.id := fun hc =>
      Bool.false_ne_true ((hleaves hb).2 hc)
    have hmatches := h.entry_matches c hpage
    suffices pass.evicted t.id levels c.id (c.childList.map Node.id) = .ok gone ∨
        c.childList = [] ∧ gone = [] by
      rcases this with hinner | ⟨hnil, rfl⟩
      · obtain ⟨hsub, hmem⟩ := hbelow hstays hinner
        refine ⟨?_, fun n => by rw [hmem, Node.isTopmost_iff_child hnodup hstays]⟩
        rw [Node.ids_eq_cons]
        exact hsub.cons _
      · refine ⟨List.nil_sublist _, fun n => ?_⟩
        simp [Node.isTopmost_iff_child hnodup hstays, hnil]
    rcases hgone with ⟨hkind, hgone⟩ | ⟨hkind, rfl⟩
    · rw [hmatches.shownChildList_eq (hmatches.isContainer_eq ▸ hkind)] at hgone
      exact .inl hgone
    · exact .inr ⟨Node.childList_of_isContainer_eq_false (hmatches.isContainer_eq ▸ hkind), rfl⟩

/-- What has to leave because of some children of one node are the topmost nodes shown in them that are
outside, in the order in which they are shown. -/
lemma evicted_exact (hp : p ∈ t.preorder) (hcs : ∀ c ∈ cs, c ∈ p.childList)
    (hout : ¬ pass.view.IsOutside pass.root t.id p.id)
    (hgone : pass.evicted t.id levels p.id (cs.map Node.id) = .ok gone) :
    gone.Sublist (cs.flatMap Node.ids) ∧ ∀ n, n ∈ gone ↔
      ∃ c ∈ cs, c.IsTopmost (pass.view.IsOutside pass.root t.id) n := by
  induction levels generalizing p cs gone with
  | zero => cases hgone
  | succ levels ih =>
    induction cs generalizing gone with
    | nil =>
      cases hgone
      simp
    | cons c cs ihcs =>
      obtain ⟨first, others, hfirst, hothers, rfl⟩ := evicted_cons_eq_ok.1 hgone
      have hc := hcs c List.mem_cons_self
      obtain ⟨hsub, hmem⟩ := evictedFrom_exact h hroot ht hp hc hout hfirst
        (ih (Node.mem_preorder_of_mem_childList hp hc) fun _ => id)
      obtain ⟨hsub', hmem'⟩ := ihcs (fun d hd => hcs d (List.mem_cons_of_mem c hd)) hothers
      refine ⟨?_, fun n => ?_⟩
      · rw [List.flatMap_cons]
        exact hsub.append hsub'
      · rw [List.mem_append, hmem, hmem', List.exists_mem_cons_iff]

/-- What has to leave a container are the topmost nodes shown below it that are outside of it now, in
the order in which they are shown. -/
theorem mem_evicted_iff (hgone : pass.evicted t.id levels t.id (t.childList.map Node.id) = .ok gone) :
    gone.Sublist (t.childList.flatMap Node.ids) ∧ ∀ n, n ∈ gone ↔
      t.IsTopmost (pass.view.IsOutside pass.root t.id) n := by
  have hout : ¬ pass.view.IsOutside pass.root t.id t.id := fun hn => hn.2 (.refl _)
  obtain ⟨hsub, hmem⟩ := evicted_exact h hroot ht t.self_mem_preorder (fun _ => id) hout hgone
  refine ⟨hsub, fun n => ?_⟩
  rw [hmem, Node.isTopmost_iff_child (Node.nodup_of_mem h.nodup ht) hout]

end Depicts

/-! ### Sheets of containers that are sent anew -/

/-- Whether the evictions of a sheet are what has to leave a container of the page, which is its own. -/
def Evicts (pass : Pass) (page : Node) (sheet : Sheet) : Prop :=
  ∃ t ∈ page.preorder, sheet.container = some t.id ∧ ∃ levels,
    pass.evicted t.id levels t.id (t.childList.map Node.id) = .ok sheet.evicted

/-- Whether a state comes after another one of a pass whose sheets list the right evictions: sheets keep
their containers, and those of containers that are sent anew list what has to leave. -/
structure Later (pass : Pass) (page : Node) (s₀ s : Progress) : Prop where
  /-- No sheet gets lost. -/
  next_le : s₀.ledger.next ≤ s.ledger.next
  /-- Each sheet is one of the same container. -/
  container_eq : ∀ k < s₀.ledger.next, (s.ledger.sheet k).container = (s₀.ledger.sheet k).container
  /-- What has to leave a container is listed if it is sent anew. -/
  evicts : ∀ k, (s.ledger.sheet k).isReplaced = true → pass.Evicts page (s.ledger.sheet k)

namespace Later

lemma refl (h : pass.Later page s₀ s) : pass.Later page s s :=
  ⟨Nat.le_refl _, fun _ _ => rfl, h.evicts⟩

lemma trans (h : pass.Later page s₀ s) (h' : pass.Later page s s') : pass.Later page s₀ s' where
  next_le := h.next_le.trans h'.next_le
  container_eq k hk :=
    (h'.container_eq k (Nat.lt_of_lt_of_le hk h.next_le)).trans (h.container_eq k hk)
  evicts := h'.evicts

/-- A sheet may be changed if it stays one of the same container and lists the right evictions. -/
lemma update {number : Nat} {change : Sheet → Sheet} (h : pass.Later page s₀ s)
    (hcontainer : (change (s.ledger.sheet number)).container = (s.ledger.sheet number).container)
    (hevicts : (change (s.ledger.sheet number)).isReplaced = true →
      pass.Evicts page (change (s.ledger.sheet number))) :
    pass.Later page s₀ { s with ledger := s.ledger.update number change } := by
  have hsheet (k : Nat) := s.ledger.sheet_update_or number k change
  refine h.trans ⟨Nat.le_of_eq (s.ledger.next_update number change).symm, fun k _ => ?_,
    fun k hk => ?_⟩
  · rcases hsheet k with heq | ⟨rfl, heq⟩
    · rw [heq]
    · rw [heq, hcontainer]
  · dsimp only at hk ⊢
    rcases hsheet k with heq | ⟨rfl, heq⟩
    · rw [heq] at hk ⊢
      exact h.evicts k hk
    · rw [heq] at hk ⊢
      exact hevicts hk

/-- Entries on a sheet leave its evictions as they are. -/
lemma entry {number : Nat} {change : Sheet → Sheet} (h : pass.Later page s₀ s)
    (hchange : IsEntry change) :
    pass.Later page s₀ { s with ledger := s.ledger.update number change } := by
  apply h.update (hchange.container_eq _)
  rw [hchange.isReplaced_eq, Evicts, hchange.container_eq, hchange.evicted_eq]
  exact h.evicts number

lemma openSheet (h : pass.Later page s₀ s) (n : NodeId) :
    pass.Later page s₀ { s with ledger := s.ledger.openSheet n } := by
  refine h.trans ⟨?_, fun k hk => ?_, fun k hk => ?_⟩
  · rw [Ledger.next_openSheet]
    exact Nat.le_succ _
  · rw [Ledger.sheet_openSheet, if_neg (Nat.ne_of_lt hk)]
  · dsimp only at hk ⊢
    rw [Ledger.sheet_openSheet] at hk ⊢
    split
    · next heq => simp [heq] at hk
    · next hne =>
      rw [if_neg hne] at hk
      exact h.evicts k hk

end Later

/-- All entries keep the evictions as they are. -/
lemma enduring_later : pass.Enduring (pass.Later page s₀) where
  noteOn _ _ hchange _ hs := hs.entry hchange
  setMoved _ _ hs := ⟨hs.next_le, hs.container_eq, hs.evicts⟩
  markNew n := by
    rw [markNew]
    apply Ensures.ite
    · intro _ s hs
      rw [yields_note, Ledger.markNew]
      cases s.ledger.find? n with
      | some number => exact hs.update rfl (hs.evicts number)
      | none => exact (hs.openSheet n).update rfl ((hs.openSheet n).evicts _)
    · exact fun _ _ hs => hs

lemma ensures_later_markDone (n : NodeId) :
    Ensures (pass.Later page s₀) (markDone n) (pass.Later page s₀) :=
  fun _ hs => ⟨hs.next_le, hs.container_eq, hs.evicts⟩

/-- The nodes that have to leave are listed on the sheet of their container. -/
lemma ensures_later_replace {number : Nat} (ht : t ∈ page.preorder) (hnumber : number < s₀.ledger.next)
    (hcontainer : (s₀.ledger.sheet number).container = some t.id) :
    Ensures (pass.Later page s₀) (pass.replace levels number t.id (t.childList.map Node.id))
      (pass.Later page s₀) := by
  intro s hs
  rw [replace, yields_bind, yields_noteOn]
  cases hevicted : pass.evicted t.id levels t.id (t.childList.map Node.id) with
  | error e => trivial
  | ok gone =>
    rw [yields_noteOn, Ledger.update_update]
    refine hs.update rfl fun _ => ⟨t, ht, ?_, levels, hevicted⟩
    exact (hs.container_eq number hnumber).trans hcontainer

section Depicts

variable (h : pass.view.Depicts page)

include h

lemma ensures_later_walkChanged {descend : Nat → NodeId → Walk Unit} {into : Nat}
    {shown current : List NodeId} (ht : t ∈ page.preorder)
    (hcompared : (pass.view.entry t.id).compared = some (shown, current))
    (hdescend : ∀ c ∈ page.preorder, ∀ into s₀, Ensures (pass.Later page s₀) (descend into c.id)
      (pass.Later page s₀)) :
    Ensures (pass.Later page s₀) (pass.walkChanged descend levels into t.id shown current)
      (pass.Later page s₀) := by
  obtain ⟨-, rfl⟩ := h.children_of_compared_some ht hcompared
  intro s hs
  rw [walkChanged, yields_bind, yields_get]
  dsimp only
  cases s.ledger.find? t.id with
  | some number =>
    rw [yields_ite]
    exact ⟨fun _ => trivial, fun _ => trivial⟩
  | none =>
    rw [yields_bind, yields_note, yields_bind, yields_noteOn]
    have hopened : pass.Later page s₀ (pass.opened t.id s) :=
      (hs.openSheet t.id).entry ⟨fun _ => rfl, fun _ => rfl, fun _ => rfl, fun _ => rfl, fun _ => rfl⟩
    have hlt := pass.next_lt_opened t.id s
    have hreplace : Ensures (pass.Later page (pass.opened t.id s))
        (pass.replace levels s.ledger.next t.id (t.childList.map Node.id))
        (pass.Later page (pass.opened t.id s)) :=
      ensures_later_replace ht hlt (by rw [sheet_opened])
    have hrest : Ensures (pass.Later page (pass.opened t.id s)) (do
        Pass.markDone t.id
        if (← sheet s.ledger.next).isBlank then return () else hang into s.ledger.next t.id)
        (pass.Later page (pass.opened t.id s)) := by
      apply (ensures_later_markDone t.id).bind
      intro _
      apply (Ensures.sheet _).bind
      intro _
      exact .ite (fun _ => .pure ()) fun _ => .hang fun s hs => hs.update rfl (hs.evicts into)
    refine Yields.mono (Ensures.ite (P := pass.Later page (pass.opened t.id s)) (fun _ => ?_)
      (fun _ => ?_) _ hopened.refl) fun _ _ => hopened.trans
    · exact hreplace.bind fun _ => hrest
    · refine Ensures.bind (enduring_later.compareChildren
        (fun _ _ _ hs => ⟨hs.next_le, hs.container_eq, hs.evicts⟩) fun x hx _ => ?_) fun _ => ?_
      · obtain ⟨c, hc, rfl⟩ := List.mem_map.1 hx
        exact hdescend c (Node.mem_preorder_of_mem_childList ht hc) _ _
      · apply (Ensures.sheet _).bind
        intro _
        exact .ite (fun _ => hreplace.bind fun _ => hrest) fun _ => hrest

/-- A walk leaves the right evictions on all sheets. -/
lemma ensures_later_walk (levels into : Nat) (ht : t ∈ page.preorder) (s₀ : Progress) :
    Ensures (pass.Later page s₀) (pass.walk levels into t.id) (pass.Later page s₀) := by
  induction levels generalizing t into s₀ with
  | zero => exact .throw _
  | succ levels ih =>
    rw [walk]
    cases hcompared : (pass.view.entry t.id).compared with
    | some lists =>
      exact ensures_later_walkChanged h ht hcompared fun c hc into s₀ => ih into hc s₀
    | none =>
      refine enduring_later.walkSettled (ensures_later_markDone t.id) fun x hx => ?_
      rw [h.children_of_compared_none ht hcompared] at hx
      obtain ⟨c, hc, rfl⟩ := List.mem_map.1 hx
      exact ih into (Node.mem_preorder_of_mem_childList ht hc) s₀

end Depicts

lemma later_start (pass : Pass) (page : Node) (tables : Tables) :
    pass.Later page { tables := tables.emptied } { tables := tables.emptied } := by
  refine ⟨Nat.le_refl _, fun _ _ => rfl, fun k hk => ?_⟩
  cases k with
  | zero => cases hk
  | succ k => cases hk

end Pass

/-- In a pass over a coherent view, the evictions on the sheet of a container that is sent anew are what
the search finds there. -/
lemma Differ.evicts_of_pass {differ : Differ} {view : View} {top : NodeId} {delta : Delta}
    {number : Nat} (h : view.Coherent) (hpass : (differ.pass view top).1 = .ok delta)
    (hreplaced : (delta.ledger.sheet number).isReplaced = true) :
    Pass.Evicts ⟨view, differ.policy, top⟩ (view.shown.describe top) (delta.ledger.sheet number) := by
  obtain ⟨-, -, htop, s, hrun, -, -, hledger⟩ := of_pass_eq_ok hpass
  have hdepicts : (Pass.mk view differ.policy top).view.Depicts (view.shown.describe top) :=
    h.depicts htop
  have hwalk := Pass.ensures_later_walk hdepicts (differ.policy.depthLimit.toNat + 1) Ledger.first
    (Node.self_mem_preorder _) { tables := differ.tables.emptied }
  rw [h.isForest_shown.id_describe top] at hwalk
  have hlater := (hwalk _ (Pass.later_start _ _ _)).of_run hrun
  rw [hledger] at hreplaced ⊢
  exact hlater.evicts number hreplaced

/-- In a pass over a coherent view, the list of evictions of every container that is sent anew
consists of the topmost nodes among those shown below the container that now stand in the tree of the
pass outside of the container, each of them once and in the order of the shown page; and there is such
a pass under every policy that can be followed and is deep enough for the page. -/
theorem Differ.evictions_of_pass {differ : Differ} {view : View} {top : NodeId} (h : view.Coherent) :
    (∀ delta, (differ.pass view top).1 = .ok delta →
      ∀ number, (delta.ledger.sheet number).isReplaced = true →
        ∃ t ∈ (view.shown.describe top).preorder,
          (delta.ledger.sheet number).container = some t.id ∧
          (delta.ledger.sheet number).evicted.Sublist (t.childList.flatMap Node.ids) ∧
          (delta.ledger.sheet number).evicted.Nodup ∧
          ∀ n, n ∈ (delta.ledger.sheet number).evicted ↔
            t.IsTopmost (view.IsOutside top t.id) n) ∧
      (view.contains top = true → view.parent top = none → differ.policy.check = .ok () →
        (view.shown.describe top).height ≤ differ.policy.depthLimit.toNat →
        (∀ n ∈ (view.shown.describe top).ids, view.depth n ≤ differ.policy.depthLimit.toNat) →
        ∃ delta, (differ.pass view top).1 = .ok delta) := by
  have hid := h.isForest_shown.id_describe top
  constructor
  · intro delta hpass number hreplaced
    obtain ⟨-, -, htop, -⟩ := of_pass_eq_ok hpass
    obtain ⟨t, ht, hcontainer, levels, hevicted⟩ := Differ.evicts_of_pass h hpass hreplaced
    have hdepicts := h.depicts htop
    obtain ⟨hsub, hmem⟩ := Pass.mem_evicted_iff hdepicts hid.symm ht hevicted
    have hnodup := Node.nodup_of_mem hdepicts.nodup ht
    rw [Node.ids_eq_cons] at hnodup
    exact ⟨t, ht, hcontainer, hsub, (List.nodup_cons.1 hnodup).2.sublist hsub, hmem⟩
  · intro hknown htop hpolicy hheight hdepth
    have hpass := pass_ok_of_depicts (h.depicts htop) (by rwa [hid]) hpolicy h.not_hasStrays hheight
      hdepth
    rwa [hid] at hpass

/-- The item that leaves its list is the one that has to leave it before the list is sent anew. -/
theorem Differ.evictions_of_pass_drifted :
    ∃ delta, (Differ.pass {} View.drifted ⟨0⟩).1 = .ok delta ∧
      ∃ t ∈ (View.drifted.shown.describe ⟨0⟩).preorder, t.id = ⟨1⟩ ∧
        t.IsTopmost (View.drifted.IsOutside ⟨0⟩ ⟨1⟩) ⟨3⟩ := by
  obtain ⟨hexact, hok⟩ :=
    @Differ.evictions_of_pass {} View.drifted ⟨0⟩ View.coherent_drifted
  have hdepth : ∀ n ∈ (View.drifted.shown.describe ⟨0⟩).ids, View.drifted.depth n ≤ 512 := by
    decide +kernel
  obtain ⟨delta, hdelta⟩ := hok rfl rfl rfl (by decide +kernel) hdepth
  have hlisted : (match (Differ.pass {} View.drifted ⟨0⟩).1 with
      | .ok delta => decide ((delta.ledger.sheet 2).isReplaced = true ∧
          (delta.ledger.sheet 2).container = some ⟨1⟩ ∧ (delta.ledger.sheet 2).evicted = [⟨3⟩])
      | .error _ => false) = true := by decide +kernel
  rw [hdelta] at hlisted
  obtain ⟨hreplaced, hcontainer, hevicted⟩ := of_decide_eq_true hlisted
  obtain ⟨t, ht, hid, -, -, hmem⟩ := hexact delta hdelta 2 hreplaced
  obtain hid : t.id = ⟨1⟩ := (Option.some.inj (hcontainer.symm.trans hid)).symm
  rw [hid, hevicted] at hmem
  exact ⟨delta, hdelta, t, ht, hid, (hmem ⟨3⟩).1 List.mem_cons_self⟩

end PageSync
