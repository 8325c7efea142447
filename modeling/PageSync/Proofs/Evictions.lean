import PageSync.Pass.Eviction
import PageSync.Proofs.Region
import PageSync.Proofs.Shown

/-!
# Evictions are complete

Before the children of a container are sent anew, those nodes leave it that are shown below it but
stand elsewhere in the tree of the pass. The nodes to leave are removed one after the other
(`Pass.evicted_runs`), none of them below another, and whatever remains of the container's shown
content is either below the container now or in no tree that the pass walks. The search fails only
if some node lies deeper than the policy allows (`Pass.evicted_ok`).
-/

namespace PageSync

/-- Whether no node of a shown subtree is more than so many levels below the top of a tree, be it
where it is shown or where it is now. -/
structure View.Within (view : View) (t : Node) (limit : Nat) : Prop where
  /-- The subtree is not shown deeper. -/
  height_le : view.depth t.id + t.height ≤ limit
  /-- None of its nodes is deeper now. -/
  depth_le : ∀ n ∈ t.ids, view.depth n ≤ limit

namespace View.Within

variable {view : View} {t c : Node} {limit : Nat}

lemma of_top (hac : Acyclic view.parent) (htop : view.parent t.id = none) (hheight : t.height ≤ limit)
    (hdepth : ∀ n ∈ t.ids, view.depth n ≤ limit) : view.Within t limit :=
  ⟨by rwa [depth_of_top hac htop, Nat.zero_add], hdepth⟩

/-- A child that stays where it is shown is not deeper than its parent allows. -/
lemma child (h : view.Within t limit) (hac : Acyclic view.parent) (hc : c ∈ t.childList)
    (hparent : view.parent c.id = some t.id) : view.Within c limit where
  height_le := by
    have := h.height_le
    have := Node.height_lt_of_mem_childList hc
    rw [depth_of_parent hac hparent]
    omega
  depth_le n hn := h.depth_le n (Node.mem_ids_iff.2 (.inr ⟨c, hc, hn⟩))

end View.Within

/-- Whether a pass failed because some node is too deep. -/
def PassError.IsTooDeep (e : PassError) : Prop := ∃ n limit, e = .tooDeep n limit

/-! ### Computations that fail -/

lemma of_bind_eq_error {ε γ δ : Type} {r : Except ε γ} {f : γ → Except ε δ} {e : ε}
    (h : (r >>= f) = .error e) : r = .error e ∨ ∃ a, r = .ok a ∧ f a = .error e := by
  cases r with
  | error e' => exact .inl (congrArg Except.error (Except.error.inj h))
  | ok a => exact .inr ⟨a, rfl, h⟩

lemma exists_of_mapM_eq_error {ε γ δ : Type} {f : γ → Except ε δ} {xs : List γ} {e : ε}
    (h : xs.mapM f = .error e) : ∃ x ∈ xs, f x = .error e := by
  induction xs with
  | nil => cases h
  | cons x rest ih =>
    rw [List.mapM_cons] at h
    rcases of_bind_eq_error h with hx | ⟨y, -, h⟩
    · exact ⟨x, List.mem_cons_self, hx⟩
    · rcases of_bind_eq_error h with hrest | ⟨ys, -, h⟩
      · obtain ⟨z, hz, hfz⟩ := ih hrest
        exact ⟨z, List.mem_cons_of_mem x hz, hfz⟩
      · cases h

namespace Pass

variable {pass : Pass} {page : Node} {e : PassError} {container parent n a id : NodeId} {tag : String}
  {attributes : Attributes} {k levels : Nat} {up : Option NodeId} {nodes gone : List NodeId}
  {pre cs : List Node}

/-! ### Where a node is -/

lemma findAbove_inside (h : pass.findAbove container k up = some .inside) :
    ∃ a, up = some a ∧ Covers pass.view.parent container a := by
  induction k generalizing up with
  | zero => cases h
  | succ k ih =>
    cases up with
    | none => cases h
    | some a =>
      refine ⟨a, rfl, ?_⟩
      rw [findAbove] at h
      split at h
      · next heq => exact heq ▸ .refl _
      · split at h
        · cases h
        · obtain ⟨b, hb, hcov⟩ := ih h
          exact hcov.trans (.of_parent hb)

lemma findAbove_elsewhere (h : pass.findAbove container k up = some .elsewhere) :
    ∀ a ∈ up, ¬ Covers pass.view.parent pass.root a := by
  induction k generalizing up with
  | zero => cases h
  | succ k ih =>
    rintro a rfl hcov
    rw [findAbove] at h
    split at h
    · cases h
    · split at h
      · cases h
      · next hne =>
        rcases covers_iff_eq_or_isAbove.1 hcov with heq | habove
        · exact hne heq.symm
        · obtain ⟨b, hb, hcov⟩ := isAbove_iff_parent.1 habove
          exact ih h b hb hcov

/-- A search that comes to no end has followed as many parents as it may. -/
lemma le_depth_of_findAbove_eq_none (hac : Acyclic pass.view.parent)
    (h : pass.findAbove container k (pass.view.parent n) = none) : k ≤ pass.view.depth n := by
  induction k generalizing n with
  | zero => exact Nat.zero_le _
  | succ k ih =>
    cases hp : pass.view.parent n with
    | none =>
      rw [hp] at h
      cases h
    | some a =>
      rw [hp, findAbove] at h
      split at h
      · cases h
      · split at h
        · cases h
        · have := ih h
          have := View.depth_of_parent hac hp
          omega

/-- A child that need not leave a container is below it, if it is in the tree of the pass at all
and its parent is below the container or not in the tree either. -/
lemma covers_of_leaves_eq_false (h : pass.leaves container parent n = .ok false)
    (hparent : Covers pass.view.parent pass.root parent → Covers pass.view.parent container parent)
    (hroot : n ≠ pass.root) (hn : Covers pass.view.parent pass.root n) :
    Covers pass.view.parent container n := by
  have habove := (covers_iff_eq_or_isAbove.1 hn).resolve_left hroot.symm
  rw [leaves] at h
  split at h
  · next hp => exact (hparent (habove.covers_parent hp)).trans (.of_parent hp)
  · rw [whereabouts] at h
    split at h
    · next w hw =>
      cases w with
      | inside =>
        obtain ⟨a, ha, hcov⟩ := findAbove_inside hw
        exact hcov.trans (.of_parent ha)
      | outside => cases h
      | elsewhere =>
        obtain ⟨a, ha, hcov⟩ := isAbove_iff_parent.1 habove
        exact absurd hcov (findAbove_elsewhere hw a ha)
    · cases h

lemma leaves_ok (container parent : NodeId) (hac : Acyclic pass.view.parent)
    (hdepth : pass.view.depth n ≤ pass.policy.depthLimit.toNat) :
    ∃ b, pass.leaves container parent n = .ok b := by
  rw [leaves]
  split
  · exact ⟨_, rfl⟩
  · rw [whereabouts]
    split
    · exact ⟨_, rfl⟩
    · next hnone =>
      have := le_depth_of_findAbove_eq_none hac hnone
      omega

lemma isTooDeep_of_leaves (h : pass.leaves container parent n = .error e) : e.IsTooDeep := by
  rw [leaves] at h
  split at h
  · cases h
  · rw [whereabouts] at h
    split at h
    · cases h
    · cases h
      exact ⟨_, _, rfl⟩

/-! ### Nodes that have to leave -/

/-- What has to leave a container of one node shown there as a child of `parent`, and of the nodes
shown below it. -/
def evictedFrom (pass : Pass) (container : NodeId) (levels : Nat) (parent node : NodeId) :
    Except PassError (List NodeId) := do
  if ← pass.leaves container parent node then return [node]
  else if pass.view.isContainer node then
    pass.evicted container levels node (pass.view.entry node).shownChildList
  else return []

lemma evicted_nil : pass.evicted container (levels + 1) parent [] = .ok [] := rfl

lemma evicted_cons :
    pass.evicted container (levels + 1) parent (n :: nodes) = do
      let first ← pass.evictedFrom container levels parent n
      let others ← pass.evicted container (levels + 1) parent nodes
      return first ++ others := by
  simp only [evicted, evictedFrom, List.mapM_cons, bind_assoc, pure_bind, List.flatten_cons]

/-- What has to leave because of several nodes is what has to leave because of the first of them,
followed by what has to leave because of the others. -/
lemma evicted_cons_eq_ok :
    pass.evicted container (levels + 1) parent (n :: nodes) = .ok gone ↔
      ∃ first others, pass.evictedFrom container levels parent n = .ok first ∧
        pass.evicted container (levels + 1) parent nodes = .ok others ∧
        gone = first ++ others := by
  rw [evicted_cons]
  cases hfirst : pass.evictedFrom container levels parent n with
  | error e => simp [bind, Except.bind]
  | ok first =>
    cases hothers : pass.evicted container (levels + 1) parent nodes with
    | error e => simp [bind, Except.bind]
    | ok others => simp [bind, Except.bind, pure, Except.pure, eq_comm]

lemma evictedFrom_eq_ok (h : pass.evictedFrom container levels parent n = .ok gone) :
    pass.leaves container parent n = .ok true ∧ gone = [n] ∨
      pass.leaves container parent n = .ok false ∧
      (pass.view.isContainer n = true ∧
          pass.evicted container levels n (pass.view.entry n).shownChildList = .ok gone ∨
        pass.view.isContainer n = false ∧ gone = []) := by
  rw [evictedFrom] at h
  cases hl : pass.leaves container parent n with
  | error e => simp [hl, bind, Except.bind] at h
  | ok b =>
    cases b with
    | true => exact .inl ⟨rfl, by simpa [hl, bind, Except.bind, pure, Except.pure, eq_comm] using h⟩
    | false =>
      refine .inr ⟨rfl, ?_⟩
      cases hc : pass.view.isContainer n with
      | true => exact .inl ⟨rfl, by simpa [hl, hc, bind, Except.bind] using h⟩
      | false =>
        exact .inr ⟨rfl, by simpa [hl, hc, bind, Except.bind, pure, Except.pure, eq_comm] using h⟩

/-- The search for nodes that have to leave fails only because of the depth. -/
lemma isTooDeep_of_evicted (h : pass.evicted container levels parent nodes = .error e) :
    e.IsTooDeep := by
  induction levels generalizing parent nodes with
  | zero =>
    cases h
    exact ⟨_, _, rfl⟩
  | succ levels ih =>
    rcases of_bind_eq_error h with h | ⟨_, -, h⟩
    · obtain ⟨n, -, hn⟩ := exists_of_mapM_eq_error h
      rcases of_bind_eq_error hn with hn | ⟨leaves, -, hn⟩
      · exact isTooDeep_of_leaves hn
      · split at hn
        · cases hn
        · split at hn
          · exact ih hn
          · cases hn
    · cases h

variable (h : pass.view.Depicts page) (hroot : pass.root = page.id)

include h

/-- Enough levels make the search for nodes that have to leave come to an end. -/
lemma evicted_ok (container parent : NodeId) (cs : List Node) (hcs : ∀ c ∈ cs, c ∈ page.preorder)
    (hdepth : ∀ c ∈ cs, ∀ n ∈ c.ids, pass.view.depth n ≤ pass.policy.depthLimit.toNat)
    (hlevels : 0 < levels) (hheight : ∀ c ∈ cs, c.height + 1 < levels) :
    ∃ gone, pass.evicted container levels parent (cs.map Node.id) = .ok gone := by
  induction levels generalizing parent cs with
  | zero => omega
  | succ levels ih =>
    clear hlevels
    induction cs with
    | nil => exact ⟨_, evicted_nil⟩
    | cons c cs ihcs =>
      obtain ⟨others, hothers⟩ := ihcs (fun d hd => hcs d (List.mem_cons_of_mem _ hd))
        (fun d hd => hdepth d (List.mem_cons_of_mem _ hd))
        (fun d hd => hheight d (List.mem_cons_of_mem _ hd))
      have hc := hcs c List.mem_cons_self
      have hhc := hheight c List.mem_cons_self
      suffices ∃ first, pass.evictedFrom container levels parent c.id = .ok first by
        obtain ⟨first, hfirst⟩ := this
        exact ⟨_, evicted_cons_eq_ok.2 ⟨first, others, hfirst, hothers, rfl⟩⟩
      obtain ⟨b, hb⟩ := leaves_ok container parent h.acyclic
        (hdepth c List.mem_cons_self c.id c.id_mem_ids)
      cases hkind : pass.view.isContainer c.id with
      | false => cases b <;> simp [evictedFrom, hb, hkind, bind, Except.bind, pure, Except.pure]
      | true =>
        have hshown := (h.entry_matches c hc).shownChildList_eq
          ((h.entry_matches c hc).isContainer_eq ▸ hkind)
        obtain ⟨inner, hinner⟩ := ih c.id c.childList
          (fun d hd => Node.mem_preorder_of_mem_childList hc hd)
          (fun d hd n hn => hdepth c List.mem_cons_self n (Node.mem_ids_iff.2 (.inr ⟨d, hd, hn⟩)))
          (by omega)
          (fun d hd => by have := Node.height_lt_of_mem_childList hd; omega)
        cases b <;>
          simp [evictedFrom, hb, hkind, hshown, hinner, bind, Except.bind, pure, Except.pure]

/-- Whether what is left of some subtrees consists of nodes of theirs that are below the container now
or in no tree that the pass walks. -/
def LeftOf (pass : Pass) (container : NodeId) (cs cs' : List Node) : Prop :=
  ∀ c' ∈ cs', ∀ y ∈ c'.ids, (∃ c ∈ cs, y ∈ c.ids) ∧
    (Covers pass.view.parent pass.root y → Covers pass.view.parent container y)

omit h in
lemma LeftOf.nil : pass.LeftOf container cs [] :=
  fun _ hc' => absurd hc' List.not_mem_nil

omit h in
lemma LeftOf.cons {c : Node} {ds cs' : List Node} (hds : pass.LeftOf container [c] ds)
    (hcs' : pass.LeftOf container cs cs') : pass.LeftOf container (c :: cs) (ds ++ cs') := by
  intro d hd y hy
  rcases List.mem_append.1 hd with hd | hd
  · obtain ⟨⟨e, he, hye⟩, hcov⟩ := hds d hd y hy
    obtain rfl := List.mem_singleton.1 he
    exact ⟨⟨e, List.mem_cons_self, hye⟩, hcov⟩
  · obtain ⟨⟨e, he, hye⟩, hcov⟩ := hcs' d hd y hy
    exact ⟨⟨e, List.mem_cons_of_mem c he, hye⟩, hcov⟩

/-- A child stays, and nodes below it leave. -/
lemma evicted_below_runs {c : Node} (hc : c ∈ page.preorder)
    (hcov : Covers pass.view.parent pass.root c.id → Covers pass.view.parent container c.id)
    (hgone : pass.view.isContainer c.id = true ∧
        pass.evicted container levels c.id (pass.view.entry c.id).shownChildList = .ok gone ∨
      pass.view.isContainer c.id = false ∧ gone = [])
    (hbelow : pass.evicted container levels c.id (c.childList.map Node.id) = .ok gone →
      ∃ ds, Node.Runs (fun _ => True) (.container c.id c.tag c.attributes c.childList)
          (gone.map .delete) (.container c.id c.tag c.attributes ds) ∧
        pass.LeftOf container c.childList ds) :
    ∃ c', Node.Runs (fun _ => True) c (gone.map .delete) c' ∧ pass.LeftOf container [c] [c'] := by
  have hmatches := h.entry_matches c hc
  rcases hgone with ⟨hkind, hgone⟩ | ⟨hkind, rfl⟩
  · have hkind : c.isContainer = true := hmatches.isContainer_eq ▸ hkind
    rw [hmatches.shownChildList_eq hkind] at hgone
    obtain ⟨ds, hruns, hds⟩ := hbelow hgone
    rw [← Node.eq_container hkind] at hruns
    refine ⟨_, hruns, fun d hd y hy => ?_⟩
    obtain rfl := List.mem_singleton.1 hd
    rcases Node.mem_ids_iff.1 hy with rfl | ⟨d, hd, hyd⟩
    · exact ⟨⟨c, List.mem_cons_self, c.id_mem_ids⟩, hcov⟩
    · obtain ⟨⟨e, he, hye⟩, hycov⟩ := hds d hd y hyd
      exact ⟨⟨c, List.mem_cons_self, Node.mem_ids_iff.2 (.inr ⟨e, he, hye⟩)⟩, hycov⟩
  · have hkind : c.isContainer = false := hmatches.isContainer_eq ▸ hkind
    refine ⟨c, .nil _, fun d hd y hy => ?_⟩
    obtain rfl := List.mem_singleton.1 hd
    refine ⟨⟨d, List.mem_cons_self, hy⟩, ?_⟩
    rcases Node.mem_ids_iff.1 hy with rfl | ⟨e, he, -⟩
    · exact hcov
    · simp [Node.childList_of_isContainer_eq_false hkind] at he

include hroot

/-- What has to leave because of one child is removed: the child itself, or nodes below it. -/
lemma evictedFrom_runs {c : Node} {post : List Node} (id : NodeId) (tag : String)
    (attributes : Attributes) (hc : c ∈ page.preorder) (hcroot : c.id ≠ page.id) (hid : id ∉ c.ids)
    (hsib : ∀ s ∈ pre ++ post, ∀ y ∈ s.ids, y ∉ c.ids)
    (htop : Covers pass.view.parent pass.root id → Covers pass.view.parent container id)
    (hgone : pass.evictedFrom container levels id c.id = .ok gone)
    (hbelow : (Covers pass.view.parent pass.root c.id → Covers pass.view.parent container c.id) →
      pass.evicted container levels c.id (c.childList.map Node.id) = .ok gone →
      ∃ ds, Node.Runs (fun _ => True) (.container c.id c.tag c.attributes c.childList)
          (gone.map .delete) (.container c.id c.tag c.attributes ds) ∧
        pass.LeftOf container c.childList ds) :
    ∃ ds, Node.Runs (fun _ => True) (.container id tag attributes (pre ++ c :: post))
        (gone.map .delete) (.container id tag attributes (pre ++ ds ++ post)) ∧
      pass.LeftOf container [c] ds := by
  rcases evictedFrom_eq_ok hgone with ⟨-, rfl⟩ | ⟨hleaves, hgone⟩
  · -- the child leaves with everything below it
    refine ⟨[], .cons ⟨?_, ?_⟩ (by simp [Operation.content]) ?_, .nil⟩
    · exact Node.mem_ids_inside.2 (.inl c.id_mem_ids)
    · rintro (heq : c.id = id)
      exact hid (heq ▸ c.id_mem_ids)
    · rw [Node.perform, Node.prune_child fun s hs hmem => hsib s hs _ hmem c.id_mem_ids,
        List.append_nil]
      exact .nil _
  · -- the child stays, and what is below it is looked at in turn
    have hcov := covers_of_leaves_eq_false hleaves htop (hroot ▸ hcroot)
    obtain ⟨c', hruns, hc'⟩ := evicted_below_runs h hc hcov hgone (hbelow hcov)
    refine ⟨[c'], ?_, hc'⟩
    simpa using hruns.inside hid hsib (fun _ h => h) trivial fun _ _ _ _ => trivial

/-- The nodes that have to leave are present one after the other until they are removed, and what
is left is either below the container now or in no tree that the pass walks. -/
lemma evicted_runs (id : NodeId) (tag : String) (attributes : Attributes) (pre : List Node)
    (hcs : ∀ c ∈ cs, c ∈ page.preorder ∧ c.id ≠ page.id)
    (hid : ∀ c ∈ cs, id ∉ c.ids) (hdisjoint : cs.Pairwise fun c d => ∀ y ∈ c.ids, y ∉ d.ids)
    (hpre : ∀ s ∈ pre, ∀ c ∈ cs, ∀ y ∈ s.ids, y ∉ c.ids)
    (htop : Covers pass.view.parent pass.root id → Covers pass.view.parent container id)
    (hgone : pass.evicted container levels id (cs.map Node.id) = .ok gone) :
    ∃ cs', Node.Runs (fun _ => True) (.container id tag attributes (pre ++ cs))
        (gone.map .delete) (.container id tag attributes (pre ++ cs')) ∧
      pass.LeftOf container cs cs' := by
  induction levels generalizing id tag attributes pre cs gone with
  | zero => cases hgone
  | succ levels ih =>
    induction cs generalizing pre gone with
    | nil =>
      cases hgone
      exact ⟨[], .nil _, .nil⟩
    | cons c cs ihcs =>
      obtain ⟨first, others, hfirst, hothers, rfl⟩ := evicted_cons_eq_ok.1 hgone
      obtain ⟨hc, hcroot⟩ := hcs c List.mem_cons_self
      obtain ⟨hcd, hdisjoint⟩ := List.pairwise_cons.1 hdisjoint
      have hsib : ∀ s ∈ pre ++ cs, ∀ y ∈ s.ids, y ∉ c.ids := by
        intro s hs y hy hyc
        rcases List.mem_append.1 hs with hs | hs
        · exact hpre s hs c List.mem_cons_self y hy hyc
        · exact hcd s hs y hyc hy
      obtain ⟨ds, hruns, hds⟩ := evictedFrom_runs h hroot id tag attributes hc hcroot
        (hid c List.mem_cons_self) hsib htop hfirst fun hcov hinner => by
          have hnodup := Node.nodup_of_mem h.nodup hc
          simpa using ih c.id c.tag c.attributes []
            (fun d hd => ⟨Node.mem_preorder_of_mem_childList hc hd,
              Node.id_ne_of_mem_childList h.nodup hc hd⟩)
            (fun d hd => Node.notMem_ids_of_mem_childList hnodup hd)
            (Node.pairwise_childList hnodup) (by simp) hcov hinner
      have hrest : ∀ s ∈ pre ++ ds, ∀ d ∈ cs, ∀ y ∈ s.ids, y ∉ d.ids := by
        intro s hs d hd y hy hyd
        rcases List.mem_append.1 hs with hs | hs
        · exact hpre s hs d (List.mem_cons_of_mem _ hd) y hy hyd
        · obtain ⟨⟨e, he, hye⟩, -⟩ := hds s hs y hy
          obtain rfl := List.mem_singleton.1 he
          exact hcd d hd y hye hyd
      obtain ⟨cs', hruns', hcs'⟩ := ihcs (pre ++ ds) (fun d hd => hcs d (List.mem_cons_of_mem _ hd))
        (fun d hd => hid d (List.mem_cons_of_mem _ hd)) hdisjoint hrest hothers
      refine ⟨ds ++ cs', ?_, hds.cons hcs'⟩
      rw [List.map_append, ← List.append_assoc]
      exact hruns.append hruns'

end Pass

end PageSync
