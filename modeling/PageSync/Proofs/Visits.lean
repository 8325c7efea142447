import PageSync.Proofs.Coherence
import PageSync.Proofs.Passes
import PageSync.Proofs.Scripts

/-!
# Comparisons lead from the shown children to the current ones

A pass visits a node in a certain state (`Pass.Visits`) if it would fail there and then if the walk at
that node did. On a page without strays, nothing below a visited node has been looked at before
(`Pass.Visits.exists_ahead`), whatever has been noted elsewhere in the tables that all containers
share. So the comparison of the children of any container that a pass comes to succeeds
(`Pass.ComparesIn.exists_compared`), and if the view is coherent, it yields an exact edit script
(`Pass.script_of_comparesIn`).
-/

namespace PageSync

namespace Pass

variable {pass : Pass} {tables : Tables} {levels into into' : Nat} {n n' c : NodeId}
  {s s' : Progress} {page t : Node} {shown current : List NodeId} {e : PassError}
  {descend : Nat → NodeId → Walk Unit}

/-! ### Visited nodes -/

open Classical in
/-- The steps that are taken below a node, except that one of them fails. -/
noncomputable def failAt (descend : Nat → NodeId → Walk Unit) (into : Nat) (n : NodeId) (s : Progress)
    (e : PassError) : Nat → NodeId → Walk Unit := fun into' n' s' =>
  if into' = into ∧ n' = n ∧ s' = s then .error e s' else descend into' n' s'

/-- Whether a step, taken in one state, comes to another one in which it goes on at a node: it fails
there if what it does at the node fails. -/
def ComesTo (step : (Nat → NodeId → Walk Unit) → Walk Unit) (descend : Nat → NodeId → Walk Unit)
    (s : Progress) (into : Nat) (n : NodeId) (s' : Progress) : Prop :=
  ∀ e, (step (failAt descend into n s' e)).run s = .error e s'

/-- What a walk does at a node, given the steps that it takes below. -/
def lookAt (pass : Pass) (levels into : Nat) (n : NodeId) (descend : Nat → NodeId → Walk Unit) :
    Walk Unit :=
  match (pass.view.entry n).compared with
  | some (shown, current) => pass.walkChanged descend (levels + 1) into n shown current
  | none => pass.walkSettled descend into n

/-- A walk does this at every node. -/
lemma walk_succ (pass : Pass) (levels into : Nat) (n : NodeId) :
    pass.walk (levels + 1) into n = pass.lookAt levels into n (pass.walk levels) := rfl

/-- Whether a pass visits a node in a state, with so many levels left and a sheet on which to note
changes. -/
inductive Visits (pass : Pass) (tables : Tables) : Nat → Nat → NodeId → Progress → Prop
  /-- It starts at the top. -/
  | top : Visits pass tables (pass.policy.depthLimit.toNat + 1) Ledger.first pass.root
      { tables := tables.emptied }
  /-- It goes on below the nodes that it visits. -/
  | next {levels into into' : Nat} {n n' : NodeId} {s s' : Progress}
      (visits : Visits pass tables (levels + 1) into n s)
      (comes : ComesTo (pass.lookAt levels into n) (pass.walk levels) s into' n' s') :
      Visits pass tables levels into' n' s'

/-- Whether a pass compares the shown and the current children of a container when it visits it. -/
structure ComparesIn (pass : Pass) (tables : Tables) (levels : Nat) (c : NodeId)
    (shown current : List NodeId) (s : Progress) : Prop where
  /-- The container is visited. -/
  visits : ∃ into, pass.Visits tables (levels + 1) into c s
  /-- There is something to compare. -/
  compared_eq : (pass.view.entry c).compared = some (shown, current)
  /-- It is compared. -/
  sendsAnew_eq : pass.sendsAnew c shown current = false

section Depicts

variable (h : pass.view.Depicts page)

include h

lemma yields_lookAt (ha : pass.Ahead page t (levels + 1) into s)
    (hbelow : pass.Descends page levels descend) :
    Yields (pass.lookAt levels into t.id descend) s (fun _ s' => pass.Completes t into s s')
      (pass.MayFail page t) := by
  rw [lookAt]
  cases hcompared : (pass.view.entry t.id).compared with
  | none => exact yields_walkSettled h ha hbelow hcompared
  | some lists => exact yields_walkChanged h ha hbelow hcompared

/-- If a step comes to a node of which something has been looked at, then that does not matter for the
steps to which it may come. -/
lemma descends_failAt (hnot : ¬ ∃ t, t.id = n ∧ pass.Ahead page t levels into s) :
    pass.Descends page levels (failAt (pass.walk levels) into n s e) := by
  intro t i s₁ ha
  have hwalk : (failAt (pass.walk levels) into n s e i t.id).run s₁ =
      (pass.walk levels i t.id).run s₁ :=
    if_neg <| by
      rintro ⟨rfl, rfl, rfl⟩
      exact hnot ⟨t, rfl, ha⟩
  rw [Yields, hwalk]
  exact descends_walk h levels t i s₁ ha

/-- When a step comes to a node, nothing below that has been looked at. -/
lemma ComesTo.exists_ahead
    (hcomes : ComesTo (pass.lookAt levels into t.id) (pass.walk levels) s into' n' s')
    (hstrays : ¬ pass.view.HasStrays page) (ha : pass.Ahead page t (levels + 1) into s) :
    ∃ t', t'.id = n' ∧ pass.Ahead page t' levels into' s' := by
  by_contra hnot
  -- then it comes to no failure there but for reasons for which walks may fail
  have hyields := yields_lookAt h ha (descends_failAt (e := .unknownTop n') h hnot)
  rcases hyields.of_run_error (hcomes (.unknownTop n')) with ⟨⟨_, _, heq⟩, -⟩ | hstray
  · cases heq
  · exact hstrays hstray

end Depicts

/-- When a pass visits a node, nothing below that has been looked at. -/
lemma Visits.exists_ahead (h : pass.view.Depicts page) (hroot : page.id = pass.root)
    (hstrays : ¬ pass.view.HasStrays page) (hvisits : pass.Visits tables levels into n s) :
    ∃ t, t.id = n ∧ pass.Ahead page t levels into s := by
  induction hvisits with
  | top => exact ⟨page, hroot, pass.ahead_start h tables⟩
  | next _ comes ih =>
    obtain ⟨t, rfl, ha⟩ := ih
    exact comes.exists_ahead h hstrays ha

/-! ### Compared children -/

/-- When a pass comes to compare the children of a container, and no node below the container is too
deep, then the comparison succeeds. -/
lemma ComparesIn.exists_compared (h : pass.view.Depicts page) (hroot : page.id = pass.root)
    (hstrays : ¬ pass.view.HasStrays page)
    (hcompares : pass.ComparesIn tables levels c shown current s)
    (hwithin : ∀ t ∈ page.preorder, t.id = c →
      pass.view.Within t pass.policy.depthLimit.toNat) :
    ∃ t into, t.id = c ∧ pass.Ahead page t (levels + 1) into s ∧ ∃ s' parts,
      (pass.compareChildren (pass.walk levels s.ledger.next) s.ledger.next c shown current).run
        (pass.opened c s) = .ok () s' ∧
      pass.Compared t s.ledger.next shown current (pass.opened c s) parts s' := by
  obtain ⟨into, hvisits⟩ := hcompares.visits
  obtain ⟨t, rfl, ha⟩ := hvisits.exists_ahead h hroot hstrays
  have hne : shown ≠ [] := by
    rintro rfl
    have hmixed := hcompares.sendsAnew_eq
    simp [sendsAnew] at hmixed
  have hyields := yields_comparison h ha (descends_walk h levels) hcompares.compared_eq hne
  refine ⟨t, into, rfl, ha, ?_⟩
  cases hrun : (pass.compareChildren (pass.walk levels s.ledger.next) s.ledger.next t.id shown
      current).run (pass.opened t.id s) with
  | error e s' =>
    rcases hyields.of_run_error hrun with ⟨-, hdeep⟩ | hstray
    · exact absurd (hwithin t ha.mem rfl) hdeep
    · exact absurd hstray hstrays
  | ok _ s' =>
    obtain ⟨parts, hcompared⟩ := hyields.of_run hrun
    exact ⟨s', parts, rfl, hcompared⟩

/-- When a pass over a coherent view comes to compare the children of a container, and no node below the
container is too deep, then the comparison succeeds. The sheet of the container is an exact edit script
then, and the children that it keeps are the ones that the pass has gone on to. -/
theorem script_of_comparesIn (h : pass.view.Coherent) (htop : pass.view.parent pass.root = none)
    (hcompares : pass.ComparesIn tables levels c shown current s)
    (hwithin : pass.view.Within (pass.view.shown.describe c) pass.policy.depthLimit.toNat) :
    ∃ s' kept,
      (pass.compareChildren (pass.walk levels s.ledger.next) s.ledger.next c shown current).run
        (pass.opened c s) = .ok () s' ∧
      (s'.ledger.sheet s.ledger.next).IsScript shown current kept ∧
      ∀ n ∈ current, n ∉ s.finished ∧ (n ∈ s'.finished ↔ n ∈ kept) := by
  have hdepicts := h.depicts htop
  obtain ⟨t, into, rfl, ha, s', parts, hrun, hcompared⟩ :=
    hcompares.exists_compared hdepicts (h.isForest_shown.id_describe _) h.not_hasStrays
      fun t ht htc => by
        obtain ⟨heq, -⟩ := h.isForest_shown.mem_preorder_describe ht
        rwa [heq, htc]
  obtain ⟨hcurrent, hshown⟩ := hdepicts.children_of_compared_some ha.mem hcompares.compared_eq
  have hnodup : shown.Nodup :=
    hshown ▸ Node.nodup_map_id_childList (Node.nodup_of_mem hdepicts.nodup ha.mem)
  refine ⟨s', parts.map (·.1.id), hrun,
    hcompared.isScript hshown hnodup (hcurrent ▸ h.nodup_children _), fun n hn => ⟨?_, ?_⟩⟩
  · have hparent := h.parent_of_mem (hcurrent ▸ hn)
    exact (ha.fresh n (.of_parent hparent)).finished
  · exact hcompared.finished_iff n hn

/-- One of the two shown children stays, and the other one is moved; the new one is inserted behind
them. -/
theorem script_of_comparesIn_drifted :
    let pass : Pass := ⟨View.drifted, {}, ⟨0⟩⟩
    ∃ s' kept, (pass.compareChildren (pass.walk 512 1) 1 ⟨0⟩ [⟨1⟩, ⟨2⟩] [⟨2⟩, ⟨1⟩, ⟨3⟩]).run
        (pass.opened ⟨0⟩ {}) = .ok () s' ∧
      (s'.ledger.sheet 1).IsScript [⟨1⟩, ⟨2⟩] [⟨2⟩, ⟨1⟩, ⟨3⟩] kept ∧ kept ≠ [] := by
  intro pass
  have hcompares : pass.ComparesIn {} 512 ⟨0⟩ [⟨1⟩, ⟨2⟩] [⟨2⟩, ⟨1⟩, ⟨3⟩] {} :=
    ⟨⟨_, .top⟩, by decide, by decide +kernel⟩
  have hdepth : ∀ n ∈ (View.drifted.shown.describe ⟨0⟩).ids, View.drifted.depth n ≤ 512 := by
    decide +kernel
  have hwithin : View.drifted.Within (View.drifted.shown.describe ⟨0⟩) 512 :=
    .of_top View.coherent_drifted.acyclic rfl (by decide +kernel) hdepth
  obtain ⟨s', kept, hrun, hscript, -⟩ :=
    script_of_comparesIn View.coherent_drifted rfl hcompares hwithin
  exact ⟨s', kept, hrun, hscript, hscript.kept_ne_nil ⟨⟨1⟩, by decide⟩⟩

end Pass

end PageSync
