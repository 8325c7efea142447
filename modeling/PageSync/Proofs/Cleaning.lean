import PageSync.Proofs.Arena

/-!
# What a pass leaves behind

A pass that succeeds changes nothing about the present state of any node. The nodes of the tree that it
goes over are clean afterwards, so that a second pass has nothing to send, and what is remembered of the
nodes of other trees is kept unless the tree is the page (`Forest.clean_of_pass`).
-/

namespace PageSync

/-- Whether a view says that a node is shown as it is, and that nothing changed below it. -/
structure View.IsClean (view : View) (n : NodeId) : Prop where
  /-- No other children are recorded. -/
  shownChildren_eq : (view.entry n).shownChildren = none
  /-- The node is shown under its parent. -/
  shownParent_eq : view.shownParent n = view.parent n
  /-- The attributes have not changed. -/
  attributesChanged_eq : (view.entry n).attributesChanged = false
  /-- No node below has changed. -/
  changedBelow_eq : (view.entry n).changedBelow = false

/-! ### Passes that find nothing -/

namespace Pass

variable {pass : Pass}

lemma compared_of_isClean {view : View} {n : NodeId} (h : view.IsClean n) :
    (view.entry n).compared = none := by
  rw [Entry.compared, h.shownChildren_eq]
  split
  · next heq => cases heq
  · rfl

/-- A walk that starts at a clean node goes no further, and writes nothing into the ledger. -/
lemma yields_gather_of_isClean {F : PassError → Prop} (h : pass.view.IsClean pass.root)
    (s : Progress) : Yields pass.gather s
      (fun _ s' => s' = { s with finished := s.finished ++ [pass.root] }) F := by
  rw [gather, walk, compared_of_isClean h]
  simp [walkSettled, h.attributesChanged_eq, h.changedBelow_eq]

end Pass

/-- A pass from a clean top sends nothing. -/
lemma Differ.pass_of_isClean {differ : Differ} {view : View} {top : NodeId}
    (hpolicy : differ.policy.check = .ok ()) (hknown : view.contains top)
    (htop : view.parent top = none) (hclean : view.IsClean top) :
    ∃ delta, (differ.pass view top).1 = .ok delta ∧ delta.operations = [] := by
  have hyields : Pass.Yields (Pass.gather ⟨view, differ.policy, top⟩) _ _ fun _ => False :=
    Pass.yields_gather_of_isClean hclean { tables := differ.tables.emptied }
  rw [Differ.pass, hpolicy]
  simp only [hknown, if_true, htop, Differ.run]
  split
  · next progress hrun =>
    obtain rfl := hyields.of_run hrun
    exact ⟨_, rfl, rfl⟩
  · next error progress hrun => exact (hyields.of_run_error hrun).elim

namespace Forest

variable {f g : Forest} {n top : NodeId}

/-! ### Settled trees -/

/-- A node with an empty record is clean. -/
lemma isClean_of_record (h : ∀ i, f.get? n = some i → i.record = {}) : f.view.IsClean n := by
  cases hi : f.get? n with
  | none =>
    have hentry := entry_of_get?_none hi
    exact ⟨by rw [hentry], by rw [View.shownParent, View.parent, hentry], by rw [hentry],
      by rw [hentry]⟩
  | some i =>
    have hentry := entry_of_get? hi
    have hrecord := h i hi
    constructor
    · rw [hentry, Item.entry, hrecord]
    · rw [View.shownParent, View.parent, hentry, Item.entry, Item.shownParent, hrecord]
      rfl
    · rw [hentry, Item.entry, hrecord]
    · rw [hentry, Item.entry, hrecord]

lemma SettledBy.isClean (hs : f.SettledBy top g)
    (hn : top = f.root ∨ Covers f.view.parent top n) : g.view.IsClean n :=
  isClean_of_record fun i => hs.forgotten n i hn

/-- After whatever calls on a forest that starts with a page, a pass over one of its trees that succeeds
changes no node, all nodes of the tree are clean then, and another pass over the tree sends nothing,
under any policy that can be followed. What is remembered of the nodes of other trees is kept, unless
the tree is the page, and then all nodes are clean. -/
theorem clean_of_pass {f g : Forest} {page : Node} {top : NodeId} {differ : Differ} {delta : Delta}
    (hbegins : f.Begins page) (hids : ∀ n ∈ page.ids, n.number.toNat + 1 < NodeId.count)
    (hcalls : f.Calls g) (hpass : (Session.pass ⟨g, differ⟩ top).1 = .ok delta) :
    let h := (Session.pass ⟨g, differ⟩ top).2.forest
    h.now = g.now ∧ (∀ n, Covers g.view.parent top n → h.view.IsClean n) ∧
      (∀ differ' : Differ, differ'.policy.check = .ok () →
        ∃ delta', (Session.pass ⟨h, differ'⟩ top).1 = .ok delta' ∧ delta'.operations = []) ∧
        (top ≠ g.root → ∀ n, ¬ Covers g.view.parent top n → h.get? n = g.get? n) ∧
          (top = g.root → ∀ n, h.view.IsClean n) := by
  obtain ⟨hsound, -⟩ := hcalls.keeps_sound (hbegins.sound hids)
  obtain ⟨hdelta, hs⟩ := settledBy_of_pass hsound.toIsForest hpass
  obtain ⟨-, hknown, htop, -⟩ := Differ.of_pass_eq_ok hdelta
  refine ⟨hs.now_eq, fun n hn => hs.isClean (.inr hn), fun differ' hpolicy => ?_,
    fun hne n hn => hs.kept n hne hn, fun heq n => hs.isClean (.inl heq)⟩
  rw [fst_pass]
  apply Differ.pass_of_isClean hpolicy
  · exact (congrFun (contains_congr hs.now_eq) top).trans hknown
  · rwa [parent_congr hs.now_eq]
  · exact hs.isClean (.inr (.refl top))

/-- A detached container keeps its new child to itself when its tree has been gone over. -/
theorem clean_of_pass_detached :
    let g := (Forest.new "body").edits
      [.addContainer "ul", .addLeaf "li", .append ⟨1⟩ ⟨2⟩, .setAttribute ⟨0⟩ "class" "wide"]
    let h := (Session.pass ⟨g, {}⟩ ⟨1⟩).2.forest
    h.view.IsClean ⟨2⟩ ∧ h.get? ⟨0⟩ = g.get? ⟨0⟩ ∧
      ∃ delta, (Session.pass ⟨h, {}⟩ ⟨1⟩).1 = .ok delta ∧ delta.operations = [] := by
  intro g h
  have hcalls : (Forest.new "body").Calls g :=
    (((Relation.ReflTransGen.single (.edit (.addContainer "ul") (by decide))).tail
      (.edit (.addLeaf "li") (by decide))).tail (.edit (.append ⟨1⟩ ⟨2⟩) (by decide))).tail
        (.edit (.setAttribute ⟨0⟩ "class" "wide") (by decide))
  obtain ⟨delta, hpass⟩ : ∃ delta, (Session.pass ⟨g, {}⟩ ⟨1⟩).1 = .ok delta :=
    exists_eq_ok (by decide +kernel)
  obtain ⟨-, hclean, hagain, hkept, -⟩ := clean_of_pass (.new "body") (by decide) hcalls hpass
  refine ⟨hclean ⟨2⟩ (.of_parent (by decide +kernel)), hkept (by decide +kernel) ⟨0⟩ ?_, hagain {} rfl⟩
  intro hcov
  exact absurd (hcov.eq_of_top (by decide +kernel)) (by decide)

end Forest

end PageSync
