import PageSync.Proofs.Edits

/-!
# Lines of only children

Edits can leave a container with any one node outside of its ancestors as its only child
(`Forest.leads_narrowed`), and so, going down from the top of a tree, they can make any list of nodes
a line of only children (`Forest.leads_line`). On the way the children of all these containers are
recorded.
-/

namespace PageSync

namespace Forest

variable {f g : Forest} {top container child n x y z : NodeId} {nodes rest : List NodeId}

/-- Whether a container has one child left, its shown children are recorded, and it is not sent anew as
a matter of course. -/
structure Narrowed (f : Forest) (container child : NodeId) : Prop where
  /-- There is one child. -/
  children_eq : f.view.children container = [child]
  /-- The children that are shown are recorded. -/
  isSome_shownChildren : (f.view.entry container).shownChildren.isSome
  /-- The container is not sent anew as a matter of course. -/
  replacesChildren_eq : (f.view.entry container).replacesChildren = false

/-- Any nodes but the top of the page can be removed. -/
lemma leads_removed (h : f.WellFormed) (htop : f.view.parent top = none)
    (hnodes : ∀ n ∈ nodes, f.contains n ∧ n ≠ f.root) :
    ∃ g, f.Leads top g ∧ f.Steps g ∧
      (∀ x, g.view.parent x = if x ∈ nodes then none else f.view.parent x) ∧
      (∀ x, g.view.children x = (f.view.children x).filter (· ∉ nodes)) ∧
      ∀ x, (g.view.entry x).replacesChildren = (f.view.entry x).replacesChildren := by
  induction nodes generalizing f with
  | nil => exact ⟨f, .refl f top, .refl, by simp, by simp, fun _ => rfl⟩
  | cons n rest ih =>
    obtain ⟨hn, hroot⟩ := hnodes n List.mem_cons_self
    have hstep : f.Step (f.takeOut n) := .takeOut hroot
    have htop' : (f.takeOut n).view.parent top = none := by
      rw [parent_takeOut, htop, ite_self]
    have hrest : ∀ m ∈ rest, (f.takeOut n).contains m ∧ m ≠ (f.takeOut n).root := fun m hm => by
      rw [contains_takeOut, hstep.keeps.root_eq]
      exact hnodes m (List.mem_cons_of_mem _ hm)
    obtain ⟨g, hleads, hsteps, hparent, hchildren, hreplaces⟩ :=
      ih (hstep.wellFormed h) htop' hrest
    refine ⟨g, .head (e := .remove n) (hasRoom_zero f) (remove_eq_ok hn hroot) htop' hleads,
      .head hstep hsteps, ?_, ?_, ?_⟩
    · intro x
      rw [hparent, parent_takeOut]
      by_cases hx : x = n <;> simp [hx]
    · intro x
      rw [hchildren, children_takeOut h.toIsForest, List.filter_filter]
      apply List.filter_congr
      intro y _
      simp [Bool.and_comm]
    · intro x
      rw [hreplaces, replacesChildren_takeOut]

/-- A container can be emptied, so that it is not sent anew as a matter of course. -/
lemma leads_emptied (h : f.WellFormed) (htop : f.view.parent top = none)
    (hc : f.view.isContainer container) :
    ∃ g, f.Leads top g ∧ f.Steps g ∧ g.view.children container = [] ∧
      (g.view.entry container).replacesChildren = false ∧
      (∀ x, g.view.parent x =
        if f.view.parent x = some container then none else f.view.parent x) ∧
      ∀ x ≠ container, g.view.children x = f.view.children x ∧
        (g.view.entry x).replacesChildren = (f.view.entry x).replacesChildren := by
  have hremovable (x : NodeId) (hx : x ∈ f.view.children container) :
      f.contains x ∧ x ≠ f.root := by
    have hparent := h.parent_of_mem hx
    refine ⟨contains_of_parent_eq_some hparent, ?_⟩
    rintro rfl
    simp [h.parent_root] at hparent
  obtain ⟨f', hleads, hsteps, hparent, hchildren, hreplaces⟩ := leads_removed h htop hremovable
  have hc' := hsteps.keeps.isContainer hc
  obtain ⟨i, hi, -⟩ := get?_of_isContainer hc'
  have hattempt := setReplacesChildren_eq_ok hc' false
  have hparent' := parent_update (f := f') (n := container)
    (fun i : Item => (rfl : { i with replacesChildren := false }.parent = i.parent))
  have hchildren' := children_update (f := f') (n := container)
    (fun i : Item => (rfl : { i with replacesChildren := false }.children = i.children))
  have htop' : f'.view.parent top = none := by rw [hparent, htop, ite_self]
  refine ⟨_, hleads.trans (.head (e := .setReplacesChildren container false) (hasRoom_zero f')
    hattempt (hparent' ▸ htop') (.refl _ top)), hsteps.tail (.setting container false), ?_, ?_,
    ?_, fun x hx => ⟨?_, ?_⟩⟩
  · rw [hchildren', hchildren, List.filter_eq_nil_iff]
    exact fun x hx => by simp [hx]
  · rw [entry_update hi]
    rfl
  · intro x
    rw [hparent', hparent]
    simp only [h.mem_children]
  · rw [hchildren', hchildren, List.filter_eq_self]
    intro y hy
    simp [h.mem_children, h.parent_of_mem hy, hx]
  · rw [entry_update_of_ne (Ne.symm hx), hreplaces]

/-- Any node but the ancestors of a container can become its only child. -/
lemma leads_narrowed (h : f.WellFormed) (htop : f.view.parent top = none)
    (hc : f.view.isContainer container) (hcovtop : Covers f.view.parent top container)
    (hn : f.contains child) (hroot : child ≠ f.root)
    (hcov : ¬ Covers f.view.parent child container) :
    ∃ g, f.Leads top g ∧ f.Steps g ∧ g.Narrowed container child ∧
      (∀ x, g.view.parent x = if x = child then some container else
        if f.view.parent x = some container then none else f.view.parent x) ∧
      ∀ x ≠ container, g.view.children x = (f.view.children x).filter (· ≠ child) ∧
        (g.view.entry x).replacesChildren = (f.view.entry x).replacesChildren := by
  obtain ⟨f', hleads, hsteps, hempty, hreplaces, hparent, hother⟩ := leads_emptied h htop hc
  have hwell := hsteps.wellFormed h
  have hc' := hsteps.keeps.isContainer hc
  have hn' := hsteps.keeps.contains hn
  have hancestors : child ∉ f'.ancestors container := fun hmem => by
    have hcov' := ((mem_ancestors_iff hwell.toIsForest).1 hmem).2
    refine hcov (hcov'.of_le fun x p hp => ?_)
    rw [hparent] at hp
    split at hp
    · cases hp
    · exact hp
  have hattempt := append_eq_ok hwell.toIsForest hn' hc' (hsteps.keeps.root_eq ▸ hroot) hancestors
  have hne : top ≠ child := by
    rintro rfl
    exact hcov hcovtop
  have htop' : (f'.move container (f'.others container child).length child).view.parent top =
      none := by
    rw [parent_move hn', if_neg hne, hparent, htop, ite_self]
  refine ⟨_, hleads.trans (.head (e := .append container child) (hasRoom_zero f') hattempt htop'
    (.refl _ top)), hsteps.tail (step_append hwell.toIsForest hattempt), ⟨?_, ?_, ?_⟩, ?_,
    fun x hx => ⟨?_, ?_⟩⟩
  · rw [children_move hwell.toIsForest hc', if_pos rfl, others, hempty]
    rfl
  · exact isSome_shownChildren_move hn' hc'
  · rw [replacesChildren_move, hreplaces]
  · intro x
    rw [parent_move hn', hparent]
  · rw [children_move hwell.toIsForest hc', if_neg hx, (hother x hx).1]
  · rw [replacesChildren_move, (hother x hx).2]

section

variable (h : f.view.IsForest) (hcov : ¬ Covers f.view.parent child container)
  (hparent : ∀ x, g.view.parent x = if x = child then some container else
    if f.view.parent x = some container then none else f.view.parent x)

include h hcov hparent

/-- What was above a container is above its only child. -/
lemma covers_of_narrowed {z : NodeId} (hz : Covers f.view.parent z container) :
    Covers g.view.parent z child := by
  have hz' : Covers g.view.parent z container := hz.congr fun m hm _ => by
    rw [hparent, if_neg fun heq : m = child => hcov (heq ▸ hm),
      if_neg fun hp => h.acyclic.not_covers_parent hp hm]
  exact hz'.trans (.of_parent (by rw [hparent, if_pos rfl]))

omit h in
/-- Nothing else is above the only child of a container. -/
lemma not_covers_of_narrowed {x : NodeId} (hne : x ≠ child)
    (hx : ¬ Covers f.view.parent x container) : ¬ Covers g.view.parent x child := by
  have hle (y p : NodeId) (hp : g.view.parent y = some p) :
      f.view.parent y = some p ∨ y = child ∧ p = container := by
    rw [hparent] at hp
    split at hp
    · next hy => exact .inr ⟨hy, (Option.some.inj hp).symm⟩
    · split at hp
      · cases hp
      · exact .inl hp
  intro hcov'
  have habove := (covers_iff_eq_or_isAbove.1 hcov').resolve_left hne
  have hcovers := habove.covers_parent (by rw [hparent, if_pos rfl])
  rcases hcovers.of_attach hcov hle with hold | ⟨hchild, -⟩
  · exact hx hold
  · exact hcov hchild

end

/-- From the top of a tree downwards any nodes can become a line of only children. -/
lemma leads_line (rest : List NodeId) (h : f.WellFormed) (htop : f.view.parent top = none)
    (hcovtop : Covers f.view.parent top container)
    (hcontainers : ∀ x ∈ (container :: rest).dropLast, f.view.isContainer x)
    (hrest : ∀ x ∈ rest, f.contains x ∧ x ≠ f.root ∧ ¬ Covers f.view.parent x container)
    (hnodup : rest.Nodup) :
    ∃ g, f.Leads top g ∧ f.Steps g ∧ List.IsChain g.Narrowed (container :: rest) ∧
      ∀ y z, f.Narrowed y z → Covers f.view.parent z container → g.Narrowed y z := by
  induction rest generalizing f container with
  | nil => exact ⟨f, .refl f top, .refl, .singleton _, fun _ _ h _ => h⟩
  | cons child rest ih =>
    obtain ⟨hn, hroot, hcov⟩ := hrest child List.mem_cons_self
    have hc := hcontainers container (by simp)
    obtain ⟨f', hleads, hsteps, hnarrowed, hparent, hother⟩ :=
      leads_narrowed h htop hc hcovtop hn hroot hcov
    have htop' : f'.view.parent top = none := by
      rw [hparent, htop, if_neg, if_neg (by simp)]
      rintro rfl
      exact hcov hcovtop
    have hrest' : ∀ x ∈ rest, f'.contains x ∧ x ≠ f'.root ∧ ¬ Covers f'.view.parent x child := by
      intro x hx
      obtain ⟨hknown, hne, hnot⟩ := hrest x (List.mem_cons_of_mem _ hx)
      refine ⟨hsteps.keeps.contains hknown, hsteps.keeps.root_eq ▸ hne,
        not_covers_of_narrowed hcov hparent ?_ hnot⟩
      rintro rfl
      exact (List.nodup_cons.1 hnodup).1 hx
    obtain ⟨g, hleads', hsteps', hchain, hkept⟩ := ih (hsteps.wellFormed h) htop'
      (covers_of_narrowed h.toIsForest hcov hparent hcovtop)
      (fun x hx => hsteps.keeps.isContainer (hcontainers x (by simp_all))) hrest'
      (List.nodup_cons.1 hnodup).2
    refine ⟨g, hleads.trans hleads', hsteps.trans hsteps',
      .cons_cons (hkept _ _ hnarrowed (.refl _)) hchain, fun y z hyz hz => ?_⟩
    -- a container further up has kept its only child
    have hzy : f.view.parent z = some y := h.parent_of_mem (by simp [hyz.children_eq])
    have hy : y ≠ container := by
      rintro rfl
      exact h.acyclic.not_covers_parent hzy hz
    have hzne : z ≠ child := fun heq => hcov (heq ▸ hz)
    refine hkept y z ⟨?_, hsteps.keeps.isSome_shownChildren hyz.isSome_shownChildren, ?_⟩
      (covers_of_narrowed h.toIsForest hcov hparent hz)
    · rw [(hother y hy).1, hyz.children_eq]
      simp [hzne]
    · rw [(hother y hy).2, hyz.replacesChildren_eq]

end Forest

end PageSync
