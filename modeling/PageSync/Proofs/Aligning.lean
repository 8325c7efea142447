import PageSync.Proofs.Comparing

/-!
# Following both lists of children

The children that have stayed are followed in their shown and in their current order side by side.
Every step keeps what `Comparing` says of the state and what `Aligned` says of the lists that are
left, whichever of two differing children is moved; so the heuristic that chooses between them
doesn't matter for the result to be right. Which children it moves is what `relocated` says of the two
orders.
-/

namespace PageSync

namespace Pass

variable {pass : Pass} {t k : Node} {descend : NodeId → Walk Unit} {number old new : Nat}
  {gone stayed before current rest others moves : List NodeId} {s s₁ : Progress}
  {F : PassError → Prop} {parts : List (Node × Share)} {share : Share} {y node : NodeId}

/-! ### The lists that are left -/

/-- How the lists of children that are left to be followed, in the shown and in the current order,
go on from those that were kept or moved. -/
structure Aligned (stayed before : List NodeId) (parts : List (Node × Share))
    (moves rest others : List NodeId) : Prop where
  /-- The children kept so far come first in the shown order. -/
  shown_order : (parts.map (·.1.id) ++ rest).Sublist stayed
  /-- They come first in the current order too. -/
  current_order : (parts.map (·.1.id) ++ others).Sublist before
  /-- The same children are left on both sides. -/
  mem_iff : ∀ y, y ∉ moves → (y ∈ rest ↔ y ∈ others)
  /-- No child is left out. -/
  covered : ∀ y ∈ before, y ∈ moves ∨ y ∈ parts.map (·.1.id) ∨ y ∈ rest
  /-- As long as none is kept, one is left that has not been moved. -/
  unmoved : before ≠ [] → parts = [] → ∃ y ∈ rest, y ∉ moves

namespace Aligned

variable {other : NodeId}

lemma start (hmem : ∀ y, y ∈ stayed ↔ y ∈ before) : Aligned stayed before [] [] stayed before where
  shown_order := .refl _
  current_order := .refl _
  mem_iff y _ := hmem y
  covered y hy := .inr (.inr ((hmem y).2 hy))
  unmoved hbefore _ := by
    obtain ⟨y, hy⟩ := List.exists_mem_of_ne_nil before hbefore
    exact ⟨y, (hmem y).2 hy, List.not_mem_nil⟩

lemma skip_shown (h : Aligned stayed before parts moves (y :: rest) others) (hy : y ∈ moves) :
    Aligned stayed before parts moves rest others where
  shown_order := ((List.Sublist.refl _).append (List.sublist_cons_self y rest)).trans h.shown_order
  current_order := h.current_order
  mem_iff z hz := by
    rw [← h.mem_iff z hz, List.mem_cons, or_iff_right]
    rintro rfl
    exact hz hy
  covered z hz := by
    rcases h.covered z hz with hz | hz | hz
    · exact .inl hz
    · exact .inr (.inl hz)
    · exact (List.mem_cons.1 hz).elim (fun e => .inl (e ▸ hy)) fun hz => .inr (.inr hz)
  unmoved hbefore hparts := by
    obtain ⟨z, hz, hmoves⟩ := h.unmoved hbefore hparts
    rcases List.mem_cons.1 hz with rfl | hz
    · exact absurd hy hmoves
    · exact ⟨z, hz, hmoves⟩

lemma skip_current (h : Aligned stayed before parts moves rest (y :: others)) (hy : y ∈ moves) :
    Aligned stayed before parts moves rest others where
  shown_order := h.shown_order
  current_order :=
    ((List.Sublist.refl _).append (List.sublist_cons_self y others)).trans h.current_order
  mem_iff z hz := by
    rw [h.mem_iff z hz, List.mem_cons, or_iff_right]
    rintro rfl
    exact hz hy
  covered := h.covered
  unmoved := h.unmoved

/-- Where the lists differ, one of the two children that come next is moved, and the other is left. -/
lemma move (h : Aligned stayed before parts moves (node :: rest) (other :: others))
    (hne : node ≠ other) (hnode : node ∉ moves) (hother : other ∉ moves)
    (hy : y = node ∨ y = other) :
    Aligned stayed before parts (moves ++ [y]) (node :: rest) (other :: others) where
  shown_order := h.shown_order
  current_order := h.current_order
  mem_iff z hz := h.mem_iff z fun hmem => hz (List.mem_append_left _ hmem)
  covered z hz := (h.covered z hz).imp_left (List.mem_append_left _)
  unmoved _ _ := by
    rcases hy with rfl | rfl
    · exact ⟨other, (h.mem_iff other hother).2 List.mem_cons_self, by simp [hother, hne.symm]⟩
    · exact ⟨node, List.mem_cons_self, by simp [hnode, hne]⟩

lemma keep (h : Aligned stayed before parts moves (k.id :: rest) (k.id :: others))
    (hstayed : stayed.Nodup) (hbefore : before.Nodup) :
    Aligned stayed before (parts ++ [(k, share)]) moves rest others where
  shown_order := by simpa using h.shown_order
  current_order := by simpa using h.current_order
  mem_iff z hz := by
    have hmem := h.mem_iff z hz
    have hrest := List.nodup_cons.1 (List.nodup_append.1 (hstayed.sublist h.shown_order)).2.1
    have hothers := List.nodup_cons.1 (List.nodup_append.1 (hbefore.sublist h.current_order)).2.1
    by_cases hzk : z = k.id
    · exact hzk ▸ iff_of_false hrest.1 hothers.1
    · simpa [hzk] using hmem
  covered z hz := by
    rcases h.covered z hz with hz | hz | hz
    · exact .inl hz
    · exact .inr (.inl (by simp [hz]))
    · rcases List.mem_cons.1 hz with rfl | hz
      · exact .inr (.inl (by simp))
      · exact .inr (.inr hz)
  unmoved _ hparts := by simp at hparts

end Aligned

/-! ### Steps of the comparison -/

/-- What is given when the children of a container are compared. -/
structure Comparison (pass : Pass) (t : Node) (descend : NodeId → Walk Unit) (number : Nat)
    (stayed before current : List NodeId) (s₁ : Progress) (F : PassError → Prop) : Prop where
  /-- No node is above itself. -/
  acyclic : Acyclic pass.view.parent
  /-- No shown child is listed twice. -/
  nodup_stayed : stayed.Nodup
  /-- No current child is listed twice. -/
  nodup_current : current.Nodup
  /-- The children shown before are some of the current ones. -/
  sublist : before.Sublist current
  /-- They are the children that have stayed. -/
  mem_iff : ∀ y, y ∈ stayed ↔ y ∈ before
  /-- The current children are below the container now. -/
  parent : ∀ y ∈ current, pass.view.parent y = some t.id
  /-- The children that have stayed are shown. -/
  shown : ∀ y ∈ stayed, ∃ k ∈ t.childList, k.id = y
  /-- The container has a sheet. -/
  number_lt : number < s₁.ledger.next
  /-- Changes count that are noted on the sheet. -/
  isWhole : (s₁.ledger.sheet number).isWhole = false
  /-- The walk at a child contributes a planned share to the sheet, and is done with the child. -/
  descend : ∀ k ∈ t.childList, k.id ∈ before → ∀ s, pass.Fresh s k.id → number < s.ledger.next →
    (s.ledger.sheet number).isWhole = false →
      Yields (descend k.id) s (fun _ s' => pass.Completes k number s s') F

namespace Comparison

variable (h : pass.Comparison t descend number stayed before current s₁ F)

include h

lemma notMem_kept_of_rest (ha : Aligned stayed before parts moves rest others) (hy : y ∈ rest) :
    y ∈ before ∧ y ∉ parts.map (·.1.id) := by
  have hnodup := List.nodup_append.1 (h.nodup_stayed.sublist ha.shown_order)
  refine ⟨(h.mem_iff y).1 (ha.shown_order.subset (List.mem_append_right _ hy)), fun hkept => ?_⟩
  exact hnodup.2.2 y hkept y hy rfl

lemma notMem_kept_of_others (ha : Aligned stayed before parts moves rest others) (hy : y ∈ others) :
    y ∈ before ∧ y ∉ parts.map (·.1.id) := by
  have hbefore := h.nodup_current.sublist h.sublist
  have hnodup := List.nodup_append.1 (hbefore.sublist ha.current_order)
  refine ⟨ha.current_order.subset (List.mem_append_right _ hy), fun hkept => ?_⟩
  exact hnodup.2.2 y hkept y hy rfl

lemma yields_move (hs : pass.Comparing t number gone stayed before current s₁ parts moves s)
    (hy : y ∈ before) (hkept : y ∉ parts.map (·.1.id)) (hmoves : y ∉ moves) :
    Yields (pass.moveChild number y) s
      (fun _ s' => pass.Comparing t number gone stayed before current s₁ parts (moves ++ [y]) s') F := by
  obtain ⟨place, hplace, hlocates⟩ := hs.places y hy hkept
  have hfresh := (hs.fresh y hy hkept hmoves).self.find?_eq
  have hnumber := Nat.lt_of_lt_of_le h.number_lt hs.confined.next_le
  apply yields_moveChild hplace hfresh hnumber
  intro s' hconfined hplaces hmoved hfinished hsheet
  exact hs.move h.acyclic h.nodup_current (fun y hy => h.parent y (h.sublist.subset hy)) h.isWhole hy
    hkept hmoves hconfined hplaces hmoved hfinished hlocates.target hsheet

lemma yields_keep (hs : pass.Comparing t number gone stayed before current s₁ parts moves s)
    (hk : k ∈ t.childList) (hy : k.id ∈ before) (hkept : k.id ∉ parts.map (·.1.id))
    (hmoves : k.id ∉ moves) :
    Yields (descend k.id) s (fun _ s' => ∃ share,
      pass.Comparing t number gone stayed before current s₁ (parts ++ [(k, share)]) moves s') F := by
  have hnumber := Nat.lt_of_lt_of_le h.number_lt hs.confined.next_le
  have hwhole : (s.ledger.sheet number).isWhole = false := by
    obtain ⟨inserted, numbers, hsheet, -⟩ := hs.sheet
    rw [hsheet]
    exact h.isWhole
  apply (h.descend k hk hy s (hs.fresh _ hy hkept hmoves) hnumber hwhole).mono
  rintro _ s' ⟨⟨share, hplanned, hshare⟩, hfinished⟩
  exact ⟨share, hs.keep h.acyclic h.parent h.sublist.subset h.number_lt hk hy hmoves hplanned hshare
    hfinished⟩

/-! ### Following the lists -/

/-- A given shown child stays or is moved as the order of the lists demands, and the children before it
among the current ones are moved. -/
lemma yields_alignChild {Q : List NodeId → List NodeId → Progress → Prop}
    {next : Nat → List NodeId → Walk (List NodeId)}
    {onward : Nat → List NodeId → List NodeId → List NodeId}
    (hnext : ∀ new others parts moves s,
      pass.Comparing t number gone stayed before current s₁ parts moves s →
      Aligned stayed before parts moves rest others →
        Yields (next new others) s (Q (onward new others moves)) F)
    (others : List NodeId) (hs : pass.Comparing t number gone stayed before current s₁ parts moves s)
    (ha : Aligned stayed before parts moves (node :: rest) others) (hnode : node ∉ moves) :
    Yields (pass.alignChild descend number t.id node old next new others) s
      (Q (relocateChild stayed before node old onward new others moves)) F := by
  induction others generalizing new parts moves s with
  | nil => exact absurd ((ha.mem_iff node hnode).1 List.mem_cons_self) List.not_mem_nil
  | cons other others ih =>
    obtain ⟨hobefore, hokept⟩ := h.notMem_kept_of_others ha List.mem_cons_self
    obtain ⟨hnbefore, hnkept⟩ := h.notMem_kept_of_rest ha List.mem_cons_self
    rw [alignChild, yields_bind, yields_isMoved, yields_ite, relocateChild]
    constructor
    · intro hmoved
      have homoves := (hs.contains_moved hobefore hokept).1 hmoved
      rw [if_pos homoves]
      exact ih hs (ha.skip_current homoves) hnode
    · intro hunmoved
      have homoves : other ∉ moves := fun hmem =>
        hunmoved ((hs.contains_moved hobefore hokept).2 hmem)
      rw [yields_ite, if_neg homoves]
      constructor
      · rintro rfl
        obtain ⟨k, hk, rfl⟩ := h.shown node ((h.mem_iff node).2 hnbefore)
        rw [yields_bind, if_pos rfl]
        apply (h.yields_keep hs hk hobefore hokept homoves).mono
        rintro _ s' ⟨share, hs'⟩
        exact hnext _ _ _ _ s' hs' (ha.keep h.nodup_stayed (h.nodup_current.sublist h.sublist))
      · intro hne
        obtain ⟨nodePlace, hnplace, hnlocates⟩ := hs.places node hnbefore hnkept
        obtain ⟨otherPlace, hoplace, holocates⟩ := hs.places other hobefore hokept
        have hnew := idxOf_of_getElem? (h.nodup_current.sublist h.sublist) hnlocates.new
        have hold := idxOf_of_getElem? h.nodup_stayed holocates.old
        rw [yields_bind, yields_placeOf hnplace, yields_bind, yields_placeOf hoplace, yields_ite,
          if_neg hne, hnew, hold]
        constructor
        · intro hfarther
          rw [yields_bind, if_pos hfarther]
          apply (h.yields_move hs hnbefore hnkept hnode).mono
          intro _ s' hs'
          exact hnext _ _ _ _ s' hs' ((ha.move hne hnode homoves (.inl rfl)).skip_shown (by simp))
        · intro hnearer
          rw [yields_bind, if_neg hnearer]
          apply (h.yields_move hs hobefore hokept homoves).mono
          intro _ s' hs'
          exact ih hs' ((ha.move hne hnode homoves (.inr rfl)).skip_current (by simp))
            (by simp [hnode, hne])

/-- When all children that have stayed are dealt with, every one of them is kept or moved, and it is
determined by their orders which ones are moved. -/
lemma yields_align (rest : List NodeId)
    (hs : pass.Comparing t number gone stayed before current s₁ parts moves s)
    (ha : Aligned stayed before parts moves rest others) :
    Yields (pass.align descend number t.id old rest new others) s
      (fun left s' => ∃ parts,
        pass.Comparing t number gone stayed before current s₁ parts
          (relocate stayed before old rest new others moves) s' ∧
        Aligned stayed before parts (relocate stayed before old rest new others moves) [] left) F := by
  induction rest generalizing old new others parts moves s with
  | nil =>
    rw [align, yields_pure]
    exact ⟨parts, hs, ha⟩
  | cons node rest ih =>
    obtain ⟨hnbefore, hnkept⟩ := h.notMem_kept_of_rest ha List.mem_cons_self
    rw [align, yields_bind, yields_isMoved, yields_ite, relocate]
    constructor
    · intro hmoved
      have hmoves := (hs.contains_moved hnbefore hnkept).1 hmoved
      rw [if_pos hmoves]
      exact ih hs (ha.skip_shown hmoves)
    · intro hunmoved
      have hmoves : node ∉ moves := fun hmem =>
        hunmoved ((hs.contains_moved hnbefore hnkept).2 hmem)
      rw [if_neg hmoves]
      exact h.yields_alignChild (Q := fun moves left s' => ∃ parts,
        pass.Comparing t number gone stayed before current s₁ parts moves s' ∧
          Aligned stayed before parts moves [] left)
        (fun new others parts moves s hs ha => ih hs ha) others hs ha hmoves

/-- No child is left over that would have to be moved. -/
lemma yields_left {left : List NodeId}
    (hs : pass.Comparing t number gone stayed before current s₁ parts moves s)
    (ha : Aligned stayed before parts moves [] left) {Q : Unit → Progress → Prop} (hQ : Q () s) :
    Yields (left.forM fun node => do
      if ← isMoved node then return () else pass.moveChild number node) s Q F := by
  refine (yields_forM (I := fun _ s' => s' = s) left ?_ rfl).mono ?_
  · rintro done y rest _ hleft rfl
    have hy : y ∈ left := by simp [hleft]
    have hmoves : y ∈ moves := by
      by_contra hmoves
      exact absurd ((ha.mem_iff y hmoves).2 hy) List.not_mem_nil
    obtain ⟨hybefore, hykept⟩ := h.notMem_kept_of_others ha hy
    have hmoved := (hs.contains_moved hybefore hykept).2 hmoves
    rw [yields_bind, yields_isMoved, yields_ite]
    exact ⟨fun _ => rfl, fun hunmoved => absurd hmoved hunmoved⟩
  · rintro _ _ rfl
    exact hQ

end Comparison

/-! ### The whole comparison -/

/-- What has been noted when the children of a container have been compared: the shown children that
are not kept are removed, and the current ones that are not kept are inserted. -/
structure Compared (pass : Pass) (t : Node) (number : Nat) (shown current : List NodeId)
    (s₁ : Progress) (parts : List (Node × Share)) (s : Progress) : Prop where
  /-- Nothing is noted about nodes that are not below the container. -/
  confined : Confined (Covers pass.view.parent t.id) number s₁ s
  /-- No child is removed twice. -/
  nodup_removals : (pass.removals t.id shown current).Nodup
  /-- The children that are removed are those that are not kept. -/
  mem_removals : ∀ n, n ∈ pass.removals t.id shown current ↔ n ∈ shown ∧ n ∉ parts.map (·.1.id)
  /-- The kept children are in the order in which they are shown. -/
  shown_order : (parts.map (·.1)).Sublist t.childList
  /-- They are in the order in which they stand now. -/
  current_order : (parts.map (·.1.id)).Sublist current
  /-- Not all children that are shown and still there are moved. -/
  kept_ne_nil : (∃ n ∈ shown, n ∈ current) → parts ≠ []
  /-- Their shares are planned ones. -/
  planned : ∀ p ∈ parts, pass.Planned p.1 p.2
  /-- They are the current children that the pass has gone on to. -/
  finished_iff : ∀ y ∈ current, y ∈ s.finished ↔ y ∈ parts.map (·.1.id)
  /-- The sheet lists the removals, and the insertions in ascending order of positions. -/
  sheet : ∃ inserted numbers,
    s.ledger.sheet number = { s₁.ledger.sheet number with
      removed := pass.removals t.id shown current
      inserted
      altered := parts.flatMap (·.2.altered)
      nested := numbers } ∧
    inserted.Pairwise (fun a b => a.1 < b.1) ∧
    (∀ e, e ∈ inserted ↔ current[e.1]? = some e.2 ∧ e.2 ∉ parts.map (·.1.id)) ∧
    Told pass s.ledger s.ledger.next (number + 1) numbers
      ((parts.flatMap (·.2.deleted)).map .delete) (parts.flatMap (·.2.rest))

/-- Members of a list that are told apart by a function are in its order if their values are. -/
lemma sublist_of_map {α β : Type*} {f : α → β} {l l' : List α} (h : (l.map f).Sublist (l'.map f))
    (hl' : (l'.map f).Nodup) (hsub : ∀ a ∈ l, a ∈ l') : l.Sublist l' := by
  obtain ⟨m, hm, heq⟩ := List.sublist_map_iff.1 h
  suffices l = m from this ▸ hm
  have hmem : ∀ a ∈ m, a ∈ l' := fun a ha => hm.subset ha
  clear h hm
  induction l generalizing m with
  | nil => exact (List.map_eq_nil_iff.1 heq.symm).symm
  | cons a l ih =>
    cases m with
    | nil => cases heq
    | cons b m =>
      obtain ⟨hab, heq⟩ := List.cons.inj heq
      rw [List.inj_on_of_nodup_map hl' (hsub a List.mem_cons_self) (hmem b List.mem_cons_self) hab,
        ih (fun c hc => hsub c (List.mem_cons_of_mem _ hc)) m heq
          fun c hc => hmem c (List.mem_cons_of_mem _ hc)]

lemma Comparing.compared {shown : List NodeId}
    (hs : pass.Comparing t number gone stayed before current s₁ parts moves s)
    (ha : Aligned stayed before parts moves [] others) (hshown : t.childList.map Node.id = shown)
    (hnodup : shown.Nodup) (hstayed : stayed.Sublist shown) (hbefore : before.Sublist current)
    (hmem : ∀ y, y ∈ stayed ↔ y ∈ before) (hgone : gone.Nodup)
    (hmemgone : ∀ y, y ∈ gone ↔ y ∈ shown ∧ y ∉ stayed)
    (hmeet : ∀ y ∈ shown, y ∈ current → y ∈ before)
    (hremovals : pass.removals t.id shown current = gone ++ moves) :
    pass.Compared t number shown current s₁ parts s := by
  have hkstayed : (parts.map (·.1.id)).Sublist stayed := by simpa using ha.shown_order
  have hkbefore : (parts.map (·.1.id)).Sublist before :=
    (List.sublist_append_left _ _).trans ha.current_order
  have hcovered : ∀ y ∈ before, y ∉ parts.map (·.1.id) → y ∈ moves := by
    intro y hy hkept
    rcases ha.covered y hy with hmoves | hmem | hnil
    · exact hmoves
    · exact absurd hmem hkept
    · cases hnil
  refine ⟨hs.confined, ?_, ?_, ?_, hkbefore.trans hbefore, ?_, fun p hp => (hs.planned p hp).2,
    hs.finished_iff, ?_⟩
  · rw [hremovals]
    refine List.nodup_append.2 ⟨hgone, hs.nodup_moves, ?_⟩
    rintro y hy z hz rfl
    exact ((hmemgone y).1 hy).2 ((hmem y).2 (hs.mem_moves y hz).1)
  · intro n
    rw [hremovals, List.mem_append]
    constructor
    · rintro (hn | hn)
      · obtain ⟨hshown, hnot⟩ := (hmemgone n).1 hn
        exact ⟨hshown, fun hkept => hnot (hkstayed.subset hkept)⟩
      · obtain ⟨hn, hkept⟩ := hs.mem_moves n hn
        exact ⟨hstayed.subset ((hmem n).2 hn), hkept⟩
    · rintro ⟨hshown, hkept⟩
      by_cases hn : n ∈ stayed
      · exact .inr (hcovered n ((hmem n).1 hn) hkept)
      · exact .inl ((hmemgone n).2 ⟨hshown, hn⟩)
  · refine sublist_of_map (f := Node.id) ?_ (hshown ▸ hnodup) fun c hc => ?_
    · rw [List.map_map, hshown]
      exact hkstayed.trans hstayed
    · obtain ⟨p, hp, rfl⟩ := List.mem_map.1 hc
      exact (hs.planned p hp).1
  · rintro ⟨n, hn, hncurrent⟩ hparts
    obtain ⟨y, hy, -⟩ := ha.unmoved (List.ne_nil_of_mem (hmeet n hn hncurrent)) hparts
    cases hy
  · obtain ⟨inserted, numbers, hsheet, hsorted, hins, htold⟩ := hs.sheet
    rw [hremovals]
    refine ⟨inserted, numbers, hsheet, hsorted, fun e => (hins e).trans (and_congr_right fun _ => ?_),
      htold⟩
    constructor
    · rintro (hnot | hmoves) hkept
      · exact hnot (hkbefore.subset hkept)
      · exact (hs.mem_moves _ hmoves).2 hkept
    · intro hkept
      by_cases hb : e.2 ∈ before
      · exact .inr (hcovered _ hb hkept)
      · exact .inl hb

/-- Before the lists are followed, only the children that are gone and those that are new are
noted. -/
lemma TakenIn.comparing (hac : Acyclic pass.view.parent)
    (hparent : ∀ y, y ∈ current ↔ pass.view.parent y = some t.id)
    (hfresh : ∀ y, pass.view.parent y = some t.id → pass.Fresh s₁ y)
    (hsheet : s₁.ledger.sheet number =
      { container := some t.id, ownAttributes := (s₁.ledger.sheet number).ownAttributes })
    {change : Sheet → Sheet} (hchange : change (s₁.ledger.sheet number) =
      { s₁.ledger.sheet number with removed := gone })
    (hnumber : number < s₁.ledger.next) {s₂ s₃ : Progress}
    (ht : pass.TakenIn t.id number current { s₁ with ledger := s₁.ledger.update number change }
      current s₂) (hc : Counted 0 stayed number s₂ s₃)
    (hstayed : ∀ y, y ∈ stayed ↔ y ∈ current.filter fun y => pass.view.shownParent y = some t.id) :
    pass.Comparing t number gone stayed
      (current.filter fun y => pass.view.shownParent y = some t.id) current s₁ [] [] s₃ := by
  have hcovers : ∀ y ∈ current, Covers pass.view.parent t.id y := fun y hy =>
    .of_parent ((hparent y).1 hy)
  have hconfined := (Confined.noteOn.trans (ht.confined.mono hcovers) (.inl rfl)).trans
    (hc.confined.mono fun y hy => hcovers y (List.mem_filter.1 ((hstayed y).1 hy)).1) (.inl rfl)
  refine ⟨hconfined, ?_, ?_, ?_, ?_, by simp, .nil, by simp, by simp⟩
  · obtain ⟨inserted, hins, hsorted, hmem⟩ := ht.sheet
    refine ⟨inserted, [], ?_, hsorted, fun e => (hmem e).trans ?_, .nil _⟩
    · rw [hc.ledger_eq, hins, Ledger.sheet_update_self _ hnumber, hchange, hsheet]
      simp
    · rw [List.mem_filter, or_iff_left List.not_mem_nil]
      constructor
      · rintro ⟨-, hget, hne⟩
        exact ⟨hget, fun h => hne (by simpa using h.2)⟩
      · rintro ⟨hget, hne⟩
        obtain ⟨hlt, -⟩ := List.getElem?_eq_some_iff.1 hget
        exact ⟨hlt, hget, fun h => hne ⟨List.mem_of_getElem? hget, by simpa using h⟩⟩
  · intro y hy _
    obtain ⟨hyc, hshown⟩ := List.mem_filter.1 hy
    obtain ⟨-, place, hplace, htarget, hnew⟩ := ht.places y hyc (by simpa using hshown)
    obtain ⟨place', hplace', hnew', htarget'⟩ := hc.places y place hplace
    obtain ⟨i, hi⟩ := List.getElem?_of_mem ((hstayed y).2 hy)
    have hold := (hc.old_eq i y place' hi hplace').trans (Nat.zero_add i)
    exact ⟨place', hplace', hold ▸ hi, hnew' ▸ hnew, htarget' ▸ htarget⟩
  · intro y hy _ _ z hyz
    obtain ⟨hyc, hshown⟩ := List.mem_filter.1 hy
    have huntouched := hfresh y ((hparent y).1 hyc) z hyz
    constructor
    · rw [hc.ledger_eq]
      by_cases hzy : z = y
      · exact hzy ▸ (ht.places y hyc (by simpa using hshown)).1
      · have hzc : z ∉ current := fun hzc =>
          hac.not_covers_both ((hparent y).1 hyc) ((hparent z).1 hzc) (Ne.symm hzy) hyz (.refl _)
        rw [ht.confined.find?_eq z hzc]
        exact huntouched.find?_eq
    · rw [hc.moved_eq, ht.moved_eq]
      exact huntouched.moved_eq
    · rw [hc.finished_eq, ht.finished_eq]
      exact huntouched.finished
  · intro y hy
    rw [hc.finished_eq, ht.finished_eq]
    exact iff_of_false (hfresh y ((hparent y).1 hy)).self.finished List.not_mem_nil

/-- When the shown and the current children that have stayed have been followed, the children of the
container have been compared. -/
lemma Comparison.yields_followed {shown : List NodeId} {s₃ : Progress}
    (h : pass.Comparison t descend number stayed before current s F)
    (hs : pass.Comparing t number gone stayed before current s [] [] s₃)
    (hshown : t.childList.map Node.id = shown) (hnodup : shown.Nodup) (hstayed : stayed.Sublist shown)
    (hbefore : before.Sublist current) (hgone : gone.Nodup)
    (hmemgone : ∀ y, y ∈ gone ↔ y ∈ shown ∧ y ∉ stayed)
    (hmeet : ∀ y ∈ shown, y ∈ current → y ∈ before)
    (hremovals : pass.removals t.id shown current = gone ++ relocated stayed before) :
    Yields (do
        let left ← pass.align descend number t.id 0 stayed 0 before
        left.forM fun node => do
          if ← isMoved node then return () else pass.moveChild number node) s₃
      (fun _ s' => ∃ parts, pass.Compared t number shown current s parts s') F := by
  rw [yields_bind]
  apply (h.yields_align stayed hs (.start h.mem_iff)).mono
  rintro left s₄ ⟨parts, hs, ha⟩
  exact h.yields_left hs ha ⟨parts, hs.compared ha hshown hnodup hstayed hbefore h.mem_iff hgone hmemgone
    hmeet hremovals⟩

/-! ### Shown and current children -/

/-- Whether the shown and the current children of a container are those that have it as a parent, on the
client and now. -/
structure ChildLists (pass : Pass) (t : Node) (shown current : List NodeId) : Prop where
  /-- No node is above itself. -/
  acyclic : Acyclic pass.view.parent
  /-- The shown children are shown. -/
  map_id_eq : t.childList.map Node.id = shown
  /-- None of them is listed twice. -/
  nodup_shown : shown.Nodup
  /-- No current child is listed twice. -/
  nodup_current : current.Nodup
  /-- The container is the parent of the current children. -/
  mem_current : ∀ y, y ∈ current ↔ pass.view.parent y = some t.id
  /-- It was the parent of the shown ones. -/
  shownParent_eq : ∀ y ∈ shown, pass.view.shownParent y = some t.id

namespace ChildLists

variable {shown : List NodeId} (h : pass.ChildLists t shown current)

include h

/-- If shown and current children agree about which of them have stayed, then these are as many on
both sides, and the same. -/
lemma mem_stayed_iff
    (hlength : (shown.filter fun y => pass.view.parent y = some t.id).length =
      (current.filter fun y => pass.view.shownParent y = some t.id).length) (y : NodeId) :
    y ∈ shown.filter (fun y => pass.view.parent y = some t.id) ↔
      y ∈ current.filter fun y => pass.view.shownParent y = some t.id := by
  have hsubset : ∀ y ∈ shown.filter (fun y => pass.view.parent y = some t.id),
      y ∈ current.filter fun y => pass.view.shownParent y = some t.id := by
    intro y hy
    obtain ⟨hys, hyp⟩ := List.mem_filter.1 hy
    have hyp : pass.view.parent y = some t.id := by simpa using hyp
    exact List.mem_filter.2 ⟨(h.mem_current y).2 hyp, by simpa using h.shownParent_eq y hys⟩
  have hsubperm := (h.nodup_shown.filter fun y => decide (pass.view.parent y = some t.id)).subperm
    hsubset
  exact (hsubperm.perm_of_length_le (Nat.le_of_eq hlength.symm)).mem_iff

/-- Without strays the numbers of children that have stayed agree. -/
lemma length_stayed (hstrays : ∀ y ∈ current, pass.view.shownParent y = some t.id → y ∈ shown) :
    (shown.filter fun y => pass.view.parent y = some t.id).length =
      (current.filter fun y => pass.view.shownParent y = some t.id).length := by
  apply List.Perm.length_eq
  apply (List.perm_ext_iff_of_nodup (h.nodup_shown.filter _) (h.nodup_current.filter _)).2
  intro y
  simp only [List.mem_filter, decide_eq_true_eq]
  constructor
  · rintro ⟨hys, hyp⟩
    exact ⟨(h.mem_current y).2 hyp, h.shownParent_eq y hys⟩
  · rintro ⟨hyc, hys⟩
    exact ⟨hstrays y hyc hys, (h.mem_current y).1 hyc⟩

/-- After the new children have been noted, the others are counted and followed. -/
lemma yields_counted {s₂ : Progress} {change : Sheet → Sheet}
    (hlength : (shown.filter fun y => pass.view.parent y = some t.id).length =
      (current.filter fun y => pass.view.shownParent y = some t.id).length)
    (hfresh : ∀ y, pass.view.parent y = some t.id → pass.Fresh s y)
    (hsheet : s.ledger.sheet number =
      { container := some t.id, ownAttributes := (s.ledger.sheet number).ownAttributes })
    (hchange : change (s.ledger.sheet number) = { s.ledger.sheet number with
      removed := shown.filter fun y => pass.view.parent y ≠ some t.id })
    (htaken : pass.TakenIn t.id number current { s with ledger := s.ledger.update number change }
      current s₂)
    (hcomparison : pass.Comparison t descend number
      (shown.filter fun y => pass.view.parent y = some t.id)
      (current.filter fun y => pass.view.shownParent y = some t.id) current s F) :
    Yields (do
        countStayed pass t.id 0 (shown.filter fun y => pass.view.parent y = some t.id)
        let left ← pass.align descend number t.id 0
          (shown.filter fun y => pass.view.parent y = some t.id) 0
          (current.filter fun y => pass.view.shownParent y = some t.id)
        left.forM fun node => do
          if ← isMoved node then return () else pass.moveChild number node) s₂
      (fun _ s' => ∃ parts, pass.Compared t number shown current s parts s') F := by
  have hmem := h.mem_stayed_iff hlength
  rw [yields_bind]
  refine (yields_countStayed number _ (h.nodup_shown.filter _) ?_).mono ?_
  · intro y hy
    obtain ⟨hyc, hys⟩ := List.mem_filter.1 ((hmem y).1 hy)
    obtain ⟨-, place, hplace, -⟩ := htaken.places y hyc (by simpa using hys)
    exact ⟨place, hplace⟩
  intro _ s₃ hcounted
  have hcomparing := htaken.comparing h.acyclic h.mem_current hfresh hsheet hchange
    hcomparison.number_lt hcounted hmem
  refine hcomparison.yields_followed hcomparing h.map_id_eq h.nodup_shown List.filter_sublist
    List.filter_sublist (h.nodup_shown.filter _) (fun y => ?_) ?_ rfl
  · simp only [List.mem_filter, decide_eq_true_eq]
    constructor
    · rintro ⟨hys, hyp⟩
      exact ⟨hys, fun h => hyp h.2⟩
    · rintro ⟨hys, hyp⟩
      exact ⟨hys, fun h => hyp ⟨hys, h⟩⟩
  · intro y hys hyc
    exact List.mem_filter.2 ⟨hyc, by simpa using h.shownParent_eq y hys⟩

/-- The children of a container are compared: without strays among its current children, and with
all that is noted about them still ahead. -/
lemma yields_compareChildren
    (hstrays : (∃ y ∈ current, pass.view.shownParent y = some t.id ∧ y ∉ shown) → ∀ e, F e)
    (hfresh : ∀ y, pass.view.parent y = some t.id → pass.Fresh s y)
    (hnumber : number < s.ledger.next)
    (hsheet : s.ledger.sheet number =
      { container := some t.id, ownAttributes := (s.ledger.sheet number).ownAttributes })
    (hdescend : ∀ k ∈ t.childList, pass.view.parent k.id = some t.id → ∀ s, pass.Fresh s k.id →
      number < s.ledger.next → (s.ledger.sheet number).isWhole = false →
        Yields (descend k.id) s (fun _ s' => pass.Completes k number s s') F) :
    Yields (pass.compareChildren descend number t.id shown current) s
      (fun _ s' => ∃ parts, pass.Compared t number shown current s parts s') F := by
  have hwhole : (s.ledger.sheet number).isWhole = false := by rw [hsheet]; rfl
  rw [compareChildren, yields_bind, yields_noteOn, yields_bind]
  set gone := shown.filter fun y => pass.view.parent y ≠ some t.id
  have hremoved : gone.foldl Sheet.remove (s.ledger.sheet number) =
      { s.ledger.sheet number with removed := gone } := by
    rw [Sheet.foldl_remove hwhole, hsheet]
    simp
  set s₁ : Progress := { s with
    ledger := s.ledger.update number fun sheet => gone.foldl Sheet.remove sheet }
  have hsheet₁ : s₁.ledger.sheet number = { s.ledger.sheet number with removed := gone } :=
    (Ledger.sheet_update_self _ hnumber).trans hremoved
  have hnone : pass.TakenIn t.id number current s₁ [] s₁ :=
    ⟨.refl _, rfl, rfl, by simp, [], by rw [hsheet₁, hsheet], .nil, by simp⟩
  refine (yields_takeIn [] current rfl h.nodup_current ?_ ?_ ?_ hnone rfl).mono ?_
  · intro y hy
    exact (hfresh y ((h.mem_current y).1 hy)).self.find?_eq
  · rw [Ledger.next_update]
    exact hnumber
  · rw [hsheet₁]
    exact hwhole
  rintro _ s₂ ⟨rfl, htaken⟩
  rw [yields_ite]
  constructor
  · intro hne
    rw [yields_contradict]
    refine hstrays ?_ _
    by_contra hnone
    refine hne (h.length_stayed fun y hy hys => ?_)
    by_contra hnot
    exact hnone ⟨y, hy, hys, hnot⟩
  · intro heq
    have hlength := Decidable.not_not.1 heq
    refine h.yields_counted hlength hfresh hsheet hremoved htaken {
      acyclic := h.acyclic
      nodup_stayed := h.nodup_shown.filter _
      nodup_current := h.nodup_current
      sublist := List.filter_sublist
      mem_iff := h.mem_stayed_iff hlength
      parent := fun y hy => (h.mem_current y).1 hy
      shown := fun y hy => List.mem_map.1 (h.map_id_eq ▸ (List.mem_filter.1 hy).1)
      number_lt := hnumber
      isWhole := hwhole
      descend := fun k hk hkb => hdescend k hk ((h.mem_current _).1 (List.mem_filter.1 hkb).1) }

end ChildLists

end Pass

end PageSync
