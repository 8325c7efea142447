import PageSync.Proofs.Cancelling
import PageSync.Proofs.Economy
import PageSync.Proofs.Visits

/-!
# Blocks of children that change places

If two neighbouring blocks of children of one container have changed places since a page was sent, and
nothing else on the page has changed, then the next pass moves the children of the shorter block and no
others (`Forest.IsSent.pass_of_rotated`). So a single child is moved by two operations, however far.

Which children are moved follows from their two orders (`Pass.relocated_swapped`). What is planned because
of the container (`Pass.rotation`) is planned because of every node above it, since a walk comes to it
through these and no other node contributes anything.
-/

namespace PageSync

variable {view : View} {page r t : Node} {us as bs ws : List NodeId}

/-! ### Insertions of a block -/

namespace Pass

variable {pass : Pass} {share : Share} {c : NodeId} {kept left nodes right : List NodeId}

lemma insertions_append (before : Option NodeId) (left right : List NodeId) :
    pass.insertions c kept before (left ++ right) =
      pass.insertions c kept before left ++
        pass.insertions c kept (left.getLast?.or before) right := by
  induction left generalizing before with
  | nil => rfl
  | cons n left ih =>
    rw [List.cons_append, insertions, insertions, ih, List.append_assoc, List.getLast?_cons,
      Option.some_or, Option.or_some]

/-- Nodes that are not kept are inserted one behind the other. -/
lemma insertions_of_notMem (hnodes : ∀ n ∈ nodes, n ∉ kept) (before : Option NodeId) :
    pass.insertions c kept before nodes =
      List.zipWith (fun before n => .insertAfter c before (pass.view.describe n))
        (before :: nodes.map some) nodes := by
  induction nodes generalizing before with
  | nil => rfl
  | cons n rest ih =>
    rw [insertions, if_neg (hnodes n List.mem_cons_self),
      ih fun m hm => hnodes m (List.mem_cons_of_mem n hm)]
    rfl

/-- If only the children of one block are not kept, these are inserted, the first one behind the child
before the block. -/
lemma insertions_block (hnodup : (left ++ nodes ++ right).Nodup)
    (hkept : ∀ n ∈ left ++ nodes ++ right, n ∉ kept ↔ n ∈ nodes) :
    pass.insertions c kept none (left ++ nodes ++ right) =
      List.zipWith (fun before n => .insertAfter c before (pass.view.describe n))
        (left.getLast? :: nodes.map some) nodes := by
  obtain ⟨hbefore, -, hright⟩ := List.nodup_append.1 hnodup
  obtain ⟨-, -, hleft⟩ := List.nodup_append.1 hbefore
  have hkeeps (n : NodeId) (hn : n ∈ left ++ nodes ++ right) (hnot : n ∉ nodes) : n ∈ kept :=
    Decidable.not_not.1 fun h => hnot ((hkept n hn).1 h)
  have hleft : ∀ n ∈ left, n ∈ kept := fun n hn =>
    hkeeps n (by simp [hn]) fun hmem => hleft n hn n hmem rfl
  have hright : ∀ n ∈ right, n ∈ kept := fun n hn =>
    hkeeps n (by simp [hn]) fun hmem => hright n (List.mem_append_right left hmem) n hn rfl
  have hnodes : ∀ n ∈ nodes, n ∉ kept := fun n hn => (hkept n (by simp [hn])).2 hn
  rw [insertions_append, insertions_append, insertions_eq_nil hleft, insertions_eq_nil hright,
    insertions_of_notMem hnodes, Option.or_none, List.nil_append, List.append_nil]

/-- On a page whose nodes stay where they are shown, none has to leave a container that is sent anew. -/
lemma evicted_eq_nil {levels : Nat} {gone : List NodeId} (h : pass.view.Depicts page)
    (hput : pass.view.StaysPut page) (hroot : pass.root = page.id) (ht : t ∈ page.preorder)
    (hgone : pass.evicted t.id levels t.id (t.childList.map Node.id) = .ok gone) : gone = [] := by
  obtain ⟨-, hmem⟩ := mem_evicted_iff h hroot ht hgone
  apply List.eq_nil_iff_forall_not_mem.2
  intro n hn
  have htopmost := (hmem n).1 hn
  exact htopmost.of_kind.2 (hput.covers ht htopmost.mem)

end Pass

/-! ### Blocks that have changed places -/

/-- Whether two neighbouring blocks of children of one node on a page have changed places since they
were shown. Nothing else has changed about the node, and all other nodes are as they are shown. -/
structure View.IsRotated (view : View) (page r : Node) (us as bs ws : List NodeId) : Prop where
  /-- The node is on the page. -/
  mem : r ∈ page.preorder
  /-- The children that are shown. -/
  shown_eq : r.childList.map Node.id = us ++ as ++ bs ++ ws
  /-- The children that are there now. -/
  children_eq : view.children r.id = us ++ bs ++ as ++ ws
  /-- There is something to move in one direction. -/
  first_ne_nil : as ≠ []
  /-- There is something to move in the other one. -/
  second_ne_nil : bs ≠ []
  /-- The attributes are those that are shown. -/
  attributesChanged_eq : (view.entry r.id).attributesChanged = false
  /-- The children are compared. -/
  replacesChildren_eq : (view.entry r.id).replacesChildren = false
  /-- The other nodes are as they are shown. -/
  isStillAt : ∀ m ∈ page.preorder, m ≠ r → view.IsStillAt m

namespace View.IsRotated

variable (h : view.IsRotated page r us as bs ws)

include h

variable (hdepicts : view.Depicts page)

include hdepicts

lemma nodup : (us ++ as ++ bs ++ ws).Nodup :=
  h.shown_eq ▸ Node.nodup_map_id_childList (Node.nodup_of_mem hdepicts.nodup h.mem)

/-- The children are to be compared, since they have changed. -/
lemma compared_eq :
    (view.entry r.id).compared = some (us ++ as ++ bs ++ ws, us ++ bs ++ as ++ ws) := by
  cases hcompared : (view.entry r.id).compared with
  | none =>
    have heq := hdepicts.children_of_compared_none h.mem hcompared
    rw [h.children_eq, h.shown_eq, List.append_cancel_right_eq, List.append_assoc, List.append_assoc,
      List.append_cancel_left_eq] at heq
    obtain ⟨a, as', rfl⟩ := List.exists_cons_of_ne_nil h.first_ne_nil
    obtain ⟨b, bs', rfl⟩ := List.exists_cons_of_ne_nil h.second_ne_nil
    obtain rfl : b = a := (List.cons.inj heq).1
    have hblocks := List.nodup_append.1 (List.nodup_append.1 (h.nodup hdepicts)).1
    exact absurd rfl (hblocks.2.2 b (List.mem_append_right us List.mem_cons_self) b List.mem_cons_self)
  | some lists =>
    obtain ⟨shown, current⟩ := lists
    obtain ⟨hcurrent, hshown⟩ := hdepicts.children_of_compared_some h.mem hcompared
    rw [← hcurrent, ← hshown, h.children_eq, h.shown_eq]

lemma isPending : (view.entry r.id).IsPending := by
  obtain ⟨-, hshown⟩ := of_compared_eq_some (h.compared_eq hdepicts)
  exact .inr (by rw [hshown]; rfl)

lemma staysPut : view.StaysPut page := by
  intro m hm c hc
  apply hdepicts.parent_of_mem
  have hc : c.id ∈ m.childList.map Node.id := List.mem_map_of_mem hc
  by_cases hr : m = r
  · subst hr
    rw [h.children_eq, ← (Pass.perm_swapped us as bs ws).mem_iff, ← h.shown_eq]
    exact hc
  · rwa [(h.isStillAt m hm hr).children_eq]

omit hdepicts in
/-- Trees that don't have the node are as they are shown. -/
lemma isStill (ht : t ∈ page.preorder) (hr : r.id ∉ t.ids) : view.IsStill t :=
  fun m hm => h.isStillAt m (Node.preorder_subset ht hm) fun heq =>
    hr (Node.mem_ids.2 ⟨m, hm, congrArg Node.id heq⟩)

end View.IsRotated

namespace Pass

variable {pass : Pass} {share share' : Share}

/-! ### What is planned because of the node -/

/-- What is sent because of two neighbouring blocks of children that have changed places: the children
of the shorter block are removed and inserted again one behind the other, unless these are too many
changes. -/
def rotation (pass : Pass) (c : NodeId) (us as bs ws : List NodeId) : Share :=
  if pass.policy.rejectsChanges (2 * min as.length bs.length) (us ++ bs ++ as ++ ws).length then
    { rest := [.replaceChildren c ((us ++ bs ++ as ++ ws).map pass.view.describe)] }
  else
    { deleted := fewer as bs
      rest := List.zipWith (fun before n => .insertAfter c before (pass.view.describe n))
        ((if as.length < bs.length then us ++ bs else us).getLast? :: (fewer as bs).map some)
        (fewer as bs) }

section Rotated

variable (hrotated : pass.view.IsRotated page r us as bs ws)

include hrotated

section Depicts

variable (h : pass.view.Depicts page)

include h

/-- The children of the shorter block are removed. -/
lemma removals_of_rotated :
    pass.removals r.id (us ++ as ++ bs ++ ws) (us ++ bs ++ as ++ ws) = fewer as bs := by
  rw [removals_of_perm h hrotated.mem (hrotated.compared_eq h) (perm_swapped us as bs ws),
    relocated_swapped (hrotated.nodup h) hrotated.first_ne_nil]

/-- They are inserted again. -/
lemma arrivals_of_rotated :
    pass.arrivals r.id (us ++ as ++ bs ++ ws) (us ++ bs ++ as ++ ws) = fewer as bs := by
  have hnodup := (perm_swapped us as bs ws).nodup_iff.1 (hrotated.nodup h)
  have hsublist : (fewer as bs).Sublist (us ++ bs ++ as ++ ws) := by
    rw [fewer]
    split
    · exact (List.sublist_append_right _ as).trans (List.sublist_append_left _ ws)
    · rw [List.append_assoc]
      exact (List.sublist_append_right us bs).trans (List.sublist_append_left _ (as ++ ws))
  rw [arrivals_of_subset (perm_swapped us as bs ws).symm.subset, removals_of_rotated hrotated h]
  exact Node.filter_eq_of_sublist hsublist hnodup fun n _ => by simp

lemma changes_of_rotated : pass.changes r.id (us ++ as ++ bs ++ ws) (us ++ bs ++ as ++ ws) =
    2 * min as.length bs.length := by
  rw [changes, removals_of_rotated hrotated h, arrivals_of_rotated hrotated h, length_fewer]
  omega

/-- The children that are removed are inserted one behind the other. -/
lemma insertions_of_rotated {kept : List NodeId}
    (hkept : ∀ n ∈ us ++ bs ++ as ++ ws, n ∉ kept ↔ n ∈ fewer as bs) :
    pass.insertions r.id kept none (us ++ bs ++ as ++ ws) =
      List.zipWith (fun before n => .insertAfter r.id before (pass.view.describe n))
        ((if as.length < bs.length then us ++ bs else us).getLast? :: (fewer as bs).map some)
        (fewer as bs) := by
  have hnodup := (perm_swapped us as bs ws).nodup_iff.1 (hrotated.nodup h)
  rw [fewer] at hkept ⊢
  split at hkept
  · next hlt =>
    rw [if_pos hlt, if_pos hlt]
    exact insertions_block hnodup hkept
  · next hle =>
    rw [if_neg hle, if_neg hle]
    rw [List.append_assoc (us ++ bs)] at hnodup hkept ⊢
    exact insertions_block hnodup hkept

/-- Because of the node only the children of the shorter block are sent, or all of its children. -/
lemma Planned.eq_rotation (hpolicy : pass.policy.check = .ok ()) (hroot : pass.root = page.id)
    (hplan : pass.Planned r share) : share = pass.rotation r.id us as bs ws := by
  have hcompared := hrotated.compared_eq h
  have hown : pass.ownAltered r.id = [] := by
    rw [ownAltered, hrotated.attributesChanged_eq]
    rfl
  cases hplan with
  | still compared => simp [hcompared] at compared
  | through compared => simp [hcompared] at compared
  | @mixed _ shown current parts compared nodup_removals mem_removals shown_order current_order
      accepted planned =>
    obtain ⟨rfl, rfl⟩ := Prod.mk.inj (Option.some.inj (hcompared.symm.trans compared))
    rw [removals_of_rotated hrotated h] at mem_removals ⊢
    rw [changes_of_rotated hrotated h] at accepted
    have hempty (p : Node × Share) (hp : p ∈ parts) : p.2 = {} := by
      have hc : p.1 ∈ r.childList := shown_order.subset (List.mem_map_of_mem hp)
      have hmem := Node.mem_preorder_of_mem_childList hrotated.mem hc
      have hr : r.id ∉ p.1.ids :=
        Node.notMem_ids_of_mem_childList (Node.nodup_of_mem h.nodup hrotated.mem) hc
      exact (planned p hp).eq_empty h hpolicy hmem (hrotated.isStill hmem hr)
    have hkept (n : NodeId) (hn : n ∈ us ++ bs ++ as ++ ws) :
        n ∉ parts.map (·.1.id) ↔ n ∈ fewer as bs := by
      rw [mem_removals, (perm_swapped us as bs ws).mem_iff, and_iff_right hn]
    obtain ⟨hdeleted, haltered, hrest⟩ := flatMap_eq_nil hempty
    rw [insertions_of_rotated hrotated h hkept, hown, hdeleted, haltered, hrest, rotation, accepted]
    simp
  | anew compared reason evicted =>
    obtain ⟨rfl, rfl⟩ := Prod.mk.inj (Option.some.inj (hcompared.symm.trans compared))
    obtain ⟨-, hshown⟩ := h.children_of_compared_some hrotated.mem hcompared
    rw [← hshown] at evicted
    have hcompares : pass.sendsAnew r.id (us ++ as ++ bs ++ ws) (us ++ bs ++ as ++ ws) = false :=
      sendsAnew_of_length_eq (by simp [hrotated.first_ne_nil])
        (perm_swapped us as bs ws).length_eq hrotated.replacesChildren_eq
    have hrejects := reason.resolve_left (hcompares ▸ Bool.false_ne_true)
    rw [changes_of_rotated hrotated h] at hrejects
    rw [rotation, if_pos hrejects, hown,
      evicted_eq_nil h (hrotated.staysPut h) hroot hrotated.mem evicted]
    rfl

end Depicts

omit hrotated in
/-- If a function is empty at all members of a list but one, it contributes nothing but its value
there. -/
lemma flatMap_eq_of_ne {α β : Type*} {l : List α} {a : α} {f : α → List β} (hnodup : l.Nodup)
    (ha : a ∈ l) (hf : ∀ b ∈ l, b ≠ a → f b = []) : l.flatMap f = f a := by
  obtain ⟨left, right, rfl⟩ := List.append_of_mem ha
  obtain ⟨hnot, -⟩ := List.nodup_cons.1 (List.nodup_middle.1 hnodup)
  have hnone (b : α) (hb : b ∈ left ++ right) : f b = [] := by
    refine hf b ?_ fun heq => hnot (heq ▸ hb)
    rcases List.mem_append.1 hb with hb | hb <;> simp [hb]
  rw [List.flatMap_append, List.flatMap_cons,
    List.flatMap_eq_nil_iff.2 fun b hb => hnone b (List.mem_append_left right hb),
    List.flatMap_eq_nil_iff.2 fun b hb => hnone b (List.mem_append_right left hb), List.nil_append,
    List.append_nil]

omit hrotated in
lemma altered_rotation (pass : Pass) (c : NodeId) (us as bs ws : List NodeId) :
    (pass.rotation c us as bs ws).altered = [] := by
  rw [rotation]
  split <;> rfl

/-- If that is planned because of one of the children of another node, then because of the others
nothing is. -/
lemma PassesOn.eq_rotation (h : pass.view.Depicts page) (hpolicy : pass.policy.check = .ok ())
    (ht : t ∈ page.preorder) {parts : List (Node × Share)} (hparts : pass.PassesOn t share parts)
    {p : Node × Share} (hp : p ∈ parts) (hr : r.id ∈ p.1.ids)
    (hshare : p.2 = pass.rotation r.id us as bs ws) : share = pass.rotation r.id us as bs ws := by
  have hnodup := Node.nodup_of_mem h.nodup ht
  have hchild (q : Node × Share) (hq : q ∈ parts) : q.1 ∈ t.childList :=
    hparts.children ▸ List.mem_map_of_mem hq
  have hdistinct : (parts.map (·.1)).Nodup :=
    hparts.children ▸ (Node.nodup_map_id_childList hnodup).of_map
  have hempty (q : Node × Share) (hq : q ∈ parts) (hne : q ≠ p) : q.2 = {} := by
    have hne : p.1 ≠ q.1 := fun heq => hne (List.inj_on_of_nodup_map hdistinct hq hp heq.symm)
    have hmem := Node.mem_preorder_of_mem_childList ht (hchild q hq)
    refine (hparts.planned q hq).eq_empty h hpolicy hmem (hrotated.isStill hmem ?_)
    exact Node.notMem_ids_of_ne hnodup (hchild p hp) (hchild q hq) hne hr
  have haltered (q : Node × Share) (hq : q ∈ parts) : q.2.altered = [] := by
    by_cases hqp : q = p
    · rw [hqp, hshare, altered_rotation]
    · rw [hempty q hq hqp]
  have hdeleted : parts.flatMap (·.2.deleted) = p.2.deleted :=
    flatMap_eq_of_ne hdistinct.of_map hp fun q hq hne => by rw [hempty q hq hne]
  have hrest : parts.flatMap (·.2.rest) = p.2.rest :=
    flatMap_eq_of_ne hdistinct.of_map hp fun q hq hne => by rw [hempty q hq hne]
  rw [hparts.share_eq haltered, hdeleted, hrest, hshare, ← altered_rotation pass r.id us as bs ws]

/-- Because of the nodes above it the same is planned, since a walk comes to it through these. -/
theorem Planned.eq_rotation_of_mem (h : pass.view.Remembers page)
    (hpolicy : pass.policy.check = .ok ()) (hroot : pass.root = page.id) (ht : t ∈ page.preorder)
    (hr : r.id ∈ t.ids) (hplan : pass.Planned t share) :
    share = pass.rotation r.id us as bs ws := by
  induction t using Node.induct_childList generalizing share with
  | step t ih =>
    by_cases htr : t = r
    · subst htr
      exact hplan.eq_rotation hrotated h.toDepicts hpolicy hroot
    have hput := hrotated.staysPut h.toDepicts
    have hbelow : r.id ∈ t.childList.flatMap Node.ids := by
      rw [Node.ids_eq_cons, List.mem_cons] at hr
      exact hr.resolve_left fun hid => htr (Node.eq_of_id_eq h.nodup ht hrotated.mem hid.symm)
    obtain ⟨compared, unmarked, -⟩ | ⟨parts, hparts⟩ :=
      hplan.of_isStillAt h.toDepicts ht hpolicy (hrotated.isStillAt t ht htr)
    · exact absurd (hrotated.isPending h.toDepicts) (hput.not_isPending h ht compared unmarked hbelow)
    · obtain ⟨c, hc, hrc⟩ := List.mem_flatMap.1 hbelow
      obtain ⟨p, hp, rfl⟩ := List.mem_map.1 (hparts.children ▸ hc)
      exact hparts.eq_rotation hrotated h.toDepicts hpolicy ht hp hrc
        (ih p.1 hc (Node.mem_preorder_of_mem_childList ht hc) hrc (hparts.planned p hp))

/-! ### The comparison -/

/-- Where the children of the node are compared, exactly those of the shorter block are removed and
inserted again. -/
lemma ComparesIn.of_rotated (h : pass.view.Depicts page) (hroot : page.id = pass.root)
    (hstrays : ¬ pass.view.HasStrays page) (hheight : page.height ≤ pass.policy.depthLimit.toNat)
    {tables : Tables} {levels : Nat} {s : Progress}
    (hcompares : pass.ComparesIn tables levels r.id (us ++ as ++ bs ++ ws) (us ++ bs ++ as ++ ws) s) :
    ∃ s', (pass.compareChildren (pass.walk levels s.ledger.next) s.ledger.next r.id
        (us ++ as ++ bs ++ ws) (us ++ bs ++ as ++ ws)).run (pass.opened r.id s) = .ok () s' ∧
      (s'.ledger.sheet s.ledger.next).removed = fewer as bs ∧
      (s'.ledger.sheet s.ledger.next).inserted.map (·.2) = fewer as bs := by
  have hput := hrotated.staysPut h
  have hwithin : pass.view.Within page pass.policy.depthLimit.toNat :=
    .of_top h.acyclic h.parent_top hheight fun n hn => (hput.depth_le_height h hn).trans hheight
  obtain ⟨t, into, htr, ha, s', parts, hrun, hcompared⟩ :=
    hcompares.exists_compared h hroot hstrays fun t ht _ => hput.within h.acyclic hwithin ht
  obtain rfl := Node.eq_of_id_eq h.nodup ha.mem hrotated.mem htr
  obtain ⟨-, hshown⟩ := h.children_of_compared_some ha.mem hcompares.compared_eq
  obtain ⟨inserted, numbers, hsheet, hsorted, hmem, -⟩ := hcompared.sheet
  refine ⟨s', hrun, ?_, ?_⟩
  · rw [hsheet]
    exact removals_of_rotated hrotated h
  · rw [hsheet, ← arrivals_of_rotated hrotated h]
    exact hcompared.map_inserted hshown ⟨hsorted, fun e => by simpa using hmem e⟩

end Rotated

end Pass

open Pass (fewer)

/-- A pass over a page on which two neighbouring blocks of children have changed places sends the
children of the shorter block, or all children of the node. -/
lemma Differ.pass_of_isRotated {differ : Differ} (h : view.Remembers page)
    (hrotated : view.IsRotated page r us as bs ws) (hknown : view.contains page.id = true)
    (hstrays : ¬ view.HasStrays page) (hpolicy : differ.policy.check = .ok ())
    (hheight : page.height ≤ differ.policy.depthLimit.toNat) :
    ∃ delta, (differ.pass view page.id).1 = .ok delta ∧ delta.operations =
      if differ.policy.rejectsChanges (2 * min as.length bs.length)
          (us.length + as.length + bs.length + ws.length) then
        [.replaceChildren r.id ((us ++ bs ++ as ++ ws).map view.describe)]
      else
        (fewer as bs).map .delete ++
          List.zipWith (fun before n => .insertAfter r.id before (view.describe n))
            ((if as.length < bs.length then us ++ bs else us).getLast? :: (fewer as bs).map some)
            (fewer as bs) := by
  have hput := hrotated.staysPut h.toDepicts
  have hdepth (n : NodeId) (hn : n ∈ page.ids) : view.depth n ≤ differ.policy.depthLimit.toNat :=
    (hput.depth_le_height h.toDepicts hn).trans hheight
  obtain ⟨delta, hdelta⟩ := pass_ok_of_depicts h.toDepicts hknown hpolicy hstrays hheight hdepth
  obtain ⟨share, hplanned, hops⟩ := planned_of_pass h.toDepicts hdelta
  have hr : r.id ∈ page.ids := Node.mem_ids.2 ⟨r, hrotated.mem, rfl⟩
  have hlength : (us ++ bs ++ as ++ ws).length = us.length + as.length + bs.length + ws.length := by
    rw [← (Pass.perm_swapped us as bs ws).length_eq]
    simp only [List.length_append]
  have hshare : share = Pass.rotation ⟨view, differ.policy, page.id⟩ r.id us as bs ws := by
    refine Pass.Planned.eq_rotation_of_mem ?_ ?_ ?_ ?_ page.self_mem_preorder hr hplanned
    exacts [hrotated, h, hpolicy, rfl]
  refine ⟨delta, hdelta, ?_⟩
  rw [hops, hshare, Pass.altered_rotation, Pass.rotation, hlength]
  split
  · rfl
  · rfl

namespace Forest

variable {s : Forest} {es : List Edit} {differ : Differ} {c : NodeId}

/-- The children of a node on a page that has been sent are shown as they were before the edits, so two
neighbouring blocks that have changed places by the edits have done so since they were shown. -/
lemma IsSent.isRotated (h : s.IsSent) (hr : r ∈ (s.view.describe s.root).preorder)
    (hbefore : s.view.children r.id = us ++ as ++ bs ++ ws)
    (hafter : (s.edits es).view.children r.id = us ++ bs ++ as ++ ws) (has : as ≠ []) (hbs : bs ≠ [])
    (hattributes : ((s.edits es).view.entry r.id).attributesChanged = false)
    (hflag : ((s.edits es).view.entry r.id).replacesChildren = false)
    (hothers : ∀ m ∈ (s.view.describe s.root).preorder, m ≠ r → (s.edits es).view.IsStillAt m) :
    (s.edits es).view.IsRotated (s.view.describe s.root) r us as bs ws := by
  obtain ⟨hrooted, -⟩ := h.isClean
  obtain ⟨heq, -⟩ := hrooted.toIsForest.mem_preorder_describe hr
  have hshown : r.childList.map Node.id = us ++ as ++ bs ++ ws := by
    rw [← hbefore, heq, hrooted.toIsForest.map_id_childList_describe, hrooted.toIsForest.id_describe]
  exact ⟨hr, hshown, hafter, has, hbs, hattributes, hflag, hothers⟩

/-- After edits by which two neighbouring blocks of children of one container on a page have changed
places since the page was sent, while the other nodes on the page have the children that they had and
no attributes are marked as changed, the next pass over the page compares the children of the container
and moves exactly those of the shorter block, or those of the second block if both have the same
length. It removes them and then inserts them again one behind the other, and does nothing else; if
these are too many changes by its policy, it sends all children of the container anew instead. This
holds for all policies that can be followed and are deep enough for the page, unless the container, or
another one with recorded children, is to be sent anew on every change. At most two operations are sent
for each child of the shorter block. -/
theorem IsSent.pass_of_rotated (h : s.IsSent) (hallows : s.Allows s.root es)
    (hc : c ∈ (s.view.describe s.root).ids)
    (hbefore : s.view.children c = us ++ as ++ bs ++ ws)
    (hafter : (s.edits es).view.children c = us ++ bs ++ as ++ ws) (has : as ≠ []) (hbs : bs ≠ [])
    (hflag : ((s.edits es).view.entry c).replacesChildren = false)
    (hchildren : ∀ n ∈ (s.view.describe s.root).ids, n ≠ c →
      (s.edits es).view.children n = s.view.children n)
    (hattributes : ∀ n ∈ (s.view.describe s.root).ids,
      ((s.edits es).view.entry n).attributesChanged = false)
    (hflags : ∀ n ∈ (s.view.describe s.root).ids, n ≠ c →
      ((s.edits es).view.entry n).compared.isSome →
        ((s.edits es).view.entry n).replacesChildren = false)
    (hpolicy : differ.policy.check = .ok ())
    (hheight : (s.view.describe s.root).height ≤ differ.policy.depthLimit.toNat) :
    let pass : Pass := ⟨(s.edits es).view, differ.policy, (s.edits es).root⟩
    (∀ tables levels progress,
      pass.ComparesIn tables levels c (us ++ as ++ bs ++ ws) (us ++ bs ++ as ++ ws) progress →
        ∃ progress', (pass.compareChildren (pass.walk levels progress.ledger.next)
            progress.ledger.next c (us ++ as ++ bs ++ ws) (us ++ bs ++ as ++ ws)).run
              (pass.opened c progress) = .ok () progress' ∧
          (progress'.ledger.sheet progress.ledger.next).removed = fewer as bs ∧
          (progress'.ledger.sheet progress.ledger.next).inserted.map (·.2) = fewer as bs) ∧
    ∃ delta, (Session.pass ⟨s.edits es, differ⟩ (s.edits es).root).1 = .ok delta ∧
      delta.operations = (
        if differ.policy.rejectsChanges (2 * min as.length bs.length)
            (us.length + as.length + bs.length + ws.length) then
          [.replaceChildren c ((us ++ bs ++ as ++ ws).map (s.edits es).view.describe)]
        else
          (fewer as bs).map .delete ++
            List.zipWith (fun before n => .insertAfter c before ((s.edits es).view.describe n))
              ((if as.length < bs.length then us ++ bs else us).getLast? :: (fewer as bs).map some)
              (fewer as bs)) ∧
      delta.operations.length ≤ 2 * min as.length bs.length := by
  intro pass
  obtain ⟨hfollows, hexact⟩ := h.follows
  have hfollows' := hfollows.edits hallows
  have hkeeps := (steps_edits hfollows.wellFormed hallows).keeps
  obtain ⟨r, hr, rfl⟩ := Node.mem_ids.1 hc
  have hrotated : (s.edits es).view.IsRotated (s.view.describe s.root) r us as bs ws := by
    refine h.isRotated hr hbefore hafter has hbs (hattributes r.id hc) hflag ?_
    intro m hm hne
    have hmem : m.id ∈ (s.view.describe s.root).ids := Node.mem_ids.2 ⟨m, hm, rfl⟩
    have hid : m.id ≠ r.id := fun heq => hne (Node.eq_of_id_eq hfollows.remembers.nodup hm hr heq)
    exact h.isStillAt hm (hchildren m.id hmem hid) (hattributes m.id hmem) (hflags m.id hmem hid)
  have hknown : (s.edits es).view.contains (s.view.describe s.root).id = true := by
    rw [hfollows'.id_eq]
    exact hfollows'.contains_top
  have hstrays := (hfollows.isExact_edits hallows hexact).not_hasStrays
  constructor
  · intro tables levels progress hcompares
    have hrotated : pass.view.IsRotated (s.view.describe s.root) r us as bs ws := hrotated
    exact hcompares.of_rotated hrotated hfollows'.remembers.toDepicts
      (hfollows'.id_eq.trans hkeeps.root_eq.symm) hstrays hheight
  · obtain ⟨delta, hdelta, hops⟩ := Differ.pass_of_isRotated hfollows'.remembers hrotated hknown hstrays
      hpolicy hheight
    rw [hfollows'.id_eq, ← hkeeps.root_eq, ← fst_pass] at hdelta
    refine ⟨delta, hdelta, hops, ?_⟩
    have hfirst := List.length_pos_iff.2 has
    have hsecond := List.length_pos_iff.2 hbs
    rw [hops]
    split
    · rw [List.length_singleton]
      omega
    · rw [List.length_append, List.length_map, List.length_zipWith, List.length_cons, List.length_map,
        Pass.length_fewer]
      omega

/-- The last one of the items of a list comes first now; that is sent as two operations. -/
theorem IsSent.pass_of_rotated_itemized :
    let es : List Edit := [.insert ⟨1⟩ 0 ⟨4⟩]
    ∃ delta, (Session.pass ⟨itemized.edits es, {}⟩ (itemized.edits es).root).1 = .ok delta ∧
      delta.operations = [.delete ⟨4⟩, .insertAfter ⟨1⟩ none (.leaf ⟨4⟩ "li" .empty)] := by
  intro es
  obtain ⟨-, delta, hdelta, hops, -⟩ :=
    @IsSent.pass_of_rotated [] [⟨2⟩, ⟨3⟩] [⟨4⟩] [] itemized es {} ⟨1⟩ (.begins begins_itemized)
      (show itemized.Allows itemized.root es by decide +kernel) (by decide +kernel) (by decide +kernel)
      (by decide +kernel) (by decide) (by decide) (by decide +kernel) (by decide +kernel)
      (by decide +kernel) (by decide +kernel) rfl (by decide +kernel)
  refine ⟨delta, hdelta, ?_⟩
  rw [hops]
  decide +kernel

end Forest

end PageSync
