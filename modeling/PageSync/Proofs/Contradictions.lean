import PageSync.Proofs.Edits
import PageSync.Proofs.Finishing

/-!
# Contradictions that a pass does not see

What a view says of a container may contradict what it says of the children (`View.Accords`). When a
pass compares the children of a container one by one, it looks whether as many shown children have
stayed as there are current ones shown before, and whether a place is noted for each of the former.
The places are shared by all containers. So if no container that is compared lists a child twice that
has stayed, all of them accord with their children after a pass that succeeds
(`Differ.accords_of_pass`). A child that is listed twice can hide one that is missing
(`Differ.pass_tangled`).
-/

namespace PageSync

/-- The shown children of a container that are still below it. -/
def View.stayed (view : View) (c : NodeId) : List NodeId :=
  (view.entry c).shownChildList.filter fun n => view.parent n = some c

/-- Whether a node is below the container that it was shown in. -/
def View.Rests (view : View) (n : NodeId) : Prop :=
  ∃ c, view.shownParent n = some c ∧ view.parent n = some c ∧ n ∈ view.children c

/-- The current children of a container that were shown in it before. -/
def View.shownBefore (view : View) (c : NodeId) : List NodeId :=
  (view.children c).filter fun n => view.shownParent n = some c

namespace View

variable {view : View} {c n : NodeId}

/-- A container all of whose children that have stayed were shown before, and the other way round,
accords with them. -/
lemma accords_of_mem_iff (h : ∀ n, n ∈ view.stayed c ↔ n ∈ view.shownBefore c) : view.Accords c where
  mem_shown n hn hshown := by
    have hmem : n ∈ view.shownBefore c := List.mem_filter.2 ⟨hn, decide_eq_true hshown⟩
    exact (List.mem_filter.1 ((h n).2 hmem)).1
  mem_current n hn hparent := by
    have hmem : n ∈ view.stayed c := List.mem_filter.2 ⟨hn, decide_eq_true hparent⟩
    exact (List.mem_filter.1 ((h n).1 hmem)).1

lemma rests_of_mem (hn : n ∈ view.stayed c) (hbefore : n ∈ view.shownBefore c) : view.Rests n := by
  obtain ⟨hcurrent, hshown⟩ := List.mem_filter.1 hbefore
  exact ⟨c, of_decide_eq_true hshown, of_decide_eq_true (List.mem_filter.1 hn).2, hcurrent⟩

/-- A node that rests in some container and has stayed in another one rests in the latter. -/
lemma Rests.mem_shownBefore (hn : view.Rests n) (hstayed : n ∈ view.stayed c) :
    n ∈ view.shownBefore c := by
  obtain ⟨d, hshown, hparent, hcurrent⟩ := hn
  have hparent' : view.parent n = some c := of_decide_eq_true (List.mem_filter.1 hstayed).2
  obtain rfl : d = c := Option.some.inj (hparent.symm.trans hparent')
  exact List.mem_filter.2 ⟨hcurrent, decide_eq_true hshown⟩

/-- If all children that have stayed were shown before, none of them is listed twice, and there are as
many of the ones as of the others, then the two lists have the same nodes. -/
lemma mem_iff_of_length_eq (hnodup : (view.stayed c).Nodup)
    (hsub : ∀ n ∈ view.stayed c, n ∈ view.shownBefore c)
    (hlength : (view.stayed c).length = (view.shownBefore c).length) (n : NodeId) :
    n ∈ view.stayed c ↔ n ∈ view.shownBefore c := by
  have hperm := (List.subperm_of_subset hnodup hsub).perm_of_length_le hlength.ge
  exact hperm.mem_iff

end View

namespace Pass

variable {pass : Pass} {s s' : Progress} {c n : NodeId} {number : Nat} {shown current : List NodeId}

/-- Whether the children of a container are compared one by one when a pass comes to it. -/
def Compares (pass : Pass) (c : NodeId) : Prop :=
  ∃ shown current, (pass.view.entry c).compared = some (shown, current) ∧
    pass.sendsAnew c shown current = false

/-- Whether a pass is done with a container that was compared and lists some child twice that has
stayed. -/
def Tainted (pass : Pass) (s : Progress) : Prop :=
  ∃ c ∈ s.finished, pass.Compares c ∧ ¬ (pass.view.stayed c).Nodup

/-- Whether all nodes that have places rest, and all containers that were compared accord with their
children. -/
structure Checked (pass : Pass) (s : Progress) : Prop where
  /-- Only nodes that rest have places. -/
  rests : ∀ n place, s.tables.places[n]? = some place → pass.view.Rests n
  /-- The containers that the pass is done with accord with their children. -/
  accords : ∀ c ∈ s.finished, pass.Compares c → pass.view.Accords c

lemma lasting_tainted : Lasting pass.Tainted := by
  intro s s' _ hfinished hs
  rwa [Tainted, hfinished]

lemma Checked.congr (h : pass.Checked s) (hplaces : s'.tables.places = s.tables.places)
    (hfinished : s'.finished = s.finished) : pass.Checked s' where
  rests := by
    rw [hplaces]
    exact h.rests
  accords := by
    rw [hfinished]
    exact h.accords

/-! ### Taint stays -/

lemma tainted_markDone (n : NodeId) : Ensures pass.Tainted (markDone n) pass.Tainted := by
  rintro s ⟨c, hc, hbad⟩
  exact ⟨c, List.mem_append_left _ hc, hbad⟩

lemma tainted_walk (levels into : Nat) (n : NodeId) :
    Ensures pass.Tainted (pass.walk levels into n) pass.Tainted := by
  induction levels generalizing into n with
  | zero => exact .throw _
  | succ levels ih =>
    rw [walk]
    split
    · refine lasting_tainted.walkChanged lasting_tainted lasting_tainted (fun _ _ => id)
        (fun _ number => ?_) (tainted_markDone n)
      exact lasting_tainted.enduring.compareChildren (fun _ _ _ => id) fun x _ _ => ih number x
    · exact lasting_tainted.enduring.walkSettled (tainted_markDone n) fun x _ => ih into x

/-! ### Noting places -/

/-- When the current children are taken in, those that were shown before get places. -/
lemma yields_takeIn_places (target new : Nat) (nodes : List NodeId) (s : Progress) :
    Yields (pass.takeIn number c target new nodes) s
      (fun before s' => before = nodes.filter (fun n => pass.view.shownParent n = some c) ∧
        s'.finished = s.finished ∧
          ∀ n : NodeId, s'.tables.places[n]?.isSome → s.tables.places[n]?.isSome ∨ n ∈ before)
      fun _ => True := by
  induction nodes generalizing target new s with
  | nil => simp [takeIn]
  | cons x rest ih =>
    rw [takeIn, yields_ite]
    constructor
    · intro hx
      simp only [yields_bind, yields_setPlace]
      apply (ih _ _ _).mono
      rintro before s' ⟨rfl, hfinished, hplaces⟩
      refine ⟨by simp [hx], hfinished, fun n hn => ?_⟩
      rw [List.mem_cons]
      rcases hplaces n hn with hn | hn
      · rw [Std.TreeMap.getElem?_insert] at hn
        split at hn
        · next heq =>
          rw [Std.LawfulEqCmp.compare_eq_iff_eq] at heq
          exact .inr (.inl heq.symm)
        · exact .inl hn
      · exact .inr (.inr hn)
    · intro hx
      rw [yields_bind]
      have hkept : Lasting fun s' => s'.finished = s.finished ∧ s'.tables.places = s.tables.places :=
        fun s₁ s₂ hplaces hfinished h => ⟨hfinished.trans h.1, hplaces.trans h.2⟩
      apply ((hkept.enduring : pass.Enduring _).markNew x s ⟨rfl, rfl⟩).mono
      rintro _ s₁ ⟨hfinished₁, hplaces₁⟩
      simp only [yields_bind, yields_noteOn]
      apply (ih _ _ _).mono
      rintro before s' ⟨rfl, hfinished, hplaces⟩
      refine ⟨by simp [hx], hfinished.trans hfinished₁, fun n hn => ?_⟩
      rw [← hplaces₁]
      exact hplaces n hn

/-- When the shown children that have stayed are counted, all of them have places, and no other node
gets one. -/
lemma yields_countStayed_places (old : Nat) (nodes : List NodeId) (s : Progress) :
    Yields (pass.countStayed c old nodes) s
      (fun _ s' => s'.finished = s.finished ∧
        (∀ n : NodeId, s'.tables.places[n]?.isSome → s.tables.places[n]?.isSome) ∧
          ∀ n ∈ nodes, s.tables.places[n]?.isSome)
      fun _ => True := by
  induction nodes generalizing old s with
  | nil => simp [countStayed]
  | cons x rest ih =>
    rw [countStayed, yields_bind, yields_place?]
    cases hx : s.tables.places[x]? with
    | none => trivial
    | some place =>
      have hset (n : NodeId) (hn : (s.tables.places.insert x { place with old })[n]?.isSome) :
          s.tables.places[n]?.isSome := by
        rw [Std.TreeMap.getElem?_insert] at hn
        split at hn
        · next heq =>
          rw [Std.LawfulEqCmp.compare_eq_iff_eq] at heq
          rw [← heq, hx]
          rfl
        · exact hn
      simp only [yields_bind, yields_setPlace]
      apply (ih _ _).mono
      rintro _ s' ⟨hfinished, hplaces, hall⟩
      refine ⟨hfinished, fun n hn => hset n (hplaces n hn), fun n hn => ?_⟩
      rcases List.mem_cons.1 hn with rfl | hn
      · rw [hx]
        rfl
      · exact hset n (hall n hn)

/-! ### Comparisons -/

/-- A comparison that goes on beyond the counting shows that the container accords with its children,
unless it lists one twice that has stayed. -/
lemma checked_compareChildren {descend : NodeId → Walk Unit} {Q : Progress → Prop}
    (hcompared : (pass.view.entry c).compared = some (shown, current))
    (hnodup : (pass.view.stayed c).Nodup) (hQ : Lasting Q)
    (hchecked : ∀ s, pass.Checked s → pass.view.Accords c → Q s)
    (hdescend : ∀ x, Ensures Q (descend x) Q) :
    Ensures pass.Checked (pass.compareChildren descend number c shown current) Q := by
  intro s hs
  obtain ⟨hcurrent, hshown⟩ := View.of_compared_eq_some hcompared
  have hstayed : shown.filter (fun n => pass.view.parent n = some c) = pass.view.stayed c := by
    rw [View.stayed, Entry.shownChildList, hshown]
    rfl
  have hbefore : current.filter (fun n => pass.view.shownParent n = some c) =
      pass.view.shownBefore c := by
    rw [View.shownBefore, View.childList_of_some hcurrent]
  rw [compareChildren, yields_bind, yields_noteOn, yields_bind]
  apply (yields_takeIn_places _ _ _ _).mono
  rintro before s₁ ⟨rfl, hfinished₁, hplaces₁⟩
  rw [hstayed, hbefore, yields_ite]
  rw [hbefore] at hplaces₁
  refine ⟨fun _ => trivial, fun hlength => ?_⟩
  rw [yields_bind]
  apply (yields_countStayed_places _ _ _).mono
  rintro _ s₂ ⟨hfinished₂, hplaces₂, hall⟩
  have hknown (n : NodeId) (hn : s₁.tables.places[n]?.isSome) :
      pass.view.Rests n ∨ n ∈ pass.view.shownBefore c := by
    refine (hplaces₁ n hn).imp_left fun hn => ?_
    obtain ⟨place, hplace⟩ := Option.isSome_iff_exists.1 hn
    exact hs.rests n place hplace
  have hsub (n : NodeId) (hn : n ∈ pass.view.stayed c) : n ∈ pass.view.shownBefore c :=
    (hknown n (hall n hn)).elim (fun hrests => hrests.mem_shownBefore hn) id
  have hmem := View.mem_iff_of_length_eq hnodup hsub (not_not.1 hlength)
  apply hQ.enduring.align_then_move (fun x _ => hdescend x)
  apply hchecked s₂ _ (View.accords_of_mem_iff hmem)
  refine ⟨fun n place hplace => ?_, ?_⟩
  · have hn := hplaces₂ n (Option.isSome_iff_exists.2 ⟨place, hplace⟩)
    rcases hknown n hn with hrests | hn
    · exact hrests
    · exact View.rests_of_mem ((hmem n).2 hn) hn
  · rw [hfinished₂, hfinished₁]
    exact hs.accords

/-! ### The walk -/

/-- Whether all is well, but for containers that list children twice. -/
def Sure (pass : Pass) (s : Progress) : Prop := pass.Tainted s ∨ pass.Checked s

/-- The same, while the container itself is not done with yet. -/
def SureOf (pass : Pass) (n : NodeId) (s : Progress) : Prop :=
  pass.Tainted s ∨ pass.Checked s ∧ (pass.Compares n → pass.view.Accords n)

lemma lasting_sure : Lasting pass.Sure := fun s s' hplaces hfinished hs =>
  hs.imp (lasting_tainted s s' hplaces hfinished) fun hs => hs.congr hplaces hfinished

lemma lasting_sureOf : Lasting (pass.SureOf n) := fun s s' hplaces hfinished hs =>
  hs.imp (lasting_tainted s s' hplaces hfinished) fun hs =>
    hs.imp_left fun hs => hs.congr hplaces hfinished

lemma ensures_sureOf {m : Walk Unit} (htainted : Ensures pass.Tainted m pass.Tainted)
    (hsure : Ensures pass.Sure m pass.Sure) : Ensures (pass.SureOf n) m (pass.SureOf n) := by
  rintro s (hs | ⟨hs, haccords⟩)
  · exact (htainted s hs).mono fun _ _ => .inl
  · exact (hsure s (.inr hs)).mono fun _ _ hs' => hs'.imp_right fun hs' => ⟨hs', haccords⟩

lemma sureOf_markDone : Ensures (pass.SureOf n) (markDone n) pass.Sure := by
  rintro s (hs | ⟨hs, haccords⟩)
  · exact .inl (tainted_markDone n s hs)
  · refine .inr ⟨hs.rests, fun c hc hcompares => ?_⟩
    rcases List.mem_append.1 hc with hc | hc
    · exact hs.accords c hc hcompares
    · obtain rfl := List.mem_singleton.1 hc
      exact haccords hcompares

lemma sureOf_compareChildren {levels number : Nat}
    (hcompared : (pass.view.entry n).compared = some (shown, current))
    (hnodup : (pass.view.stayed n).Nodup)
    (hwalk : ∀ x, Ensures pass.Sure (pass.walk levels number x) pass.Sure) :
    Ensures pass.Sure (pass.compareChildren (pass.walk levels number) number n shown current)
      (pass.SureOf n) := by
  have htainted : Ensures pass.Tainted
      (pass.compareChildren (pass.walk levels number) number n shown current) pass.Tainted :=
    lasting_tainted.enduring.compareChildren (fun _ _ _ => id) fun x _ _ => tainted_walk levels number x
  rintro s (hs | hs)
  · exact (htainted s hs).mono fun _ _ => .inl
  · exact checked_compareChildren hcompared hnodup lasting_sureOf
      (fun s hs haccords => .inr ⟨hs, fun _ => haccords⟩)
      (fun x => ensures_sureOf (tainted_walk levels number x) (hwalk x)) s hs

lemma sure_walk (levels into : Nat) (n : NodeId) :
    Ensures pass.Sure (pass.walk levels into n) pass.Sure := by
  induction levels generalizing into n with
  | zero => exact .throw _
  | succ levels ih =>
    rw [walk]
    split
    · next shown current hcompared =>
      by_cases hbad : pass.Compares n ∧ ¬ (pass.view.stayed n).Nodup
      · -- the container itself lists a child twice: that is known once it is done with
        refine lasting_sure.walkChanged (Q := fun _ => True) (fun _ _ _ _ _ => trivial) lasting_sure
          (fun _ _ _ => trivial) (fun _ number s _ => yields_of_forall fun _ _ => trivial) ?_
        exact fun s _ => .inl ⟨n, List.mem_append_right _ List.mem_cons_self, hbad⟩
      · refine lasting_sure.walkChanged lasting_sureOf lasting_sure (fun hanew s hs => ?_)
          (fun hcompares number => ?_) sureOf_markDone
        · refine hs.imp_right fun hs => ⟨hs, ?_⟩
          rintro ⟨shown', current', hsome, hnot⟩
          obtain ⟨rfl, rfl⟩ := Prod.mk.inj (Option.some.inj (hcompared.symm.trans hsome))
          rw [hanew] at hnot
          cases hnot
        · have hnodup : (pass.view.stayed n).Nodup := by
            by_contra hnot
            exact hbad ⟨⟨shown, current, hcompared, hcompares⟩, hnot⟩
          exact sureOf_compareChildren hcompared hnodup (ih number)
    · next hcompared =>
      have hdone : Ensures pass.Sure (markDone n) pass.Sure := by
        intro s hs
        refine sureOf_markDone s (hs.imp_right fun hs => ⟨hs, ?_⟩)
        rintro ⟨shown, current, hsome, -⟩
        rw [hcompared] at hsome
        cases hsome
      exact lasting_sure.enduring.walkSettled hdone fun x _ => ih into x

end Pass

/-- Whatever a view says, all containers that a successful pass compared accord with their children, if
none of them lists a child twice that has stayed. -/
theorem Differ.accords_of_pass {differ : Differ} {view : View} {top : NodeId} {delta : Delta}
    (hpass : (differ.pass view top).1 = .ok delta)
    (hnodup : ∀ c, .settled c ∈ delta.notices → Pass.Compares ⟨view, differ.policy, top⟩ c →
      (view.stayed c).Nodup) :
    ∀ c, .settled c ∈ delta.notices → Pass.Compares ⟨view, differ.policy, top⟩ c →
      view.Accords c := by
  obtain ⟨-, -, -, s, hrun, -, hnotices, -⟩ := Differ.of_pass_eq_ok hpass
  have hsettled (c : NodeId) : .settled c ∈ delta.notices ↔ c ∈ s.finished := by simp [hnotices]
  have hstart : Pass.Sure ⟨view, differ.policy, top⟩ { tables := differ.tables.emptied } :=
    .inr ⟨by simp [Tables.emptied], by simp⟩
  intro c hc hcompares
  rcases (Pass.sure_walk _ _ _ _ hstart).of_run hrun with ⟨d, hd, hcompares', hbad⟩ | hchecked
  · exact absurd (hnodup d ((hsettled d).2 hd) hcompares') hbad
  · exact hchecked.accords c ((hsettled c).1 hc) hcompares

/-! ### Five children -/

variable {n c : NodeId}

/-- A container, and five leaves that are below it and were shown in it. -/
def View.family (shown current : List NodeId) : View where
  contains n := n.number ≤ 5
  entry n :=
    if n = ⟨0⟩ then
      { tag := "div", children := some current, shownChildren := some shown, changedBelow := true }
    else if n.number ≤ 5 then
      { tag := "div", parent := some ⟨0⟩, shownParent := some ⟨0⟩, changedBelow := true }
    else {}

namespace View

variable {shown current : List NodeId}

lemma entry_family_of_ne (hn : n ≠ ⟨0⟩) : (family shown current).entry n =
    if n.number ≤ 5 then
      { tag := "div", parent := some ⟨0⟩, shownParent := some ⟨0⟩, changedBelow := true }
    else {} :=
  if_neg hn

/-- Only the container has children, and only these are compared. -/
lemma eq_of_compares_family {policy : Policy} {top : NodeId}
    (hn : Pass.Compares ⟨family shown current, policy, top⟩ n) : n = ⟨0⟩ := by
  obtain ⟨shown', current', hcompared, -⟩ := hn
  by_contra hne
  rw [entry_family_of_ne hne] at hcompared
  split at hcompared
  · cases hcompared
  · cases hcompared

lemma eq_of_mem_children_family (hn : n ∈ (family shown current).children c) : c = ⟨0⟩ := by
  by_contra hne
  rw [children, entry_family_of_ne hne] at hn
  split at hn
  · cases hn
  · cases hn

/-- The container is not below itself. -/
lemma acyclic_family (hcurrent : ⟨0⟩ ∉ current) (n : NodeId) :
    ¬ Relation.TransGen (fun x y => x ∈ (family shown current).children y) n n := by
  intro hcycle
  obtain ⟨y, hny, -⟩ := Relation.TransGen.head'_iff.1 hcycle
  obtain ⟨x, -, hxn⟩ := Relation.TransGen.tail'_iff.1 hcycle
  obtain rfl := eq_of_mem_children_family hny
  obtain rfl := eq_of_mem_children_family hxn
  exact hcurrent hny

end View

/-- Two children that come in another order are moved, and the container accords with all of them. -/
theorem Differ.accords_of_pass_swapped :
    (View.family [⟨4⟩, ⟨5⟩, ⟨1⟩, ⟨2⟩, ⟨3⟩] [⟨5⟩, ⟨4⟩, ⟨1⟩, ⟨2⟩, ⟨3⟩]).Accords ⟨0⟩ := by
  obtain ⟨delta, hdelta⟩ : ∃ delta, (Differ.pass {} (View.family
      [⟨4⟩, ⟨5⟩, ⟨1⟩, ⟨2⟩, ⟨3⟩] [⟨5⟩, ⟨4⟩, ⟨1⟩, ⟨2⟩, ⟨3⟩]) ⟨0⟩).1 = .ok delta :=
    exists_eq_ok (by decide +kernel)
  have hsettled : (Differ.pass {} (View.family [⟨4⟩, ⟨5⟩, ⟨1⟩, ⟨2⟩, ⟨3⟩]
      [⟨5⟩, ⟨4⟩, ⟨1⟩, ⟨2⟩, ⟨3⟩]) ⟨0⟩).1.toOption.all fun delta => .settled ⟨0⟩ ∈ delta.notices := by
    decide +kernel
  rw [hdelta] at hsettled
  refine Differ.accords_of_pass hdelta (fun c _ hcompares => ?_) ⟨0⟩ (of_decide_eq_true hsettled)
    ⟨_, _, rfl, by decide +kernel⟩
  obtain rfl := View.eq_of_compares_family hcompares
  decide +kernel

/-- A pass does not see that one child is new although it is recorded as shown, if another one is listed
twice: it removes both and inserts both again. -/
theorem Differ.pass_tangled :
    let view := View.family [⟨5⟩, ⟨5⟩, ⟨1⟩, ⟨2⟩, ⟨3⟩] [⟨4⟩, ⟨5⟩, ⟨1⟩, ⟨2⟩, ⟨3⟩]
    (∀ n, ¬ Relation.TransGen (fun x y => x ∈ view.children y) n n) ∧
      ({} : Policy).check = .ok () ∧
        (∃ delta, (Differ.pass {} view ⟨0⟩).1 = .ok delta ∧ .settled ⟨0⟩ ∈ delta.notices) ∧
          Pass.Compares ⟨view, {}, ⟨0⟩⟩ ⟨0⟩ ∧ ¬ view.Accords ⟨0⟩ := by
  intro view
  refine ⟨View.acyclic_family (by decide), rfl, ?_, ⟨_, _, rfl, by decide +kernel⟩, fun haccords => ?_⟩
  · obtain ⟨delta, hdelta⟩ : ∃ delta, (Differ.pass {} view ⟨0⟩).1 = .ok delta :=
      exists_eq_ok (by decide +kernel)
    have hsettled : (Differ.pass {} view ⟨0⟩).1.toOption.all fun delta =>
        .settled ⟨0⟩ ∈ delta.notices := by
      decide +kernel
    rw [hdelta] at hsettled
    exact ⟨delta, hdelta, of_decide_eq_true hsettled⟩
  · exact absurd (haccords.mem_shown ⟨4⟩ (by decide +kernel) (by decide +kernel)) (by decide +kernel)

end PageSync
