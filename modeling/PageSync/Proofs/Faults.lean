import PageSync.Proofs.Standing

/-!
# Look-ups that find nothing

A pass looks up where children stand, and reads the sibling before a position off the list of children.
The first of these look-ups never fails. The second one may, but whatever a view says, a clash between
two containers is the only cause (`Differ.pass_declared`). There are views with such a clash
(`Differ.pass_crossed`).
-/

namespace PageSync

namespace Pass

variable {pass : Pass} {s₀ : Progress} {c n : NodeId} {number position : Nat}
  {shown current : List NodeId} {descend : NodeId → Walk Unit}

/-! ### The walk -/

lemma declares_compareChildren (hcompared : (pass.view.entry c).compared = some (shown, current))
    (hdescend : ∀ x s₀, pass.Declares (pass.Since s₀) (descend x) fun _ => pass.Since s₀)
    (h : pass.Writes number c s₀) :
    pass.Declares (pass.Since s₀) (pass.compareChildren descend number c shown current)
      fun _ => pass.Since s₀ := by
  intro s hs
  obtain ⟨hcurrent, hshown⟩ := View.of_compared_eq_some hcompared
  have hstayed : shown.filter (fun n => pass.view.parent n = some c) = pass.view.stayed c := by
    rw [View.stayed, Entry.shownChildList, hshown]
    rfl
  have hbefore : current.filter (fun n => pass.view.shownParent n = some c) =
      pass.view.shownBefore c := by
    rw [View.shownBefore, View.childList_of_some hcurrent]
  rw [compareChildren, yields_bind]
  apply (declares_noteOn (addsNothing_foldl_remove _) s hs).mono
  intro _ s₁ hs₁
  rw [yields_bind]
  apply (yields_takeIn_since [] (View.childList_of_some hcurrent) 0 s₁ (h.later hs₁)).mono
  rintro before s₂ ⟨hs₂, rfl, hplaces₂⟩
  rw [hbefore] at hplaces₂
  rw [hstayed, hbefore, yields_ite]
  refine ⟨fun _ => reports_contradict _ _, fun _ => ?_⟩
  rw [yields_bind]
  apply (yields_countStayed_since 0 _ s₂ hs₂.refl).mono
  rintro _ s₃ ⟨hs₃, hplaces₃⟩
  have hs₀ := hs₁.trans (hs₂.trans hs₃)
  have hplaced : pass.Placed number c s₃ :=
    ⟨h.later hs₀, hplaces₃, fun n hn => hs₃.isSome_place n (hplaces₂ n hn)⟩
  -- from here on all that is looked up has a place
  rw [yields_bind]
  apply (hplaced.align (hdescend · s₃) (fun _ => id) 0 0 _ (fun _ => id) s₃ hs₃.refl).mono
  rintro left s₄ ⟨hs₄, hleft⟩
  refine (Declares.forM (fun x hx => ?_) s₄ hs₄).mono fun _ _ => hs₀.trans
  refine Declares.bind (Q := fun _ => pass.Since s₃) (fun _ hs => hs) fun moved => ?_
  exact .ite (fun _ _ hs => hs) fun _ => hplaced.moveChild (.inr (hleft x hx))

lemma declares_replace {levels : Nat} :
    pass.Declares (pass.Since s₀) (pass.replace levels number c shown) fun _ => pass.Since s₀ := by
  have hreplace : AddsNothing Sheet.replace := fun _ => ⟨rfl, by simp [Sheet.replace]⟩
  have hevicted (nodes : List NodeId) : AddsNothing fun sheet => { sheet with evicted := nodes } :=
    fun _ => ⟨rfl, fun _ => id⟩
  apply (declares_noteOn hreplace).bind
  intro _
  split
  · exact declares_noteOn (hevicted _)
  · next h =>
    obtain ⟨n, limit, rfl⟩ := isTooDeep_of_evicted h
    exact fun _ _ => reports_tooDeep n limit

lemma declares_hang {into : Nat} :
    pass.Declares (pass.Since s₀) (hang into number c) fun _ => pass.Since s₀ :=
  .ite (fun _ _ _ => reports_cyclic c) fun _ => declares_noteOn fun _ => ⟨rfl, fun _ => id⟩

lemma declares_walkSettled {descend : Nat → NodeId → Walk Unit} {into : Nat}
    (hdescend : ∀ x, pass.Declares (pass.Since s₀) (descend into x) fun _ => pass.Since s₀) :
    pass.Declares (pass.Since s₀) (pass.walkSettled descend into n) fun _ => pass.Since s₀ := by
  have hrest : pass.Declares (pass.Since s₀) (if (pass.view.entry n).changedBelow = true then do
      (pass.view.entry n).childList.forM (descend into)
      markDone n
    else markDone n) fun _ => pass.Since s₀ :=
    .ite (fun _ => (Declares.forM fun x _ => hdescend x).bind fun _ => declares_markDone n)
      fun _ => declares_markDone n
  rw [walkSettled]
  exact .ite (fun _ => (declares_noteOn (addsNothing_alter n)).bind fun _ => hrest) fun _ => hrest

lemma declares_walkChanged {descend : Nat → NodeId → Walk Unit} {levels into : Nat}
    (hcompared : (pass.view.entry n).compared = some (shown, current))
    (hdescend : ∀ into x s₀,
      pass.Declares (pass.Since s₀) (descend into x) fun _ => pass.Since s₀) :
    pass.Declares (pass.Since s₀) (pass.walkChanged descend levels into n shown current)
      fun _ => pass.Since s₀ := by
  intro s hs
  rw [walkChanged, yields_bind, yields_get]
  dsimp only
  cases hfind : s.ledger.find? n with
  | some number =>
    rw [yields_ite]
    exact ⟨fun _ => reports_contradict _ _, fun _ => reports_cyclic n⟩
  | none =>
    have hopened := hs.openSheet n
    have hown : AddsNothing fun sheet =>
        { sheet with ownAttributes := (pass.view.entry n).attributesChanged } :=
      fun _ => ⟨rfl, fun _ => id⟩
    rw [yields_bind, yields_note, yields_bind]
    apply (declares_noteOn hown _ hopened.refl).mono
    intro _ s₁ hs₁
    have hwrites (hcompares : pass.Compares n) : pass.Writes s.ledger.next n s₁ := by
      refine Writes.later ⟨hopened.refl, ?_, ?_, hcompares⟩ hs₁
      · exact (Nat.lt_succ_self _).trans_eq (s.ledger.next_openSheet n).symm
      · rw [Ledger.sheet_openSheet, if_pos rfl]
    have hrest : pass.Declares (pass.Since s₁) (do
        markDone n
        if (← sheet s.ledger.next).isBlank then return () else hang into s.ledger.next n)
        fun _ => pass.Since s₁ := by
      apply (declares_markDone n).bind
      intro _
      refine Declares.bind (Q := fun _ => pass.Since s₁) (fun _ hs => hs) fun sheet => ?_
      exact .ite (fun _ _ hs => hs) fun _ => declares_hang
    refine Yields.mono (Declares.ite (P := pass.Since s₁) (fun _ => ?_) (fun hcond => ?_) s₁ hs₁.refl)
      fun _ _ => (hopened.trans hs₁).trans
    · exact declares_replace.bind fun _ => hrest
    · have hcompares : pass.Compares n := ⟨shown, current, hcompared, Bool.eq_false_iff.2 hcond⟩
      apply (declares_compareChildren hcompared (hdescend _) (hwrites hcompares)).bind
      intro _
      refine Declares.bind (Q := fun _ => pass.Since s₁) (fun _ hs => hs) fun changes => ?_
      exact .ite (fun _ => declares_replace.bind fun _ => hrest) fun _ => hrest

/-- A walk fails in declared ways only, and after it all containers reach the positions that are
noted. -/
lemma declares_walk (levels into : Nat) (n : NodeId) (s₀ : Progress) :
    pass.Declares (pass.Since s₀) (pass.walk levels into n) fun _ => pass.Since s₀ := by
  induction levels generalizing into n s₀ with
  | zero => exact fun _ _ => reports_tooDeep n _
  | succ levels ih =>
    rw [walk]
    split
    · next hcompared => exact declares_walkChanged hcompared ih
    · exact declares_walkSettled fun x => ih into x s₀

/-! ### Operations -/

lemma exists_of_mem_of_mapM_eq_ok {ε γ δ : Type} {f : γ → Except ε δ} {xs : List γ} {ys : List δ}
    {y : δ} (h : xs.mapM f = .ok ys) (hy : y ∈ ys) : ∃ x ∈ xs, f x = .ok y := by
  induction xs generalizing ys with
  | nil =>
    cases h
    cases hy
  | cons x rest ih =>
    rw [List.mapM_cons] at h
    cases hx : f x with
    | error e =>
      rw [hx] at h
      cases h
    | ok z =>
      cases hrest : rest.mapM f with
      | error e =>
        rw [hx, hrest] at h
        cases h
      | ok zs =>
        rw [hx, hrest] at h
        cases h
        rcases List.mem_cons.1 hy with rfl | hy
        · exact ⟨x, List.mem_cons_self, hx⟩
        · obtain ⟨w, hw, hwy⟩ := ih hrest hy
          exact ⟨w, List.mem_cons_of_mem x hw, hwy⟩

/-- A child is missing only before a position that the container doesn't reach. -/
lemma insertion_eq_error {e : PassError} (h : pass.insertion c position n = .error e) :
    e = .noSibling c position ∧ (pass.view.children c).length < position := by
  cases position with
  | zero => cases h
  | succ before =>
    dsimp only [insertion] at h
    split at h
    · cases h
    · next hnone =>
      cases h
      exact ⟨rfl, Nat.lt_succ_of_le (List.getElem?_eq_none_iff.1 hnone)⟩

lemma additions_eq_error {sheet : Sheet} {e : PassError} (h : pass.additions sheet = .error e) :
    ∃ c, sheet.container = some c ∧ ∃ entry ∈ sheet.inserted,
      pass.insertion c entry.1 entry.2 = .error e := by
  cases hc : sheet.container with
  | none => simp [additions, hc] at h
  | some c =>
    cases hreplaced : sheet.isReplaced with
    | true => simp [additions, hc, hreplaced] at h
    | false =>
      simp only [additions, hc, hreplaced, Bool.false_eq_true, if_false] at h
      rcases of_bind_eq_error h with h | ⟨_, -, h⟩
      · exact ⟨c, rfl, exists_of_mapM_eq_error h⟩
      · cases h

/-- If the operations cannot be read off a ledger, then its sheets are nested in a circle or there is a
clash. -/
lemma operations_eq_error {ledger : Ledger} {e : PassError} (hfits : pass.Fits ledger)
    (h : pass.operations ledger = .error e) :
    pass.Reports e ∨ ∃ c d n position, e = .noSibling c position ∧ pass.Clash c d n position := by
  rcases of_bind_eq_error h with h | ⟨sheets, hsheets, h⟩
  · left
    obtain ⟨line, -, hline⟩ := exists_of_mapM_eq_error h
    split at hline
    · cases hline
      exact reports_cyclic _
    · cases hline
  · right
    rcases of_bind_eq_error h with h | ⟨_, -, h⟩
    · obtain ⟨sheet, hsheet, h⟩ := exists_of_mapM_eq_error h
      obtain ⟨c, hc, ⟨position, n⟩, hentry, hinsertion⟩ := additions_eq_error h
      obtain ⟨line, -, hline⟩ := exists_of_mem_of_mapM_eq_ok hsheets hsheet
      obtain rfl : ledger.sheet line.number = sheet := by
        split at hline
        · cases hline
        · exact Except.ok.inj hline
      obtain ⟨rfl, hlt⟩ := insertion_eq_error hinsertion
      rcases hfits line.number c hc _ hentry with hle | ⟨d, hclash⟩
      · exact absurd hle (Nat.not_le.2 hlt)
      · exact ⟨c, d, n, position, rfl, hclash⟩
    · cases h

lemma fits_start : pass.Fits .start := by
  intro k c hc
  cases k with
  | zero => cases hc
  | succ k => cases hc

end Pass

/-- A pass whose policy and top have been checked reports its failure, or it fails because of a clash. -/
lemma Differ.reports_of_run {differ : Differ} {view : View} {top : NodeId} {e : PassError}
    (h : (differ.run view top).1 = .error e) : Pass.Reports ⟨view, differ.policy, top⟩ e ∨
      ∃ c d n position, e = .noSibling c position ∧
        Pass.Clash ⟨view, differ.policy, top⟩ c d n position := by
  have hstart : Pass.Since ⟨view, differ.policy, top⟩ { tables := differ.tables.emptied }
      { tables := differ.tables.emptied } :=
    ⟨Nat.le_refl _, fun _ _ => rfl, fun _ => id, by simp [Tables.emptied], Pass.fits_start⟩
  have hwalk := Pass.declares_walk (differ.policy.depthLimit.toNat + 1) Ledger.first top _ _ hstart
  rw [run] at h
  split at h
  · next progress hrun =>
    cases hoperations : Pass.operations ⟨view, differ.policy, top⟩ progress.ledger with
    | ok operations =>
      rw [hoperations] at h
      cases h
    | error e' =>
      rw [hoperations] at h
      cases h
      exact Pass.operations_eq_error (hwalk.of_run hrun).fits hoperations
  · next error progress hrun =>
    cases h
    exact .inl (hwalk.of_run_error hrun)

lemma Differ.run_eq_error {differ : Differ} {view : View} {top : NodeId} {e : PassError}
    (h : (differ.run view top).1 = .error e) : e.isDeclared = true ∨
      ∃ c d n position, e = .noSibling c position ∧
        Pass.Clash ⟨view, differ.policy, top⟩ c d n position :=
  (reports_of_run h).imp_left fun hreports => hreports.isDeclared

/-- Whatever a view says, and whatever the policy and the top are: a pass succeeds, or fails in one of
the ways that makers of views are told of, or comes to a position that a container doesn't reach because
the node to be inserted there was shown in another container, and is listed as shown in this one as
well. -/
theorem Differ.pass_declared (differ : Differ) (view : View) (top : NodeId) :
    (∃ delta, (differ.pass view top).1 = .ok delta) ∨
      (∃ error, (differ.pass view top).1 = .error error ∧ error.isDeclared = true) ∨
        ∃ c d n position, (differ.pass view top).1 = .error (.noSibling c position) ∧
          Pass.Clash ⟨view, differ.policy, top⟩ c d n position := by
  rw [pass]
  split
  · exact .inr (.inl ⟨_, rfl, rfl⟩)
  · split
    · split
      · exact .inr (.inl ⟨_, rfl, rfl⟩)
      · cases h : (differ.run view top).1 with
        | ok delta => exact .inl ⟨delta, rfl⟩
        | error e =>
          rcases run_eq_error h with hdeclared | ⟨c, d, n, position, rfl, hclash⟩
          · exact .inr (.inl ⟨e, rfl, hdeclared⟩)
          · exact .inr (.inr ⟨c, d, n, position, rfl, hclash⟩)
    · exact .inr (.inl ⟨_, rfl, rfl⟩)

/-! ### Two containers -/

/-- A container of seven children, the first of which is a container of five. The last child of the
outer container was shown there before, but has the inner one for its parent, which lists it as shown
as well. -/
def View.crossed : View where
  contains n := n.number ≤ 12
  entry n :=
    if n = ⟨0⟩ then
      { tag := "div", children := some [⟨1⟩, ⟨2⟩, ⟨3⟩, ⟨4⟩, ⟨5⟩, ⟨6⟩, ⟨7⟩],
        shownChildren := some [⟨1⟩, ⟨6⟩, ⟨6⟩, ⟨2⟩, ⟨3⟩, ⟨4⟩, ⟨5⟩], changedBelow := true }
    else if n = ⟨1⟩ then
      { tag := "div", children := some [⟨8⟩, ⟨9⟩, ⟨10⟩, ⟨11⟩, ⟨12⟩], parent := some ⟨0⟩,
        shownChildren := some [⟨7⟩, ⟨9⟩, ⟨10⟩, ⟨11⟩, ⟨12⟩], shownParent := some ⟨0⟩,
        changedBelow := true }
    else if n = ⟨7⟩ then
      { tag := "div", parent := some ⟨1⟩, shownParent := some ⟨0⟩, changedBelow := true }
    else if n.number ≤ 6 then
      { tag := "div", parent := some ⟨0⟩, shownParent := some ⟨0⟩, changedBelow := true }
    else if n.number ≤ 12 then
      { tag := "div", parent := some ⟨1⟩, shownParent := some ⟨1⟩, changedBelow := true }
    else {}

/-- Children have greater numbers. -/
lemma View.lt_of_mem_children_crossed {n c : NodeId} (hn : n ∈ crossed.children c) :
    c.number < n.number := by
  by_cases h₀ : c = ⟨0⟩
  · subst h₀
    have hall : ∀ n ∈ crossed.children ⟨0⟩, (0 : UInt32) < n.number := by decide
    exact hall n hn
  by_cases h₁ : c = ⟨1⟩
  · subst h₁
    have hall : ∀ n ∈ crossed.children ⟨1⟩, (1 : UInt32) < n.number := by decide
    exact hall n hn
  · have hleaf : crossed.children c = [] := by
      simp only [children, crossed, if_neg h₀, if_neg h₁]
      split_ifs <;> rfl
    rw [hleaf] at hn
    cases hn

/-- No node is below itself. -/
lemma View.acyclic_crossed (n : NodeId) :
    ¬ Relation.TransGen (fun x y => x ∈ crossed.children y) n n := by
  have hlt {x y : NodeId} (h : Relation.TransGen (fun x y => x ∈ crossed.children y) x y) :
      y.number < x.number := by
    induction h with
    | single h => exact lt_of_mem_children_crossed h
    | tail _ h ih => exact UInt32.lt_trans (lt_of_mem_children_crossed h) ih
  exact fun hcycle => UInt32.lt_irrefl _ (hlt hcycle)

/-- The inner container removes the child and inserts it again at the position that it has in the outer
one, where the inner one has no children any more. -/
theorem Differ.pass_crossed :
    (∀ n, ¬ Relation.TransGen (fun x y => x ∈ View.crossed.children y) n n) ∧
      ({} : Policy).check = .ok () ∧
        (Differ.pass {} View.crossed ⟨0⟩).1 = .error (.noSibling ⟨1⟩ 6) ∧
          (PassError.noSibling ⟨1⟩ 6).isDeclared = false := by
  refine ⟨View.acyclic_crossed, rfl, ?_, rfl⟩
  have hfails : (match (Differ.pass {} View.crossed ⟨0⟩).1 with
      | .error (.noSibling c position) => decide (c = ⟨1⟩ ∧ position = 6)
      | _ => false) = true := by decide +kernel
  split at hfails
  · next c position h =>
    obtain ⟨rfl, rfl⟩ := of_decide_eq_true hfails
    exact h
  · cases hfails

end PageSync
