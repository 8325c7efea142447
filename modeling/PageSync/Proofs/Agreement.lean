import PageSync.Differ
import PageSync.Proofs.Shown

/-!
# Views that agree

Two views may differ in what they say about the past of nodes that are not on the page. As long as
neither of them takes such a node for a child that is shown on the page, a pass cannot tell one from
the other (`Pass.Agrees.gather_eq`): it takes the same steps over both of them, and either fails in the
same way or sends the same operations (`Differ.pass_eq_of_agrees`).
-/

namespace PageSync

namespace Pass

/-- Whether two passes differ in nothing but what their views say about the past of nodes that are not
shown. -/
structure Agrees (isShown : NodeId → Prop) (p q : Pass) : Prop where
  /-- They follow the same policy. -/
  policy_eq : q.policy = p.policy
  /-- They start at the same top. -/
  root_eq : q.root = p.root
  /-- Each node has the same parent. -/
  parent_eq : q.view.parent = p.view.parent
  /-- Each node is in the same state. -/
  now_eq : ∀ n, (q.view.entry n).tag = (p.view.entry n).tag ∧
    (q.view.entry n).attributes = (p.view.entry n).attributes ∧
      (q.view.entry n).children = (p.view.entry n).children
  /-- The views say the same about shown nodes. -/
  entry_eq : ∀ n, isShown n → q.view.entry n = p.view.entry n
  /-- They find the same nodes shown below a shown node. -/
  shownParent_iff : ∀ c, isShown c → ∀ n, q.view.shownParent n = some c ↔ p.view.shownParent n = some c
  /-- The shown children of a shown container are shown. -/
  isShown_of_mem : ∀ n, isShown n → p.view.isContainer n →
    ∀ x ∈ (p.view.entry n).shownChildList, isShown x

lemma mapM_congr {m : Type → Type} [Monad m] [LawfulMonad m] {α β : Type} {k l : α → m β}
    {xs : List α} (h : ∀ x ∈ xs, k x = l x) : xs.mapM k = xs.mapM l := by
  induction xs with
  | nil => rfl
  | cons x xs ih =>
    rw [List.mapM_cons, List.mapM_cons, h x List.mem_cons_self,
      ih fun y hy => h y (List.mem_cons_of_mem x hy)]

lemma forM_congr {m : Type → Type} [Monad m] {α : Type} {k l : α → m Unit} {xs : List α}
    (h : ∀ x ∈ xs, k x = l x) : xs.forM k = xs.forM l := by
  induction xs with
  | nil => rfl
  | cons x xs ih =>
    rw [List.forM_eq_forM] at ih ⊢
    rw [List.forM_cons, List.forM_cons, h x List.mem_cons_self,
      ih fun y hy => h y (List.mem_cons_of_mem x hy)]

/-- Children that are not compared are shown as they are. -/
lemma mem_shownChildList {entry : Entry} {n : NodeId} (hcompared : entry.compared = none)
    (hn : n ∈ entry.childList) : entry.isContainer ∧ n ∈ entry.shownChildList := by
  cases hc : entry.children with
  | none => simp [Entry.childList, hc] at hn
  | some current =>
    refine ⟨by rw [Entry.isContainer, hc]; rfl, ?_⟩
    cases hs : entry.shownChildren with
    | none => rwa [Entry.shownChildList, hs]
    | some shown =>
      have hempty : shown = [] ∧ current = [] := by simpa [Entry.compared, hc, hs] using hcompared
      simp [Entry.childList, hc, hempty] at hn

namespace Agrees

variable {isShown : NodeId → Prop} {p q : Pass} (h : Agrees isShown p q)

include h

lemma children_eq : q.view.children = p.view.children := by
  funext n
  rw [View.children, View.children, Entry.childList, Entry.childList, (h.now_eq n).2.2]

lemma isContainer_eq (n : NodeId) : q.view.isContainer n = p.view.isContainer n := by
  rw [View.isContainer, View.isContainer, Entry.isContainer, Entry.isContainer, (h.now_eq n).2.2]

lemma describe_eq : q.view.describe = p.view.describe := funext (View.describe_congr h.now_eq)

/-! ### Children -/

lemma contradict_eq {α : Type} (c : NodeId) (reason : Inconsistency) :
    (q.contradict c reason : Walk α) = p.contradict c reason := by
  rw [contradict, contradict, path, path, h.policy_eq, View.climb_congr (congrFun h.parent_eq)]

lemma markNew_eq (n : NodeId) : q.markNew n = p.markNew n := by
  rw [markNew, markNew, h.isContainer_eq]

lemma moveChild_eq (number : Nat) (n : NodeId) : q.moveChild number n = p.moveChild number n := by
  simp only [moveChild, h.markNew_eq]

lemma takeIn_eq {c : NodeId} (hc : isShown c) (number target new : Nat) (nodes : List NodeId) :
    q.takeIn number c target new nodes = p.takeIn number c target new nodes := by
  induction nodes generalizing target new with
  | nil => rfl
  | cons n rest ih => simp only [takeIn, h.shownParent_iff c hc, h.markNew_eq, ih]

lemma countStayed_eq (c : NodeId) (old : Nat) (stayed : List NodeId) :
    q.countStayed c old stayed = p.countStayed c old stayed := by
  induction stayed generalizing old with
  | nil => rfl
  | cons n rest ih => simp only [countStayed, h.contradict_eq, ih]

lemma alignChild_eq {descend descend' : NodeId → Walk Unit} {n : NodeId}
    (hdescend : descend' n = descend n) (number : Nat) (c : NodeId) (old : Nat)
    (next : Nat → List NodeId → Walk (List NodeId)) (new : Nat) (others : List NodeId) :
    q.alignChild descend' number c n old next new others =
      p.alignChild descend number c n old next new others := by
  induction others generalizing new with
  | nil => exact h.contradict_eq c _
  | cons other rest ih =>
    by_cases hn : n = other
    · subst hn
      simp only [alignChild, ih, if_true, hdescend]
    · simp only [alignChild, ih, if_neg hn, h.moveChild_eq]

lemma align_eq {descend descend' : NodeId → Walk Unit} {stayed : List NodeId}
    (hdescend : ∀ n ∈ stayed, descend' n = descend n) (number : Nat) (c : NodeId) (old new : Nat)
    (others : List NodeId) : q.align descend' number c old stayed new others =
      p.align descend number c old stayed new others := by
  induction stayed generalizing old new others with
  | nil => rfl
  | cons n rest ih =>
    have hrest : q.align descend' number c (old + 1) rest = p.align descend number c (old + 1) rest :=
      funext₂ fun new others =>
        ih (fun x hx => hdescend x (List.mem_cons_of_mem n hx)) (old + 1) new others
    simp only [align, hrest, h.alignChild_eq (hdescend n List.mem_cons_self)]

lemma compareChildren_eq {descend descend' : NodeId → Walk Unit} {c : NodeId} {shown : List NodeId}
    (hc : isShown c) (hdescend : ∀ n ∈ shown, descend' n = descend n) (number : Nat)
    (current : List NodeId) : q.compareChildren descend' number c shown current =
      p.compareChildren descend number c shown current := by
  have hstayed : ∀ n ∈ shown.filter (fun n => p.view.parent n = some c), descend' n = descend n :=
    fun n hn => hdescend n (List.mem_of_mem_filter hn)
  have halign := h.align_eq hstayed
  simp only [compareChildren, h.parent_eq, h.takeIn_eq hc, h.contradict_eq, h.countStayed_eq, halign,
    h.moveChild_eq]

/-! ### Evictions -/

lemma findAbove_eq (c : NodeId) (count : Nat) (n : Option NodeId) :
    q.findAbove c count n = p.findAbove c count n := by
  induction count generalizing n with
  | zero => rfl
  | succ count ih =>
    cases n with
    | none => rfl
    | some a => simp only [findAbove, h.root_eq, h.parent_eq, ih]

lemma leaves_eq (c parent n : NodeId) : q.leaves c parent n = p.leaves c parent n := by
  simp only [leaves, whereabouts, h.policy_eq, h.parent_eq, h.findAbove_eq]

lemma evicted_eq (c : NodeId) (levels : Nat) (parent : NodeId) {nodes : List NodeId}
    (hnodes : ∀ n ∈ nodes, isShown n) : q.evicted c levels parent nodes =
      p.evicted c levels parent nodes := by
  induction levels generalizing parent nodes with
  | zero => rw [evicted, evicted, h.policy_eq]
  | succ levels ih =>
    rw [evicted, evicted, mapM_congr fun n hn => ?_]
    by_cases hkind : p.view.isContainer n
    · simp only [h.leaves_eq, h.isContainer_eq, hkind, if_true, h.entry_eq n (hnodes n hn),
        ih n (h.isShown_of_mem n (hnodes n hn) hkind)]
    · simp only [h.leaves_eq, h.isContainer_eq, if_neg hkind]

lemma replace_eq (levels number : Nat) (c : NodeId) {shown : List NodeId}
    (hshown : ∀ n ∈ shown, isShown n) : q.replace levels number c shown =
      p.replace levels number c shown := by
  simp only [replace, h.evicted_eq c levels c hshown]

/-! ### Walks -/

lemma walkSettled_eq {descend descend' : Nat → NodeId → Walk Unit} {n : NodeId} (hn : isShown n)
    (hdescend : ∀ into, ∀ x ∈ (p.view.entry n).childList, descend' into x = descend into x)
    (into : Nat) :
    q.walkSettled descend' into n = p.walkSettled descend into n := by
  simp only [walkSettled, h.entry_eq n hn, forM_congr (hdescend into)]

lemma walkChanged_eq {descend descend' : Nat → NodeId → Walk Unit} {c : NodeId}
    {shown : List NodeId} (hc : isShown c) (hshown : ∀ n ∈ shown, isShown n)
    (hdescend : ∀ into, ∀ n ∈ shown, descend' into n = descend into n) (levels into : Nat)
    (current : List NodeId) : q.walkChanged descend' levels into c shown current =
      p.walkChanged descend levels into c shown current := by
  simp only [walkChanged, h.entry_eq c hc, h.policy_eq, h.contradict_eq, h.replace_eq _ _ _ hshown,
    h.compareChildren_eq hc (hdescend _)]

/-- Over both views a walk takes the same steps. -/
lemma walk_eq (levels into : Nat) {n : NodeId} (hn : isShown n) :
    q.walk levels into n = p.walk levels into n := by
  induction levels generalizing into n with
  | zero => rw [walk, walk, h.policy_eq]
  | succ levels ih =>
    rw [walk, walk, h.entry_eq n hn]
    cases hcompared : (p.view.entry n).compared with
    | some lists =>
      obtain ⟨shown, current⟩ := lists
      obtain ⟨hc, hs⟩ := View.of_compared_eq_some hcompared
      have hshown : ∀ x ∈ shown, isShown x := by
        have hmem := h.isShown_of_mem n hn (by rw [View.isContainer, Entry.isContainer, hc]; rfl)
        rwa [Entry.shownChildList, hs] at hmem
      exact h.walkChanged_eq hn hshown (fun into x hx => ih into (hshown x hx)) _ into current
    | none =>
      refine h.walkSettled_eq hn (fun into x hx => ih into ?_) into
      obtain ⟨hkind, hx⟩ := mem_shownChildList hcompared hx
      exact h.isShown_of_mem n hn hkind x hx

lemma gather_eq (hroot : isShown p.root) : q.gather = p.gather := by
  rw [gather, gather, h.policy_eq, h.root_eq, h.walk_eq _ _ hroot]

/-! ### Operations -/

lemma additions_eq (sheet : Sheet) : q.additions sheet = p.additions sheet := by
  have halteration : q.alteration = p.alteration :=
    funext fun n => by rw [alteration, alteration, (h.now_eq n).2.1]
  have hinsertion (c : NodeId) (position : Nat) (n : NodeId) :
      q.insertion c position n = p.insertion c position n := by
    cases position <;> simp only [insertion, h.children_eq, h.describe_eq]
  simp only [additions, halteration, hinsertion, h.children_eq, h.describe_eq]

lemma operations_eq (ledger : Ledger) : q.operations ledger = p.operations ledger := by
  have hadditions : q.additions = p.additions := funext h.additions_eq
  simp only [operations, hadditions]

end Agrees

end Pass

namespace Differ

variable {differ differ' : Differ} {view view' : View} {root : NodeId} {isShown : NodeId → Prop}

/-- Passes over views that agree have the same result. -/
theorem fst_pass_eq_of_agrees
    (h : Pass.Agrees isShown ⟨view, differ.policy, root⟩ ⟨view', differ'.policy, root⟩)
    (hcontains : view'.contains root = view.contains root) (hroot : isShown root) :
    (differ'.pass view' root).1 = (differ.pass view root).1 := by
  have hparent : view'.parent root = view.parent root := congrFun h.parent_eq root
  have hpolicy : differ'.policy = differ.policy := h.policy_eq
  rw [pass, pass, hcontains, hparent, hpolicy]
  cases differ.policy.check with
  | error e => rfl
  | ok _ =>
    cases view.contains root with
    | false => rfl
    | true =>
      cases view.parent root with
      | some p => rfl
      | none =>
        simp only [if_true, run, h.gather_eq hroot, h.operations_eq, Tables.emptied]
        split <;> rfl

end Differ

end PageSync
