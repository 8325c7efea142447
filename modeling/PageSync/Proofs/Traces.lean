import PageSync.Proofs.Contradictions
import PageSync.Proofs.Runs

/-!
# Passes leave no trace

The tables of a differ are emptied before each pass, so that a pass comes out as the first one of a new
differ would. A failed pass tells the maker of the view nothing, so that it fails again in the same way.
A successful one tells of nodes of its tree and, if the lists of children name no node twice, of each of
them once (`Differ.pass_untraced`).
-/

namespace PageSync

variable {a b c n x y top : NodeId} {nodes more : List NodeId}

namespace View

/-- Whether a node is another one or below it, by the lists of children. -/
def Holds (view : View) (a n : NodeId) : Prop :=
  Relation.ReflTransGen (fun p c => c ∈ view.children p) a n

/-- Whether each node is in one list of children at most, and there once, and a given one in none. -/
structure ListsOnce (view : View) (top : NodeId) : Prop where
  /-- No list names a child twice. -/
  nodup_children : ∀ c, (view.children c).Nodup
  /-- No two lists name the same child. -/
  eq_of_mem : ∀ n c d, n ∈ view.children c → n ∈ view.children d → c = d
  /-- No list names the top. -/
  notMem_children : ∀ c, top ∉ view.children c

/-- Whether no node is at or below both of two nodes. -/
def Apart (view : View) (x y : NodeId) : Prop := ∀ n, view.Holds x n → ¬ view.Holds y n

/-- Whether a node is at or below one of some nodes. -/
def HoldsAny (view : View) (nodes : List NodeId) (n : NodeId) : Prop := ∃ x ∈ nodes, view.Holds x n

variable {view : View}

lemma Holds.of_mem (hc : c ∈ view.children n) (hx : view.Holds c x) : view.Holds n x := .head hc hx

@[simp] lemma holdsAny_nil : ¬ view.HoldsAny [] n := by simp [HoldsAny]

lemma holdsAny_singleton : view.HoldsAny [x] n ↔ view.Holds x n := by simp [HoldsAny]

lemma holdsAny_append :
    view.HoldsAny (nodes ++ more) n ↔ view.HoldsAny nodes n ∨ view.HoldsAny more n := by
  simp [HoldsAny, or_and_right, exists_or]

lemma HoldsAny.mono (h : view.HoldsAny nodes n) (hsub : nodes ⊆ more) : view.HoldsAny more n := by
  obtain ⟨x, hx, hn⟩ := h
  exact ⟨x, hsub hx, hn⟩

namespace ListsOnce

variable (h : view.ListsOnce top)

include h

/-- No node of the tree is below itself. -/
lemma not_cycle (hc : view.Holds top c) :
    ¬ Relation.TransGen (fun p d => d ∈ view.children p) c c := by
  induction hc with
  | refl =>
    intro hcycle
    obtain ⟨d, -, hd⟩ := Relation.TransGen.tail'_iff.1 hcycle
    exact h.notMem_children d hd
  | @tail b c _ hbc ih =>
    -- the only node with the given one as a child is on the cycle, too
    intro hcycle
    obtain ⟨d, hd, hdc⟩ := Relation.TransGen.tail'_iff.1 hcycle
    obtain rfl := h.eq_of_mem c b d hbc hdc
    exact ih (Relation.TransGen.head' hbc hd)

/-- A child does not hold its parent. -/
lemma not_holds_parent (hc : view.Holds top c) (hx : x ∈ view.children c) : ¬ view.Holds x c :=
  fun hxc => h.not_cycle hc (Relation.TransGen.head' hx hxc)

/-- Two nodes that hold the same one are in line. -/
lemma holds_total (ha : view.Holds a n) (hb : view.Holds b n) : view.Holds a b ∨ view.Holds b a := by
  have hunique : Relator.RightUnique (Function.swap fun p c => c ∈ view.children p) :=
    fun n c d hc hd => h.eq_of_mem n c d hc hd
  have htotal := Relation.ReflTransGen.total_of_right_unique hunique
    (Relation.reflTransGen_swap.2 ha) (Relation.reflTransGen_swap.2 hb)
  exact htotal.symm.imp Relation.reflTransGen_swap.1 Relation.reflTransGen_swap.1

/-- Two children of one node hold nothing in common. -/
lemma apart_of_mem (hc : view.Holds top c) (hx : x ∈ view.children c) (hy : y ∈ view.children c)
    (hne : x ≠ y) : view.Apart x y := by
  have hnot (x y : NodeId) (hx : x ∈ view.children c) (hy : y ∈ view.children c) (hne : x ≠ y) :
      ¬ view.Holds x y := by
    intro hxy
    obtain ⟨d, hd, hdy⟩ := (Relation.ReflTransGen.cases_tail_iff _ _ _).1 hxy |>.resolve_left hne.symm
    obtain rfl := h.eq_of_mem y c d hy hdy
    exact h.not_holds_parent hc hx hd
  intro n hxn hyn
  rcases h.holds_total hxn hyn with hxy | hyx
  · exact hnot x y hx hy hne hxy
  · exact hnot y x hy hx hne.symm hyx

lemma pairwise_apart (hc : view.Holds top c) : (view.children c).Pairwise view.Apart :=
  (h.nodup_children c).imp_of_mem fun hx hy hne => h.apart_of_mem hc hx hy hne

end ListsOnce

end View

/-! ### Walks that are done with each node once -/

namespace Pass

variable {α β : Type} {A : NodeId → Prop} {m : Walk α} {k : α → Walk β} {pass : Pass} {view : View}
  {descend : NodeId → Walk Unit} {number : Nat} {shown current : List NodeId}

/-- Whether a pass is done with nodes of one kind alone, and with none of them twice. -/
def Once (A : NodeId → Prop) (s : Progress) : Prop := s.finished.Nodup ∧ ∀ y ∈ s.finished, A y

/-- Whether a step is done, at most once, with nodes that are held by given ones, unless the pass was done
with such nodes before. -/
def VisitsOnce (view : View) (m : Walk α) (nodes : List NodeId) : Prop :=
  ∀ A : NodeId → Prop, (∀ y, A y → ¬ view.HoldsAny nodes y) →
    Ensures (Once A) m (Once fun y => A y ∨ view.HoldsAny nodes y)

lemma Once.mono {A' : NodeId → Prop} {s : Progress} (h : Once A s) (hsub : ∀ y, A y → A' y) :
    Once A' s :=
  ⟨h.1, fun y hy => hsub y (h.2 y hy)⟩

lemma lasting_once : Lasting (Once A) := by
  intro s s' _ hfinished hs
  rwa [Once, hfinished]

lemma once_markDone (hn : ¬ A n) : Ensures (Once A) (markDone n) (Once fun y => A y ∨ y = n) := by
  rintro s ⟨hnodup, hs⟩
  have hnew : n ∉ s.finished := fun hmem => hn (hs n hmem)
  refine ⟨?_, fun y hy => ?_⟩
  · exact List.nodup_append'.2 ⟨hnodup, List.nodup_singleton n, by simpa using hnew⟩
  · rcases List.mem_append.1 hy with hy | hy
    · exact .inl (hs y hy)
    · exact .inr (List.mem_singleton.1 hy)

namespace VisitsOnce

/-- A step that is done with no nodes at all. -/
lemma of_lasting (h : ∀ A, Ensures (Once A) m (Once A)) : VisitsOnce view m nodes :=
  fun A _ s hs => (h A s hs).mono fun _ _ hs' => hs'.mono fun _ => .inl

lemma mono (h : VisitsOnce view m nodes) (hsub : nodes ⊆ more) : VisitsOnce view m more := by
  intro A hA s hs
  apply (h A (fun y hy hheld => hA y hy (hheld.mono hsub)) s hs).mono
  exact fun _ s' hs' => hs'.mono fun y => Or.imp_right fun hheld => hheld.mono hsub

lemma bind (hm : VisitsOnce view m nodes) (hk : ∀ a, VisitsOnce view (k a) more)
    (hapart : ∀ x ∈ nodes, ∀ y ∈ more, view.Apart x y) :
    VisitsOnce view (m >>= k) (nodes ++ more) := by
  intro A hA
  have hfirst : ∀ y, A y → ¬ view.HoldsAny nodes y := fun y hy hheld =>
    hA y hy (View.holdsAny_append.2 (.inl hheld))
  have hsecond : ∀ y, A y ∨ view.HoldsAny nodes y → ¬ view.HoldsAny more y := by
    rintro n (hn | ⟨x, hx, hxn⟩) ⟨y, hy, hyn⟩
    · exact hA n hn (View.holdsAny_append.2 (.inr ⟨y, hy, hyn⟩))
    · exact hapart x hx y hy n hxn hyn
  apply (hm A hfirst).bind
  intro a s hs
  apply (hk a _ hsecond s hs).mono
  intro _ s' hs'
  exact hs'.mono fun y hy => by rwa [View.holdsAny_append, ← or_assoc]

/-- A step that is done with no nodes may come first. -/
lemma bind_right (hm : ∀ A, Ensures (Once A) m (Once A)) (hk : ∀ a, VisitsOnce view (k a) nodes) :
    VisitsOnce view (m >>= k) nodes := by
  have hfirst : VisitsOnce view m [] := of_lasting hm
  exact hfirst.bind hk (by simp)

/-- A step that is done with no nodes may come last. -/
lemma bind_left (hm : VisitsOnce view m nodes) (hk : ∀ a A, Ensures (Once A) (k a) (Once A)) :
    VisitsOnce view (m >>= k) nodes := by
  have hlast (a : α) : VisitsOnce view (k a) [] := of_lasting (hk a)
  simpa using hm.bind hlast (by simp)

lemma ite {p : Prop} [Decidable p] {m' : Walk α} (hm : p → VisitsOnce view m nodes)
    (hm' : ¬ p → VisitsOnce view m' nodes) : VisitsOnce view (if p then m else m') nodes :=
  fun A hA => .ite (fun h => hm h A hA) fun h => hm' h A hA

lemma forM {step : NodeId → Walk Unit} (hstep : ∀ x ∈ nodes, VisitsOnce view (step x) [x])
    (hapart : nodes.Pairwise view.Apart) : VisitsOnce view (nodes.forM step) nodes := by
  induction nodes with
  | nil => exact of_lasting fun _ => .pure ()
  | cons x rest ih =>
    obtain ⟨hx, hrest⟩ := List.pairwise_cons.1 hapart
    rw [List.forM_eq_forM, List.forM_cons]
    refine (hstep x List.mem_cons_self).bind (fun _ =>
      ih (fun y hy => hstep y (List.mem_cons_of_mem x hy)) hrest) ?_
    simpa using hx

/-- While a shown child is aligned, the pass goes down below current children that it comes to. -/
lemma alignChild {next : Nat → List NodeId → Walk (List NodeId)} {old : Nat}
    (hnext : ∀ new others, others ⊆ nodes → others.Pairwise (pass.view.Apart) →
      VisitsOnce pass.view (next new others) others)
    (hdescend : ∀ x ∈ nodes, VisitsOnce pass.view (descend x) [x])
    (new : Nat) (others : List NodeId) (hsub : others ⊆ nodes)
    (hapart : others.Pairwise pass.view.Apart) :
    VisitsOnce pass.view (pass.alignChild descend number c n old next new others) others := by
  induction others generalizing new with
  | nil => exact of_lasting fun _ => .contradict _ _
  | cons other rest ih =>
    obtain ⟨hother, hrest⟩ := List.pairwise_cons.1 hapart
    have hsub' : rest ⊆ nodes := fun x hx => hsub (List.mem_cons_of_mem other hx)
    have hskip (new : Nat) := (ih new hsub' hrest).mono (List.subset_cons_self other rest)
    rw [Pass.alignChild]
    apply bind_right (fun _ => .isMoved other)
    intro moved
    apply ite (fun _ => hskip _)
    intro _
    split
    · next heq =>
      subst heq
      refine (hdescend n (hsub List.mem_cons_self)).bind (fun _ => hnext _ rest hsub' hrest) ?_
      simpa using hother
    · apply bind_right (fun _ => .placeOf _)
      intro nodePlace
      apply bind_right (fun _ => .placeOf _)
      intro otherPlace
      apply ite
      · intro _
        exact bind_right (fun _ => lasting_once.enduring.moveChild _ _) fun _ => hnext _ _ hsub hapart
      · intro _
        exact bind_right (fun _ => lasting_once.enduring.moveChild _ _) fun _ => hskip _

lemma align {stayed : List NodeId} (hdescend : ∀ x ∈ nodes, VisitsOnce pass.view (descend x) [x])
    (old new : Nat) (others : List NodeId) (hsub : others ⊆ nodes)
    (hapart : others.Pairwise pass.view.Apart) :
    VisitsOnce pass.view (pass.align descend number c old stayed new others) others := by
  induction stayed generalizing old new others with
  | nil => exact of_lasting fun _ => .pure _
  | cons x rest ih =>
    rw [Pass.align]
    apply bind_right (fun _ => .isMoved x)
    intro moved
    apply ite (fun _ => ih _ _ _ hsub hapart)
    intro _
    exact alignChild (fun new others hsub hapart => ih _ new others hsub hapart) hdescend new others
      hsub hapart

/-- A comparison goes down below current children alone. -/
lemma compareChildren (hdescend : ∀ x ∈ current, VisitsOnce pass.view (descend x) [x])
    (hapart : current.Pairwise pass.view.Apart) :
    VisitsOnce pass.view (pass.compareChildren descend number c shown current) current := by
  intro A hA
  apply (lasting_once.note _).bind
  intro _ s hs
  rw [yields_bind]
  apply (yields_takeIn_places _ _ _ _).mono
  rintro before s₁ ⟨rfl, hfinished, -⟩
  have hs₁ : Once A s₁ := by rwa [Once, hfinished]
  have hsub : current.filter (fun n => pass.view.shownParent n = some c) ⊆ current :=
    List.filter_subset_self _
  refine Ensures.ite (fun _ => .contradict _ _) (fun _ => ?_) s₁ hs₁
  apply (Enduring.countStayed (fun _ _ s hs => hs) _ _).bind
  intro _
  have halign : VisitsOnce pass.view (pass.align descend number c 0
      (shown.filter fun n => pass.view.parent n = some c) 0
      (current.filter fun n => pass.view.shownParent n = some c)) _ :=
    align hdescend 0 0 _ hsub (hapart.filter _)
  refine (halign.bind_left (fun left A => Ensures.forM fun x _ => ?_)).mono hsub A hA
  apply (Ensures.isMoved x).bind
  intro moved
  exact .ite (fun _ => .pure ()) fun _ => lasting_once.enduring.moveChild _ _

end VisitsOnce

/-- A walk is done with nodes of the tree below its node, and with none of them twice. -/
theorem visitsOnce_walk (pass : Pass) (h : pass.view.ListsOnce top) (levels into : Nat)
    (hn : pass.view.Holds top n) : VisitsOnce pass.view (pass.walk levels into n) [n] := by
  induction levels generalizing into n with
  | zero => exact .of_lasting fun _ => .throw _
  | succ levels ih =>
    have hchild (number : Nat) (x : NodeId) (hx : x ∈ pass.view.children n) :
        VisitsOnce pass.view (pass.walk levels number x) [x] :=
      ih number (hn.tail hx)
    have hapart := h.pairwise_apart hn
    -- once the children are done with, the node itself comes last
    have hdone (A : NodeId → Prop) (hA : ∀ y, A y → ¬ pass.view.HoldsAny [n] y) :
        Ensures (Once fun y => A y ∨ pass.view.HoldsAny (pass.view.children n) y) (markDone n)
          (Once fun y => A y ∨ pass.view.HoldsAny [n] y) := by
      have hnot : ¬ (A n ∨ pass.view.HoldsAny (pass.view.children n) n) := by
        rintro (hn' | ⟨x, hx, hxn⟩)
        · exact hA n hn' (View.holdsAny_singleton.2 .refl)
        · exact h.not_holds_parent hn hx hxn
      intro s hs
      apply (once_markDone hnot s hs).mono
      intro _ s' hs'
      refine hs'.mono ?_
      rintro y ((hy | ⟨x, hx, hxy⟩) | rfl)
      · exact .inl hy
      · exact .inr (View.holdsAny_singleton.2 (.of_mem hx hxy))
      · exact .inr (View.holdsAny_singleton.2 .refl)
    have hfree (A : NodeId → Prop) (hA : ∀ y, A y → ¬ pass.view.HoldsAny [n] y) (y : NodeId)
        (hy : A y) : ¬ pass.view.HoldsAny (pass.view.children n) y := by
      rintro ⟨x, hx, hxy⟩
      exact hA y hy (View.holdsAny_singleton.2 (.of_mem hx hxy))
    rw [walk]
    split
    · next shown current hcompared =>
      obtain ⟨hcurrent, -⟩ := View.of_compared_eq_some hcompared
      obtain rfl := View.childList_of_some hcurrent
      intro A hA
      refine lasting_once.walkChanged lasting_once lasting_once ?_ (fun _ number => ?_) (hdone A hA)
      · exact fun _ s hs => hs.mono fun _ => .inl
      · exact VisitsOnce.compareChildren (hchild number) hapart A (hfree A hA)
    · intro A hA
      have hrest : Ensures (Once A) (if (pass.view.entry n).changedBelow = true then do
          (pass.view.entry n).childList.forM (pass.walk levels into)
          markDone n
        else markDone n) (Once fun y => A y ∨ pass.view.HoldsAny [n] y) := by
        apply Ensures.ite
        · intro _
          exact (VisitsOnce.forM (hchild into) hapart A (hfree A hA)).bind fun _ => hdone A hA
        · intro _ s hs
          exact hdone A hA s (hs.mono fun _ => .inl)
      rw [walkSettled]
      apply Ensures.ite
      · intro _
        exact (lasting_once.note _).bind fun _ => hrest
      · exact fun _ => hrest

end Pass

/-! ### Passes one after the other -/

namespace Differ

variable {differ differ' : Differ} {view : View} {history : List (View × NodeId)} {delta : Delta}
  {e : PassError}

/-- The differ after passes over some views, successful or not. -/
def passes (differ : Differ) (history : List (View × NodeId)) : Differ :=
  history.foldl (fun differ (view, top) => (differ.pass view top).2) differ

/-- What the maker of the view is told by a pass, in order: nothing if it fails. -/
def notices (differ : Differ) (view : View) (top : NodeId) : List Notice :=
  match (differ.pass view top).1 with
  | .ok delta => delta.notices
  | .error _ => []

@[simp] lemma policy_run (differ : Differ) (view : View) (top : NodeId) :
    (differ.run view top).2.policy = differ.policy := by
  rw [run]
  split <;> rfl

@[simp] lemma policy_pass (differ : Differ) (view : View) (top : NodeId) :
    (differ.pass view top).2.policy = differ.policy := by
  rw [pass]
  split
  · rfl
  · split
    · split
      · rfl
      · exact policy_run differ view top
    · rfl

/-- A failed pass over a forest leaves it as it is. -/
lemma session_of_pass_error {f : Forest} (h : (Session.pass ⟨f, differ⟩ top).1 = .error e) :
    (Session.pass ⟨f, differ⟩ top).2 = ⟨f, (differ.pass f.view top).2⟩ := by
  rw [Session.pass] at h ⊢
  split at h
  · next heq => rw [heq]
  · cases h

@[simp] lemma policy_passes (differ : Differ) (history : List (View × NodeId)) :
    (differ.passes history).policy = differ.policy := by
  induction history generalizing differ with
  | nil => rfl
  | cons first rest ih => exact (ih _).trans (policy_pass differ first.1 first.2)

/-- What a pass comes to depends on the policy alone, and not on the tables. -/
lemma fst_pass_congr (h : differ'.policy = differ.policy) (view : View) (top : NodeId) :
    (differ'.pass view top).1 = (differ.pass view top).1 := by
  have hrun : (differ'.run view top).1 = (differ.run view top).1 := by
    rw [run, run, h, Tables.emptied, Tables.emptied]
  rw [pass, pass, h]
  cases differ.policy.check with
  | error e => rfl
  | ok _ =>
    dsimp only
    split
    · split
      · rfl
      · exact hrun
    · rfl

lemma notices_of_ok (h : (differ.pass view top).1 = .ok delta) :
    differ.notices view top = delta.notices := by
  rw [notices, h]

lemma notices_of_error (h : (differ.pass view top).1 = .error e) :
    differ.notices view top = [] := by
  rw [notices, h]

/-- A successful pass is done with nodes of its tree alone, and with none of them twice, if the view
lists each node once at most. -/
lemma settled_once {nodes : List NodeId} (h : view.ListsOnce top)
    (hpass : (differ.pass view top).1 = .ok delta)
    (hnodes : delta.notices = nodes.map .settled ++ [.finished top]) :
    nodes.Nodup ∧ ∀ n ∈ nodes, view.Holds top n := by
  obtain ⟨-, -, -, s, hrun, -, hnotices, -⟩ := of_pass_eq_ok hpass
  have hfinished : nodes = s.finished := by
    have hmap := List.append_cancel_right (hnodes.symm.trans hnotices)
    exact List.map_injective_iff.2 (fun _ _ heq => Notice.settled.inj heq) hmap
  have hwalk := Pass.visitsOnce_walk ⟨view, differ.policy, top⟩ h
    (differ.policy.depthLimit.toNat + 1) Ledger.first .refl
  have honce := (hwalk (fun _ => False) (fun _ => False.elim) { tables := differ.tables.emptied }
    ⟨List.nodup_nil, by simp⟩).of_run hrun
  rw [hfinished]
  refine ⟨honce.1, fun n hn => ?_⟩
  exact View.holdsAny_singleton.1 ((honce.2 n hn).resolve_left id)

/-- After whatever passes over whatever views, a pass comes to the same as the first one of a differ with
the same policy, and tells the same. If it fails, nothing is told: the forest stays as it is, and another
attempt fails in the same way. If it succeeds, the maker of the view is told of some nodes, and then once
that the pass over the top is over. If the view has each node in one list of children at most, once, and
the top in none, these are nodes of the tree below the top, and none of them comes twice. -/
theorem pass_untraced (differ : Differ) (history : List (View × NodeId)) (view : View)
    (top : NodeId) :
    let used := differ.passes history
    let fresh : Differ := { policy := differ.policy }
    (used.pass view top).1 = (fresh.pass view top).1 ∧
      used.notices view top = fresh.notices view top ∧
      (∀ e, (used.pass view top).1 = .error e →
        used.notices view top = [] ∧ ((used.pass view top).2.pass view top).1 = .error e) ∧
      (∀ (f : Forest) (e : PassError), (Session.pass ⟨f, used⟩ top).1 = .error e →
        (Session.pass ⟨f, used⟩ top).2.forest = f ∧
          (Session.pass (Session.pass ⟨f, used⟩ top).2 top).1 = .error e) ∧
      ∀ delta, (used.pass view top).1 = .ok delta →
        ∃ nodes : List NodeId, used.notices view top = nodes.map .settled ++ [.finished top] ∧
          (view.ListsOnce top → nodes.Nodup ∧ ∀ n ∈ nodes, view.Holds top n) := by
  intro used fresh
  have hpolicy : used.policy = fresh.policy := policy_passes differ history
  have hpass : (used.pass view top).1 = (fresh.pass view top).1 := fst_pass_congr hpolicy view top
  refine ⟨hpass, ?_, fun e he => ⟨notices_of_error he, ?_⟩, fun f e he => ?_, fun delta hdelta => ?_⟩
  · rw [notices, notices, hpass]
  · rw [fst_pass_congr (policy_pass used view top), he]
  · rw [session_of_pass_error he, Forest.fst_pass, fst_pass_congr (policy_pass used f.view top)]
    exact ⟨rfl, (Forest.fst_pass f used top).symm.trans he⟩
  · obtain ⟨-, -, -, s, -, -, hnotices, -⟩ := of_pass_eq_ok hdelta
    refine ⟨s.finished, (notices_of_ok hdelta).trans hnotices, fun h => ?_⟩
    exact settled_once h hdelta hnotices

/-- A pass fails after it has noted where two children stand. The next one over these children finds no
trace of that: it moves one of them, and is done with the other one and their container. -/
theorem pass_untraced_after_failure :
    let used := ({} : Differ).passes [(View.family [⟨1⟩] [⟨1⟩, ⟨2⟩], ⟨0⟩)]
    let view := View.family [⟨1⟩, ⟨2⟩] [⟨2⟩, ⟨1⟩]
    used.tables.places.contains ⟨2⟩ ∧ view.ListsOnce ⟨0⟩ ∧
      used.notices view ⟨0⟩ = ({} : Differ).notices view ⟨0⟩ ∧
        ∃ nodes : List NodeId, used.notices view ⟨0⟩ = nodes.map .settled ++ [.finished ⟨0⟩] ∧
          nodes.Nodup := by
  intro used view
  have hlists : view.ListsOnce ⟨0⟩ := by
    constructor
    · intro c
      by_cases hc : c = ⟨0⟩
      · subst hc
        decide +kernel
      · have hnil : view.children c = [] := List.eq_nil_iff_forall_not_mem.2 fun n hn =>
          hc (View.eq_of_mem_children_family hn)
        rw [hnil]
        exact List.nodup_nil
    · intro n c d hc hd
      rw [View.eq_of_mem_children_family hc, View.eq_of_mem_children_family hd]
    · intro c hc
      obtain rfl := View.eq_of_mem_children_family hc
      exact absurd hc (by decide +kernel)
  obtain ⟨-, hnotices, -, -, hok⟩ :=
    pass_untraced {} [(View.family [⟨1⟩] [⟨1⟩, ⟨2⟩], ⟨0⟩)] view ⟨0⟩
  obtain ⟨delta, hdelta⟩ : ∃ delta, (used.pass view ⟨0⟩).1 = .ok delta :=
    exists_eq_ok (by decide +kernel)
  obtain ⟨nodes, hnodes, honce⟩ := hok delta hdelta
  exact ⟨by decide +kernel, hlists, hnotices, nodes, hnodes, (honce hlists).1⟩

end Differ

end PageSync
