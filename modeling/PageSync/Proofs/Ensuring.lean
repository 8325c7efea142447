import PageSync.Proofs.Steps

/-!
# What a walk ensures

`Ensures P m Q` says that a step which is taken in a state as `P` says leaves a state as `Q` says,
unless it fails. Most steps of a pass only make entries on sheets of the ledger and note that nodes
are moved or new; a condition that goes through those (`Enduring`) goes through the comparison of
children as well. What is left to show of such a condition is what becomes of it when a place is
noted, when a node is finished, and where the walk goes on below a node. Nothing is asked of the view.

One kind of enduring conditions are those on the places of children and the list of finished nodes
alone (`Lasting`). They go through everything that is written into the ledger.
-/

namespace PageSync

namespace Pass

variable {α β : Type} {P Q R : Progress → Prop} {m m' : Walk α} {k : α → Walk β} {pass : Pass}
  {container n : NodeId} {descend : NodeId → Walk Unit} {number : Nat} {shown current : List NodeId}

/-- Whether a step, taken in whatever state of one kind, leaves one of another kind unless it fails. -/
def Ensures (P : Progress → Prop) (m : Walk α) (Q : Progress → Prop) : Prop :=
  ∀ s, P s → Yields m s (fun _ s' => Q s') fun _ => True

/-- Whether a change of a sheet makes entries about nodes alone: the sheet is one of the same container,
with the same sheets nested in it, and the container is new, or its content sent anew, or not, as before. -/
structure IsEntry (change : Sheet → Sheet) : Prop where
  /-- The sheet is one of the same container. -/
  container_eq : ∀ sheet, (change sheet).container = sheet.container
  /-- It is not decided to send the children anew. -/
  isReplaced_eq : ∀ sheet, (change sheet).isReplaced = sheet.isReplaced
  /-- The same nodes have to leave. -/
  evicted_eq : ∀ sheet, (change sheet).evicted = sheet.evicted
  /-- The same sheets are nested in it. -/
  nested_eq : ∀ sheet, (change sheet).nested = sheet.nested
  /-- The container is new if it was so before. -/
  isNew_eq : ∀ sheet, (change sheet).isNew = sheet.isNew

/-- Whether a condition on states goes through the steps by which entries are made. -/
structure Enduring (pass : Pass) (P : Progress → Prop) : Prop where
  /-- It goes through entries on a sheet. -/
  noteOn : ∀ number change, IsEntry change → Ensures P (noteOn number change) P
  /-- It goes through the note that a node is moved. -/
  setMoved : ∀ n, Ensures P (setMoved n) P
  /-- It goes through the note that a node is new. -/
  markNew : ∀ n, Ensures P (pass.markNew n) P

/-- Whether a condition on states depends on the places and the finished nodes alone. -/
def Lasting (P : Progress → Prop) : Prop :=
  ∀ s s', s'.tables.places = s.tables.places → s'.finished = s.finished → P s → P s'

/-- Nothing more is said of a step than that it may fail. -/
lemma yields_of_forall {s : Progress} {F : α → Progress → Prop} (hF : ∀ a s', F a s') :
    Yields m s F fun _ => True := by
  unfold Yields
  split
  · exact hF _ _
  · trivial

/-! ### Elementary steps -/

namespace Ensures

lemma pure (a : α) : Ensures P (pure a : Walk α) P := fun _ hs => hs

lemma throw (e : PassError) : Ensures P (throw e : Walk α) Q := fun _ _ => trivial

lemma contradict (container : NodeId) (reason : Inconsistency) :
    Ensures P (pass.contradict container reason : Walk α) Q := fun _ _ => trivial

lemma bind (hm : Ensures P m Q) (hk : ∀ a, Ensures Q (k a) R) : Ensures P (m >>= k) R := by
  intro s hs
  rw [yields_bind]
  apply (hm s hs).mono
  intro a s' hs'
  exact hk a s' hs'

lemma ite {c : Prop} [Decidable c] (hm : c → Ensures P m Q) (hm' : ¬ c → Ensures P m' Q) :
    Ensures P (if c then m else m') Q := by
  split
  · next h => exact hm h
  · next h => exact hm' h

lemma get : Ensures P (get : Walk Progress) P := fun _ hs => hs

lemma sheet (number : Nat) : Ensures P (sheet number) P := fun _ hs => hs

lemma place? (n : NodeId) : Ensures P (place? n) P := fun _ hs => hs

lemma isMoved (n : NodeId) : Ensures P (isMoved n) P := fun _ hs => hs

lemma placeOf (n : NodeId) : Ensures P (placeOf n) P := by
  apply (place? n).bind
  intro place
  cases place with
  | none => exact throw _
  | some place => exact pure place

lemma forM {step : NodeId → Walk Unit} {nodes : List NodeId}
    (hstep : ∀ x ∈ nodes, Ensures P (step x) P) : Ensures P (nodes.forM step) P := by
  induction nodes with
  | nil => exact pure ()
  | cons x rest ih =>
    rw [List.forM_eq_forM, List.forM_cons]
    exact (hstep x List.mem_cons_self).bind fun _ =>
      ih fun y hy => hstep y (List.mem_cons_of_mem _ hy)

lemma hang {into : Nat} (hnest : Ensures P (noteOn into (·.nest number)) Q) :
    Ensures P (hang into number container) Q :=
  .ite (fun _ => .throw _) fun _ => hnest

end Ensures

/-! ### Entries -/

lemma isEntry_remove (n : NodeId) : IsEntry (·.remove n) := by
  constructor <;> intro sheet <;> dsimp only [Sheet.remove] <;> split <;> rfl

lemma isEntry_insert (position : Nat) (n : NodeId) : IsEntry (·.insert position n) := by
  constructor <;> intro sheet <;> dsimp only [Sheet.insert] <;> split <;> rfl

lemma isEntry_alter (n : NodeId) : IsEntry (·.alter n) := by
  constructor <;> intro sheet <;> dsimp only [Sheet.alter] <;> split <;> rfl

lemma IsEntry.comp {change change' : Sheet → Sheet} (h : IsEntry change) (h' : IsEntry change') :
    IsEntry fun sheet => change' (change sheet) where
  container_eq sheet := (h'.container_eq _).trans (h.container_eq sheet)
  isReplaced_eq sheet := (h'.isReplaced_eq _).trans (h.isReplaced_eq sheet)
  evicted_eq sheet := (h'.evicted_eq _).trans (h.evicted_eq sheet)
  nested_eq sheet := (h'.nested_eq _).trans (h.nested_eq sheet)
  isNew_eq sheet := (h'.isNew_eq _).trans (h.isNew_eq sheet)

lemma isEntry_foldl_remove (gone : List NodeId) :
    IsEntry fun sheet => gone.foldl Sheet.remove sheet := by
  induction gone with
  | nil => exact ⟨fun _ => rfl, fun _ => rfl, fun _ => rfl, fun _ => rfl, fun _ => rfl⟩
  | cons n gone ih => exact (isEntry_remove n).comp ih

/-! ### Compound steps -/

namespace Enduring

variable (hP : pass.Enduring P)

include hP

lemma moveChild (number : Nat) (n : NodeId) : Ensures P (pass.moveChild number n) P := by
  apply (Ensures.placeOf n).bind
  intro _
  apply (hP.setMoved n).bind
  intro _
  apply (hP.markNew n).bind
  intro _
  exact hP.noteOn _ _ ((isEntry_remove n).comp (isEntry_insert _ n))

lemma alignChild {next : Nat → List NodeId → Walk (List NodeId)} {old : Nat}
    (hdescend : Ensures P (descend n) P) (hnext : ∀ new others, Ensures P (next new others) P)
    (new : Nat) (others : List NodeId) :
    Ensures P (pass.alignChild descend number container n old next new others) P := by
  induction others generalizing new with
  | nil => exact .contradict _ _
  | cons other rest ih =>
    rw [Pass.alignChild]
    apply (Ensures.isMoved other).bind
    intro moved
    apply Ensures.ite (fun _ => ih _)
    intro _
    split
    · next heq =>
      subst heq
      exact hdescend.bind fun _ => hnext _ _
    · apply (Ensures.placeOf _).bind
      intro nodePlace
      apply (Ensures.placeOf _).bind
      intro otherPlace
      apply Ensures.ite
      · exact fun _ => (hP.moveChild _ _).bind fun _ => hnext _ _
      · exact fun _ => (hP.moveChild _ _).bind fun _ => ih _

lemma align {nodes : List NodeId} (hdescend : ∀ x ∈ nodes, Ensures P (descend x) P)
    (old new : Nat) (others : List NodeId) :
    Ensures P (pass.align descend number container old nodes new others) P := by
  induction nodes generalizing old new others with
  | nil => exact .pure _
  | cons x rest ih =>
    have hrest (old new : Nat) (others : List NodeId) :=
      ih (fun y hy => hdescend y (List.mem_cons_of_mem _ hy)) old new others
    rw [Pass.align]
    apply (Ensures.isMoved x).bind
    intro moved
    apply Ensures.ite (fun _ => hrest _ _ _)
    intro _
    exact hP.alignChild (hdescend x List.mem_cons_self) (fun _ _ => hrest _ _ _) _ _

/-- A condition goes through the rest of a comparison, once all places are noted. -/
lemma align_then_move {nodes others : List NodeId} (hdescend : ∀ x ∈ nodes, Ensures P (descend x) P) :
    Ensures P (do
      let left ← pass.align descend number container 0 nodes 0 others
      left.forM fun node => do
        if ← Pass.isMoved node then return () else pass.moveChild number node) P := by
  refine (hP.align hdescend _ _ _).bind fun left => Ensures.forM fun x _ => ?_
  apply (Ensures.isMoved x).bind
  intro moved
  exact .ite (fun _ => .pure ()) fun _ => hP.moveChild _ _

lemma takeIn (hplace : ∀ n place, Ensures P (setPlace n place) P) (target new : Nat)
    (nodes : List NodeId) : Ensures P (pass.takeIn number container target new nodes) P := by
  induction nodes generalizing target new with
  | nil => exact .pure _
  | cons x rest ih =>
    rw [Pass.takeIn]
    apply Ensures.ite
    · exact fun _ => (hplace _ _).bind fun _ => (ih _ _).bind fun _ => .pure _
    · exact fun _ => (hP.markNew _).bind fun _ => (hP.noteOn _ _ (isEntry_insert _ _)).bind fun _ =>
        ih _ _

omit hP in
lemma countStayed (hplace : ∀ n place, Ensures P (setPlace n place) P) (old : Nat)
    (nodes : List NodeId) : Ensures P (pass.countStayed container old nodes) P := by
  induction nodes generalizing old with
  | nil => exact .pure _
  | cons x rest ih =>
    apply (Ensures.place? x).bind
    intro place
    cases place with
    | none => exact .contradict _ _
    | some place => exact (hplace _ _).bind fun _ => ih _

/-- A condition goes through a comparison if it says nothing about places. -/
lemma compareChildren (hplace : ∀ n place, Ensures P (setPlace n place) P)
    (hdescend : ∀ x ∈ shown, pass.view.parent x = some container → Ensures P (descend x) P) :
    Ensures P (pass.compareChildren descend number container shown current) P := by
  apply (hP.noteOn _ _ (isEntry_foldl_remove _)).bind
  intro _
  apply (hP.takeIn hplace _ _ _).bind
  intro before
  apply Ensures.ite (fun _ => .contradict _ _)
  intro _
  apply (countStayed hplace _ _).bind
  intro _
  apply hP.align_then_move
  intro x hx
  obtain ⟨hshown, hparent⟩ := List.mem_filter.1 hx
  exact hdescend x hshown (by simpa using hparent)

lemma walkSettled {descend : Nat → NodeId → Walk Unit} {into : Nat}
    (hdone : Ensures P (markDone n) P)
    (hdescend : ∀ x ∈ pass.view.children n, Ensures P (descend into x) P) :
    Ensures P (pass.walkSettled descend into n) P := by
  have hrest : Ensures P (if (pass.view.entry n).changedBelow = true then do
      (pass.view.entry n).childList.forM (descend into)
      markDone n
    else markDone n) P :=
    .ite (fun _ => (Ensures.forM hdescend).bind fun _ => hdone) fun _ => hdone
  rw [Pass.walkSettled]
  exact .ite (fun _ => (hP.noteOn _ _ (isEntry_alter n)).bind fun _ => hrest) fun _ => hrest

end Enduring

/-! ### Conditions on places and finished nodes -/

namespace Lasting

variable (hP : Lasting P)

include hP

lemma note (change : Ledger → Ledger) : Ensures P (note change) P := fun s hs => hP s _ rfl rfl hs

lemma enduring : pass.Enduring P where
  noteOn _ _ _ := hP.note _
  setMoved _ s hs := hP s _ rfl rfl hs
  markNew n := by
    rw [Pass.markNew]
    exact .ite (fun _ => hP.note _) fun _ => .pure ()

lemma replace {levels : Nat} : Ensures P (pass.replace levels number container shown) P := by
  apply (hP.note _).bind
  intro _
  cases pass.evicted container levels container shown with
  | ok nodes => exact hP.note _
  | error e => exact .throw e

/-- A condition leads to another one through the walk at a container with changed children if it leads
to a third one through the comparison, and from there to the other one once the container is finished. -/
lemma walkChanged (hQ : Lasting Q) (hR : Lasting R) {descend : Nat → NodeId → Walk Unit}
    {levels into : Nat}
    (hwhole : pass.sendsAnew n shown current = true → ∀ s, P s → Q s)
    (hcompare : pass.sendsAnew n shown current = false → ∀ number,
      Ensures P (pass.compareChildren (descend number) number n shown current) Q)
    (hdone : Ensures Q (markDone n) R) :
    Ensures P (pass.walkChanged descend levels into n shown current) R := by
  have hrest (number : Nat) : Ensures Q (do
      markDone n
      if (← Pass.sheet number).isBlank then return () else Pass.hang into number n) R := by
    apply hdone.bind
    intro _
    apply (Ensures.sheet _).bind
    intro sheet
    exact .ite (fun _ => .pure ()) fun _ => .hang (hR.note _)
  rw [Pass.walkChanged]
  apply Ensures.get.bind
  intro s
  dsimp only
  cases s.ledger.find? n with
  | some number => exact .ite (fun _ => .contradict _ _) fun _ => .throw _
  | none =>
    apply (hP.note _).bind
    intro _
    apply (hP.note _).bind
    intro _
    apply Ensures.ite
    · intro hcond
      exact Ensures.bind (Q := Q) (fun s hs => hQ.replace s (hwhole hcond s hs)) fun _ => hrest _
    · intro hcond
      apply (hcompare (Bool.eq_false_iff.2 hcond) _).bind
      intro _
      apply (Ensures.sheet _).bind
      intro sheet
      exact .ite (fun _ => hQ.replace.bind fun _ => hrest _) fun _ => hrest _

end Lasting

end Pass

end PageSync
