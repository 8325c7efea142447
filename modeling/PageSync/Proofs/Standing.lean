import PageSync.Proofs.Contradictions

/-!
# Where children stand

A pass notes in a table, which all its containers share, where children stand, and it notes insertions
at positions that it finds there. The place of a child is noted by the container that the child was
shown in, so that it is a place in that container (`Pass.Stands`). A container that inserts the child
at that position reaches it, unless it is another container, which is shorter and lists the child as
one that has stayed (`Pass.Clash`).

`Pass.Since s₀ s` says that this holds in a state `s` of a pass which comes after `s₀`. All steps of a
comparison lead to later states of this kind (`Pass.Declares`) or fail in ways that makers of views are
told of (`Pass.Reports`), if the nodes that they look up have places (`Pass.Placed`).
-/

namespace PageSync

/-- Whether makers of views are told of such failures. The others stand for look-ups that find
nothing. -/
def PassError.isDeclared : PassError → Bool
  | .noPlace _ | .noSibling .. => false
  | _ => true

namespace Pass

/-- Whether a child that was shown in a container, the children of which are compared, stands at a
position there. -/
structure Stands (pass : Pass) (c n : NodeId) (position : Nat) : Prop where
  /-- The children of the container are compared. -/
  compares : pass.Compares c
  /-- The child was shown there. -/
  mem_shownBefore : n ∈ pass.view.shownBefore c
  /-- It is at that position now. -/
  child_eq : (pass.view.children c)[position]? = some n

/-- Whether a node has stayed in a container according to the list of its shown children, but was shown
in another one and is listed there, behind all positions that the first one has. -/
structure Clash (pass : Pass) (c d n : NodeId) (position : Nat) : Prop
    extends pass.Stands d n position where
  /-- These are two containers. -/
  ne : c ≠ d
  /-- The children of the first one are compared as well. -/
  compares_other : pass.Compares c
  /-- The node has stayed there. -/
  mem_stayed : n ∈ pass.view.stayed c
  /-- The first container does not reach so far. -/
  length_lt : (pass.view.children c).length < position

/-- Whether a container reaches the position at which a node is inserted, unless there is a clash. -/
def Reaches (pass : Pass) (c : NodeId) (entry : Nat × NodeId) : Prop :=
  entry.1 ≤ (pass.view.children c).length ∨ ∃ d, pass.Clash c d entry.2 entry.1

/-- Whether all containers reach the positions on their sheets. -/
def Fits (pass : Pass) (ledger : Ledger) : Prop :=
  ∀ k c, (ledger.sheet k).container = some c → ∀ entry ∈ (ledger.sheet k).inserted,
    pass.Reaches c entry

/-- Whether a state comes after another one of a pass whose containers reach all noted positions: sheets
keep their containers, and nodes that have places keep having some. -/
structure Since (pass : Pass) (s₀ s : Progress) : Prop where
  /-- No sheet gets lost. -/
  next_le : s₀.ledger.next ≤ s.ledger.next
  /-- Each sheet is one of the same container. -/
  container_eq : ∀ k < s₀.ledger.next, (s.ledger.sheet k).container = (s₀.ledger.sheet k).container
  /-- No place is taken back. -/
  isSome_place : ∀ n : NodeId, s₀.tables.places[n]?.isSome → s.tables.places[n]?.isSome
  /-- The noted places are those of children in containers that they were shown in. -/
  stands : ∀ (n : NodeId) place, s.tables.places[n]? = some place → ∃ c, pass.Stands c n place.target
  /-- The noted positions are reached. -/
  fits : pass.Fits s.ledger

/-- Whether a pass tells makers of views of a failure like this. -/
structure Reports (pass : Pass) (e : PassError) : Prop where
  /-- The failure is declared. -/
  isDeclared : e.isDeclared = true
  /-- The way to a container about which the view contradicts itself is the one that the pass finds. -/
  path_eq : ∀ c reason path, e = .inconsistent c reason path → path = pass.path c

/-- Whether a step, taken in whatever state of one kind, goes on as a condition says, or fails in a way
that the pass reports. -/
def Declares {α : Type} (pass : Pass) (P : Progress → Prop) (m : Walk α) (Q : α → Progress → Prop) :
    Prop :=
  ∀ s, P s → Yields m s Q pass.Reports

variable {α β : Type} {P P' : Progress → Prop} {Q : α → Progress → Prop} {R : β → Progress → Prop}
  {m m' : Walk α} {k : α → Walk β} {pass : Pass} {s s₀ s₁ : Progress} {c d n : NodeId}
  {number position : Nat} {change : Sheet → Sheet} {shown current : List NodeId}
  {descend : NodeId → Walk Unit}

/-! ### Steps that fail in declared ways -/

lemma reports_contradict (c : NodeId) (reason : Inconsistency) :
    pass.Reports (.inconsistent c reason (pass.path c)) :=
  ⟨rfl, by rintro _ _ _ ⟨⟩; rfl⟩

lemma reports_cyclic (c : NodeId) : pass.Reports (.cyclic c) := ⟨rfl, nofun⟩

lemma reports_tooDeep (n : NodeId) (limit : UInt64) : pass.Reports (.tooDeep n limit) := ⟨rfl, nofun⟩

namespace Declares

lemma bind (hm : pass.Declares P m Q) (hk : ∀ a, pass.Declares (Q a) (k a) R) : pass.Declares P (m >>= k) R := by
  intro s hs
  rw [yields_bind]
  apply (hm s hs).mono
  intro a s' hs'
  exact hk a s' hs'

lemma ite {c : Prop} [Decidable c] (hm : c → pass.Declares P m Q) (hm' : ¬ c → pass.Declares P m' Q) :
    pass.Declares P (if c then m else m') Q := by
  split
  · next h => exact hm h
  · next h => exact hm' h

lemma forM {step : NodeId → Walk Unit} {nodes : List NodeId}
    (hstep : ∀ x ∈ nodes, pass.Declares P (step x) fun _ => P) :
    pass.Declares P (nodes.forM step) fun _ => P := by
  induction nodes with
  | nil => exact fun _ hs => hs
  | cons x rest ih =>
    rw [List.forM_eq_forM, List.forM_cons]
    exact (hstep x List.mem_cons_self).bind fun _ =>
      ih fun y hy => hstep y (List.mem_cons_of_mem _ hy)

end Declares

/-! ### Later states -/

namespace Since

lemma refl (h : pass.Since s₀ s) : pass.Since s s :=
  ⟨Nat.le_refl _, fun _ _ => rfl, fun _ hn => hn, h.stands, h.fits⟩

lemma trans (h : pass.Since s₀ s) (h' : pass.Since s s₁) : pass.Since s₀ s₁ where
  next_le := h.next_le.trans h'.next_le
  container_eq k hk :=
    (h'.container_eq k (Nat.lt_of_lt_of_le hk h.next_le)).trans (h.container_eq k hk)
  isSome_place n hn := h'.isSome_place n (h.isSome_place n hn)
  stands := h'.stands
  fits := h'.fits

/-- A sheet may be changed if it stays one of the same container and gets no positions but those that
are reached. -/
lemma update (h : pass.Since s₀ s)
    (hcontainer : (change (s.ledger.sheet number)).container = (s.ledger.sheet number).container)
    (hinserted : ∀ c, (s.ledger.sheet number).container = some c →
      ∀ entry ∈ (change (s.ledger.sheet number)).inserted,
        entry ∈ (s.ledger.sheet number).inserted ∨ pass.Reaches c entry) :
    pass.Since s₀ { s with ledger := s.ledger.update number change } := by
  have hsheet (k : Nat) := s.ledger.sheet_update_or number k change
  refine h.trans ⟨Nat.le_of_eq (s.ledger.next_update number change).symm, fun k _ => ?_,
    fun _ hn => hn, h.stands, fun k c hc entry hentry => ?_⟩
  · rcases hsheet k with hk | ⟨rfl, hk⟩
    · rw [hk]
    · rw [hk, hcontainer]
  · dsimp only at hc hentry
    rcases hsheet k with hk | ⟨rfl, hk⟩
    · rw [hk] at hc hentry
      exact h.fits k c hc entry hentry
    · rw [hk] at hc hentry
      rw [hcontainer] at hc
      exact (hinserted c hc entry hentry).elim (h.fits k c hc entry) id

lemma openSheet (h : pass.Since s₀ s) (c : NodeId) :
    pass.Since s₀ { s with ledger := s.ledger.openSheet c } := by
  refine h.trans ⟨?_, fun k hk => ?_, fun _ hn => hn, h.stands, fun k d hd entry hentry => ?_⟩
  · rw [Ledger.next_openSheet]
    exact Nat.le_succ _
  · rw [Ledger.sheet_openSheet, if_neg (Nat.ne_of_lt hk)]
  · dsimp only at hd hentry
    rw [Ledger.sheet_openSheet] at hd hentry
    split at hentry
    · cases hentry
    · next hk =>
      rw [if_neg hk] at hd
      exact h.fits k d hd entry hentry

lemma setPlace (h : pass.Since s₀ s) (place : Place) (hplace : ∃ c, pass.Stands c n place.target) :
    pass.Since s₀ { s with
      tables := { s.tables with places := s.tables.places.insert n place } } := by
  refine h.trans ⟨Nat.le_refl _, fun _ _ => rfl, fun x hx => ?_, fun x place' hplace' => ?_, h.fits⟩
  · dsimp only
    rw [Std.TreeMap.getElem?_insert]
    split
    · rfl
    · exact hx
  · dsimp only at hplace'
    rw [Std.TreeMap.getElem?_insert] at hplace'
    split at hplace'
    · next heq =>
      obtain rfl := Std.LawfulEqCmp.eq_of_compare heq
      cases hplace'
      exact hplace
    · exact h.stands x place' hplace'

end Since

/-! ### Steps -/

/-- Whether a change of a sheet leaves it one of the same container and adds no insertions. -/
def AddsNothing (change : Sheet → Sheet) : Prop :=
  ∀ sheet, (change sheet).container = sheet.container ∧
    ∀ entry ∈ (change sheet).inserted, entry ∈ sheet.inserted

lemma addsNothing_id : AddsNothing id := fun _ => ⟨rfl, fun _ => id⟩

lemma addsNothing_remove (n : NodeId) : AddsNothing (·.remove n) := by
  intro sheet
  dsimp only [Sheet.remove]
  split
  · exact ⟨rfl, fun _ => id⟩
  · exact ⟨rfl, fun _ => id⟩

lemma addsNothing_alter (n : NodeId) : AddsNothing (·.alter n) := by
  intro sheet
  dsimp only [Sheet.alter]
  split
  · exact ⟨rfl, fun _ => id⟩
  · exact ⟨rfl, fun _ => id⟩

lemma addsNothing_foldl_remove (gone : List NodeId) :
    AddsNothing fun sheet => gone.foldl Sheet.remove sheet := by
  induction gone with
  | nil => exact addsNothing_id
  | cons n gone ih =>
    intro sheet
    obtain ⟨hcontainer, hinserted⟩ := ih (sheet.remove n)
    obtain ⟨hcontainer', hinserted'⟩ := addsNothing_remove n sheet
    exact ⟨hcontainer.trans hcontainer', fun entry hentry => hinserted' _ (hinserted entry hentry)⟩

lemma declares_noteOn (hchange : AddsNothing change) :
    pass.Declares (pass.Since s₀) (noteOn number change) fun _ => pass.Since s₀ :=
  fun _ hs => hs.update (hchange _).1 fun _ _ entry hentry => .inl ((hchange _).2 entry hentry)

lemma declares_markDone (n : NodeId) :
    pass.Declares (pass.Since s₀) (markDone n) fun _ => pass.Since s₀ :=
  fun _ hs => ⟨hs.next_le, hs.container_eq, hs.isSome_place, hs.stands, hs.fits⟩

lemma declares_setMoved (n : NodeId) :
    pass.Declares (pass.Since s₀) (setMoved n) fun _ => pass.Since s₀ :=
  fun _ hs => ⟨hs.next_le, hs.container_eq, hs.isSome_place, hs.stands, hs.fits⟩

lemma declares_markNew (n : NodeId) :
    pass.Declares (pass.Since s₀) (pass.markNew n) fun _ => pass.Since s₀ := by
  rw [markNew]
  apply Declares.ite
  · intro _ s hs
    rw [yields_note, Ledger.markNew]
    have hnew : AddsNothing fun sheet => { sheet with isNew := true } :=
      fun _ => ⟨rfl, fun _ => id⟩
    cases s.ledger.find? n with
    | some number => exact declares_noteOn hnew s hs
    | none => exact declares_noteOn hnew _ (hs.openSheet n)
  · exact fun _ _ hs => hs

lemma declares_placeOf (hn : s₀.tables.places[n]?.isSome) :
    pass.Declares (pass.Since s₀) (placeOf n) fun _ => pass.Since s₀ := by
  intro s hs
  obtain ⟨place, hplace⟩ := Option.isSome_iff_exists.1 (hs.isSome_place n hn)
  rwa [yields_placeOf hplace]

/-- A container reaches the positions of children that were shown in it, and of children that have
stayed, unless there is a clash. -/
lemma Stands.reaches (h : pass.Stands d n position) (hcompares : pass.Compares c)
    (hn : n ∈ pass.view.stayed c ∨ n ∈ pass.view.shownBefore c) : pass.Reaches c (position, n) := by
  by_cases hle : position ≤ (pass.view.children c).length
  · exact .inl hle
  have hlt : (pass.view.children c).length < position := Nat.not_le.1 hle
  have hne : c ≠ d := by
    rintro rfl
    obtain ⟨hposition, -⟩ := List.getElem?_eq_some_iff.1 h.child_eq
    exact hle hposition.le
  have hbefore : n ∉ pass.view.shownBefore c := by
    intro hmem
    have hc : pass.view.shownParent n = some c := of_decide_eq_true (List.mem_filter.1 hmem).2
    have hd : pass.view.shownParent n = some d :=
      of_decide_eq_true (List.mem_filter.1 h.mem_shownBefore).2
    exact hne (Option.some.inj (hc.symm.trans hd))
  exact .inr ⟨d, h, hne, hcompares, hn.resolve_right hbefore, hlt⟩

/-- Whether changes to the children of a container are written on a sheet of the container. -/
structure Writes (pass : Pass) (number : Nat) (c : NodeId) (s : Progress) : Prop where
  /-- The positions that are noted so far are reached. -/
  since : pass.Since s s
  /-- There is such a sheet. -/
  number_lt : number < s.ledger.next
  /-- It is one of the container. -/
  container_eq : (s.ledger.sheet number).container = some c
  /-- The children of the container are compared. -/
  compares : pass.Compares c

lemma Writes.later (h : pass.Writes number c s) (hs : pass.Since s s₁) : pass.Writes number c s₁ :=
  ⟨hs.refl, Nat.lt_of_lt_of_le h.number_lt hs.next_le,
    (hs.container_eq number h.number_lt).trans h.container_eq, h.compares⟩

/-- A position that is reached may be noted. -/
lemma Writes.insert (h : pass.Writes number c s) (hchange : AddsNothing change)
    (hn : pass.Reaches c (position, n)) : pass.Since s
      { s with ledger := s.ledger.update number fun sheet => (change sheet).insert position n } := by
  obtain ⟨hcontainer, hinserted⟩ := hchange (s.ledger.sheet number)
  apply h.since.update
  · rw [Sheet.insert]
    split
    · exact hcontainer
    · exact hcontainer
  · intro c' hc' entry hentry
    obtain rfl : c = c' := Option.some.inj (h.container_eq.symm.trans hc')
    rw [Sheet.insert] at hentry
    split at hentry
    · exact .inl (hinserted entry hentry)
    · rcases Sheet.mem_insertSorted.1 hentry with rfl | hentry
      · exact .inr hn
      · exact .inl (hinserted entry hentry)

/-- Whether moreover all children of the container that have stayed or were shown there have places. -/
structure Placed (pass : Pass) (number : Nat) (c : NodeId) (s : Progress) : Prop
    extends pass.Writes number c s where
  /-- The children that have stayed have places. -/
  isSome_stayed : ∀ n ∈ pass.view.stayed c, s.tables.places[n]?.isSome
  /-- The children that were shown before have places. -/
  isSome_shownBefore : ∀ n ∈ pass.view.shownBefore c, s.tables.places[n]?.isSome

namespace Placed

variable (h : pass.Placed number c s₀)

include h

lemma moveChild (hn : n ∈ pass.view.stayed c ∨ n ∈ pass.view.shownBefore c) :
    pass.Declares (pass.Since s₀) (pass.moveChild number n) fun _ => pass.Since s₀ := by
  intro s hs
  have hsome : s₀.tables.places[n]?.isSome :=
    hn.elim (h.isSome_stayed n) (h.isSome_shownBefore n)
  obtain ⟨place, hplace⟩ := Option.isSome_iff_exists.1 (hs.isSome_place n hsome)
  obtain ⟨d, hstands⟩ := hs.stands n place hplace
  rw [Pass.moveChild, yields_bind, yields_placeOf hplace, yields_bind]
  apply (declares_setMoved n s hs).mono
  intro _ s₁ hs₁
  rw [yields_bind]
  apply (declares_markNew n s₁ hs₁).mono
  intro _ s₂ hs₂
  rw [yields_noteOn]
  exact hs₂.trans ((h.toWrites.later hs₂).insert (addsNothing_remove n) (hstands.reaches h.compares hn))

/-- The comparison of the children goes on with children that were shown in the container. -/
lemma alignChild {next : Nat → List NodeId → Walk (List NodeId)} {old : Nat}
    (hdescend : pass.Declares (pass.Since s₀) (descend n) fun _ => pass.Since s₀)
    (hn : n ∈ pass.view.stayed c)
    (hnext : ∀ new rest, (∀ x ∈ rest, x ∈ pass.view.shownBefore c) →
      pass.Declares (pass.Since s₀) (next new rest) fun left s =>
        pass.Since s₀ s ∧ ∀ x ∈ left, x ∈ pass.view.shownBefore c)
    (new : Nat) (others : List NodeId) (hothers : ∀ x ∈ others, x ∈ pass.view.shownBefore c) :
    pass.Declares (pass.Since s₀) (pass.alignChild descend number c n old next new others) fun left s =>
      pass.Since s₀ s ∧ ∀ x ∈ left, x ∈ pass.view.shownBefore c := by
  induction others generalizing new with
  | nil => exact fun _ _ => reports_contradict _ _
  | cons other rest ih =>
    have hother := hothers other List.mem_cons_self
    have hrest := fun x hx => hothers x (List.mem_cons_of_mem other hx)
    rw [Pass.alignChild]
    refine Declares.bind (Q := fun _ => pass.Since s₀) (fun _ hs => hs) fun moved => ?_
    apply Declares.ite (fun _ => ih _ hrest)
    intro _
    split
    · next heq =>
      subst heq
      exact hdescend.bind fun _ => hnext _ _ hrest
    · apply (declares_placeOf (h.isSome_stayed n hn)).bind
      intro nodePlace
      apply (declares_placeOf (h.isSome_shownBefore other hother)).bind
      intro otherPlace
      apply Declares.ite
      · exact fun _ => (h.moveChild (.inl hn)).bind fun _ => hnext _ _ hothers
      · exact fun _ => (h.moveChild (.inr hother)).bind fun _ => ih _ hrest

lemma align {nodes : List NodeId}
    (hdescend : ∀ x, pass.Declares (pass.Since s₀) (descend x) fun _ => pass.Since s₀)
    (hnodes : ∀ x ∈ nodes, x ∈ pass.view.stayed c) (old new : Nat) (others : List NodeId)
    (hothers : ∀ x ∈ others, x ∈ pass.view.shownBefore c) :
    pass.Declares (pass.Since s₀) (pass.align descend number c old nodes new others) fun left s =>
      pass.Since s₀ s ∧ ∀ x ∈ left, x ∈ pass.view.shownBefore c := by
  induction nodes generalizing old new others with
  | nil => exact fun _ hs => ⟨hs, hothers⟩
  | cons n rest ih =>
    have hrest := ih fun x hx => hnodes x (List.mem_cons_of_mem n hx)
    rw [Pass.align]
    refine Declares.bind (Q := fun _ => pass.Since s₀) (fun _ hs => hs) fun moved => ?_
    apply Declares.ite (fun _ => hrest _ _ _ hothers)
    intro _
    exact h.alignChild (hdescend n) (hnodes n List.mem_cons_self) (fun _ _ => hrest _ _ _) _ _ hothers

end Placed

/-! ### Noting places -/

/-- When the current children are taken in, those that were shown before get places. -/
lemma yields_takeIn_since (done : List NodeId) {nodes : List NodeId}
    (hchildren : pass.view.children c = done ++ nodes) (new : Nat) (s : Progress)
    (h : pass.Writes number c s) :
    Yields (pass.takeIn number c done.length new nodes) s
      (fun before s' => pass.Since s s' ∧
        before = nodes.filter (fun n => pass.view.shownParent n = some c) ∧
          ∀ n ∈ before, s'.tables.places[n]?.isSome)
      pass.Reports := by
  induction nodes generalizing done new s with
  | nil => exact ⟨h.since, rfl, by simp⟩
  | cons x rest ih =>
    have hrest : pass.view.children c = (done ++ [x]) ++ rest := by simp [hchildren]
    have hlength : (done ++ [x]).length = done.length + 1 := by simp
    have hx : (pass.view.children c)[done.length]? = some x := by simp [hchildren]
    rw [takeIn, yields_ite]
    constructor
    · intro hshown
      have hstands : pass.Stands c x done.length := ⟨h.compares,
        List.mem_filter.2 ⟨List.mem_of_getElem? hx, decide_eq_true hshown⟩, hx⟩
      have hset := h.since.setPlace { old := 0, new, target := done.length } ⟨c, hstands⟩
      simp only [yields_bind, yields_setPlace]
      rw [← hlength]
      apply (ih _ hrest _ _ (h.later hset)).mono
      rintro before s' ⟨hs', rfl, hplaces⟩
      refine ⟨hset.trans hs', by simp [hshown], fun n hn => ?_⟩
      rcases List.mem_cons.1 hn with rfl | hn
      · exact hs'.isSome_place n (by simp)
      · exact hplaces n hn
    · intro hshown
      rw [yields_bind]
      apply (declares_markNew x s h.since).mono
      intro _ s₁ hs₁
      have hreached : pass.Reaches c (done.length, x) := by
        obtain ⟨hlt, -⟩ := List.getElem?_eq_some_iff.1 hx
        exact .inl hlt.le
      have hinsert := (h.later hs₁).insert addsNothing_id hreached
      simp only [yields_bind, yields_noteOn]
      rw [← hlength]
      apply (ih _ hrest _ _ ((h.later hs₁).later hinsert)).mono
      rintro before s' ⟨hs', rfl, hplaces⟩
      exact ⟨hs₁.trans (hinsert.trans hs'), by simp [hshown], hplaces⟩

/-- When the shown children that have stayed are counted, all of them turn out to have places. -/
lemma yields_countStayed_since (old : Nat) (nodes : List NodeId) (s : Progress)
    (h : pass.Since s s) :
    Yields (pass.countStayed c old nodes) s
      (fun _ s' => pass.Since s s' ∧ ∀ n ∈ nodes, s'.tables.places[n]?.isSome)
      pass.Reports := by
  induction nodes generalizing old s with
  | nil => exact ⟨h, by simp⟩
  | cons x rest ih =>
    rw [countStayed, yields_bind, yields_place?]
    cases hx : s.tables.places[x]? with
    | none => exact reports_contradict _ _
    | some place =>
      have hset := h.setPlace { place with old } (h.stands x place hx)
      simp only [yields_bind, yields_setPlace]
      apply (ih _ _ hset.refl).mono
      rintro _ s' ⟨hs', hplaces⟩
      refine ⟨hset.trans hs', fun n hn => ?_⟩
      rcases List.mem_cons.1 hn with rfl | hn
      · exact hs'.isSome_place n (by simp)
      · exact hplaces n hn

end Pass

end PageSync
