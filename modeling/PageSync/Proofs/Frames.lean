import PageSync.Proofs.Readings
import PageSync.Proofs.Shares
import PageSync.Proofs.Steps

/-!
# What a walk leaves alone

The walk below a node writes on the sheet it is given and on new ones, and makes entries about nodes
below that node alone (`Confined`). So walks below different children don't disturb each other: a
node is `Fresh` until its own turn comes. What a walk adds to the ledger is the share that
`Contributes` says.
-/

namespace PageSync

lemma Ledger.sheet_update_of_ne (ledger : Ledger) {number other : Nat} {change : Sheet → Sheet}
    (h : number ≠ other) : (ledger.update number change).sheet other = ledger.sheet other := by
  simp [sheet, update, Array.getD_eq_getD_getElem?, Array.getElem?_modify, h]

lemma Ledger.sheet_update_self (ledger : Ledger) {number : Nat} {change : Sheet → Sheet}
    (h : number < ledger.next) :
    (ledger.update number change).sheet number = change (ledger.sheet number) := by
  rw [sheet_update _ _ _ _ h, if_pos rfl]

/-- A change leaves a sheet as it is, or it is the one that is changed. -/
lemma Ledger.sheet_update_or (ledger : Ledger) (number other : Nat) (change : Sheet → Sheet) :
    (ledger.update number change).sheet other = ledger.sheet other ∨
      other = number ∧ (ledger.update number change).sheet other = change (ledger.sheet number) := by
  by_cases hne : number = other
  · subst hne
    by_cases hlt : number < ledger.next
    · exact .inr ⟨rfl, ledger.sheet_update_self hlt⟩
    · have hge : ledger.sheets.size ≤ number := Nat.not_lt.1 hlt
      left
      simp [sheet, update, Array.getD_eq_getD_getElem?, hge]
  · exact .inl (ledger.sheet_update_of_ne hne)

lemma Ledger.update_update (ledger : Ledger) (number : Nat) (change change' : Sheet → Sheet) :
    (ledger.update number change).update number change' =
      ledger.update number fun sheet => change' (change sheet) := by
  simp only [update, mk.injEq, and_true]
  apply Array.ext_getElem?
  intro i
  simp only [Array.getElem?_modify]
  split <;> simp [Function.comp_def]

namespace Pass

variable {pass : Pass} {A B : NodeId → Prop} {into into' number : Nat} {s s' s'' : Progress}
  {n : NodeId} {place : Place}

/-- Whether a pass comes from one state to another by writing on one of the sheets and on new ones,
and by making entries about the nodes `A` alone. -/
structure Confined (A : NodeId → Prop) (into : Nat) (s s' : Progress) : Prop where
  /-- No sheet gets lost. -/
  next_le : s.ledger.next ≤ s'.ledger.next
  /-- The other sheets are as they were. -/
  sheet_eq : ∀ k < s.ledger.next, k ≠ into → s'.ledger.sheet k = s.ledger.sheet k
  /-- Other nodes get no sheets. -/
  find?_eq : ∀ y, ¬ A y → s'.ledger.find? y = s.ledger.find? y
  /-- The places of other nodes stay. -/
  place_eq : ∀ y, ¬ A y → s'.tables.places[y]? = s.tables.places[y]?
  /-- No other nodes are moved. -/
  moved_eq : ∀ y, ¬ A y → s'.tables.moved.contains y = s.tables.moved.contains y
  /-- The pass is done with no other nodes. -/
  finished_iff : ∀ y, ¬ A y → (y ∈ s'.finished ↔ y ∈ s.finished)

namespace Confined

lemma refl (s : Progress) : Confined A into s s :=
  ⟨Nat.le_refl _, fun _ _ _ => rfl, fun _ _ => rfl, fun _ _ => rfl, fun _ _ => rfl,
    fun _ _ => .rfl⟩

lemma mono (h : Confined A into s s') (hAB : ∀ y, A y → B y) : Confined B into s s' where
  next_le := h.next_le
  sheet_eq := h.sheet_eq
  find?_eq y hy := h.find?_eq y fun hA => hy (hAB y hA)
  place_eq y hy := h.place_eq y fun hA => hy (hAB y hA)
  moved_eq y hy := h.moved_eq y fun hA => hy (hAB y hA)
  finished_iff y hy := h.finished_iff y fun hA => hy (hAB y hA)

/-- First one sheet, then the same or a new one. -/
lemma trans (h : Confined A into s s') (h' : Confined A into' s' s'')
    (hinto : into' = into ∨ s.ledger.next ≤ into') : Confined A into s s'' where
  next_le := Nat.le_trans h.next_le h'.next_le
  sheet_eq k hk hne := by
    rw [h'.sheet_eq k (Nat.lt_of_lt_of_le hk h.next_le) (by omega), h.sheet_eq k hk hne]
  find?_eq y hy := (h'.find?_eq y hy).trans (h.find?_eq y hy)
  place_eq y hy := (h'.place_eq y hy).trans (h.place_eq y hy)
  moved_eq y hy := (h'.moved_eq y hy).trans (h.moved_eq y hy)
  finished_iff y hy := (h'.finished_iff y hy).trans (h.finished_iff y hy)

/-! ### Elementary steps -/

lemma noteOn {change : Sheet → Sheet} :
    Confined A into s { s with ledger := s.ledger.update into change } where
  next_le := Nat.le_of_eq (s.ledger.next_update into change).symm
  sheet_eq _ _ hne := s.ledger.sheet_update_of_ne hne.symm
  find?_eq _ _ := rfl
  place_eq _ _ := rfl
  moved_eq _ _ := rfl
  finished_iff _ _ := .rfl

lemma openSheet (hn : A n) :
    Confined A into s { s with ledger := s.ledger.openSheet n } where
  next_le := by
    rw [Ledger.next_openSheet]
    exact Nat.le_succ _
  sheet_eq k hk _ := by rw [Ledger.sheet_openSheet, if_neg (Nat.ne_of_lt hk)]
  find?_eq y hy := by
    rw [Ledger.find?_openSheet, if_neg]
    rintro rfl
    exact hy hn
  place_eq _ _ := rfl
  moved_eq _ _ := rfl
  finished_iff _ _ := .rfl

lemma markDone (hn : A n) : Confined A into s { s with finished := s.finished ++ [n] } where
  next_le := Nat.le_refl _
  sheet_eq _ _ _ := rfl
  find?_eq _ _ := rfl
  place_eq _ _ := rfl
  moved_eq _ _ := rfl
  finished_iff y hy := by
    have hne : y ≠ n := fun e => hy (e ▸ hn)
    simp [hne]

lemma setPlace (hn : A n) : Confined A into s
    { s with tables := { s.tables with places := s.tables.places.insert n place } } where
  next_le := Nat.le_refl _
  sheet_eq _ _ _ := rfl
  find?_eq _ _ := rfl
  place_eq y hy := by
    simp only [Std.TreeMap.getElem?_insert, Std.LawfulEqCmp.compare_eq_iff_eq]
    rw [if_neg]
    rintro rfl
    exact hy hn
  moved_eq _ _ := rfl
  finished_iff _ _ := .rfl

lemma setMoved (hn : A n) : Confined A into s
    { s with tables := { s.tables with moved := s.tables.moved.insert n } } where
  next_le := Nat.le_refl _
  sheet_eq _ _ _ := rfl
  find?_eq _ _ := rfl
  place_eq _ _ := rfl
  moved_eq y hy := by
    have hne : n ≠ y := fun e => hy (e ▸ hn)
    simp [Std.TreeSet.contains_insert, hne]
  finished_iff _ _ := .rfl

end Confined

/-- A node without a sheet that is sent as part of an insertion gets a sheet of its own, if any. -/
lemma yields_markNew {Q : Unit → Progress → Prop} {F : PassError → Prop}
    (hfresh : s.ledger.find? n = none)
    (hQ : ∀ s', Confined (· = n) s.ledger.next s s' → s'.tables = s.tables →
      s'.finished = s.finished → Q () s') :
    Yields (pass.markNew n) s Q F := by
  rw [markNew, yields_ite]
  constructor
  · intro _
    rw [yields_note]
    refine hQ _ ?_ rfl rfl
    rw [Ledger.markNew, hfresh]
    exact (Confined.openSheet (A := (· = n)) rfl).trans Confined.noteOn (.inl rfl)
  · intro _
    exact hQ s (.refl s) rfl rfl

/-- Whether nothing has happened to a node: it has no sheet and was not moved, and the pass is not done
with it. -/
structure Untouched (s : Progress) (n : NodeId) : Prop where
  /-- The node has no sheet. -/
  find?_eq : s.ledger.find? n = none
  /-- It was not moved. -/
  moved_eq : s.tables.moved.contains n = false
  /-- The pass is not done with it. -/
  finished : n ∉ s.finished

/-- Whether nothing has happened to a node or below it. -/
def Fresh (pass : Pass) (s : Progress) (n : NodeId) : Prop :=
  ∀ y, Covers pass.view.parent n y → Untouched s y

lemma Fresh.self (h : pass.Fresh s n) : Untouched s n := h n (.refl n)

lemma Untouched.confined (h : Untouched s n) (hs : Confined A into s s') (hn : ¬ A n) :
    Untouched s' n where
  find?_eq := (hs.find?_eq n hn).trans h.find?_eq
  moved_eq := (hs.moved_eq n hn).trans h.moved_eq
  finished hmem := h.finished ((hs.finished_iff n hn).1 hmem)

lemma Fresh.confined (h : pass.Fresh s n) (hs : Confined A into s s')
    (hA : ∀ y, Covers pass.view.parent n y → ¬ A y) : pass.Fresh s' n :=
  fun y hy => (h y hy).confined hs (hA y hy)

/-- Whether the way from one state to another adds a share to a sheet: the nodes below which only
attributes changed to the sheet itself, everything else to new sheets nested in it. -/
structure Contributes (pass : Pass) (n : NodeId) (share : Share) (into : Nat) (s s' : Progress) :
    Prop where
  /-- Nothing else changes but what concerns the nodes below the given one. -/
  confined : Confined (Covers pass.view.parent n) into s s'
  /-- What is added is the share. -/
  noted : ∃ numbers,
    s'.ledger.sheet into =
      { s.ledger.sheet into with
        altered := (s.ledger.sheet into).altered ++ share.altered
        nested := (s.ledger.sheet into).nested ++ numbers } ∧
    Told pass s'.ledger s'.ledger.next s.ledger.next numbers (share.deleted.map .delete) share.rest

/-- Whether a walk at a shown node comes from one state to another: it contributes a planned share,
and is done with the node. -/
structure Completes (pass : Pass) (t : Node) (into : Nat) (s s' : Progress) : Prop where
  /-- It contributes a planned share. -/
  contributes : ∃ share, pass.Planned t share ∧ pass.Contributes t.id share into s s'
  /-- It is done with the node. -/
  finished : t.id ∈ s'.finished

lemma Fresh.below {c : NodeId} (h : pass.Fresh s n) (hc : Covers pass.view.parent n c) :
    pass.Fresh s c :=
  fun y hy => h y (hc.trans hy)

end Pass

end PageSync
