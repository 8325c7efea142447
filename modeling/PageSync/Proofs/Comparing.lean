import PageSync.Proofs.Frames

/-!
# Comparing the children of a container

The comparison of shown and current children takes every child for gone, new, moved or kept. What has
been noted of the current children is said by `TakenIn`, and of those among them that were shown
before, when some are kept and others moved, by `Comparing`. Keeping a child and moving a child both
preserve the latter.
-/

namespace PageSync

/-! ### Insertions in ascending order -/

namespace Sheet

variable {position : Nat} {node : NodeId} {entries : List (Nat × NodeId)} {e : Nat × NodeId}

lemma mem_insertSorted :
    e ∈ insertSorted position node entries ↔ e = (position, node) ∨ e ∈ entries := by
  induction entries with
  | nil => simp [insertSorted]
  | cons head rest ih =>
    obtain ⟨other, sibling⟩ := head
    rw [insertSorted]
    split
    · simp
    · rw [List.mem_cons, ih, List.mem_cons]
      exact or_left_comm

/-- A new position comes between those below and those above it. -/
lemma pairwise_insertSorted (h : entries.Pairwise fun a b => a.1 < b.1)
    (hnew : ∀ e ∈ entries, e.1 ≠ position) :
    (insertSorted position node entries).Pairwise fun a b => a.1 < b.1 := by
  induction entries with
  | nil => simp [insertSorted]
  | cons head rest ih =>
    obtain ⟨other, sibling⟩ := head
    obtain ⟨hhead, hrest⟩ := List.pairwise_cons.1 h
    have hne : other ≠ position := hnew _ List.mem_cons_self
    rw [insertSorted]
    split
    · next hlt =>
      refine List.pairwise_cons.2 ⟨fun e he => ?_, h⟩
      rcases List.mem_cons.1 he with rfl | he
      · exact hlt
      · exact Nat.lt_trans hlt (hhead e he)
    · next hle =>
      refine List.pairwise_cons.2
        ⟨fun e he => ?_, ih hrest fun e he => hnew e (List.mem_cons_of_mem _ he)⟩
      rcases mem_insertSorted.1 he with rfl | he
      · exact (by omega : other < position)
      · exact hhead e he

/-- The children that are gone are noted in their order. -/
lemma foldl_remove {sheet : Sheet} (hsheet : sheet.isWhole = false) (gone : List NodeId) :
    gone.foldl remove sheet = { sheet with removed := sheet.removed ++ gone } := by
  induction gone generalizing sheet with
  | nil => simp
  | cons n gone ih =>
    have hremove : sheet.remove n = { sheet with removed := sheet.removed ++ [n] } := by
      simp [remove, hsheet]
    rw [List.foldl_cons, hremove, ih (by exact hsheet)]
    simp

end Sheet

namespace Pass

variable {pass : Pass} {number : Nat} {s s' s₁ : Progress} {n c : NodeId} {place : Place}
  {current done : List NodeId} {F : PassError → Prop}

/-! ### Single children -/

lemma yields_moveChild {Q : Unit → Progress → Prop} (hplace : s.tables.places[n]? = some place)
    (hfresh : s.ledger.find? n = none) (hnumber : number < s.ledger.next)
    (hQ : ∀ s', Confined (· = n) number s s' → s'.tables.places = s.tables.places →
      s'.tables.moved.contains n = true → s'.finished = s.finished →
      s'.ledger.sheet number = ((s.ledger.sheet number).remove n).insert place.target n → Q () s') :
    Yields (pass.moveChild number n) s Q F := by
  rw [moveChild, yields_bind, yields_placeOf hplace, yields_bind, yields_setMoved, yields_bind]
  refine yields_markNew hfresh ?_
  intro s' hs' htables hfinished
  rw [yields_noteOn]
  have hmoved : Confined (· = n) number s
      { s with tables := { s.tables with moved := s.tables.moved.insert n } } := .setMoved rfl
  have hset := hmoved.trans hs' (.inr (Nat.le_refl _))
  apply hQ _ (hset.trans .noteOn (.inl rfl))
  · rw [htables]
  · rw [htables]
    simp
  · exact hfinished
  · have hsheet := hs'.sheet_eq number hnumber (Nat.ne_of_lt hnumber)
    rw [Ledger.sheet_update_self _ (Nat.lt_of_lt_of_le hnumber hset.next_le), hsheet]

/-! ### All current children -/

/-- What stands in a list stands there in a longer one. -/
lemma getElem?_append_of_some {nodes later : List NodeId} {i : Nat} (h : nodes[i]? = some n) :
    (nodes ++ later)[i]? = some n :=
  (List.getElem?_append_left (List.getElem?_eq_some_iff.1 h).1).trans h

/-- What has been noted when the first of the current children have been looked at. -/
structure TakenIn (pass : Pass) (c : NodeId) (number : Nat) (current : List NodeId)
    (s₁ : Progress) (done : List NodeId) (s : Progress) : Prop where
  /-- Nothing is noted about others. -/
  confined : Confined (· ∈ done) number s₁ s
  /-- No child is moved yet. -/
  moved_eq : s.tables.moved = s₁.tables.moved
  /-- The pass goes on to none of them. -/
  finished_eq : s.finished = s₁.finished
  /-- Of those that were shown before it is known where they stand. -/
  places : ∀ y ∈ done, pass.view.shownParent y = some c → s.ledger.find? y = none ∧
    ∃ place : Place, s.tables.places[y]? = some place ∧ current[place.target]? = some y ∧
      (done.filter fun y => pass.view.shownParent y = some c)[place.new]? = some y
  /-- The others are inserted where they stand. -/
  sheet : ∃ inserted, s.ledger.sheet number = { s₁.ledger.sheet number with inserted } ∧
    inserted.Pairwise (fun a b => a.1 < b.1) ∧ ∀ e, e ∈ inserted ↔
      e.1 < done.length ∧ current[e.1]? = some e.2 ∧ pass.view.shownParent e.2 ≠ some c

namespace TakenIn

variable {x : NodeId}

/-- A child that was shown before is looked at. -/
lemma known (hs : pass.TakenIn c number current s₁ done s) (hx : x ∉ done)
    (hget : current[done.length]? = some x) (hnone : s.ledger.find? x = none)
    (hshown : pass.view.shownParent x = some c) (htarget : place.target = done.length)
    (hnew : place.new = (done.filter fun y => pass.view.shownParent y = some c).length) :
    pass.TakenIn c number current s₁ (done ++ [x])
      { s with tables := { s.tables with places := s.tables.places.insert x place } } where
  confined := by
    refine (hs.confined.mono fun y hy => List.mem_append_left _ hy).trans (.setPlace ?_) (.inl rfl)
    simp
  moved_eq := hs.moved_eq
  finished_eq := hs.finished_eq
  places y hy hyshown := by
    simp only [Std.TreeMap.getElem?_insert, Std.LawfulEqCmp.compare_eq_iff_eq]
    rw [List.filter_append]
    rcases List.mem_append.1 hy with hy | hy
    · rw [if_neg (by rintro rfl; exact hx hy)]
      obtain ⟨hnone, place, hplace, htarget, hnew⟩ := hs.places y hy hyshown
      exact ⟨hnone, place, hplace, htarget, getElem?_append_of_some hnew⟩
    · obtain rfl := List.mem_singleton.1 hy
      rw [if_pos rfl]
      exact ⟨hnone, place, rfl, htarget ▸ hget, by simp [hnew, hshown]⟩
  sheet := by
    obtain ⟨inserted, hsheet, hsorted, hmem⟩ := hs.sheet
    refine ⟨inserted, hsheet, hsorted, fun e => (hmem e).trans ?_⟩
    rw [List.length_append, List.length_singleton]
    constructor
    · rintro ⟨hlt, hrest⟩
      exact ⟨by omega, hrest⟩
    · rintro ⟨hlt, heq, hne⟩
      refine ⟨Nat.lt_of_le_of_ne (by omega) fun hlast => hne ?_, heq, hne⟩
      rw [hlast, hget] at heq
      exact Option.some.inj heq ▸ hshown

/-- A new child is looked at. -/
lemma new (hs : pass.TakenIn c number current s₁ done s)
    (hget : current[done.length]? = some x) (hnumber : number < s₁.ledger.next)
    (hwhole : (s₁.ledger.sheet number).isWhole = false)
    (hshown : pass.view.shownParent x ≠ some c) (hs' : Confined (· = x) s.ledger.next s s')
    (htables : s'.tables = s.tables) (hfinished : s'.finished = s.finished) :
    pass.TakenIn c number current s₁ (done ++ [x])
      { s' with ledger := s'.ledger.update number (·.insert done.length x) } where
  confined := by
    have hone : Confined (· ∈ done ++ [x]) number s s' :=
      ((Confined.refl s).trans hs' (.inr (Nat.le_refl _))).mono fun y hy => by simp [hy]
    exact ((hs.confined.mono fun y hy => List.mem_append_left _ hy).trans hone (.inl rfl)).trans
      .noteOn (.inl rfl)
  moved_eq := htables ▸ hs.moved_eq
  finished_eq := hfinished.trans hs.finished_eq
  places y hy hyshown := by
    rw [List.filter_append]
    rcases List.mem_append.1 hy with hy | hy
    · obtain ⟨hnone, place, hplace, htarget, hnew⟩ := hs.places y hy hyshown
      refine ⟨?_, place, by simpa [htables] using hplace, htarget, getElem?_append_of_some hnew⟩
      rw [Ledger.find?_update, hs'.find?_eq, hnone]
      rintro rfl
      exact hshown hyshown
    · exact absurd (List.mem_singleton.1 hy ▸ hyshown) hshown
  sheet := by
    obtain ⟨inserted, hsheet, hsorted, hmem⟩ := hs.sheet
    have hnext : number < s.ledger.next := Nat.lt_of_lt_of_le hnumber hs.confined.next_le
    have hnew : ∀ e ∈ inserted, e.1 ≠ done.length := fun e he => Nat.ne_of_lt ((hmem e).1 he).1
    refine ⟨Sheet.insertSorted done.length x inserted, ?_,
      Sheet.pairwise_insertSorted hsorted hnew, ?_⟩
    · rw [Ledger.sheet_update_self _ (Nat.lt_of_lt_of_le hnext hs'.next_le),
        hs'.sheet_eq number hnext (Nat.ne_of_lt hnext), hsheet, Sheet.insert, if_neg]
      simpa [Sheet.isWhole] using hwhole
    · intro e
      rw [Sheet.mem_insertSorted, hmem, List.length_append, List.length_singleton]
      constructor
      · rintro (rfl | ⟨hlt, hrest⟩)
        · exact ⟨Nat.lt_succ_self _, hget, hshown⟩
        · exact ⟨by omega, hrest⟩
      · rintro ⟨hlt, heq, hne⟩
        by_cases hlast : e.1 = done.length
        · rw [hlast, hget] at heq
          exact .inl (Prod.ext hlast (Option.some.inj heq).symm)
        · exact .inr ⟨by omega, heq, hne⟩

end TakenIn

/-- The current children are looked at in turn, and those shown before are listed. -/
lemma yields_takeIn (done rest : List NodeId) {new : Nat} (hcurrent : current = done ++ rest)
    (hnodup : current.Nodup) (hfresh : ∀ y ∈ current, s₁.ledger.find? y = none)
    (hnumber : number < s₁.ledger.next) (hwhole : (s₁.ledger.sheet number).isWhole = false)
    (hs : pass.TakenIn c number current s₁ done s)
    (hnew : new = (done.filter fun y => pass.view.shownParent y = some c).length) :
    Yields (pass.takeIn number c done.length new rest) s
      (fun before s' => before = rest.filter (fun y => pass.view.shownParent y = some c) ∧
        pass.TakenIn c number current s₁ current s') F := by
  induction rest generalizing done new s with
  | nil =>
    obtain rfl : current = done := by simpa using hcurrent
    rw [takeIn, yields_pure]
    exact ⟨rfl, hs⟩
  | cons x rest ih =>
    have hx : x ∉ done := fun hmem => by
      rw [hcurrent] at hnodup
      exact (List.nodup_append.1 hnodup).2.2 x hmem x List.mem_cons_self rfl
    have hget : current[done.length]? = some x := by simp [hcurrent]
    have hcurrent' : current = (done ++ [x]) ++ rest := by simp [hcurrent]
    have hlength : done.length + 1 = (done ++ [x]).length := by simp
    have hnone : s.ledger.find? x = none := by
      rw [hs.confined.find?_eq x hx]
      exact hfresh x (by simp [hcurrent])
    rw [takeIn, hlength, yields_ite]
    constructor
    · intro hp
      rw [yields_bind, yields_setPlace, yields_bind]
      apply (ih _ hcurrent' (hs.known hx hget hnone hp rfl hnew) (by simp [hnew, hp])).mono
      intro before s' h
      rw [yields_pure, List.filter_cons_of_pos (by simpa using hp), h.1]
      exact ⟨rfl, h.2⟩
    · intro hp
      rw [yields_bind]
      apply yields_markNew hnone
      intro s' hs' htables hfinished
      rw [yields_bind, yields_noteOn]
      apply (ih _ hcurrent' (hs.new hget hnumber hwhole hp hs' htables hfinished)
        (by simp [hnew, hp])).mono
      intro before s' h
      rw [List.filter_cons_of_neg (by simpa using hp), h.1]
      exact ⟨rfl, h.2⟩

/-- Whether nothing but the places of some children changes, of which it is known then where they stood
among those that have stayed. -/
structure Counted (old : Nat) (stayed : List NodeId) (number : Nat) (s s' : Progress) : Prop where
  /-- Nothing is noted about other nodes. -/
  confined : Confined (· ∈ stayed) number s s'
  /-- Nothing is written into the ledger. -/
  ledger_eq : s'.ledger = s.ledger
  /-- No child is moved. -/
  moved_eq : s'.tables.moved = s.tables.moved
  /-- The pass goes on to none of them. -/
  finished_eq : s'.finished = s.finished
  /-- It is still known where they stand. -/
  places : ∀ (y : NodeId) (place : Place), s.tables.places[y]? = some place →
    ∃ place' : Place, s'.tables.places[y]? = some place' ∧ place'.new = place.new ∧
      place'.target = place.target
  /-- Their indices are counted from a given one on. -/
  old_eq : ∀ (i : Nat) (y : NodeId) (place : Place), stayed[i]? = some y →
    s'.tables.places[y]? = some place → place.old = old + i

/-- Every child that has stayed has a place, in which its index among them is filled in. -/
lemma yields_countStayed (number : Nat) (stayed : List NodeId) {old : Nat} (hnodup : stayed.Nodup)
    (hplaces : ∀ y ∈ stayed, ∃ place, s.tables.places[y]? = some place) :
    Yields (pass.countStayed c old stayed) s (fun _ s' => Counted old stayed number s s') F := by
  induction stayed generalizing old s with
  | nil =>
    rw [countStayed, yields_pure]
    exact ⟨.refl s, rfl, rfl, rfl, fun y place h => ⟨place, h, rfl, rfl⟩, by simp⟩
  | cons x stayed ih =>
    obtain ⟨hx, hnodup⟩ := List.nodup_cons.1 hnodup
    obtain ⟨place, hplace⟩ := hplaces x List.mem_cons_self
    rw [countStayed, yields_bind, yields_place?, hplace]
    simp only [yields_bind, yields_setPlace]
    have hkeep : ∀ (y : NodeId) (p : Place), s.tables.places[y]? = some p → ∃ p' : Place,
        (s.tables.places.insert x { place with old })[y]? = some p' ∧ p'.new = p.new ∧
          p'.target = p.target := by
      intro y p hp
      simp only [Std.TreeMap.getElem?_insert, Std.LawfulEqCmp.compare_eq_iff_eq]
      split
      · next hxy =>
        subst hxy
        obtain rfl := Option.some.inj (hp.symm.trans hplace)
        exact ⟨_, rfl, rfl, rfl⟩
      · exact ⟨p, hp, rfl, rfl⟩
    refine (ih hnodup ?_).mono ?_
    · intro y hy
      obtain ⟨p, hp⟩ := hplaces y (List.mem_cons_of_mem _ hy)
      obtain ⟨p', hp', -⟩ := hkeep y p hp
      exact ⟨p', hp'⟩
    · intro _ s' hs'
      refine ⟨?_, hs'.ledger_eq, hs'.moved_eq, hs'.finished_eq, fun y p hp => ?_, fun i y p hy hp => ?_⟩
      · exact (Confined.setPlace (A := (· ∈ x :: stayed)) List.mem_cons_self).trans
          (hs'.confined.mono fun y hy => List.mem_cons_of_mem _ hy) (.inl rfl)
      · obtain ⟨p', hp', hnew, htarget⟩ := hkeep y p hp
        obtain ⟨p'', hp'', hnew', htarget'⟩ := hs'.places y p' hp'
        exact ⟨p'', hp'', hnew'.trans hnew, htarget'.trans htarget⟩
      · cases i with
        | zero =>
          obtain rfl : x = y := Option.some.inj hy
          rw [hs'.confined.place_eq x hx] at hp
          simp only [Std.TreeMap.getElem?_insert_self, Option.some.injEq] at hp
          exact hp ▸ rfl
        | succ i =>
          rw [hs'.old_eq i y p hy hp]
          omega

/-! ### Kept and moved children -/

/-- Whether a place says where a child stands that was shown before and still is: among the shown
children that have stayed, among the current ones that were shown before, and among all current ones. -/
structure Locates (stayed before current : List NodeId) (place : Place) (y : NodeId) : Prop where
  /-- In the shown order. -/
  old : stayed[place.old]? = some y
  /-- In the current order. -/
  new : before[place.new]? = some y
  /-- In the current order with all that is new. -/
  target : current[place.target]? = some y

/-- What has been noted when some of the children that were shown before are kept, each with its
share, and others are moved. -/
structure Comparing (pass : Pass) (t : Node) (number : Nat) (gone stayed before current : List NodeId)
    (s₁ : Progress) (parts : List (Node × Share)) (moves : List NodeId) (s : Progress) : Prop where
  /-- Nothing is noted about nodes that are not below the container. -/
  confined : Confined (Covers pass.view.parent t.id) number s₁ s
  /-- The sheet lists the changes to the children in their order, and has the shares of the kept
  ones. -/
  sheet : ∃ inserted numbers,
    s.ledger.sheet number = { s₁.ledger.sheet number with
      removed := gone ++ moves
      inserted
      altered := parts.flatMap (·.2.altered)
      nested := numbers } ∧
    inserted.Pairwise (fun a b => a.1 < b.1) ∧
    (∀ e, e ∈ inserted ↔ current[e.1]? = some e.2 ∧ (e.2 ∉ before ∨ e.2 ∈ moves)) ∧
    Told pass s.ledger s.ledger.next (number + 1) numbers
      ((parts.flatMap (·.2.deleted)).map .delete) (parts.flatMap (·.2.rest))
  /-- Of the children that are not kept it is known where they stand. -/
  places : ∀ y ∈ before, y ∉ parts.map (·.1.id) → ∃ place : Place,
    s.tables.places[y]? = some place ∧ Locates stayed before current place y
  /-- Children that are neither kept nor moved have not been looked at. -/
  fresh : ∀ y ∈ before, y ∉ parts.map (·.1.id) → y ∉ moves → pass.Fresh s y
  /-- The kept children are those that the pass has gone on to. -/
  finished_iff : ∀ y ∈ current, y ∈ s.finished ↔ y ∈ parts.map (·.1.id)
  /-- Moved children are known to be. -/
  moved : ∀ y ∈ moves, s.tables.moved.contains y = true
  /-- No child is moved twice. -/
  nodup_moves : moves.Nodup
  /-- Only children that were shown before are moved, and none that is kept. -/
  mem_moves : ∀ y ∈ moves, y ∈ before ∧ y ∉ parts.map (·.1.id)
  /-- The kept children were shown before, and their shares are planned ones. -/
  planned : ∀ p ∈ parts, p.1 ∈ t.childList ∧ pass.Planned p.1 p.2

namespace Comparing

variable {t k : Node} {share : Share} {gone stayed before moves : List NodeId}
  {parts : List (Node × Share)}

/-- A child that was shown before is known to be moved if it is. -/
lemma contains_moved (hs : pass.Comparing t number gone stayed before current s₁ parts moves s)
    (hn : n ∈ before) (hkept : n ∉ parts.map (·.1.id)) :
    s.tables.moved.contains n = true ↔ n ∈ moves := by
  refine ⟨fun hmoved => ?_, hs.moved n⟩
  by_contra hmoves
  rw [(hs.fresh n hn hkept hmoves).self.moved_eq] at hmoved
  cases hmoved

/-- A child stays where it is, and what changed below it has been noted. -/
lemma keep (hac : Acyclic pass.view.parent)
    (hcurrent : ∀ y ∈ current, pass.view.parent y = some t.id) (hbefore : before ⊆ current)
    (hnumber : number < s₁.ledger.next)
    (hs : pass.Comparing t number gone stayed before current s₁ parts moves s)
    (hk : k ∈ t.childList) (hkbefore : k.id ∈ before) (hkmoves : k.id ∉ moves)
    (hplanned : pass.Planned k share) (hshare : pass.Contributes k.id share number s s')
    (hfinished : k.id ∈ s'.finished) :
    pass.Comparing t number gone stayed before current s₁ (parts ++ [(k, share)]) moves s' := by
  have hparent := hcurrent _ (hbefore hkbefore)
  have hapart : ∀ y ∈ current, y ≠ k.id → ∀ z, Covers pass.view.parent y z →
      ¬ Covers pass.view.parent k.id z := fun y hy hne z hyz hkz =>
    hac.not_covers_both (hcurrent y hy) hparent hne hyz hkz
  have hother : ∀ y ∈ current, y ≠ k.id → ¬ Covers pass.view.parent k.id y :=
    fun y hy hne => hapart y hy hne y (.refl _)
  have hkept : ∀ y, y ∉ (parts ++ [(k, share)]).map (·.1.id) ↔
      y ∉ parts.map (·.1.id) ∧ y ≠ k.id := by simp [not_or]
  refine ⟨?_, ?_, ?_, ?_, ?_, ?_, hs.nodup_moves, ?_, ?_⟩
  · exact hs.confined.trans
      (hshare.confined.mono fun y hy => (Covers.of_parent hparent).trans hy) (.inl rfl)
  · obtain ⟨inserted, numbers, hsheet, hsorted, hmem, htold⟩ := hs.sheet
    obtain ⟨numbers', hsheet', htold'⟩ := hshare.noted
    have hnext : number + 1 ≤ s.ledger.next := Nat.lt_of_lt_of_le hnumber hs.confined.next_le
    refine ⟨inserted, numbers ++ numbers', ?_, hsorted, hmem, ?_⟩
    · rw [hsheet', hsheet]
      simp
    · have hold := (htold.congr fun n hlow hhigh =>
        hshare.confined.sheet_eq n hhigh (by omega)).mono (Nat.le_refl _) hshare.confined.next_le
      simpa using hold.append (htold'.mono hnext (Nat.le_refl _))
  · intro y hy hyk
    obtain ⟨hyparts, hne⟩ := (hkept y).1 hyk
    rw [hshare.confined.place_eq y (hother y (hbefore hy) hne)]
    exact hs.places y hy hyparts
  · intro y hy hyk hymoves
    obtain ⟨hyparts, hne⟩ := (hkept y).1 hyk
    exact (hs.fresh y hy hyparts hymoves).confined hshare.confined (hapart y (hbefore hy) hne)
  · intro y hy
    by_cases hyk : y = k.id
    · simp [hyk, hfinished]
    · rw [hshare.confined.finished_iff y (hother y hy hyk), hs.finished_iff y hy]
      simp [hyk]
  · intro y hy
    have hne : y ≠ k.id := fun e => hkmoves (e ▸ hy)
    rw [hshare.confined.moved_eq y (hother y (hbefore (hs.mem_moves y hy).1) hne)]
    exact hs.moved y hy
  · intro y hy
    exact ⟨(hs.mem_moves y hy).1, (hkept y).2 ⟨(hs.mem_moves y hy).2, fun e => hkmoves (e ▸ hy)⟩⟩
  · intro p hp
    rcases List.mem_append.1 hp with hp | hp
    · exact hs.planned p hp
    · obtain rfl := List.mem_singleton.1 hp
      exact ⟨hk, hplanned⟩

/-- The insertions that are noted after a move are those from before and that of the moved child. -/
lemma mem_insertSorted_moved {inserted : List (Nat × NodeId)} (hcurrent : current.Nodup)
    (htarget : current[place.target]? = some n)
    (hmem : ∀ e, e ∈ inserted ↔ current[e.1]? = some e.2 ∧ (e.2 ∉ before ∨ e.2 ∈ moves))
    (e : Nat × NodeId) : e ∈ Sheet.insertSorted place.target n inserted ↔
      current[e.1]? = some e.2 ∧ (e.2 ∉ before ∨ e.2 ∈ moves ++ [n]) := by
  rw [Sheet.mem_insertSorted, hmem, List.mem_append, List.mem_singleton]
  constructor
  · rintro (rfl | ⟨hget, hwhy⟩)
    · exact ⟨htarget, .inr (.inr rfl)⟩
    · exact ⟨hget, hwhy.imp_right .inl⟩
  · rintro ⟨hget, hwhy | hwhy | hwhy⟩
    · exact .inr ⟨hget, .inl hwhy⟩
    · exact .inr ⟨hget, .inr hwhy⟩
    · refine .inl (Prod.ext ?_ hwhy)
      have hlt := (List.getElem?_eq_some_iff.1 hget).1
      exact (List.getElem?_inj hlt hcurrent).1 (hget.trans (hwhy ▸ htarget.symm))

/-- A child is moved. -/
lemma move (hac : Acyclic pass.view.parent) (hcurrent : current.Nodup)
    (hbefore : ∀ y ∈ before, pass.view.parent y = some t.id)
    (hwhole : (s₁.ledger.sheet number).isWhole = false)
    (hs : pass.Comparing t number gone stayed before current s₁ parts moves s)
    (hn : n ∈ before) (hnkept : n ∉ parts.map (·.1.id)) (hnmoves : n ∉ moves)
    (hconfined : Confined (· = n) number s s') (hplaces : s'.tables.places = s.tables.places)
    (hmoved : s'.tables.moved.contains n = true) (hfinished : s'.finished = s.finished)
    (htarget : current[place.target]? = some n)
    (hsheet' : s'.ledger.sheet number =
      ((s.ledger.sheet number).remove n).insert place.target n) :
    pass.Comparing t number gone stayed before current s₁ parts (moves ++ [n]) s' := by
  have hparent := hbefore n hn
  refine ⟨?_, ?_, ?_, ?_, hfinished ▸ hs.finished_iff, ?_, ?_, ?_, hs.planned⟩
  · refine hs.confined.trans (hconfined.mono ?_) (.inl rfl)
    rintro y rfl
    exact .of_parent hparent
  · obtain ⟨inserted, numbers, hsheet, hsorted, hmem, htold⟩ := hs.sheet
    have hwhole' : (s.ledger.sheet number).isWhole = false := by
      rw [hsheet]
      exact hwhole
    have hnew : ∀ e ∈ inserted, e.1 ≠ place.target := by
      intro e he heq
      obtain ⟨hget, hwhy⟩ := (hmem e).1 he
      rw [heq, htarget] at hget
      obtain rfl := Option.some.inj hget
      exact hwhy.elim (fun h => h hn) hnmoves
    refine ⟨Sheet.insertSorted place.target n inserted, numbers, ?_,
      Sheet.pairwise_insertSorted hsorted hnew, mem_insertSorted_moved hcurrent htarget hmem, ?_⟩
    · have hremove : (s.ledger.sheet number).remove n =
          { s.ledger.sheet number with removed := (s.ledger.sheet number).removed ++ [n] } := by
        rw [Sheet.remove, hwhole', if_neg Bool.false_ne_true]
      rw [hsheet', hremove, Sheet.insert, if_neg (by simpa [Sheet.isWhole] using hwhole'), hsheet]
      simp
    · exact (htold.congr fun k hlow hhigh => hconfined.sheet_eq k hhigh (by omega)).mono
        (Nat.le_refl _) hconfined.next_le
  · rw [hplaces]
    exact hs.places
  · intro y hy hyk hymoves
    rw [List.mem_append, List.mem_singleton, not_or] at hymoves
    apply (hs.fresh y hy hyk hymoves.1).confined hconfined
    rintro z hyz rfl
    exact hac.not_covers_both (hbefore y hy) hparent hymoves.2 hyz (.refl _)
  · intro y hy
    by_cases hyn : y = n
    · exact hyn ▸ hmoved
    · rw [hconfined.moved_eq y hyn]
      exact hs.moved y ((List.mem_append.1 hy).resolve_right (by simpa using hyn))
  · exact List.nodup_append.2 ⟨hs.nodup_moves, List.nodup_singleton n, by
      rintro y hy z hz rfl
      exact hnmoves (List.mem_singleton.1 hz ▸ hy)⟩
  · intro y hy
    rcases List.mem_append.1 hy with hy | hy
    · exact hs.mem_moves y hy
    · obtain rfl := List.mem_singleton.1 hy
      exact ⟨hn, hnkept⟩

end Comparing

end Pass

end PageSync
