import PageSync.Proofs.Arena

/-!
# Insertions

An insertion is refused for one of six reasons, which are looked for in a fixed order
(`Forest.Refuses`), and then nothing changes. Otherwise the child stands at the requested position,
its former parent has lost it, and everything else about every node is as it was (`Forest.Inserted`).
Both directions are put together in `Forest.insert_exactly`, with appending as the special case of the
last position.
-/

namespace PageSync

/-- What belongs to an item wherever its node stands: element name, attributes, setting, and whether it
is a container. -/
def Item.own (i : Item) : String × Attributes × Bool × Bool :=
  (i.tag, i.attributes, i.replacesChildren, i.children.isSome)

namespace Forest

variable {f g h : Forest} {n x container child : NodeId} {index : Nat} {e : EditError}
  {arrange : List NodeId → List NodeId} {up : Option NodeId}

/-- Why a node cannot be moved to a position of a container. Each reason counts only where those before
it do not apply. -/
inductive Refuses (f : Forest) (container : NodeId) (index : Nat) (child : NodeId) : EditError → Prop
  /-- The child is not there. -/
  | unknownChild (hchild : f.contains child = false) :
    Refuses f container index child (.unknownNode child)
  /-- The container is not there. -/
  | unknownContainer (hchild : f.contains child) (hcontainer : f.contains container = false) :
    Refuses f container index child (.unknownNode container)
  /-- The container is a leaf. -/
  | leaf (hchild : f.contains child) (hcontainer : f.contains container)
    (hleaf : f.view.isContainer container = false) :
    Refuses f container index child (.notAContainer container)
  /-- The position is behind the end of the other children. -/
  | position (hchild : f.contains child) (hcontainer : f.view.isContainer container)
    (hindex : (f.others container child).length < index) :
    Refuses f container index child
      (.indexOutOfBounds container index (f.others container child).length)
  /-- The child is the top of the page. -/
  | root (hcontainer : f.view.isContainer container)
    (hindex : index ≤ (f.others container child).length)
    (hchild : f.contains child) (hroot : child = f.root) :
    Refuses f container index child (.rootNotMovable child)
  /-- The container is the child or below it. -/
  | cycle (hcontainer : f.view.isContainer container)
    (hindex : index ≤ (f.others container child).length)
    (hchild : f.contains child) (hroot : child ≠ f.root)
    (hcycle : Covers f.view.parent child container) :
    Refuses f container index child (.wouldCycle container child)

/-- Whether a forest is another one with a node moved to a position of a container. -/
structure Inserted (f : Forest) (container : NodeId) (index : Nat) (child : NodeId) (g : Forest) :
    Prop where
  /-- The child stands at the position. -/
  at_index : (g.view.children container)[index]? = some child
  /-- The rest of the list is as it was without the child. -/
  rest_eq : (g.view.children container).eraseIdx index = f.others container child
  /-- The container is the parent of the child. -/
  parent_child : g.view.parent child = some container
  /-- Another parent has lost the child and nothing else. -/
  former : ∀ p, f.view.parent child = some p → p ≠ container →
    g.view.children p = (f.view.children p).erase child
  /-- No other list of children changes. -/
  children_eq : ∀ n, n ≠ container → f.view.parent child ≠ some n →
    g.view.children n = f.view.children n
  /-- No other node gets another parent. -/
  parent_eq : ∀ n, n ≠ child → g.view.parent n = f.view.parent n
  /-- The nodes are the same, and each one is of the same kind, with the same attributes and the same
  setting. -/
  own_eq : ∀ n, (g.get? n).map Item.own = (f.get? n).map Item.own
  /-- The page has the same top. -/
  root_eq : g.root = f.root
  /-- The next new node gets the same number. -/
  nextNumber_eq : g.nextNumber = f.nextNumber

/-! ### Refusals -/

lemma refuses_of_insert (hf : f.view.IsForest) (he : f.insert container index child = .error e) :
    f.Refuses container index child e := by
  rw [insert, countOthers_of_isForest hf] at he
  split at he
  · next hchild =>
    cases he
    exact .unknownChild hchild
  next hchild =>
  have hchild : f.contains child := by simpa using hchild
  split at he
  · next hcontainer =>
    cases he
    exact .unknownContainer hchild hcontainer
  next hcontainer =>
  have hcontainer : f.contains container := by simpa using hcontainer
  split at he
  · next hkind =>
    change (if _ then _ else _) = _ at he
    split at he
    · next hindex =>
      cases he
      exact .position hchild hkind hindex
    next hindex =>
    have hindex := Nat.not_lt.1 hindex
    split at he
    · next hroot =>
      cases he
      exact .root hkind hindex hchild hroot
    next hroot =>
    split at he
    · next hancestors =>
      cases he
      exact .cycle hkind hindex hchild hroot ((mem_ancestors_iff hf).1 hancestors).2
    · cases he
  · next hkind =>
    cases he
    exact .leaf hchild hcontainer (by simpa using hkind)

lemma insert_of_refuses (hf : f.view.IsForest) (he : f.Refuses container index child e) :
    f.insert container index child = .error e := by
  rw [insert, countOthers_of_isForest hf]
  cases he with
  | unknownChild hchild => simp [hchild, bind, Except.bind]
  | unknownContainer hchild hcontainer => simp [hchild, hcontainer, bind, Except.bind]
  | leaf hchild hcontainer hleaf => simp [hchild, hcontainer, hleaf, bind, Except.bind]
  | position hchild hcontainer hindex =>
    simp [hchild, contains_of_isContainer hcontainer, hcontainer, hindex, bind, Except.bind]
  | root hcontainer hindex hchild hroot =>
    subst hroot
    simp [hchild, contains_of_isContainer hcontainer, hcontainer, hindex.not_gt, bind, Except.bind]
  | cycle hcontainer hindex hchild hroot hcycle =>
    have hmem := (mem_ancestors_iff hf).2 ⟨contains_of_isContainer hcontainer, hcycle⟩
    simp [hchild, contains_of_isContainer hcontainer, hcontainer, hindex.not_gt, hroot, hmem, bind,
      Except.bind]

lemma insert_eq_error_iff (hf : f.view.IsForest) :
    f.insert container index child = .error e ↔ f.Refuses container index child e :=
  ⟨refuses_of_insert hf, insert_of_refuses hf⟩

/-- To append a node is to insert it behind all other children. -/
lemma append_eq_insert (h : f.view.IsForest) (container child : NodeId) :
    f.append container child = f.insert container (f.others container child).length child := by
  rw [append, insert, countOthers_of_isForest h]
  split
  · rfl
  split
  · rfl
  split
  · next hchild hcontainer hkind =>
    simp [hchild, hcontainer, hkind, insert, countOthers_of_isForest h, bind, Except.bind]
  · rfl

/-! ### What an insertion leaves alone -/

lemma own_eq_of_now (h : (g.now x).map Item.own = (f.now x).map Item.own) :
    (g.get? x).map Item.own = (f.get? x).map Item.own := by
  rw [now, now, Option.map_map, Option.map_map] at h
  exact h

lemma own_relink :
    ((f.relink n container arrange up).get? x).map Item.own = (f.get? x).map Item.own := by
  apply own_eq_of_now
  rw [now_relink]
  cases f.now x with
  | none => rfl
  | some i => by_cases hn : n = x <;> by_cases hc : container = x <;> simp [hn, hc, Item.own]

lemma own_takeOut : ((f.takeOut n).get? x).map Item.own = (f.get? x).map Item.own := by
  cases hp : f.view.parent n with
  | none => rw [takeOut_of_top hp]
  | some p => rw [takeOut_of_parent hp, own_relink]

lemma inserted_of_insert (hf : f.view.IsForest) (hg : f.insert container index child = .ok g) :
    f.Inserted container index child g := by
  obtain ⟨hchild, -, hkind, -, hindex, rfl⟩ := of_insert_eq_ok hg
  have hcontainer : (f.move container index child).view.children container =
      (f.others container child).insertIdx index child := by
    rw [children_move hf hkind, if_pos rfl, others]
  have hother (n : NodeId) (hn : n ≠ container) :
      (f.move container index child).view.children n = (f.view.children n).erase child := by
    rw [children_move hf hkind, if_neg hn]
    exact others_eq_erase hf
  constructor
  · rw [hcontainer, List.getElem?_insertIdx_self]
    exact if_pos (hindex.trans (length_others_eq hf).ge)
  · rw [hcontainer, List.eraseIdx_insertIdx_self]
  · rw [parent_move hchild, if_pos rfl]
  · exact fun p _ hp => hother p hp
  · intro n hn hparent
    rw [hother n hn, List.erase_of_not_mem (mt hf.parent_of_mem hparent)]
  · intro n hn
    rw [parent_move hchild, if_neg hn]
  · intro n
    rw [move_eq, own_relink, own_takeOut]
  · exact (keeps_move hchild).root_eq
  · exact nextNumber_move

/-- The child stands behind the others if it is inserted behind all of them. -/
lemma Inserted.getLast?_eq (h : f.Inserted container (f.others container child).length child g) :
    (g.view.children container).getLast? = some child := by
  have hrest := congrArg List.length h.rest_eq
  have hlt := (List.getElem?_eq_some_iff.1 h.at_index).1
  rw [List.length_eraseIdx_of_lt hlt] at hrest
  rw [List.getLast?_eq_getElem?, ← h.at_index, ← hrest]

lemma edit_of_error {edit : Edit} (he : f.attempt edit = .error e) : f.edit edit = f := by
  rw [Forest.edit, he]

/-- After whatever calls on a forest that starts with a page, a node is moved to a position of a
container exactly as requested, or else nothing changes. It is refused if and only if one of six reasons
applies, and the first one is reported; a position is compared with the number of children that the
container has besides the node. Otherwise the node stands at the position and all else is as it was. To
append a node is to insert it where it comes last. -/
theorem insert_exactly {f g : Forest} {page : Node} (hbegins : f.Begins page)
    (hids : ∀ n ∈ page.ids, n.number.toNat + 1 < NodeId.count) (hcalls : f.Calls g)
    (container : NodeId) (index : Nat) (child : NodeId) :
    (∀ e, g.insert container index child = .error e ↔ g.Refuses container index child e) ∧
      (∀ e, g.insert container index child = .error e →
        g.edit (.insert container index child) = g) ∧
      (∀ h, g.insert container index child = .ok h → g.Inserted container index child h) ∧
      (g.others container child).length +
          (if g.view.parent child = some container then 1 else 0) =
        (g.view.children container).length ∧
      g.append container child = g.insert container (g.others container child).length child ∧
      (∀ e, g.append container child = .error e → g.edit (.append container child) = g) ∧
      ∀ h, g.append container child = .ok h →
        g.Inserted container (g.others container child).length child h ∧
          (h.view.children container).getLast? = some child := by
  have hforest : g.view.IsForest := (hcalls.keeps_sound (hbegins.sound hids)).1.toIsForest
  constructor
  · intro e
    exact insert_eq_error_iff hforest
  constructor
  · intro e he
    exact edit_of_error he
  constructor
  · intro h hh
    exact inserted_of_insert hforest hh
  constructor
  · exact length_others hforest
  constructor
  · exact append_eq_insert hforest _ _
  constructor
  · intro e he
    exact edit_of_error he
  · intro h hh
    rw [append_eq_insert hforest] at hh
    have hinserted := inserted_of_insert hforest hh
    exact ⟨hinserted, hinserted.getLast?_eq⟩

/-- Of two siblings the first one can be moved behind the second one, but there is no position behind
that. -/
theorem insert_exactly_siblings :
    let g := (Forest.new "body").edits
      [.addLeaf "p", .addLeaf "p", .append ⟨0⟩ ⟨1⟩, .append ⟨0⟩ ⟨2⟩]
    (Forest.new "body").Calls g ∧
      (∃ h, g.insert ⟨0⟩ 1 ⟨1⟩ = .ok h ∧ g.Inserted ⟨0⟩ 1 ⟨1⟩ h) ∧
      g.insert ⟨0⟩ 2 ⟨1⟩ = .error (.indexOutOfBounds ⟨0⟩ 2 1) := by
  intro g
  have hcalls : (Forest.new "body").Calls g :=
    (((Relation.ReflTransGen.single (.edit (.addLeaf "p") (by decide))).tail
      (.edit (.addLeaf "p") (by decide))).tail (.edit (.append ⟨0⟩ ⟨1⟩) (by decide))).tail
        (.edit (.append ⟨0⟩ ⟨2⟩) (by decide +kernel))
  obtain ⟨-, -, hinserted, -⟩ := insert_exactly (.new "body") (by decide) hcalls ⟨0⟩ 1 ⟨1⟩
  obtain ⟨hrefuses, -⟩ := insert_exactly (.new "body") (by decide) hcalls ⟨0⟩ 2 ⟨1⟩
  obtain ⟨h, hh⟩ : ∃ h, g.insert ⟨0⟩ 1 ⟨1⟩ = .ok h := exists_eq_ok (by decide +kernel)
  refine ⟨hcalls, ⟨h, hh, hinserted h hh⟩, (hrefuses _).2 ?_⟩
  exact .position (by decide +kernel) (by decide +kernel) (by decide +kernel)

end Forest

end PageSync
