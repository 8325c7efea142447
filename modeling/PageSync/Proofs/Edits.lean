import PageSync.Forest.Load
import PageSync.Proofs.Moves

/-!
# Edits

An edit is refused, or it is carried out in a few steps of five kinds (`Forest.Step`): new nodes,
nodes taken out, moves, changed attributes, changed settings. Each step keeps what the forest says
about the page that is shown (`Forest.Step.keeps`) and leaves the forest well-formed
(`Forest.Step.wellFormed`), and so does every edit, as long as there are identifiers for the new nodes.
-/

namespace PageSync

/-- A change that is made to a forest between two passes. -/
inductive Edit
  /-- A new, detached leaf. -/
  | addLeaf (tag : String)
  /-- A new, detached, empty container. -/
  | addContainer (tag : String)
  /-- A new, detached subtree. -/
  | graft (content : Node)
  /-- A node is moved to a position of a container. -/
  | insert (container : NodeId) (index : Nat) (child : NodeId)
  /-- A node is moved behind the other children of a container. -/
  | append (container child : NodeId)
  /-- A node is detached from its parent. -/
  | remove (node : NodeId)
  /-- An attribute is stored. -/
  | setAttribute (node : NodeId) (name value : String)
  /-- An attribute is removed. -/
  | eraseAttribute (node : NodeId) (name : String)
  /-- It is decided whether a container is always sent anew. -/
  | setReplacesChildren (container : NodeId) (value : Bool)

/-- How many nodes an edit makes. -/
def Edit.size : Edit → Nat
  | .addLeaf _ | .addContainer _ => 1
  | .graft content => content.size
  | _ => 0

lemma exists_eq_ok {ε α : Type} {m : Except ε α} (hm : m.isOk) : ∃ a, m = .ok a := by
  cases m with
  | ok a => exact ⟨a, rfl⟩
  | error e => cases hm

namespace Forest

/-- Carries out an edit, unless it is refused. -/
def attempt (f : Forest) : Edit → Except EditError Forest
  | .addLeaf tag => .ok (f.addLeaf tag).2
  | .addContainer tag => .ok (f.addContainer tag).2
  | .graft content => (graft content f).map (·.2)
  | .insert container index child => f.insert container index child
  | .append container child => f.append container child
  | .remove node => f.remove node
  | .setAttribute node name value => f.setAttribute node name value
  | .eraseAttribute node name => f.eraseAttribute node name
  | .setReplacesChildren container value => f.setReplacesChildren container value

/-- The forest after an edit. If the edit is refused, it stays as it is. -/
def edit (f : Forest) (edit : Edit) : Forest :=
  match f.attempt edit with
  | .ok g => g
  | .error _ => f

/-- Whether so many new nodes find identifiers that no node has yet. -/
def HasRoom (f : Forest) (k : Nat) : Prop :=
  k ≤ NodeId.count ∧ ∀ i < k, f.contains ⟨f.nextNumber + UInt32.ofNat i⟩ = false

instance (f : Forest) (k : Nat) : Decidable (f.HasRoom k) := inferInstanceAs (Decidable (_ ∧ _))

/-- Changes the attributes of a node. -/
def redress (f : Forest) (n : NodeId) (change : Attributes → Attributes) : Forest :=
  (f.update n fun item => { item with attributes := change item.attributes }).recordAttributes n

/-! ### Steps -/

/-- One step by which edits are carried out. -/
inductive Step (f : Forest) : Forest → Prop
  /-- A new node. -/
  | add {tag : String} {children : Option (List NodeId)} (hnew : f.contains ⟨f.nextNumber⟩ = false)
    (hchildren : children.getD [] = []) : Step f (f.add tag children).2
  /-- A node is taken out of its parent. -/
  | takeOut {n : NodeId} (hroot : n ≠ f.root) : Step f (f.takeOut n)
  /-- A node is moved into a container outside of its tree. -/
  | move {container child : NodeId} {index : Nat} (hn : f.contains child) (hroot : child ≠ f.root)
    (hc : f.view.isContainer container) (hancestors : child ∉ f.ancestors container)
    (hindex : index ≤ ((f.view.children container).filter (· ≠ child)).length) :
    Step f (f.move container index child)
  /-- The attributes of a node change. -/
  | attributes {n : NodeId} (hn : f.contains n) (change : Attributes → Attributes) :
    Step f (f.redress n change)
  /-- The setting of a container changes. -/
  | setting (container : NodeId) (value : Bool) :
    Step f (f.update container fun item => { item with replacesChildren := value })

/-- Several steps by which edits are carried out. -/
def Steps : Forest → Forest → Prop := Relation.ReflTransGen Step

variable {f g h : Forest} {a n x container parent child : NodeId} {i : Item} {index k : Nat}
  {tag name value : String} {children : Option (List NodeId)} {content : Node} {e : Edit}

lemma keeps_add (hnew : f.contains ⟨f.nextNumber⟩ = false) (hchildren : children.getD [] = []) :
    f.Keeps (f.add tag children).2 where
  root_eq := rfl
  item n i hi := by
    refine ⟨i, ?_, .refl i⟩
    rw [get?_add, if_neg, hi]
    rintro rfl
    simp [contains, hi] at hnew
  new n j hn hj := by
    rw [get?_add] at hj
    split at hj
    · cases hj
      exact ⟨rfl, hchildren⟩
    · simp [hn] at hj

lemma keeps_redress (f : Forest) (n : NodeId) (change : Attributes → Attributes) :
    f.Keeps (f.redress n change) := by
  have hkeeps : f.Keeps ((f.update n fun item =>
      { item with attributes := change item.attributes }).update n fun item =>
        { item with record := { item.record with attributesChanged := true } }) := by
    refine .of_map (T := fun x i => if n = x then { i with
      attributes := change i.attributes,
      record := { i.record with attributesChanged := true } } else i) rfl ?_ ?_
    · intro x
      rw [get?_update, get?_update, if_pos rfl, get?_update]
      by_cases hx : n = x
      · subst hx
        simp [Function.comp_def]
      · simp [hx]
    · intro x i _
      split
      · exact i.keeps_attributesChanged _
      · exact .refl i
  exact hkeeps.markAbove n

/-- A step keeps what the forest says about the page that is shown. -/
lemma Step.keeps (hstep : f.Step g) : f.Keeps g := by
  cases hstep with
  | add hnew hchildren => exact keeps_add hnew hchildren
  | takeOut hroot => exact keeps_takeOut f _
  | move hn hroot hc hancestors hindex => exact keeps_move hn
  | attributes hn change => exact keeps_redress f _ change
  | setting container value => exact (Keeps.refl f).update fun j _ => { Item.Keeps.refl j with }

/-! ### Well-formed forests -/

lemma entry_add_of_ne (hx : x ≠ ⟨f.nextNumber⟩) :
    (f.add tag children).2.view.entry x = f.view.entry x :=
  entry_congr (by rw [get?_add, if_neg hx.symm])

lemma entry_add_self : (f.add tag children).2.view.entry ⟨f.nextNumber⟩ =
    { tag, children, shownParent := none } := by
  rw [entry_of_get? (by rw [get?_add, if_pos rfl])]
  rfl

/-- A new node has no parent. -/
lemma parent_add (hnew : f.contains ⟨f.nextNumber⟩ = false) :
    (f.add tag children).2.view.parent = f.view.parent := by
  funext x
  by_cases hx : x = ⟨f.nextNumber⟩
  · rw [hx, View.parent, View.parent, entry_add_self,
      entry_of_get?_none (Option.not_isSome_iff_eq_none.1 (Bool.eq_false_iff.1 hnew))]
  · rw [View.parent, View.parent, entry_add_of_ne hx]

/-- A new node has no children. -/
lemma children_add (hnew : f.contains ⟨f.nextNumber⟩ = false) (hchildren : children.getD [] = []) :
    (f.add tag children).2.view.children = f.view.children := by
  funext x
  by_cases hx : x = ⟨f.nextNumber⟩
  · rw [hx, View.children, View.children, entry_add_self,
      entry_of_get?_none (Option.not_isSome_iff_eq_none.1 (Bool.eq_false_iff.1 hnew))]
    exact hchildren
  · rw [View.children, View.children, entry_add_of_ne hx]

lemma WellFormed.add (h : f.WellFormed) (hnew : f.contains ⟨f.nextNumber⟩ = false)
    (hchildren : children.getD [] = []) : (f.add tag children).2.WellFormed := by
  refine h.of_still (keeps_add hnew hchildren) (parent_add hnew) (children_add hnew hchildren)
    fun x hpending => ?_
  by_cases hx : x = ⟨f.nextNumber⟩
  · rw [hx, entry_add_self] at hpending
    simp [Entry.IsPending] at hpending
  · rw [entry_add_of_ne hx] at hpending
    exact .inl hpending

lemma parent_redress (change : Attributes → Attributes) :
    (f.redress n change).view.parent = f.view.parent := by
  rw [redress, recordAttributes, parent_congr (now_markAbove _ n),
    parent_update (by exact fun _ => rfl), parent_update (by exact fun _ => rfl)]

lemma children_redress (change : Attributes → Attributes) :
    (f.redress n change).view.children = f.view.children := by
  rw [redress, recordAttributes, children_congr (now_markAbove _ n),
    children_update (by exact fun _ => rfl), children_update (by exact fun _ => rfl)]

/-- Before the ancestors of a node with new attributes are told, all nodes are still in their places. -/
lemma isForest_redressed (h : f.view.IsForest) (change : Attributes → Attributes) :
    ((f.update n fun item => { item with attributes := change item.attributes }).update n fun item =>
      { item with record := { item.record with attributesChanged := true } }).view.IsForest :=
  h.congr ((parent_congr (now_markAbove _ n)).symm.trans (parent_redress change))
    ((children_congr (now_markAbove _ n)).symm.trans (children_redress change))

/-- All ancestors of a node with new attributes are told. -/
lemma isMarked_redress (h : f.view.IsForest) (change : Attributes → Attributes)
    (ha : IsAbove f.view.parent a n) : ((f.redress n change).view.entry a).IsMarked := by
  apply isMarked_markAbove (isForest_redressed h change)
  rwa [parent_update (by exact fun _ => rfl), parent_update (by exact fun _ => rfl)]

lemma WellFormed.redress (h : f.WellFormed) (n : NodeId) (change : Attributes → Attributes) :
    (f.redress n change).WellFormed := by
  refine h.of_still (keeps_redress f n change) (parent_redress change) (children_redress change)
    fun x hx => ?_
  by_cases hn : n = x
  · subst hn
    exact .inr fun a => isMarked_redress h.toIsForest change
  · left
    have hx := isPending_markAbove hx
    rwa [entry_update_of_ne hn, entry_update_of_ne hn] at hx

/-- A node is moved into a container that is not below it. -/
lemma not_covers_of_notMem_ancestors (h : f.view.IsForest) (hc : f.view.isContainer container)
    (hancestors : child ∉ f.ancestors container) : ¬ Covers f.view.parent child container :=
  fun hcov => hancestors ((mem_ancestors_iff h).2 ⟨contains_of_isContainer hc, hcov⟩)

/-- A step leaves trees, and the page is one of them. -/
lemma Step.rooted (h : f.Rooted) (hstep : f.Step g) : g.Rooted := by
  have hkeeps := hstep.keeps
  cases hstep with
  | add hnew hchildren => exact h.of_still hkeeps (parent_add hnew) (children_add hnew hchildren)
  | takeOut hroot => exact h.takeOut hroot
  | move hn hroot hc hancestors hindex =>
    exact h.move hn hroot hc (not_covers_of_notMem_ancestors h.toIsForest hc hancestors) hindex
  | attributes hn change => exact h.of_still hkeeps (parent_redress change) (children_redress change)
  | setting container value =>
    exact h.of_still hkeeps (parent_update fun _ => rfl) (children_update fun _ => rfl)

/-- A step leaves a well-formed forest. -/
lemma Step.wellFormed (h : f.WellFormed) (hstep : f.Step g) : g.WellFormed := by
  have hkeeps := hstep.keeps
  cases hstep with
  | add hnew hchildren => exact h.add hnew hchildren
  | takeOut hroot => exact h.takeOut hroot
  | move hn hroot hc hancestors hindex =>
    exact h.move hn hroot hc (not_covers_of_notMem_ancestors h.toIsForest hc hancestors) hindex
  | attributes hn change => exact h.redress _ change
  | setting container value =>
    exact h.of_still hkeeps (parent_update fun _ => rfl) (children_update fun _ => rfl)
      fun x hx => .inl (isPending_update (by exact fun _ h => h) hx)

lemma Steps.keeps (hsteps : f.Steps g) : f.Keeps g := by
  induction hsteps with
  | refl => exact .refl f
  | tail _ hstep ih => exact ih.trans hstep.keeps

lemma Steps.rooted (h : f.Rooted) (hsteps : f.Steps g) : g.Rooted := by
  induction hsteps with
  | refl => exact h
  | tail _ hstep ih => exact hstep.rooted ih

lemma Steps.wellFormed (h : f.WellFormed) (hsteps : f.Steps g) : g.WellFormed := by
  induction hsteps with
  | refl => exact h
  | tail _ hstep ih => exact hstep.wellFormed ih

/-! ### Other children -/

/-- The children of a container other than a given node. -/
def others (f : Forest) (container child : NodeId) : List NodeId :=
  (f.view.children container).filter (· ≠ child)

lemma others_eq_erase (h : f.view.IsForest) :
    f.others container child = (f.view.children container).erase child := by
  rw [others, (h.nodup_children container).erase_eq_filter]
  exact List.filter_congr fun x _ => by simp [bne, beq_eq_decide]

/-- There is one other child less than there are children if the given node is one of them. -/
lemma length_others (h : f.view.IsForest) :
    (f.others container child).length + (if f.view.parent child = some container then 1 else 0) =
      (f.view.children container).length := by
  have hiff := h.mem_children child container
  rw [others_eq_erase h]
  split
  · next hparent => exact List.length_erase_add_one (hiff.2 hparent)
  · next hparent => rw [List.erase_of_not_mem (mt hiff.1 hparent), Nat.add_zero]

/-- The other children are counted by the link of the node to its parent. -/
lemma length_others_eq (h : f.view.IsForest) : (f.others container child).length =
    if f.view.parent child = some container then (f.view.children container).length - 1
    else (f.view.children container).length := by
  have hlength : (f.others container child).length + _ = (f.view.children container).length :=
    length_others h
  split
  · next hparent =>
    rw [if_pos hparent] at hlength
    omega
  · next hparent =>
    rw [if_neg hparent] at hlength
    omega

/-! ### Edits that are carried out -/

lemma bind_eq_ok {α β : Type} {m : Except EditError α} {k : α → Except EditError β} {b : β} :
    (m >>= k) = .ok b ↔ ∃ a, m = .ok a ∧ k a = .ok b := by
  cases m <;> simp [bind, Except.bind]

lemma item_eq_ok (hi : f.item n = .ok i) : f.get? n = some i := by
  rw [item] at hi
  split at hi
  · cases hi
  · next h => exact h.trans (congrArg some (Except.ok.inj hi))

lemma item_of_contains (hn : f.contains n) : ∃ i, f.get? n = some i ∧ f.item n = .ok i := by
  obtain ⟨i, hi⟩ := contains_iff.1 hn
  exact ⟨i, hi, by rw [item, hi]⟩

lemma item_of_not_contains (hn : ¬ f.contains n) : f.item n = .error (.unknownNode n) := by
  rw [item, Option.not_isSome_iff_eq_none.1 hn]

/-- The node is looked for first, then the container. -/
lemma countOthers_eq (f : Forest) (container child : NodeId) : f.countOthers container child =
    if f.contains child = false then .error (.unknownNode child)
    else if f.contains container = false then .error (.unknownNode container)
    else if f.view.isContainer container then
      .ok (if f.view.parent child = some container then (f.view.children container).length - 1
        else (f.view.children container).length)
    else .error (.notAContainer container) := by
  by_cases hchild : f.contains child
  · obtain ⟨j, hj, hmoved⟩ := item_of_contains hchild
    by_cases hcontainer : f.contains container
    · obtain ⟨i, hi, hitem⟩ := item_of_contains hcontainer
      rw [View.isContainer, View.children, View.parent, entry_of_get? hi, entry_of_get? hj,
        Entry.isContainer, Entry.childList, Item.entry, Item.entry]
      cases hchildren : i.children <;>
        simp [hchild, hcontainer, countOthers, hmoved, hitem, hchildren, bind, Except.bind]
    · simp [hchild, hcontainer, countOthers, hmoved, item_of_not_contains hcontainer, bind,
        Except.bind]
  · simp [hchild, countOthers, item_of_not_contains hchild, bind, Except.bind]

/-- In a forest that is the number of the other children. -/
lemma countOthers_of_isForest (h : f.view.IsForest) (container child : NodeId) :
    f.countOthers container child =
      if f.contains child = false then .error (.unknownNode child)
      else if f.contains container = false then .error (.unknownNode container)
      else if f.view.isContainer container then .ok (f.others container child).length
      else .error (.notAContainer container) := by
  rw [countOthers_eq, length_others_eq h]

lemma countOthers_eq_ok {count : Nat} (hcount : f.countOthers container child = .ok count) :
    f.contains child ∧ f.view.isContainer container ∧
      count = if f.view.parent child = some container then (f.view.children container).length - 1
        else (f.view.children container).length := by
  rw [countOthers_eq] at hcount
  split at hcount
  · cases hcount
  next hchild =>
  split at hcount
  · cases hcount
  next hcontainer =>
  split at hcount
  · next hkind => exact ⟨by simpa using hchild, hkind, (Except.ok.inj hcount).symm⟩
  · cases hcount

/-- An insertion is a move into a container outside of the node's tree. -/
lemma of_insert_eq_ok (hg : f.insert container index child = .ok g) :
    f.contains child ∧ child ≠ f.root ∧ f.view.isContainer container ∧
      child ∉ f.ancestors container ∧
        (index ≤ if f.view.parent child = some container then (f.view.children container).length - 1
          else (f.view.children container).length) ∧
          g = f.move container index child := by
  obtain ⟨count, hcount, hg⟩ := bind_eq_ok.1 hg
  obtain ⟨hn, hc, hcount⟩ := countOthers_eq_ok hcount
  split at hg
  · cases hg
  · next hindex =>
    split at hg
    · cases hg
    · next hroot =>
      split at hg
      · cases hg
      · next hancestors =>
        exact ⟨hn, hroot, hc, hancestors, hcount ▸ Nat.not_lt.1 hindex, (Except.ok.inj hg).symm⟩

lemma of_append_eq_ok (hg : f.append container child = .ok g) :
    ∃ index, f.insert container index child = .ok g := by
  obtain ⟨count, -, hg⟩ := bind_eq_ok.1 hg
  exact ⟨_, hg⟩

lemma of_remove_eq_ok (hg : f.remove n = .ok g) : n ≠ f.root ∧ g = f.takeOut n := by
  obtain ⟨i, -, hg⟩ := bind_eq_ok.1 hg
  split at hg
  · cases hg
  · next hroot => exact ⟨hroot, (Except.ok.inj hg).symm⟩

/-- Only a value that is not there already is stored. -/
lemma of_setAttribute_eq_ok (hg : f.setAttribute n name value = .ok g) :
    ∃ i, f.get? n = some i ∧
      (i.attributes.get? name = some value ∧ g = f ∨
        i.attributes.get? name ≠ some value ∧ g = f.redress n (·.insert name value)) := by
  obtain ⟨i, hi, hg⟩ := bind_eq_ok.1 hg
  refine ⟨i, item_eq_ok hi, ?_⟩
  split at hg
  · next hsame => exact .inl ⟨hsame, (Except.ok.inj hg).symm⟩
  · next hother => exact .inr ⟨hother, (Except.ok.inj hg).symm⟩

/-- Only an attribute that is there is removed. -/
lemma of_eraseAttribute_eq_ok (hg : f.eraseAttribute n name = .ok g) :
    ∃ i, f.get? n = some i ∧
      (i.attributes.get? name = none ∧ g = f ∨
        i.attributes.get? name ≠ none ∧ g = f.redress n (·.erase name)) := by
  obtain ⟨i, hi, hg⟩ := bind_eq_ok.1 hg
  refine ⟨i, item_eq_ok hi, ?_⟩
  split at hg
  · next hnone => exact .inl ⟨hnone, (Except.ok.inj hg).symm⟩
  · next hsome => exact .inr ⟨hsome, (Except.ok.inj hg).symm⟩

lemma of_setReplacesChildren_eq_ok {value : Bool} (hg : f.setReplacesChildren n value = .ok g) :
    g = f.update n fun item => { item with replacesChildren := value } := by
  obtain ⟨i, -, hg⟩ := bind_eq_ok.1 hg
  split at hg
  · cases hg
  · exact (Except.ok.inj hg).symm

lemma step_insert (h : f.view.IsForest) (hg : f.insert container index child = .ok g) : f.Step g := by
  obtain ⟨hn, hroot, hc, hancestors, hindex, rfl⟩ := of_insert_eq_ok hg
  exact .move hn hroot hc hancestors (hindex.trans (length_others_eq h).ge)

lemma step_append (h : f.view.IsForest) (hg : f.append container child = .ok g) : f.Step g := by
  obtain ⟨index, hg⟩ := of_append_eq_ok hg
  exact step_insert h hg

lemma step_remove (hg : f.remove n = .ok g) : f.Step g := by
  obtain ⟨hroot, rfl⟩ := of_remove_eq_ok hg
  exact .takeOut hroot

lemma steps_setAttribute (hg : f.setAttribute n name value = .ok g) : f.Steps g := by
  obtain ⟨i, hi, ⟨-, rfl⟩ | ⟨-, rfl⟩⟩ := of_setAttribute_eq_ok hg
  · exact .refl
  · exact .single (.attributes (contains_iff.2 ⟨i, hi⟩) (·.insert name value))

lemma steps_eraseAttribute (hg : f.eraseAttribute n name = .ok g) : f.Steps g := by
  obtain ⟨i, hi, ⟨-, rfl⟩ | ⟨-, rfl⟩⟩ := of_eraseAttribute_eq_ok hg
  · exact .refl
  · exact .single (.attributes (contains_iff.2 ⟨i, hi⟩) (·.erase name))

lemma step_setReplacesChildren {value : Bool} (hg : f.setReplacesChildren n value = .ok g) :
    f.Step g := by
  rw [of_setReplacesChildren_eq_ok hg]
  exact .setting n value

lemma steps_setAttributes {entries : List (String × String)}
    (hg : f.setAttributes n entries = .ok g) : f.Steps g := by
  induction entries generalizing f with
  | nil =>
    cases hg
    exact .refl
  | cons entry rest ih =>
    obtain ⟨f', hf', hg⟩ := bind_eq_ok.1 hg
    exact (steps_setAttribute hf').trans (ih hg)

/-! ### Edits that are not refused -/

/-- A node can be appended to a container outside of its tree. -/
lemma append_eq_ok (h : f.view.IsForest) (hn : f.contains child) (hc : f.view.isContainer container)
    (hroot : child ≠ f.root) (hancestors : child ∉ f.ancestors container) :
    f.append container child =
      .ok (f.move container (f.others container child).length child) := by
  have hcount : f.countOthers container child = .ok (f.others container child).length := by
    simp [countOthers_of_isForest h, hn, contains_of_isContainer hc, hc]
  simp [append, insert, hcount, hroot, hancestors, bind, Except.bind]

lemma remove_eq_ok (hn : f.contains n) (hroot : n ≠ f.root) : f.remove n = .ok (f.takeOut n) := by
  obtain ⟨i, -, hi⟩ := item_of_contains hn
  simp [remove, hi, hroot, bind, Except.bind]

lemma setReplacesChildren_eq_ok (hc : f.view.isContainer container) (value : Bool) :
    f.setReplacesChildren container value =
      .ok (f.update container fun item => { item with replacesChildren := value }) := by
  obtain ⟨i, hi, hchildren⟩ := get?_of_isContainer hc
  obtain ⟨children, hchildren⟩ := Option.isSome_iff_exists.1 hchildren
  simp [setReplacesChildren, item, hi, hchildren, bind, Except.bind]

/-- Whether two forests have the same nodes in the same places. -/
structure SamePlaces (f g : Forest) : Prop where
  /-- The next new node gets the same number. -/
  nextNumber_eq : g.nextNumber = f.nextNumber
  /-- The nodes are the same. -/
  contains_eq : g.contains = f.contains
  /-- Each has the same parent. -/
  parent_eq : g.view.parent = f.view.parent

lemma SamePlaces.refl (f : Forest) : f.SamePlaces f := ⟨rfl, rfl, rfl⟩

lemma SamePlaces.trans (hfg : f.SamePlaces g) (hgh : g.SamePlaces h) : f.SamePlaces h :=
  ⟨hgh.nextNumber_eq.trans hfg.nextNumber_eq, hgh.contains_eq.trans hfg.contains_eq,
    hgh.parent_eq.trans hfg.parent_eq⟩

@[simp] lemma nextNumber_markAbove : (f.markAbove n).nextNumber = f.nextNumber :=
  markAbove_induct (motive := fun g => g.nextNumber = f.nextNumber) rfl (fun _ _ h => h) n

lemma samePlaces_redress (f : Forest) (n : NodeId) (change : Attributes → Attributes) :
    f.SamePlaces (f.redress n change) where
  nextNumber_eq := nextNumber_markAbove
  contains_eq := by
    rw [redress, recordAttributes]
    rw [contains_congr (now_markAbove _ n), contains_update, contains_update]
  parent_eq := parent_redress change

/-- Storing attributes of a node is never refused. -/
lemma setAttributes_eq_ok (hn : f.contains n) (entries : List (String × String)) :
    ∃ g, f.setAttributes n entries = .ok g ∧ f.SamePlaces g := by
  induction entries generalizing f with
  | nil => exact ⟨f, rfl, .refl f⟩
  | cons entry rest ih =>
    obtain ⟨i, -, hi⟩ := item_of_contains hn
    have hstore : ∃ f', f.setAttribute n entry.1 entry.2 = .ok f' ∧ f.SamePlaces f' := by
      rw [setAttribute, hi]
      by_cases hsame : i.attributes.get? entry.1 = some entry.2
      · exact ⟨f, by simp [hsame, bind, Except.bind], .refl f⟩
      · refine ⟨f.redress n (·.insert entry.1 entry.2), ?_, samePlaces_redress f n _⟩
        simp [hsame, redress, bind, Except.bind]
    obtain ⟨f', hf', hsame⟩ := hstore
    obtain ⟨g, hg, hsame'⟩ := ih (f := f') (by rwa [hsame.contains_eq])
    exact ⟨g, by simp [setAttributes, hf', hg, bind, Except.bind], hsame.trans hsame'⟩

/-! ### New nodes -/

lemma hasRoom_zero (f : Forest) : f.HasRoom 0 :=
  ⟨Nat.zero_le _, fun _ hi => absurd hi (Nat.not_lt_zero _)⟩

lemma HasRoom.congr (hroom : f.HasRoom k) (hnext : g.nextNumber = f.nextNumber)
    (hcontains : g.contains = f.contains) : g.HasRoom k := by
  rwa [HasRoom, hnext, hcontains]

lemma HasRoom.not_contains (hroom : f.HasRoom (k + 1)) : f.contains ⟨f.nextNumber⟩ = false := by
  simpa using hroom.2 0 (Nat.succ_pos k)

lemma contains_add : (f.add tag children).2.contains x =
    (decide (x = ⟨f.nextNumber⟩) || f.contains x) := by
  rw [contains, get?_add]
  split
  · next hx => simp [hx]
  · next hx => simp [Ne.symm hx, contains]

/-- Each new node takes up one of the free identifiers. -/
lemma HasRoom.add (hroom : f.HasRoom (k + 1)) : (f.add tag children).2.HasRoom k := by
  refine ⟨(Nat.le_succ k).trans hroom.1, fun i hi => ?_⟩
  have hnumber : (f.add tag children).2.nextNumber + UInt32.ofNat i =
      f.nextNumber + UInt32.ofNat (i + 1) := by
    rw [UInt32.ofNat_add, UInt32.add_comm (UInt32.ofNat i), ← UInt32.add_assoc]
    rfl
  have hne : (⟨f.nextNumber + UInt32.ofNat (i + 1)⟩ : NodeId) ≠ ⟨f.nextNumber⟩ := by
    intro heq
    have hzero : UInt32.ofNat (i + 1) = 0 := UInt32.add_eq_left.1 (NodeId.mk.inj heq)
    have hlt : i + 1 < NodeId.count := Nat.lt_of_lt_of_le (Nat.succ_lt_succ hi) hroom.1
    have hmod : (i + 1) % NodeId.count = 0 := (UInt32.toNat_ofNat').symm.trans
      (congrArg UInt32.toNat hzero)
    rw [Nat.mod_eq_of_lt hlt] at hmod
    omega
  rw [contains_add, hnumber, hroom.2 (i + 1) (Nat.succ_lt_succ hi), Bool.or_false,
    decide_eq_false hne]

lemma nextNumber_relink {arrange : List NodeId → List NodeId} {up : Option NodeId} :
    (f.relink n container arrange up).nextNumber = f.nextNumber :=
  nextNumber_markAbove (f := (f.recordParent n).update container fun item =>
    { item with record := { item.record with children := item.record.children.or item.children } })

lemma nextNumber_takeOut : (f.takeOut n).nextNumber = f.nextNumber := by
  cases hp : f.view.parent n with
  | none => rw [takeOut_of_top hp]
  | some p => rw [takeOut_of_parent hp, nextNumber_relink]

lemma nextNumber_move : (f.move container index child).nextNumber = f.nextNumber := by
  rw [move_eq, nextNumber_relink, nextNumber_takeOut]

/-- What covers a node that was there before new ones came was there as well. -/
lemma contains_of_covers (h : f.view.IsForest)
    (hold : ∀ x, f.contains x → g.view.parent x = f.view.parent x)
    (ha : Covers g.view.parent a x) (hx : f.contains x) : f.contains a := by
  induction ha using Relation.ReflTransGen.head_induction_on with
  | refl => exact hx
  | head hxy _ ih =>
    rw [hold _ hx] at hxy
    exact ih (contains_of_parent h hxy)

/-- What a subtree is loaded to: its topmost node is new and detached, and the nodes that were there
before stay where they are. -/
structure Grafted (f : Forest) (id : NodeId) (g : Forest) : Prop where
  /-- The loading consists of steps. -/
  steps : f.Steps g
  /-- The topmost node is new. -/
  not_contains : f.contains id = false
  /-- It is there. -/
  contains : g.contains id
  /-- It is detached. -/
  parent_eq : g.view.parent id = none
  /-- The other nodes stay where they are. -/
  parent_of_contains : ∀ x, f.contains x → g.view.parent x = f.view.parent x

/-- Appending a new subtree to a container that was there before is not refused. -/
lemma Grafted.append_eq_ok (h : f.Rooted) (hgrafted : f.Grafted child g)
    (hc : f.view.isContainer container) :
    ∃ index, g.append container child = .ok (g.move container index child) := by
  have hforest := (hgrafted.steps.rooted h).toIsForest
  refine ⟨_, Forest.append_eq_ok hforest hgrafted.contains (hgrafted.steps.keeps.isContainer hc) ?_ ?_⟩
  · rintro rfl
    have hnot := hgrafted.not_contains
    rw [hgrafted.steps.keeps.root_eq, h.contains_root] at hnot
    cases hnot
  · intro hancestors
    have hcov := ((mem_ancestors_iff hforest).1 hancestors).2
    have hold := contains_of_covers h.toIsForest hgrafted.parent_of_contains hcov
      (contains_of_isContainer hc)
    simp [hgrafted.not_contains] at hold

lemma fst_add : (f.add tag children).1 = ⟨f.nextNumber⟩ := rfl

lemma grafted_add (tag : String) (children : Option (List NodeId)) (hroom : f.HasRoom (k + 1))
    (hchildren : children.getD [] = []) (entries : List (String × String)) :
    ∃ g, (f.add tag children).2.setAttributes ⟨f.nextNumber⟩ entries = .ok g ∧
      f.Grafted ⟨f.nextNumber⟩ g ∧ g.HasRoom k ∧
        (children.isSome → g.view.isContainer ⟨f.nextNumber⟩) := by
  have hnew := hroom.not_contains
  have hself : (f.add tag children).2.contains ⟨f.nextNumber⟩ := by simp [contains_add]
  obtain ⟨g, hg, hsame⟩ := setAttributes_eq_ok hself entries
  have hadd : f.Step (f.add tag children).2 := .add hnew hchildren
  have hparent (x : NodeId) : g.view.parent x = (f.add tag children).2.view.parent x := by
    rw [hsame.parent_eq]
  refine ⟨g, hg, ⟨.head hadd (steps_setAttributes hg), hnew, ?_, ?_, ?_⟩,
    hroom.add.congr hsame.nextNumber_eq hsame.contains_eq, ?_⟩
  · rwa [hsame.contains_eq]
  · rw [hparent, View.parent, entry_add_self]
  · intro x hx
    rw [hparent, View.parent, View.parent, entry_add_of_ne]
    rintro rfl
    simp [hnew] at hx
  · intro hc
    apply (steps_setAttributes hg).keeps.isContainer
    rw [View.isContainer, entry_add_self]
    exact hc

mutual

/-- Loading a subtree is not refused as long as there are identifiers for its nodes. -/
theorem graft_eq_ok (content : Node) {f : Forest} {k : Nat} (h : f.Rooted)
    (hroom : f.HasRoom (content.size + k)) :
    ∃ id g, graft content f = .ok (id, g) ∧ f.Grafted id g ∧ g.HasRoom k := by
  match content with
  | .leaf _ tag attributes =>
    rw [Node.size, Nat.add_comm] at hroom
    obtain ⟨g, hg, hgrafted, hroom, -⟩ := grafted_add tag none hroom rfl attributes.entries
    exact ⟨_, g, by simp [graft, addLeaf, fst_add, hg, Functor.map, Except.map], hgrafted, hroom⟩
  | .container _ tag attributes children =>
    rw [Node.size, Nat.add_assoc, Nat.add_comm] at hroom
    obtain ⟨f', hf', hgrafted, hroom, hc⟩ := grafted_add tag (some []) hroom rfl
      attributes.entries
    obtain ⟨g, hg, hsteps, hroom, hparent⟩ := graftAll_eq_ok children
      (hgrafted.steps.rooted h) (hc rfl) hroom
    refine ⟨_, g, ?_, ⟨hgrafted.steps.trans hsteps, hgrafted.not_contains,
      hsteps.keeps.contains hgrafted.contains, ?_, ?_⟩, hroom⟩
    · simp [graft, addContainer, fst_add, hf', hg, bind, Except.bind, pure, Except.pure]
    · rw [hparent _ hgrafted.contains, hgrafted.parent_eq]
    · intro x hx
      rw [hparent x (hgrafted.steps.keeps.contains hx), hgrafted.parent_of_contains x hx]

theorem graftAll_eq_ok (contents : List Node) {f : Forest} {container : NodeId} {k : Nat}
    (h : f.Rooted) (hc : f.view.isContainer container)
    (hroom : f.HasRoom (Node.size.sizes contents + k)) :
    ∃ g, graft.graftAll container contents f = .ok g ∧ f.Steps g ∧ g.HasRoom k ∧
      ∀ x, f.contains x → g.view.parent x = f.view.parent x := by
  match contents with
  | [] => exact ⟨f, rfl, .refl, by simpa [Node.size.sizes] using hroom, fun _ _ => rfl⟩
  | content :: rest =>
    rw [Node.size.sizes, Nat.add_assoc] at hroom
    obtain ⟨id, f', hf', hgrafted, hroom'⟩ := graft_eq_ok content h hroom
    obtain ⟨index, hmove⟩ := hgrafted.append_eq_ok h hc
    have hsteps : f.Steps (f'.move container index id) :=
      hgrafted.steps.tail (step_append (hgrafted.steps.rooted h).toIsForest hmove)
    have hparent (x : NodeId) (hx : f.contains x) :
        (f'.move container index id).view.parent x = f.view.parent x := by
      rw [parent_move hgrafted.contains, if_neg, hgrafted.parent_of_contains x hx]
      rintro rfl
      simp [hgrafted.not_contains] at hx
    obtain ⟨g, hg, hrest, hroom, hparent'⟩ := graftAll_eq_ok rest (hsteps.rooted h)
      (hsteps.keeps.isContainer hc)
      (hroom'.congr nextNumber_move (funext fun _ => contains_move))
    refine ⟨g, ?_, hsteps.trans hrest, hroom, ?_⟩
    · simp [graft.graftAll, hf', hmove, hg, bind, Except.bind]
    · intro x hx
      rw [hparent' x (hsteps.keeps.contains hx), hparent x hx]

end

/-! ### All edits -/

/-- An edit that is carried out consists of steps. -/
lemma Rooted.steps_attempt (h : f.Rooted) (hroom : f.HasRoom e.size) (hg : f.attempt e = .ok g) :
    f.Steps g := by
  cases e with
  | addLeaf tag =>
    cases hg
    exact .single (.add (hroom.not_contains (k := 0)) rfl)
  | addContainer tag =>
    cases hg
    exact .single (.add (hroom.not_contains (k := 0)) rfl)
  | graft content =>
    obtain ⟨id, g', hg', hgrafted, -⟩ := graft_eq_ok content (k := 0) h hroom
    rw [attempt, hg'] at hg
    cases hg
    exact hgrafted.steps
  | insert container index child => exact .single (step_insert h.toIsForest hg)
  | append container child => exact .single (step_append h.toIsForest hg)
  | remove node => exact .single (step_remove hg)
  | setAttribute node name value => exact steps_setAttribute hg
  | eraseAttribute node name => exact steps_eraseAttribute hg
  | setReplacesChildren container value => exact .single (step_setReplacesChildren hg)

/-- Whether an edit is accepted or refused, the forest after it is some steps away. -/
lemma Rooted.steps_edit (h : f.Rooted) (hroom : f.HasRoom e.size) : f.Steps (f.edit e) := by
  rw [edit]
  split
  · next hg => exact h.steps_attempt hroom hg
  · exact .refl

lemma steps_edit (h : f.WellFormed) (hroom : f.HasRoom e.size) : f.Steps (f.edit e) :=
  h.rooted.steps_edit hroom

/-! ### Several edits -/

/-- The forest after several edits, one after the other. -/
def edits (f : Forest) (es : List Edit) : Forest := es.foldl edit f

/-- Whether there are identifiers for the new nodes of several edits, and these don't hang a tree
below another node. -/
def Allows (f : Forest) (top : NodeId) : List Edit → Prop
  | [] => True
  | e :: es => f.HasRoom e.size ∧ (top ≠ f.root → (f.edit e).view.parent top = none) ∧
    (f.edit e).Allows top es

instance decidableAllows (f : Forest) (top : NodeId) : (es : List Edit) → Decidable (f.Allows top es)
  | [] => isTrue trivial
  | e :: es =>
    have := decidableAllows (f.edit e) top es
    inferInstanceAs (Decidable (_ ∧ _ ∧ _))

lemma steps_edits {es : List Edit} (h : f.WellFormed) (hallows : f.Allows n es) :
    f.Steps (f.edits es) := by
  induction es generalizing f with
  | nil => exact .refl
  | cons e es ih =>
    have hsteps := steps_edit h hallows.1
    exact hsteps.trans (ih (hsteps.wellFormed h) hallows.2.2)

/-- Whether edits lead from one forest to another, while a tree is not hung below another node. -/
def Leads (f : Forest) (top : NodeId) (g : Forest) : Prop := ∃ es, f.Allows top es ∧ f.edits es = g

lemma Leads.refl (f : Forest) (top : NodeId) : f.Leads top f := ⟨[], trivial, rfl⟩

lemma Leads.head {top : NodeId} (hroom : f.HasRoom e.size) (hg : f.attempt e = .ok g)
    (htop : g.view.parent top = none) (hgh : g.Leads top h) : f.Leads top h := by
  obtain ⟨es, hallows, rfl⟩ := hgh
  have hedit : f.edit e = g := by rw [edit, hg]
  refine ⟨e :: es, ⟨hroom, fun _ => hedit ▸ htop, hedit ▸ hallows⟩, ?_⟩
  rw [edits, List.foldl_cons, hedit, edits]

lemma Leads.trans {top : NodeId} (hfg : f.Leads top g) (hgh : g.Leads top h) :
    f.Leads top h := by
  obtain ⟨es, hallows, rfl⟩ := hfg
  induction es generalizing f with
  | nil => exact hgh
  | cons e es ih =>
    obtain ⟨es', hallows', rfl⟩ := ih hallows.2.2 hgh
    exact ⟨e :: es', ⟨hallows.1, hallows.2.1, hallows'⟩, rfl⟩

end Forest

end PageSync
