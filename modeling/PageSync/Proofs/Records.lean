import PageSync.Forest.Edit
import PageSync.Proofs.Shown

/-!
# What a forest remembers

A node of a forest has a present state and a record. The steps that fill in records leave the
present state of every node alone (`Forest.now`), and no step changes what the records say about the
page that is shown: once filled in, a record stays as it is, and it is filled in before the present
state is changed. `Forest.Keeps f g` says this of two forests, the second one being the first one some
steps later.
-/

namespace PageSync

/-! ### Items -/

namespace Item

/-- Whether an item says the same about what is shown as an earlier state of it, and all that it said
about changes. -/
structure Keeps (i j : Item) : Prop where
  /-- The element name is the same. -/
  tag_eq : j.tag = i.tag
  /-- A leaf stays a leaf, and a container a container. -/
  isSome_children_eq : j.children.isSome = i.children.isSome
  /-- It is shown under the same parent. -/
  shownParent_eq : j.shownParent = i.shownParent
  /-- It is shown with the same children. -/
  shownChildList_eq : j.entry.shownChildList = i.entry.shownChildList
  /-- The attributes are the same, unless they are marked as changed. -/
  attributes_eq : j.record.attributesChanged = false →
    i.record.attributesChanged = false ∧ j.attributes = i.attributes
  /-- A parent that was recorded still is. -/
  isSome_parent : i.record.parent.isSome → j.record.parent.isSome
  /-- Children that were recorded still are. -/
  isSome_children : i.record.children.isSome → j.record.children.isSome
  /-- Changes below the node are not forgotten. -/
  changedBelow : i.record.changedBelow → j.record.changedBelow

variable {i j k : Item}

lemma Keeps.refl (i : Item) : i.Keeps i :=
  ⟨rfl, rfl, rfl, rfl, fun h => ⟨h, rfl⟩, id, id, id⟩

lemma Keeps.trans (hij : i.Keeps j) (hjk : j.Keeps k) : i.Keeps k where
  tag_eq := hjk.tag_eq.trans hij.tag_eq
  isSome_children_eq := hjk.isSome_children_eq.trans hij.isSome_children_eq
  shownParent_eq := hjk.shownParent_eq.trans hij.shownParent_eq
  shownChildList_eq := hjk.shownChildList_eq.trans hij.shownChildList_eq
  attributes_eq h := by
    obtain ⟨hj, hattributes⟩ := hjk.attributes_eq h
    exact ⟨(hij.attributes_eq hj).1, hattributes.trans (hij.attributes_eq hj).2⟩
  isSome_parent h := hjk.isSome_parent (hij.isSome_parent h)
  isSome_children h := hjk.isSome_children (hij.isSome_children h)
  changedBelow h := hjk.changedBelow (hij.changedBelow h)

lemma keeps_recordParent (i : Item) : i.Keeps
    { i with record := { i.record with parent := i.record.parent.or (some i.parent) } } := by
  refine { Keeps.refl i with shownParent_eq := ?_, isSome_parent := ?_ }
  · cases h : i.record.parent <;> simp [shownParent, h]
  · simp

lemma keeps_recordChildren (i : Item) : i.Keeps
    { i with record := { i.record with children := i.record.children.or i.children } } := by
  refine { Keeps.refl i with shownChildList_eq := ?_, isSome_children := ?_ }
  · cases h : i.record.children <;> cases h' : i.children <;>
      simp [entry, Entry.shownChildList, Entry.childList, h, h']
  · intro h
    simp [h]

lemma keeps_changedBelow (i : Item) :
    i.Keeps { i with record := { i.record with changedBelow := true } } :=
  { Keeps.refl i with changedBelow := fun _ => rfl }

lemma keeps_attributesChanged (i : Item) (attributes : Attributes) :
    i.Keeps { i with attributes, record := { i.record with attributesChanged := true } } := by
  refine { Keeps.refl i with attributes_eq := ?_ }
  simp

lemma keeps_parent (h : i.record.parent.isSome) (parent : Option NodeId) :
    i.Keeps { i with parent } := by
  obtain ⟨p, hp⟩ := Option.isSome_iff_exists.1 h
  refine { Keeps.refl i with shownParent_eq := ?_ }
  simp [shownParent, hp]

lemma keeps_children (h : i.children.isSome → i.record.children.isSome)
    (change : List NodeId → List NodeId) : i.Keeps { i with children := i.children.map change } := by
  refine { Keeps.refl i with isSome_children_eq := Option.isSome_map, shownChildList_eq := ?_ }
  cases hc : i.children with
  | none => simp [entry, Entry.shownChildList, Entry.childList, hc]
  | some cs =>
    obtain ⟨shown, hs⟩ := Option.isSome_iff_exists.1 (h (by simp [hc]))
    simp [entry, Entry.shownChildList, hs]

end Item

namespace Forest

variable {f g h : Forest} {a n x container parent : NodeId} {i j : Item} {change : Item → Item}

/-! ### Look-ups -/

lemma entry_of_get? (hi : f.get? n = some i) : f.view.entry n = i.entry := by
  simp [view, hi]

lemma entry_congr (h : g.get? n = f.get? n) : g.view.entry n = f.view.entry n := by
  simp [view, h]

lemma entry_of_get?_none (hn : f.get? n = none) : f.view.entry n = {} := by
  simp [view, hn]

lemma parent_view (f : Forest) (n : NodeId) : f.view.parent n = f.parent? n := by
  rw [View.parent, parent?]
  cases hi : f.get? n with
  | none => rw [entry_of_get?_none hi]; rfl
  | some i => rw [entry_of_get? hi]; rfl

lemma contains_iff : f.contains n = true ↔ ∃ i, f.get? n = some i := Option.isSome_iff_exists

lemma get?_of_parent? (hp : f.parent? n = some parent) :
    ∃ i, f.get? n = some i ∧ i.parent = some parent :=
  Option.bind_eq_some_iff.1 hp

lemma get?_of_isContainer (hn : f.view.isContainer n) :
    ∃ i, f.get? n = some i ∧ i.children.isSome := by
  cases hi : f.get? n with
  | none => simp [View.isContainer, entry_of_get?_none hi, Entry.isContainer] at hn
  | some i => exact ⟨i, rfl, by rwa [View.isContainer, entry_of_get? hi] at hn⟩

lemma contains_of_isContainer (hn : f.view.isContainer n) : f.contains n := by
  obtain ⟨i, hi, -⟩ := get?_of_isContainer hn
  exact contains_iff.2 ⟨i, hi⟩

lemma entry_update (hi : f.get? n = some i) : (f.update n change).view.entry n = (change i).entry := by
  apply entry_of_get?
  rw [get?_update, if_pos rfl, hi]
  rfl

lemma entry_update_of_ne (hx : n ≠ x) : (f.update n change).view.entry x = f.view.entry x :=
  entry_congr (by rw [get?_update, if_neg hx])

lemma entry_update_of_none (hn : f.get? n = none) :
    (f.update n change).view.entry x = f.view.entry x := by
  apply entry_congr
  rw [get?_update]
  split
  · next hx =>
    subst hx
    simp [hn]
  · rfl

lemma contains_update : (f.update n change).contains = f.contains := by
  funext x
  rw [contains, contains, get?_update]
  split
  · next hx =>
    subst hx
    exact Option.isSome_map
  · rfl

lemma parent_update (hchange : ∀ i, (change i).parent = i.parent) :
    (f.update n change).view.parent = f.view.parent := by
  funext x
  rw [parent_view, parent_view, parent?, parent?, get?_update]
  split
  · next hx =>
    subst hx
    cases f.get? n with
    | none => rfl
    | some i => exact hchange i
  · rfl

lemma children_update (hchange : ∀ i, (change i).children = i.children) :
    (f.update n change).view.children = f.view.children := by
  funext x
  rw [View.children, View.children]
  cases hi : f.get? n with
  | none => rw [entry_update_of_none hi]
  | some i =>
    by_cases hx : n = x
    · subst hx
      rw [entry_update hi, entry_of_get? hi, Entry.childList, Entry.childList, Item.entry,
        Item.entry, hchange]
    · rw [entry_update_of_ne hx]

/-! ### The present state -/

/-- The present state of a node, without its record. -/
def now (f : Forest) (n : NodeId) : Option Item := (f.get? n).map Item.settle

lemma parent?_eq (f : Forest) (n : NodeId) : f.parent? n = (f.now n).bind (·.parent) := by
  rw [parent?, now]
  cases f.get? n <;> rfl

lemma contains_eq (f : Forest) (n : NodeId) : f.contains n = (f.now n).isSome := by
  rw [contains, now, Option.isSome_map]

lemma children_eq (f : Forest) (n : NodeId) :
    f.view.children n = ((f.now n).bind (·.children)).getD [] := by
  rw [View.children, now]
  cases hi : f.get? n with
  | none => rw [entry_of_get?_none hi]; rfl
  | some i => rw [entry_of_get? hi]; rfl

lemma isContainer_eq (f : Forest) (n : NodeId) :
    f.view.isContainer n = ((f.now n).bind (·.children)).isSome := by
  rw [View.isContainer, now]
  cases hi : f.get? n with
  | none => rw [entry_of_get?_none hi]; rfl
  | some i => rw [entry_of_get? hi]; rfl

lemma replacesChildren_eq (f : Forest) (n : NodeId) : (f.view.entry n).replacesChildren =
    ((f.now n).map (·.replacesChildren)).getD false := by
  rw [now]
  cases hi : f.get? n with
  | none => rw [entry_of_get?_none hi]; rfl
  | some i => rw [entry_of_get? hi]; rfl

lemma contains_congr (hnow : g.now = f.now) : g.contains = f.contains := by
  funext x
  rw [contains_eq, contains_eq, hnow]

lemma parent_congr (hnow : g.now = f.now) : g.view.parent = f.view.parent := by
  funext x
  rw [parent_view, parent_view, parent?_eq, parent?_eq, hnow]

lemma children_congr (hnow : g.now = f.now) : g.view.children = f.view.children := by
  funext x
  rw [children_eq, children_eq, hnow]

lemma isContainer_congr (hnow : g.now = f.now) (n : NodeId) :
    g.view.isContainer n = f.view.isContainer n := by
  rw [isContainer_eq, isContainer_eq, hnow]

/-- The ancestors of a node are read off the present state. -/
lemma ancestors_congr (hnow : g.now = f.now) (n : NodeId) : g.ancestors n = f.ancestors n := by
  rw [ancestors, ancestors, contains_eq, contains_eq, hnow,
    View.climb_congr (congrFun (parent_congr hnow))]

/-- What the view says about the present is read off the present state. -/
lemma entry_present_congr (hnow : g.now = f.now) (n : NodeId) :
    (g.view.entry n).tag = (f.view.entry n).tag ∧
      (g.view.entry n).attributes = (f.view.entry n).attributes ∧
        (g.view.entry n).children = (f.view.entry n).children ∧
          (g.view.entry n).replacesChildren = (f.view.entry n).replacesChildren := by
  have hn : (g.get? n).map Item.settle = (f.get? n).map Item.settle := congrFun hnow n
  cases hi : f.get? n with
  | none =>
    rw [hi, Option.map_none, Option.map_eq_none_iff] at hn
    rw [entry_of_get?_none hi, entry_of_get?_none hn]
    exact ⟨rfl, rfl, rfl, rfl⟩
  | some i =>
    rw [hi] at hn
    obtain ⟨j, hj, hji⟩ := Option.map_eq_some_iff.1 hn
    rw [entry_of_get? hi, entry_of_get? hj]
    have hji : j.settle = i.settle := hji
    simp only [Item.settle, Item.mk.injEq] at hji
    exact ⟨hji.1, hji.2.1, hji.2.2.1, hji.2.2.2.2.1⟩

lemma describe_congr (hnow : g.now = f.now) (n : NodeId) :
    g.view.describe n = f.view.describe n :=
  View.describe_congr (fun n => ⟨(entry_present_congr hnow n).1, (entry_present_congr hnow n).2.1,
    (entry_present_congr hnow n).2.2.1⟩) n

lemma isForest_congr (hnow : g.now = f.now) (h : f.view.IsForest) : g.view.IsForest :=
  h.congr (parent_congr hnow) (children_congr hnow)

lemma now_update (hchange : ∀ i, (change i).settle = change i.settle) : (f.update n change).now x =
    (f.now x).map fun item => if n = x then change item else item := by
  rw [now, now, get?_update]
  split
  · next hx =>
    subst hx
    rw [Option.map_map, Option.map_map]
    exact congrArg (fun k => Option.map k (f.get? n)) (funext hchange)
  · rw [Option.map_id']

lemma now_update_of_settle (hchange : ∀ i, (change i).settle = i.settle) :
    (f.update n change).now = f.now := by
  funext x
  rw [now, get?_update]
  split
  · next hx =>
    subst hx
    rw [Option.map_map, now]
    exact congrArg (fun k => Option.map k (f.get? n)) (funext hchange)
  · rfl

/-- Tells a single node that something below it changed. -/
def mark (f : Forest) (n : NodeId) : Forest :=
  f.update n fun item => { item with record := { item.record with changedBelow := true } }

lemma foldl_mark_induct {motive : Forest → Prop} (hf : motive f)
    (step : ∀ g a, motive g → motive (g.mark a)) (nodes : List NodeId) :
    motive (nodes.foldl mark f) := by
  induction nodes generalizing f with
  | nil => exact hf
  | cons a rest ih => exact ih (step f a hf)

/-- What holds of a forest and stays true when a node is marked holds when all ancestors of a node are
marked. -/
lemma markAbove_induct {motive : Forest → Prop} (hf : motive f)
    (step : ∀ g a, motive g → motive (g.mark a)) (n : NodeId) : motive (f.markAbove n) := by
  rw [markAbove]
  split
  · exact hf
  · exact foldl_mark_induct hf step _

@[simp] lemma now_mark (f : Forest) (n : NodeId) : (f.mark n).now = f.now :=
  now_update_of_settle fun _ => rfl

@[simp] lemma now_markAbove (f : Forest) (n : NodeId) : (f.markAbove n).now = f.now :=
  markAbove_induct (motive := fun g => g.now = f.now) rfl (fun g a h => (now_mark g a).trans h) n

@[simp] lemma now_recordParent (f : Forest) (n : NodeId) : (f.recordParent n).now = f.now :=
  now_update_of_settle fun _ => rfl

@[simp] lemma now_recordChildren (f : Forest) (n : NodeId) : (f.recordChildren n).now = f.now :=
  (now_markAbove _ _).trans (now_update_of_settle fun _ => rfl)

/-! ### Keeping what is shown -/

/-- Whether a forest says the same about what is shown as an earlier state of it. Nodes that are new
are shown nowhere. -/
structure Keeps (f g : Forest) : Prop where
  /-- The page has the same top. -/
  root_eq : g.root = f.root
  /-- No node is gone, and each says the same. -/
  item : ∀ n i, f.get? n = some i → ∃ j, g.get? n = some j ∧ i.Keeps j
  /-- New nodes are not shown. -/
  new : ∀ n j, f.get? n = none → g.get? n = some j →
    j.shownParent = none ∧ j.entry.shownChildList = []

namespace Keeps

lemma refl (f : Forest) : f.Keeps f where
  root_eq := rfl
  item n i hi := ⟨i, hi, .refl i⟩
  new n j hn hj := by simp [hn] at hj

lemma trans (hfg : f.Keeps g) (hgh : g.Keeps h) : f.Keeps h where
  root_eq := hgh.root_eq.trans hfg.root_eq
  item n i hi := by
    obtain ⟨j, hj, hij⟩ := hfg.item n i hi
    obtain ⟨k, hk, hjk⟩ := hgh.item n j hj
    exact ⟨k, hk, hij.trans hjk⟩
  new n k hn hk := by
    cases hj : g.get? n with
    | none => exact hgh.new n k hj hk
    | some j =>
      obtain ⟨k', hk', hjk⟩ := hgh.item n j hj
      obtain rfl : k' = k := Option.some.inj (hk'.symm.trans hk)
      exact (hfg.new n j hn hj).imp hjk.shownParent_eq.trans hjk.shownChildList_eq.trans

/-- Nodes may change in ways that keep what they say. -/
lemma of_map {T : NodeId → Item → Item} (hroot : g.root = f.root)
    (hget : ∀ x, g.get? x = (f.get? x).map (T x))
    (hT : ∀ x i, f.get? x = some i → i.Keeps (T x i)) : f.Keeps g where
  root_eq := hroot
  item x i hi := ⟨T x i, by rw [hget, hi]; rfl, hT x i hi⟩
  new x j hx hj := by simp [hget, hx] at hj

lemma update (hfg : f.Keeps g) (hi : ∀ j, g.get? n = some j → j.Keeps (change j)) :
    f.Keeps (g.update n change) := by
  refine hfg.trans (of_map (T := fun x i => if n = x then change i else i) rfl ?_ ?_)
  · intro x
    rw [get?_update]
    split
    · next h => rw [h]
    · rw [Option.map_id']
  · intro x j hj
    split
    · next h => exact hi j (h ▸ hj)
    · exact .refl j

lemma markAbove (hfg : f.Keeps g) (n : NodeId) : f.Keeps (g.markAbove n) :=
  markAbove_induct hfg (fun _ _ h => h.update fun j _ => j.keeps_changedBelow) n

lemma recordParent (hfg : f.Keeps g) (n : NodeId) : f.Keeps (g.recordParent n) :=
  hfg.update fun j _ => j.keeps_recordParent

lemma recordChildren (hfg : f.Keeps g) (n : NodeId) : f.Keeps (g.recordChildren n) :=
  (hfg.update fun j _ => j.keeps_recordChildren).markAbove n

/-! What a view of the forest says -/

variable (hfg : f.Keeps g)

include hfg

lemma contains (hn : f.contains n) : g.contains n := by
  obtain ⟨i, hi⟩ := contains_iff.1 hn
  obtain ⟨j, hj, -⟩ := hfg.item n i hi
  exact contains_iff.2 ⟨j, hj⟩

lemma isContainer (hn : f.view.isContainer n) : g.view.isContainer n := by
  obtain ⟨i, hi, hchildren⟩ := get?_of_isContainer hn
  obtain ⟨j, hj, hij⟩ := hfg.item n i hi
  rw [View.isContainer, entry_of_get? hj]
  exact hij.isSome_children_eq.trans hchildren

lemma shownParent_eq (n : NodeId) : g.view.shownParent n = f.view.shownParent n := by
  rw [View.shownParent, View.shownParent]
  cases hi : f.get? n with
  | some i =>
    obtain ⟨j, hj, hij⟩ := hfg.item n i hi
    rw [entry_of_get? hi, entry_of_get? hj]
    exact hij.shownParent_eq
  | none =>
    rw [entry_of_get?_none hi]
    cases hj : g.get? n with
    | none => rw [entry_of_get?_none hj]
    | some j =>
      rw [entry_of_get? hj]
      exact (hfg.new n j hi hj).1

lemma entry_matches {m : Node} (hn : f.contains n) (hm : (f.view.entry n).Matches m) :
    (g.view.entry n).Matches m := by
  obtain ⟨i, hi⟩ := contains_iff.1 hn
  obtain ⟨j, hj, hij⟩ := hfg.item n i hi
  rw [entry_of_get? hi] at hm
  rw [entry_of_get? hj]
  constructor
  · exact hij.isSome_children_eq.trans hm.isContainer_eq
  · exact hij.tag_eq.trans hm.tag_eq
  · intro h
    obtain ⟨hchanged, hattributes⟩ := hij.attributes_eq h
    exact hattributes.trans (hm.attributes_eq hchanged)
  · exact fun h => hij.shownChildList_eq.trans (hm.shownChildList_eq h)

lemma isMarked (hn : (f.view.entry n).IsMarked) : (g.view.entry n).IsMarked := by
  cases hi : f.get? n with
  | none => simp [entry_of_get?_none hi, Entry.IsMarked] at hn
  | some i =>
    obtain ⟨j, hj, hij⟩ := hfg.item n i hi
    rw [entry_of_get? hi] at hn
    rw [entry_of_get? hj]
    exact hn.imp hij.changedBelow hij.isSome_children

lemma shownChildList_eq (n : NodeId) :
    (g.view.entry n).shownChildList = (f.view.entry n).shownChildList := by
  cases hi : f.get? n with
  | some i =>
    obtain ⟨j, hj, hij⟩ := hfg.item n i hi
    rw [entry_of_get? hi, entry_of_get? hj]
    exact hij.shownChildList_eq
  | none =>
    rw [entry_of_get?_none hi]
    cases hj : g.get? n with
    | none => rw [entry_of_get?_none hj]
    | some j =>
      rw [entry_of_get? hj]
      exact (hfg.new n j hi hj).2

lemma isSome_shownChildren (hn : (f.view.entry n).shownChildren.isSome) :
    (g.view.entry n).shownChildren.isSome := by
  cases hi : f.get? n with
  | none => simp [entry_of_get?_none hi] at hn
  | some i =>
    obtain ⟨j, hj, hij⟩ := hfg.item n i hi
    rw [entry_of_get? hi] at hn
    rw [entry_of_get? hj]
    exact hij.isSome_children hn

end Keeps

end Forest

end PageSync
