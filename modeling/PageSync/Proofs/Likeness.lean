import PageSync.Proofs.Edits

/-!
# Edits of forests that are alike

Two forests may differ in nothing but the records of some nodes (`Forest.Alike`). An edit looks at no
records, and it changes only those that it also makes sure of. So the same edit is accepted or refused
by both, and leaves them as alike as they were (`Forest.Alike.edit`).
-/

namespace PageSync

namespace Forest

/-- Whether two forests are the same but for the records of nodes that are not special. -/
structure Alike (special : NodeId → Prop) (f g : Forest) : Prop where
  /-- Their pages have the same top. -/
  root_eq : g.root = f.root
  /-- The next new node gets the same number. -/
  nextNumber_eq : g.nextNumber = f.nextNumber
  /-- Each node is in the same state. -/
  now_eq : g.now = f.now
  /-- Special nodes have the same records as well. -/
  get?_eq : ∀ n, special n → g.get? n = f.get? n

/-- Whether two attempts are refused for the same reason, or both succeed with results that are
related. -/
inductive Both {α β : Type} (related : α → β → Prop) :
    Except EditError α → Except EditError β → Prop
  /-- Both succeed. -/
  | ok {a : α} {b : β} (h : related a b) : Both related (.ok a) (.ok b)
  /-- Both are refused. -/
  | error (e : EditError) : Both related (.error e) (.error e)

lemma Both.bind {α β α' β' : Type} {r : α → β → Prop} {s : α' → β' → Prop}
    {m : Except EditError α} {m' : Except EditError β} {k : α → Except EditError α'}
    {k' : β → Except EditError β'} (hm : Both r m m') (hk : ∀ a b, r a b → Both s (k a) (k' b)) :
    Both s (m >>= k) (m' >>= k') := by
  cases hm with
  | ok h => exact hk _ _ h
  | error e => exact .error e

namespace Alike

variable {special : NodeId → Prop} {f g : Forest} {n container child : NodeId} {index : Nat}
  {change : Item → Item} {e : Edit} {es : List Edit}

/-! ### Records -/

variable (h : Alike special f g)

include h

lemma contains_eq : g.contains = f.contains := contains_congr h.now_eq

/-- Changes that look at no records keep forests alike. -/
lemma update (hchange : ∀ i, (change i).settle = (change i.settle).settle) :
    Alike special (f.update n change) (g.update n change) where
  root_eq := h.root_eq
  nextNumber_eq := h.nextNumber_eq
  now_eq := by
    have hmap (f : Forest) : ((f.get? n).map change).map Item.settle =
        (f.now n).map fun i => (change i).settle := by
      rw [now, Option.map_map, Option.map_map]
      exact congrArg (fun k => Option.map k (f.get? n)) (funext hchange)
    funext x
    rw [now, now, get?_update, get?_update]
    split
    · rw [hmap, hmap, h.now_eq]
    · exact congrFun h.now_eq x
  get?_eq x hx := by
    rw [get?_update, get?_update]
    split
    · next hn => rw [hn, h.get?_eq x hx]
    · exact h.get?_eq x hx

lemma foldl_mark (nodes : List NodeId) :
    Alike special (nodes.foldl mark f) (nodes.foldl mark g) := by
  induction nodes generalizing f g with
  | nil => exact h
  | cons a rest ih => exact ih (h.update fun _ => rfl)

lemma markAbove (n : NodeId) : Alike special (f.markAbove n) (g.markAbove n) := by
  rw [Forest.markAbove, Forest.markAbove, parent?_eq, parent?_eq, h.now_eq]
  split
  · exact h
  · rw [markChangedBelow, markChangedBelow, ancestors_congr h.now_eq]
    exact h.foldl_mark _

lemma recordParent (n : NodeId) : Alike special (f.recordParent n) (g.recordParent n) :=
  h.update fun _ => rfl

lemma recordChildren (n : NodeId) : Alike special (f.recordChildren n) (g.recordChildren n) :=
  (h.update (by exact fun _ => rfl)).markAbove n

lemma redress (n : NodeId) (change : Attributes → Attributes) :
    Alike special (f.redress n change) (g.redress n change) :=
  ((h.update (by exact fun _ => rfl)).update (by exact fun _ => rfl)).markAbove n

lemma add (tag : String) (children : Option (List NodeId)) :
    Alike special (f.add tag children).2 (g.add tag children).2 where
  root_eq := h.root_eq
  nextNumber_eq := congrArg (· + 1) h.nextNumber_eq
  now_eq := by
    funext x
    rw [now, now, get?_add, get?_add, h.nextNumber_eq]
    split
    · rfl
    · exact congrFun h.now_eq x
  get?_eq x hx := by rw [get?_add, get?_add, h.nextNumber_eq, h.get?_eq x hx]

/-! ### Moves -/

lemma relink (n container : NodeId) (arrange : List NodeId → List NodeId) (up : Option NodeId) :
    Alike special (f.relink n container arrange up) (g.relink n container arrange up) :=
  (((h.recordParent n).recordChildren container).update (by exact fun _ => rfl)).update
    (by exact fun _ => rfl)

lemma takeOut (n : NodeId) : Alike special (f.takeOut n) (g.takeOut n) := by
  have hparent := congrFun (parent_congr h.now_eq) n
  cases hp : f.view.parent n with
  | none => rwa [takeOut_of_top hp, takeOut_of_top (hparent.trans hp)]
  | some p =>
    rw [takeOut_of_parent hp, takeOut_of_parent (hparent.trans hp)]
    exact h.relink n p _ none

lemma move (container : NodeId) (index : Nat) (child : NodeId) :
    Alike special (f.move container index child) (g.move container index child) :=
  (h.takeOut child).relink child container _ _

/-! ### Attempts -/

lemma item (n : NodeId) :
    Both (fun i j => j.parent = i.parent ∧ j.children = i.children ∧ j.attributes = i.attributes)
      (f.item n) (g.item n) := by
  have hn : (g.get? n).map Item.settle = (f.get? n).map Item.settle := congrFun h.now_eq n
  rw [Forest.item, Forest.item]
  cases hi : f.get? n with
  | none =>
    rw [hi, Option.map_none, Option.map_eq_none_iff] at hn
    rw [hn]
    exact .error _
  | some i =>
    rw [hi] at hn
    obtain ⟨j, hj, hji⟩ := Option.map_eq_some_iff.1 hn
    rw [hj]
    have hparent := congrArg Item.parent hji
    have hchildren := congrArg Item.children hji
    have hattributes := congrArg Item.attributes hji
    exact .ok ⟨hparent, hchildren, hattributes⟩

lemma countOthers (container child : NodeId) :
    Both Eq (f.countOthers container child) (g.countOthers container child) := by
  apply (h.item child).bind
  intro moved _ hmoved
  apply (h.item container).bind
  intro i j hij
  rw [hmoved.1, hij.2.1]
  split
  · exact .error _
  · exact .ok rfl

lemma insert (container : NodeId) (index : Nat) (child : NodeId) :
    Both (Alike special) (f.insert container index child) (g.insert container index child) := by
  apply (h.countOthers container child).bind
  intro count _ hcount
  rw [← hcount, h.root_eq, ancestors_congr h.now_eq]
  split
  · exact .error _
  · split
    · exact .error _
    · split
      · exact .error _
      · exact .ok (h.move container index child)

lemma append (container child : NodeId) :
    Both (Alike special) (f.append container child) (g.append container child) :=
  (h.countOthers container child).bind fun _ _ hcount => hcount ▸ h.insert _ _ _

lemma remove (n : NodeId) : Both (Alike special) (f.remove n) (g.remove n) := by
  apply (h.item n).bind
  intro _ _ _
  rw [h.root_eq]
  split
  · exact .error _
  · exact .ok (h.takeOut n)

lemma setAttribute (n : NodeId) (name value : String) :
    Both (Alike special) (f.setAttribute n name value) (g.setAttribute n name value) := by
  apply (h.item n).bind
  intro i j hij
  rw [hij.2.2]
  split
  · exact .ok h
  · exact .ok (h.redress n (·.insert name value))

lemma eraseAttribute (n : NodeId) (name : String) :
    Both (Alike special) (f.eraseAttribute n name) (g.eraseAttribute n name) := by
  apply (h.item n).bind
  intro i j hij
  rw [hij.2.2]
  split
  · exact .ok h
  · exact .ok (h.redress n (·.erase name))

lemma setReplacesChildren (n : NodeId) (value : Bool) :
    Both (Alike special) (f.setReplacesChildren n value) (g.setReplacesChildren n value) := by
  apply (h.item n).bind
  intro i j hij
  rw [hij.2.1]
  split
  · exact .error _
  · exact .ok (h.update fun _ => rfl)

lemma setAttributes (n : NodeId) (entries : List (String × String)) :
    Both (Alike special) (f.setAttributes n entries) (g.setAttributes n entries) := by
  induction entries generalizing f g with
  | nil => exact .ok h
  | cons entry rest ih =>
    exact (h.setAttribute n entry.1 entry.2).bind fun _ _ h => ih h

end Alike

variable {special : NodeId → Prop} {f g : Forest}

mutual

theorem Alike.graft (content : Node) {f g : Forest} (h : Alike special f g) :
    Both (fun a b => b.1 = a.1 ∧ Alike special a.2 b.2) (graft content f) (graft content g) := by
  match content with
  | .leaf _ tag attributes =>
    rw [Forest.graft, Forest.graft]
    simp only [addLeaf, fst_add, h.nextNumber_eq]
    exact ((h.add tag none).setAttributes _ _).bind fun _ _ h => .ok ⟨rfl, h⟩
  | .container _ tag attributes children =>
    rw [Forest.graft, Forest.graft]
    simp only [addContainer, fst_add, h.nextNumber_eq]
    apply ((h.add tag (some [])).setAttributes _ _).bind
    intro _ _ h
    exact (Alike.graftAll children h _).bind fun _ _ h => .ok ⟨rfl, h⟩

theorem Alike.graftAll (contents : List Node) {f g : Forest} (h : Alike special f g)
    (container : NodeId) : Both (Alike special) (graft.graftAll container contents f)
      (graft.graftAll container contents g) := by
  match contents with
  | [] => exact .ok h
  | content :: rest =>
    apply (Alike.graft content h).bind
    rintro ⟨id, f'⟩ ⟨id', g'⟩ ⟨hid, h⟩
    obtain rfl : id' = id := hid
    exact (h.append container id').bind fun _ _ h => Alike.graftAll rest h container

end

namespace Alike

variable {e : Edit} {es : List Edit} (h : Alike special f g)

include h

/-! ### Edits -/

lemma attempt (e : Edit) : Both (Alike special) (f.attempt e) (g.attempt e) := by
  cases e with
  | addLeaf tag => exact .ok (h.add tag none)
  | addContainer tag => exact .ok (h.add tag (some []))
  | graft content =>
    have hgraft := Alike.graft content h
    rw [Forest.attempt, Forest.attempt]
    generalize Forest.graft content f = m at hgraft ⊢
    generalize Forest.graft content g = m' at hgraft ⊢
    cases hgraft with
    | ok h => exact .ok h.2
    | error e => exact .error e
  | insert container index child => exact h.insert container index child
  | append container child => exact h.append container child
  | remove node => exact h.remove node
  | setAttribute node name value => exact h.setAttribute node name value
  | eraseAttribute node name => exact h.eraseAttribute node name
  | setReplacesChildren container value => exact h.setReplacesChildren container value

/-- Forests that are alike still are after the same edit. -/
theorem edit (e : Edit) : Alike special (f.edit e) (g.edit e) := by
  have hattempt := h.attempt e
  rw [Forest.edit, Forest.edit]
  generalize f.attempt e = m at hattempt ⊢
  generalize g.attempt e = m' at hattempt ⊢
  cases hattempt with
  | ok h => exact h
  | error e => exact h

lemma edits (es : List Edit) : Alike special (f.edits es) (g.edits es) := by
  induction es generalizing f g with
  | nil => exact h
  | cons e es ih => exact ih (h.edit e)

lemma hasRoom {k : Nat} (hroom : f.HasRoom k) : g.HasRoom k :=
  hroom.congr h.nextNumber_eq h.contains_eq

lemma allows {top : NodeId} (hallows : f.Allows top es) : g.Allows top es := by
  induction es generalizing f g with
  | nil => trivial
  | cons e es ih =>
    refine ⟨h.hasRoom hallows.1, fun hroot => ?_, ih (h.edit e) hallows.2.2⟩
    rw [parent_congr (h.edit e).now_eq]
    exact hallows.2.1 (h.root_eq ▸ hroot)

end Alike

end Forest

end PageSync
