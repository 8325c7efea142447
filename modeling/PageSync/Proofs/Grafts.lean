import PageSync.Proofs.Edits

/-!
# Grafts

To load a subtree next to the page is to make many single edits one after the other: each node is
added, its attributes are stored, and its children are loaded and appended in turn. `Node.script` lists
these edits, and carrying them out leads to the same forest (`Forest.edits_script`). So what is true of
any sequence of edits other than grafts is true of all edits (`Edit.singles`). An edit takes up as
many numbers as it makes nodes (`Forest.Rooted.nextNumber_edit`).
-/

namespace PageSync

lemma Node.size_pos (content : Node) : 0 < content.size := by
  cases content with
  | leaf => exact Nat.zero_lt_one
  | container =>
    rw [Node.size]
    omega

/-! ### Single edits -/

/-- The edits that store attributes of a node, one after the other. -/
def storing (n : NodeId) (entries : List (String × String)) : List Edit :=
  entries.map fun (name, value) => .setAttribute n name value

/-- The edits by which a described subtree is loaded, if its topmost node gets the given number. -/
def Node.script : Node → UInt32 → List Edit
  | .leaf _ tag attributes, number => .addLeaf tag :: storing ⟨number⟩ attributes.entries
  | .container _ tag attributes children, number =>
    .addContainer tag :: storing ⟨number⟩ attributes.entries ++ scripts ⟨number⟩ children (number + 1)
where
  /-- The edits by which described subtrees are loaded and appended to a container, if the first of the
  new nodes gets the given number. -/
  scripts (container : NodeId) : List Node → UInt32 → List Edit
  | [], _ => []
  | child :: rest, number =>
    child.script number ++ .append container ⟨number⟩ ::
      scripts container rest (number + UInt32.ofNat child.size)

/-- The single edits that an edit of a forest consists of. -/
def Edit.singles (f : Forest) : Edit → List Edit
  | .graft content => content.script f.nextNumber
  | e => [e]

namespace Forest

variable {f g : Forest} {n x container child id : NodeId} {index k : Nat} {name value : String}
  {entries : List (String × String)} {e : Edit} {es es' : List Edit}

@[simp] lemma edits_nil : f.edits [] = f := rfl

@[simp] lemma edits_cons : f.edits (e :: es) = (f.edit e).edits es := rfl

lemma edits_append : f.edits (es ++ es') = (f.edits es).edits es' := List.foldl_append

lemma edit_of_attempt (hg : f.attempt e = .ok g) : f.edit e = g := by
  rw [edit, hg]

/-! ### Edits that make no nodes -/

lemma nextNumber_redress (change : Attributes → Attributes) :
    (f.redress n change).nextNumber = f.nextNumber :=
  (samePlaces_redress f n change).nextNumber_eq

lemma contains_redress (change : Attributes → Attributes) :
    (f.redress n change).contains = f.contains :=
  (samePlaces_redress f n change).contains_eq

/-- An edit that makes no nodes leaves the identifiers as they are. -/
lemma sameNodes_attempt (hsize : e.size = 0) (hg : f.attempt e = .ok g) :
    g.nextNumber = f.nextNumber ∧ g.contains = f.contains := by
  cases e with
  | addLeaf tag => cases hsize
  | addContainer tag => cases hsize
  | graft content => exact absurd hsize content.size_pos.ne'
  | insert container index child =>
    obtain ⟨-, -, -, -, -, rfl⟩ := of_insert_eq_ok hg
    exact ⟨nextNumber_move, funext fun _ => contains_move⟩
  | append container child =>
    obtain ⟨index, hg⟩ := of_append_eq_ok hg
    obtain ⟨-, -, -, -, -, rfl⟩ := of_insert_eq_ok hg
    exact ⟨nextNumber_move, funext fun _ => contains_move⟩
  | remove node =>
    obtain ⟨-, rfl⟩ := of_remove_eq_ok hg
    exact ⟨nextNumber_takeOut, funext fun _ => contains_takeOut⟩
  | setAttribute node name value =>
    obtain ⟨i, -, ⟨-, rfl⟩ | ⟨-, rfl⟩⟩ := of_setAttribute_eq_ok hg
    · exact ⟨rfl, rfl⟩
    · exact ⟨nextNumber_redress _, contains_redress _⟩
  | eraseAttribute node name =>
    obtain ⟨i, -, ⟨-, rfl⟩ | ⟨-, rfl⟩⟩ := of_eraseAttribute_eq_ok hg
    · exact ⟨rfl, rfl⟩
    · exact ⟨nextNumber_redress _, contains_redress _⟩
  | setReplacesChildren container value =>
    rw [of_setReplacesChildren_eq_ok hg]
    exact ⟨rfl, contains_update⟩

lemma sameNodes_edit (hsize : e.size = 0) :
    (f.edit e).nextNumber = f.nextNumber ∧ (f.edit e).contains = f.contains := by
  rw [edit]
  split
  · next hg => exact sameNodes_attempt hsize hg
  · exact ⟨rfl, rfl⟩

/-! ### Loading by single edits -/

lemma edits_storing (hg : f.setAttributes n entries = .ok g) :
    f.edits (storing n entries) = g ∧ g.nextNumber = f.nextNumber := by
  induction entries generalizing f with
  | nil =>
    obtain rfl := Except.ok.inj hg
    exact ⟨rfl, rfl⟩
  | cons entry rest ih =>
    obtain ⟨f', hf', hg⟩ := bind_eq_ok.1 hg
    obtain ⟨hedits, hnext⟩ := ih hg
    have hfirst : f.edit (.setAttribute n entry.1 entry.2) = f' := edit_of_attempt hf'
    refine ⟨?_, hnext.trans (sameNodes_attempt (e := .setAttribute n entry.1 entry.2) rfl hf').1⟩
    rw [storing, List.map_cons, edits_cons, hfirst]
    exact hedits

mutual

/-- To load a subtree is to carry out its script, which takes up as many numbers as there are nodes. -/
theorem edits_script (content : Node) {f g : Forest} {id : NodeId}
    (hg : graft content f = .ok (id, g)) :
    id = ⟨f.nextNumber⟩ ∧ f.edits (content.script f.nextNumber) = g ∧
      g.nextNumber = f.nextNumber + UInt32.ofNat content.size := by
  match content with
  | .leaf _ tag attributes =>
    obtain ⟨f', hf', hg⟩ := bind_eq_ok.1 hg
    obtain ⟨rfl, rfl⟩ := Prod.mk.inj (Except.ok.inj hg)
    obtain ⟨hedits, hnext⟩ := edits_storing hf'
    exact ⟨rfl, hedits, hnext⟩
  | .container _ tag attributes children =>
    obtain ⟨f', hf', hg⟩ := bind_eq_ok.1 hg
    obtain ⟨g', hg', hg⟩ := bind_eq_ok.1 hg
    obtain ⟨rfl, rfl⟩ := Prod.mk.inj (Except.ok.inj hg)
    obtain ⟨hedits, hnext⟩ := edits_storing hf'
    obtain ⟨hchildren, hnext'⟩ := edits_scripts children hg'
    have hnumber : f'.nextNumber = f.nextNumber + 1 := hnext
    refine ⟨rfl, ?_, ?_⟩
    · rw [Node.script, List.cons_append, edits_cons, edits_append]
      have hself : (f.edit (.addContainer tag)).edits (storing ⟨f.nextNumber⟩ attributes.entries) =
          f' := hedits
      rw [hself, ← hnumber, hchildren]
    · rw [hnext', hnumber, Node.size, UInt32.ofNat_add, ← UInt32.add_assoc]
      rfl

theorem edits_scripts (contents : List Node) {f g : Forest} {container : NodeId}
    (hg : graft.graftAll container contents f = .ok g) :
    f.edits (Node.script.scripts container contents f.nextNumber) = g ∧
      g.nextNumber = f.nextNumber + UInt32.ofNat (Node.size.sizes contents) := by
  match contents with
  | [] =>
    obtain rfl := Except.ok.inj hg
    exact ⟨rfl, (UInt32.add_zero _).symm⟩
  | content :: rest =>
    obtain ⟨⟨id, f₁⟩, hf₁, hg⟩ := bind_eq_ok.1 hg
    obtain ⟨rfl, hfirst, hnext₁⟩ := edits_script content hf₁
    change (f₁.append container ⟨f.nextNumber⟩ >>= graft.graftAll container rest) = .ok g at hg
    obtain ⟨f₂, hf₂, hg⟩ := bind_eq_ok.1 hg
    obtain ⟨hrest, hnext⟩ := edits_scripts rest hg
    have hnext₂ : f₂.nextNumber = f.nextNumber + UInt32.ofNat content.size :=
      (sameNodes_attempt (e := .append container ⟨f.nextNumber⟩) rfl hf₂).1.trans hnext₁
    have happend : f₁.edit (.append container ⟨f.nextNumber⟩) = f₂ := edit_of_attempt hf₂
    constructor
    · rw [Node.script.scripts, edits_append, hfirst, edits_cons, happend, ← hnext₂, hrest]
    · rw [hnext, hnext₂, Node.size.sizes, UInt32.ofNat_add, UInt32.add_assoc]

end

/-- The forest after a subtree was loaded. -/
lemma Rooted.edit_graft (h : f.Rooted) {content : Node} (hroom : f.HasRoom (content.size + k)) :
    ∃ id, graft content f = .ok (id, f.edit (.graft content)) ∧
      (f.edit (.graft content)).HasRoom k := by
  obtain ⟨id, g, hg, -, hrest⟩ := graft_eq_ok content h hroom
  have hattempt : f.attempt (.graft content) = .ok g := by
    rw [attempt, hg]
    rfl
  rw [edit_of_attempt hattempt]
  exact ⟨id, hg, hrest⟩

/-- To carry out an edit is to carry out its single edits. -/
lemma Rooted.edits_singles (h : f.Rooted) (hroom : f.HasRoom e.size) :
    f.edits (e.singles f) = f.edit e := by
  cases e with
  | graft content =>
    obtain ⟨id, hg, -⟩ := h.edit_graft (k := 0) hroom
    exact (edits_script content hg).2.1
  | _ => rfl

/-! ### Numbers for new nodes -/

/-- An edit takes up as many numbers as it makes nodes. -/
theorem Rooted.nextNumber_edit (h : f.Rooted) (hroom : f.HasRoom e.size) :
    (f.edit e).nextNumber = f.nextNumber + UInt32.ofNat e.size := by
  by_cases hsize : e.size = 0
  · rw [hsize, (sameNodes_edit hsize).1]
    exact (UInt32.add_zero _).symm
  · cases e with
    | addLeaf tag => rfl
    | addContainer tag => rfl
    | graft content =>
      obtain ⟨id, hg, -⟩ := h.edit_graft (k := 0) hroom
      exact (edits_script content hg).2.2
    | _ => exact absurd rfl hsize

/-- The numbers that an edit does not take up are still free. -/
lemma Rooted.hasRoom_edit (h : f.Rooted) (hroom : f.HasRoom (e.size + k)) :
    (f.edit e).HasRoom k := by
  by_cases hsize : e.size = 0
  · rw [hsize, Nat.zero_add] at hroom
    exact hroom.congr (sameNodes_edit hsize).1 (sameNodes_edit hsize).2
  · cases e with
    | addLeaf tag =>
      rw [Edit.size, Nat.add_comm] at hroom
      exact hroom.add
    | addContainer tag =>
      rw [Edit.size, Nat.add_comm] at hroom
      exact hroom.add
    | graft content =>
      obtain ⟨id, -, hrest⟩ := h.edit_graft hroom
      exact hrest
    | _ => exact absurd rfl hsize

end Forest

end PageSync
