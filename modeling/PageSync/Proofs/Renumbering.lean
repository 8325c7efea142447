import PageSync.Proofs.Insertions

/-!
# Loading a subtree loses nothing

A described subtree is loaded under the next free numbers, which its nodes get in document order
(`Node.renumber`). It is built by single edits, each of which checks what it is asked for and tells the
ancestors of the nodes that it changes. None of them is refused, and what they do stays within the new
nodes: all other nodes, and what is remembered of them, are as before (`Forest.lossless_graft`).
-/

namespace PageSync

/-! ### Attributes in order -/

namespace AttributeList

variable {name value : String} {entries : List (String × String)}

/-- What comes behind all names that are there is stored at the end. -/
lemma insert_of_lt (h : ∀ e ∈ entries, e.1 < name) :
    insert name value entries = entries ++ [(name, value)] := by
  induction entries with
  | nil => rfl
  | cons e rest ih =>
    have he : e.1 < name := h e List.mem_cons_self
    rw [insert, if_neg (String.lt_asymm he), if_neg (String.ne_of_lt he).symm,
      ih fun e' he' => h e' (List.mem_cons_of_mem _ he')]
    rfl

lemma find?_of_lt (h : ∀ e ∈ entries, e.1 < name) : find? name entries = none := by
  induction entries with
  | nil => rfl
  | cons e rest ih =>
    rw [find?, if_neg (String.ne_of_lt (h e List.mem_cons_self)),
      ih fun e' he' => h e' (List.mem_cons_of_mem _ he')]

end AttributeList

/-! ### New numbers -/

namespace Node

/-- A description with consecutive numbers, in document order, in the place of its identifiers. -/
def renumber : Node → UInt32 → Node
  | .leaf _ tag attributes, number => .leaf ⟨number⟩ tag attributes
  | .container _ tag attributes children, number =>
    .container ⟨number⟩ tag attributes (renumberAll children (number + 1))
where
  /-- Several descriptions with consecutive numbers. -/
  renumberAll : List Node → UInt32 → List Node
    | [], _ => []
    | child :: rest, number =>
      child.renumber number :: renumberAll rest (number + UInt32.ofNat child.size)

variable {number : UInt32}

@[simp] lemma id_renumber (t : Node) (number : UInt32) : (t.renumber number).id = ⟨number⟩ := by
  cases t <;> rfl

/-- The identifiers with consecutive numbers from a first one on. -/
def consecutive (number : UInt32) (count : Nat) : List NodeId :=
  (List.range count).map fun k => ⟨number + UInt32.ofNat k⟩

lemma consecutive_add (number : UInt32) (j k : Nat) : consecutive number (j + k) =
    consecutive number j ++ consecutive (number + UInt32.ofNat j) k := by
  rw [consecutive, List.range_add, List.map_append, List.map_map]
  congr 1
  apply List.map_congr_left
  intro i _
  rw [Function.comp_apply, UInt32.ofNat_add, UInt32.add_assoc]

lemma consecutive_one (number : UInt32) : consecutive number 1 = [⟨number⟩] := by
  simp [consecutive]

mutual

/-- The new numbers are consecutive in document order. -/
theorem ids_renumber (t : Node) (number : UInt32) :
    (t.renumber number).ids = consecutive number t.size := by
  match t with
  | .leaf .. => exact (consecutive_one number).symm
  | .container _ tag attributes children =>
    rw [renumber, ids_container, ids_renumberAll, size, consecutive_add, consecutive_one]
    rfl

theorem ids_renumberAll (ts : List Node) (number : UInt32) :
    (renumber.renumberAll ts number).flatMap ids = consecutive number (size.sizes ts) := by
  match ts with
  | [] => rfl
  | t :: rest =>
    rw [renumber.renumberAll, List.flatMap_cons, ids_renumber, ids_renumberAll, size.sizes,
      consecutive_add]

end

lemma get_consecutive {n : NodeId} {count : Nat} (hn : n ∈ consecutive number count) :
    ∃ k < count, n = ⟨number + UInt32.ofNat k⟩ := by
  obtain ⟨k, hk, rfl⟩ := List.mem_map.1 hn
  exact ⟨k, List.mem_range.1 hk, rfl⟩

end Node

namespace Forest

variable {f g h : Forest} {n x container child id : NodeId} {i : Item} {nodes more : List NodeId}
  {change : Item → Item} {dressing : Attributes → Attributes} {tag name value : String}
  {children : Option (List NodeId)} {entries : List (String × String)} {index k : Nat} {t m : Node}
  {ts : List Node}

/-! ### Changes to some nodes alone -/

/-- Whether a forest is another one with some nodes added or changed: all others are as before, and so is
whether they may have something in their records. -/
structure SameBut (f : Forest) (nodes : List NodeId) (g : Forest) : Prop where
  /-- The other nodes are the same. -/
  get?_eq : ∀ n ∉ nodes, g.get? n = f.get? n
  /-- The same ones of them are touched. -/
  mem_touched_iff : ∀ n ∉ nodes, n ∈ g.touched ↔ n ∈ f.touched

namespace SameBut

lemma refl (f : Forest) (nodes : List NodeId) : f.SameBut nodes f :=
  ⟨fun _ _ => rfl, fun _ _ => .rfl⟩

lemma mono (hfg : f.SameBut nodes g) (hsub : nodes ⊆ more) : f.SameBut more g :=
  ⟨fun n hn => hfg.get?_eq n fun hmem => hn (hsub hmem),
    fun n hn => hfg.mem_touched_iff n fun hmem => hn (hsub hmem)⟩

lemma trans (hfg : f.SameBut nodes g) (hgh : g.SameBut nodes h) : f.SameBut nodes h :=
  ⟨fun n hn => (hgh.get?_eq n hn).trans (hfg.get?_eq n hn),
    fun n hn => (hgh.mem_touched_iff n hn).trans (hfg.mem_touched_iff n hn)⟩

end SameBut

lemma mem_touch_iff (hx : x ≠ n) : x ∈ f.touch n i ↔ x ∈ f.touched := by
  rw [touch]
  split
  · rfl
  · rw [Std.TreeSet.mem_insert, or_iff_right]
    exact fun heq => hx (Std.LawfulEqCmp.eq_of_compare heq).symm

lemma sameBut_update (hn : n ∈ nodes) : f.SameBut nodes (f.update n change) where
  get?_eq x hx := by
    rw [get?_update, if_neg]
    rintro rfl
    exact hx hn
  mem_touched_iff x hx := by
    have hne : x ≠ n := fun heq => hx (heq ▸ hn)
    rw [update]
    dsimp only
    split
    · rfl
    · exact mem_touch_iff hne

lemma sameBut_add : f.SameBut [⟨f.nextNumber⟩] (f.add tag children).2 where
  get?_eq x hx := by
    rw [get?_add, if_neg]
    rintro rfl
    exact hx List.mem_cons_self
  mem_touched_iff x hx := mem_touch_iff fun heq => hx (heq ▸ List.mem_cons_self)

/-! ### Changes at the top of a tree -/

/-- The top of a tree has no ancestors to be told of changes. -/
lemma markAbove_of_top (hn : f.view.parent n = none) : f.markAbove n = f := by
  rw [markAbove, ← parent_view, hn]

lemma recordChildren_of_top (hn : f.view.parent n = none) : f.recordChildren n =
    f.update n fun item => { item with record :=
      { item.record with children := item.record.children.or item.children } } := by
  rw [recordChildren, markAbove_of_top]
  rwa [parent_update (by exact fun _ => rfl)]

lemma redress_of_top (hn : f.view.parent n = none) : f.redress n dressing =
    (f.update n fun item => { item with attributes := dressing item.attributes }).update n fun item =>
      { item with record := { item.record with attributesChanged := true } } := by
  rw [redress, recordAttributes, markAbove_of_top]
  rwa [parent_update (by exact fun _ => rfl), parent_update (by exact fun _ => rfl)]

/-- Attributes in order are stored at the top of a tree one behind the other, and nothing else
changes. -/
lemma setAttributes_of_top (hi : f.get? n = some i) (htop : i.parent = none)
    (hsorted : AttributeList.Sorted (i.attributes.entries ++ entries))
    (hg : f.setAttributes n entries = .ok g) :
    f.SameBut [n] g ∧ ∃ attributes changed, attributes.entries = i.attributes.entries ++ entries ∧
      g.get? n = some { i with
        attributes, record := { i.record with attributesChanged := changed } } := by
  induction entries generalizing f i with
  | nil =>
    obtain rfl := Except.ok.inj hg
    exact ⟨.refl f _, i.attributes, i.record.attributesChanged, (List.append_nil _).symm, hi⟩
  | cons entry rest ih =>
    obtain ⟨name, value⟩ := entry
    obtain ⟨f', hf', hg⟩ := bind_eq_ok.1 hg
    have hlt : ∀ e ∈ i.attributes.entries, e.1 < name := fun e he =>
      (List.pairwise_append.1 hsorted).2.2 e he (name, value) List.mem_cons_self
    have hparent : f.view.parent n = none := by
      rw [View.parent, entry_of_get? hi]
      exact htop
    obtain ⟨j, hj, ⟨hstored, -⟩ | ⟨-, rfl⟩⟩ := of_setAttribute_eq_ok hf'
    · obtain rfl := Option.some.inj (hi.symm.trans hj)
      rw [Attributes.get?, AttributeList.find?_of_lt hlt] at hstored
      cases hstored
    · have hinsert : (i.attributes.insert name value).entries =
          i.attributes.entries ++ [(name, value)] := AttributeList.insert_of_lt hlt
      have hitem : (f.redress n (·.insert name value)).get? n = some { i with
          attributes := i.attributes.insert name value,
          record := { i.record with attributesChanged := true } } := by
        rw [redress_of_top hparent, get?_update, if_pos rfl, get?_update, if_pos rfl, hi]
        rfl
      obtain ⟨hsame, attributes, changed, hentries, hget⟩ := ih hitem htop
        (by rwa [hinsert, List.append_assoc]) hg
      refine ⟨SameBut.trans ?_ hsame, attributes, changed, ?_, hget⟩
      · rw [redress_of_top hparent]
        exact (sameBut_update List.mem_cons_self).trans (sameBut_update List.mem_cons_self)
      · rw [hentries, hinsert, List.append_assoc]
        rfl

lemma sameBut_move_of_top (hchild : f.view.parent child = none)
    (hcontainer : f.view.parent container = none) :
    f.SameBut [child, container] (f.move container index child) := by
  have hn : child ∈ [child, container] := by simp
  have hc : container ∈ [child, container] := by simp
  rw [move_eq, takeOut_of_top hchild, relink, recordChildren_of_top]
  · exact (((sameBut_update hn).trans (sameBut_update hc)).trans (sameBut_update hc)).trans
      (sameBut_update hn)
  · rwa [recordParent, parent_update (by exact fun _ => rfl)]

/-! ### What subtrees are loaded to -/

/-- What a description tells of a node, apart from its identifier. -/
def looks (f : Forest) (n : NodeId) : Option (String × Attributes × Option (List NodeId)) :=
  (f.get? n).map fun i => (i.tag, i.attributes, i.children)

/-- Whether a node is there as described. -/
def Has (f : Forest) (m : Node) : Prop :=
  f.looks m.id = some (m.tag, m.attributes, m.children?.map (·.map Node.id))

lemma looks_eq (f : Forest) (n : NodeId) :
    f.looks n = (f.now n).map fun i => (i.tag, i.attributes, i.children) := by
  rw [looks, now, Option.map_map]
  rfl

lemma SameBut.looks_eq (hfg : f.SameBut nodes g) (hn : n ∉ nodes) : g.looks n = f.looks n := by
  rw [looks, looks, hfg.get?_eq n hn]

lemma SameBut.has (hfg : f.SameBut nodes g) (hm : m.id ∉ nodes) (h : f.Has m) : g.Has m :=
  (hfg.looks_eq hm).trans h

lemma Has.contains (h : f.Has m) : f.contains m.id := by
  rw [Has, looks] at h
  exact Option.isSome_map.symm.trans (congrArg Option.isSome h)

lemma looks_move_of_top (hchild : f.view.parent child = none) :
    (f.move container index child).looks x = (f.looks x).map fun look =>
      if container = x then (look.1, look.2.1, look.2.2.map (·.insertIdx index child)) else look := by
  rw [Forest.looks_eq, Forest.looks_eq, move_eq, takeOut_of_top hchild, now_relink]
  cases f.now x with
  | none => rfl
  | some i => by_cases hn : child = x <;> by_cases hc : container = x <;> simp [hn, hc]

/-- A new node with its attributes. -/
lemma planted_add {attributes : Attributes}
    (hg : (f.add tag children).2.setAttributes ⟨f.nextNumber⟩ attributes.entries = .ok g) :
    f.SameBut [⟨f.nextNumber⟩] g ∧
      g.looks ⟨f.nextNumber⟩ = some (tag, attributes, children) ∧
        g.view.parent ⟨f.nextNumber⟩ = none := by
  have hi : (f.add tag children).2.get? ⟨f.nextNumber⟩ =
      some { tag, children, record := { parent := some none } } := by
    rw [get?_add, if_pos rfl]
  obtain ⟨hsame, attributes', changed, hentries, hget⟩ :=
    setAttributes_of_top hi rfl attributes.sorted hg
  obtain rfl : attributes' = attributes := by
    cases attributes'
    cases attributes
    simpa [Attributes.empty] using hentries
  refine ⟨sameBut_add.trans hsame, ?_, ?_⟩
  · rw [looks, hget]
    rfl
  · rw [View.parent, entry_of_get? hget]
    rfl

/-- What subtrees are loaded to and appended to a container. -/
structure PlantedIn (f : Forest) (container : NodeId) (ts : List Node) (g : Forest) : Prop where
  /-- All nodes are there as described. -/
  has : ∀ t ∈ ts, ∀ m ∈ t.preorder, g.Has m
  /-- Besides them only the container changes. -/
  sameBut : f.SameBut (container :: ts.flatMap Node.ids) g
  /-- It has the subtrees as its last children. -/
  looks_container : g.looks container = (f.looks container).map fun look =>
    (look.1, look.2.1, look.2.2.map (· ++ ts.map Node.id))

/-! ### Free numbers -/

lemma HasRoom.not_contains_consecutive {j : Nat} (hroom : f.HasRoom (j + k))
    (hn : n ∈ Node.consecutive f.nextNumber j) : f.contains n = false := by
  obtain ⟨i, hi, rfl⟩ := Node.get_consecutive hn
  exact hroom.2 i (by omega)

/-- The new numbers of a subtree are free. -/
lemma HasRoom.not_contains_renumber (hroom : f.HasRoom (t.size + k))
    (hn : n ∈ (t.renumber f.nextNumber).ids) : f.contains n = false := by
  rw [Node.ids_renumber] at hn
  exact hroom.not_contains_consecutive hn

lemma HasRoom.not_contains_renumberAll (hroom : f.HasRoom (Node.size.sizes ts + k))
    (hn : n ∈ (Node.renumber.renumberAll ts f.nextNumber).flatMap Node.ids) :
    f.contains n = false := by
  rw [Node.ids_renumberAll] at hn
  exact hroom.not_contains_consecutive hn

/-- What becomes of a forest when a new subtree gets the last child of a container. -/
structure Appended (f : Forest) (container child : NodeId) (g : Forest) : Prop where
  /-- Only the two change. -/
  sameBut : f.SameBut [child, container] g
  /-- The child itself is still described as it was. -/
  looks_of_ne : ∀ n ≠ container, g.looks n = f.looks n
  /-- The container has one more child. -/
  looks_container : g.looks container = (f.looks container).map fun look =>
    (look.1, look.2.1, look.2.2.map (· ++ [child]))
  /-- It stays at the top of its tree. -/
  parent_eq : g.view.parent container = none

lemma appended_of_append (hgrafted : f.Grafted child g) (hf : f.Rooted)
    (hc : f.view.isContainer container) (hparent : f.view.parent container = none)
    (hh : g.append container child = .ok h) : g.Appended container child h := by
  have hforest := (hgrafted.steps.rooted hf).toIsForest
  rw [append_eq_insert hforest] at hh
  obtain ⟨hchild, -, -, -, -, rfl⟩ := of_insert_eq_ok hh
  have hold : f.contains container := contains_of_isContainer hc
  have htop : g.view.parent container = none := by rw [hgrafted.parent_of_contains _ hold, hparent]
  constructor
  · exact sameBut_move_of_top hgrafted.parent_eq htop
  · intro n hn
    rw [looks_move_of_top hgrafted.parent_eq]
    simp [hn.symm]
  · obtain ⟨i, hi, hchildren⟩ := get?_of_isContainer (hgrafted.steps.keeps.isContainer hc)
    obtain ⟨cs, hcs⟩ := Option.isSome_iff_exists.1 hchildren
    have hview : g.view.children container = cs := by
      rw [View.children, entry_of_get? hi, Entry.childList, Item.entry, hcs]
      rfl
    have hnot : child ∉ g.view.children container := by
      rw [hforest.mem_children, hgrafted.parent_eq]
      exact Option.some_ne_none container ∘ Eq.symm
    have hlength : (g.others container child).length = cs.length := by
      rw [others_eq_erase hforest, List.erase_of_not_mem hnot, hview]
    rw [looks_move_of_top hgrafted.parent_eq, looks, hi]
    simp [hcs, hlength]
  · rw [parent_move hchild, if_neg, htop]
    rintro rfl
    simp [hgrafted.not_contains] at hold

namespace PlantedIn

lemma nil : f.PlantedIn container [] f where
  has := by simp
  sameBut := .refl f _
  looks_container := by
    cases hlooks : f.looks container <;> simp

/-- One subtree is loaded and appended, and the others after it. -/
lemma cons {f' : Forest} (hhas : ∀ m ∈ t.preorder, f'.Has m) (hsame : f.SameBut t.ids f')
    (happended : f'.Appended container t.id g) (hrest : g.PlantedIn container ts h)
    (hold : container ∉ t.ids) (hnew : ∀ n ∈ t.ids, n ∉ ts.flatMap Node.ids) :
    f.PlantedIn container (t :: ts) h where
  has t' ht' m hm := by
    rcases List.mem_cons.1 ht' with rfl | ht'
    · have hmem : m.id ∈ t'.ids := Node.mem_ids.2 ⟨m, hm, rfl⟩
      have hne : m.id ≠ container := fun heq => hold (heq ▸ hmem)
      apply hrest.sameBut.has
      · rw [List.mem_cons, not_or]
        exact ⟨hne, hnew _ hmem⟩
      · exact (happended.looks_of_ne _ hne).trans (hhas m hm)
    · exact hrest.has t' ht' m hm
  sameBut := by
    refine (hsame.mono ?_).trans ((happended.sameBut.mono ?_).trans (hrest.sameBut.mono ?_))
    · exact fun n hn => by simp [hn]
    · simp [t.id_mem_ids]
    · exact fun n hn => by
        rw [List.flatMap_cons]
        rcases List.mem_cons.1 hn with rfl | hn
        · exact List.mem_cons_self
        · exact List.mem_cons_of_mem _ (List.mem_append_right _ hn)
  looks_container := by
    rw [hrest.looks_container, happended.looks_container, hsame.looks_eq hold, Option.map_map]
    apply Option.map_congr
    rintro ⟨tag, attributes, _ | cs⟩ - <;> simp

end PlantedIn

mutual

/-- A subtree is loaded as described, under new numbers, and nothing else changes. -/
theorem planted_of_graft (content : Node) {f g : Forest} {id : NodeId} {k : Nat} (h : f.Rooted)
    (hroom : f.HasRoom (content.size + k)) (hg : graft content f = .ok (id, g)) :
    (∀ m ∈ (content.renumber f.nextNumber).preorder, g.Has m) ∧
      f.SameBut (content.renumber f.nextNumber).ids g := by
  match content with
  | .leaf _ tag attributes =>
    obtain ⟨g', hg', hg⟩ := bind_eq_ok.1 hg
    obtain ⟨rfl, rfl⟩ := Prod.mk.inj (Except.ok.inj hg)
    obtain ⟨hsame, hlooks, -⟩ := planted_add hg'
    refine ⟨fun m hm => ?_, hsame⟩
    obtain rfl := List.mem_singleton.1 hm
    exact hlooks
  | .container _ tag attributes children =>
    rw [Node.size, Nat.add_assoc, Nat.add_comm] at hroom
    obtain ⟨f', hf', hgrafted, hroom', hc⟩ := grafted_add tag (some []) hroom rfl
      attributes.entries
    obtain ⟨f'', hf'', hg⟩ := bind_eq_ok.1 hg
    obtain rfl : f' = f'' := Except.ok.inj (hf'.symm.trans hf'')
    obtain ⟨g', hg', hg⟩ := bind_eq_ok.1 hg
    obtain ⟨rfl, rfl⟩ := Prod.mk.inj (Except.ok.inj hg)
    obtain ⟨hsame, hlooks, hparent⟩ := planted_add hf'
    have hnext : f'.nextNumber = f.nextNumber + 1 := (edits_storing hf').2
    have hplanted := planted_of_graftAll children (hgrafted.steps.rooted h) (hc rfl) hparent hroom' hg'
    rw [hnext] at hplanted
    constructor
    · intro m hm
      rw [Node.renumber, Node.preorder_container] at hm
      rcases List.mem_cons.1 hm with rfl | hm
      · rw [Has]
        exact hplanted.looks_container.trans (by rw [hlooks]; rfl)
      · obtain ⟨t, ht, hm⟩ := List.mem_flatMap.1 hm
        exact hplanted.has t ht m hm
    · rw [Node.renumber, Node.ids_container]
      exact (hsame.mono (by simp)).trans hplanted.sameBut

theorem planted_of_graftAll (contents : List Node) {f g : Forest} {container : NodeId} {k : Nat}
    (h : f.Rooted) (hc : f.view.isContainer container) (hparent : f.view.parent container = none)
    (hroom : f.HasRoom (Node.size.sizes contents + k))
    (hg : graft.graftAll container contents f = .ok g) :
    f.PlantedIn container (Node.renumber.renumberAll contents f.nextNumber) g := by
  match contents with
  | [] =>
    obtain rfl := Except.ok.inj hg
    exact .nil
  | content :: rest =>
    rw [Node.size.sizes, Nat.add_assoc] at hroom
    obtain ⟨id, f₁, hf₁, hgrafted, hroom₁⟩ := graft_eq_ok content h hroom
    obtain ⟨rfl, -, hnext⟩ := edits_script content hf₁
    rw [graft.graftAll, hf₁] at hg
    change (f₁.append container ⟨f.nextNumber⟩ >>= graft.graftAll container rest) = .ok g at hg
    obtain ⟨f₂, hf₂, hg⟩ := bind_eq_ok.1 hg
    obtain ⟨hhas, hsame⟩ := planted_of_graft content h hroom hf₁
    have happended := appended_of_append hgrafted h hc hparent hf₂
    have hsteps : f.Steps f₂ := hgrafted.steps.tail (step_append (hgrafted.steps.rooted h).toIsForest hf₂)
    obtain ⟨hnext₂, hcontains⟩ :=
      sameNodes_attempt (e := .append container ⟨f.nextNumber⟩) rfl hf₂
    have hroom₂ := hroom₁.congr hnext₂ hcontains
    have hrest := planted_of_graftAll rest (hsteps.rooted h) (hsteps.keeps.isContainer hc)
      happended.parent_eq hroom₂ hg
    have hid : (content.renumber f.nextNumber).id = ⟨f.nextNumber⟩ := content.id_renumber _
    rw [Node.renumber.renumberAll, ← hnext, ← hnext₂]
    refine .cons hhas hsame (hid.symm ▸ happended) hrest (fun hmem => ?_) fun n hn hmem => ?_
    -- the container was there before the new nodes, and these are there before the next ones
    · have hnew := hroom.not_contains_renumber hmem
      rw [contains_of_isContainer hc] at hnew
      cases hnew
    · have hnew := hroom₂.not_contains_renumberAll hmem
      obtain ⟨m, hm, rfl⟩ := Node.mem_ids.1 hn
      rw [hcontains, (hhas m hm).contains] at hnew
      cases hnew

end

/-! ### Nothing is lost and nothing disturbed -/

/-- Whether a forest is another one with a new, detached subtree that has never been shown. -/
structure Gains (f : Forest) (t : Node) (g : Forest) : Prop where
  /-- The subtree is as described. -/
  describe_eq : g.describe t.id = .ok t
  /-- It is detached. -/
  parent_top : g.view.parent t.id = none
  /-- None of its nodes was there before. -/
  fresh : ∀ n ∈ t.ids, f.contains n = false
  /-- There are no other new nodes. -/
  contains_iff : ∀ n, g.contains n ↔ f.contains n ∨ n ∈ t.ids
  /-- The client shows none of the new nodes. -/
  shownParent_eq : ∀ n ∈ t.ids, g.view.shownParent n = none
  /-- All other nodes are the same, with everything that is remembered of them. -/
  get?_eq : ∀ n, f.contains n → g.get? n = f.get? n
  /-- The same ones of them are touched. -/
  mem_touched_iff : ∀ n, f.contains n → (n ∈ g.touched ↔ n ∈ f.touched)
  /-- The page has the same top. -/
  root_eq : g.root = f.root

/-- A node that is there as described has the described entry. -/
lemma Has.entry_eq (h : g.Has m) : (g.view.entry m.id).tag = m.tag ∧
    (g.view.entry m.id).attributes = m.attributes ∧
      (g.view.entry m.id).children = m.children?.map (·.map Node.id) := by
  obtain ⟨i, hi, hlook⟩ := Option.map_eq_some_iff.1 h
  rw [Prod.mk.injEq, Prod.mk.injEq] at hlook
  rw [entry_of_get? hi]
  exact hlook

lemma Rooted.gains_of_graft (h : f.Rooted) {content : Node} (hroom : f.HasRoom content.size) :
    ∃ g, graft content f = .ok (⟨f.nextNumber⟩, g) ∧
      f.Gains (content.renumber f.nextNumber) g := by
  obtain ⟨id, g, hg, hgrafted, -⟩ := graft_eq_ok content (k := 0) h hroom
  obtain ⟨rfl, -, -⟩ := edits_script content hg
  obtain ⟨hhas, hsame⟩ := planted_of_graft content (k := 0) h hroom hg
  have hkeeps := hgrafted.steps.keeps
  have hid : (content.renumber f.nextNumber).id = ⟨f.nextNumber⟩ := content.id_renumber _
  have hfresh : ∀ n ∈ (content.renumber f.nextNumber).ids, f.contains n = false := fun n hn =>
    HasRoom.not_contains_renumber (k := 0) hroom hn
  have hold (n : NodeId) (hn : f.contains n) : n ∉ (content.renumber f.nextNumber).ids := by
    intro hmem
    rw [hfresh n hmem] at hn
    cases hn
  refine ⟨g, hg, ?_⟩
  constructor
  · obtain ⟨i, hi, hitem⟩ := item_of_contains hgrafted.contains
    rw [describe, hid, hitem, ← hid]
    exact congrArg Except.ok ((hgrafted.steps.rooted h).describe_eq_self fun m hm =>
      (hhas m hm).entry_eq)
  · rw [hid]
    exact hgrafted.parent_eq
  · exact hfresh
  · intro n
    constructor
    · intro hn
      by_contra hnew
      rw [not_or] at hnew
      rw [contains, hsame.get?_eq n hnew.2] at hn
      exact hnew.1 hn
    · rintro (hn | hn)
      · exact hkeeps.contains hn
      · obtain ⟨m, hm, rfl⟩ := Node.mem_ids.1 hn
        exact (hhas m hm).contains
  · intro n hn
    have hnone : f.get? n = none :=
      Option.not_isSome_iff_eq_none.1 (Bool.eq_false_iff.1 (hfresh n hn))
    rw [hkeeps.shownParent_eq, View.shownParent, entry_of_get?_none hnone]
  · exact fun n hn => hsame.get?_eq n (hold n hn)
  · exact fun n hn => hsame.mem_touched_iff n (hold n hn)
  · exact hkeeps.root_eq

lemma toNat_consecutive {number : UInt32} (hk : number.toNat + k ≤ NodeId.count) :
    (Node.consecutive number k).map (·.number.toNat) = List.range' number.toNat k := by
  rw [Node.consecutive, List.map_map, List.range'_eq_map_range]
  apply List.map_congr_left
  intro i hi
  have hlt : number.toNat + i < NodeId.count := by
    have := List.mem_range.1 hi
    omega
  rw [Function.comp_apply, UInt32.toNat_add, UInt32.toNat_ofNat', Nat.add_mod_mod]
  exact Nat.mod_eq_of_lt hlt

/-- Whatever calls were made on a forest that starts with a page, any description can be loaded as long
as there are numbers for its nodes and the next one, even if it has identifiers that are in use or the
same one twice. The new subtree is described as it was, except that its nodes have the next numbers in
document order. All of them are new to the client, and the subtree is detached. All other nodes are as
before, with everything that is remembered of them. -/
theorem lossless_graft {f g : Forest} {page : Node} (hbegins : f.Begins page)
    (hids : ∀ n ∈ page.ids, n.number.toNat + 1 < NodeId.count) (hcalls : f.Calls g) (content : Node)
    (hroom : g.nextNumber.toNat + content.size < NodeId.count) :
    ∃ h, graft content g = .ok (⟨g.nextNumber⟩, h) ∧
      g.Gains (content.renumber g.nextNumber) h ∧
        (content.renumber g.nextNumber).ids.map (·.number.toNat) =
          List.range' g.nextNumber.toNat content.size ∧
            h.nextNumber.toNat = g.nextNumber.toNat + content.size := by
  obtain ⟨hsound, -⟩ := hcalls.keeps_sound (hbegins.sound hids)
  obtain ⟨h, hh, hgains⟩ := hsound.toRooted.gains_of_graft (hsound.numbered.hasRoom hroom.le)
  refine ⟨h, hh, hgains, ?_, ?_⟩
  · rw [Node.ids_renumber, toNat_consecutive hroom.le]
  · rw [(edits_script content hh).2.2, UInt32.toNat_add, UInt32.toNat_ofNat', Nat.add_mod_mod]
    exact Nat.mod_eq_of_lt hroom

/-- A list with two equal items is loaded next to a page on which a paragraph was added, and the three
nodes get the numbers from two on. -/
theorem lossless_graft_items :
    let g := (Forest.new "body").edits [.addLeaf "p", .append ⟨0⟩ ⟨1⟩]
    let item := Node.leaf ⟨0⟩ "li" (.ofList [("class", "new")])
    (Forest.new "body").Calls g ∧
      ∃ h, graft (.container ⟨0⟩ "ul" .empty [item, item]) g = .ok (⟨2⟩, h) ∧
        g.Gains (.container ⟨2⟩ "ul" .empty [.leaf ⟨3⟩ "li" (.ofList [("class", "new")]),
          .leaf ⟨4⟩ "li" (.ofList [("class", "new")])]) h := by
  intro g item
  have hcalls : (Forest.new "body").Calls g :=
    (Relation.ReflTransGen.single (.edit (.addLeaf "p") (by decide))).tail
      (.edit (.append ⟨0⟩ ⟨1⟩) (by decide))
  have hnext : g.nextNumber = 2 := by decide +kernel
  obtain ⟨h, hh, hgains, -⟩ := lossless_graft (.new "body") (by decide) hcalls
    (.container ⟨0⟩ "ul" .empty [item, item]) (by rw [hnext]; decide)
  rw [hnext] at hh hgains
  exact ⟨hcalls, h, hh, hgains⟩

end Forest

end PageSync
