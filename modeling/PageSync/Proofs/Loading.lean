import PageSync.Proofs.Settling

/-!
# Loading a page

A page that is loaded becomes a well-formed forest without any records
(`Forest.presents_of_ofPage`), and its description is the page again (`Forest.Presents.describe_eq`).
-/

namespace PageSync

/-- Whether an item is the one of a described node that is shown as it is. -/
structure Item.Shows (i : Item) (m : Node) : Prop where
  /-- The element name is the described one. -/
  tag_eq : i.tag = m.tag
  /-- So are the attributes. -/
  attributes_eq : i.attributes = m.attributes
  /-- So are the children. -/
  children_eq : i.children = m.children?.map (·.map Node.id)
  /-- Nothing has changed yet. -/
  record_eq : i.record = {}

namespace Forest

variable {f g g' : Forest} {page t m c : Node} {n : NodeId} {i : Item} {parent : Option NodeId}
  {nodes rest : List Node}

/-- What described subtrees are loaded to, below a given parent. -/
structure Loaded (f : Forest) (parent : Option NodeId) (nodes : List Node) (g : Forest) : Prop where
  /-- The page has the same top. -/
  root_eq : g.root = f.root
  /-- The nodes are new. -/
  fresh : ∀ n ∈ nodes.flatMap Node.ids, f.get? n = none
  /-- None is loaded twice. -/
  nodup : (nodes.flatMap Node.ids).Nodup
  /-- The other nodes stay as they are. -/
  other : ∀ n ∉ nodes.flatMap Node.ids, g.get? n = f.get? n
  /-- Each node is there as described. -/
  item : ∀ t ∈ nodes, ∀ m ∈ t.preorder, ∃ i, g.get? m.id = some i ∧ i.Shows m
  /-- The topmost ones are below the parent. -/
  parent_top : ∀ t ∈ nodes, g.view.parent t.id = parent
  /-- The other ones are below the nodes that have them as children. -/
  parent_child : ∀ t ∈ nodes, ∀ m ∈ t.preorder, ∀ c ∈ m.childList,
    g.view.parent c.id = some m.id

namespace Loaded

lemma nil : f.Loaded parent [] f where
  root_eq := rfl
  fresh := by simp
  nodup := by simp
  other _ _ := rfl
  item := by simp
  parent_top := by simp
  parent_child := by simp

lemma mem_ids (ht : t ∈ nodes) (hm : m ∈ t.preorder) : m.id ∈ nodes.flatMap Node.ids :=
  List.mem_flatMap.2 ⟨t, ht, Node.mem_ids.2 ⟨m, hm, rfl⟩⟩

lemma contains (hfg : f.Loaded parent nodes g) (hn : n ∈ nodes.flatMap Node.ids) :
    g.contains n := by
  obtain ⟨t, ht, hn⟩ := List.mem_flatMap.1 hn
  obtain ⟨m, hm, rfl⟩ := Node.mem_ids.1 hn
  obtain ⟨i, hi, -⟩ := hfg.item t ht m hm
  exact contains_iff.2 ⟨i, hi⟩

/-- One subtree after the other. -/
lemma append (hfg : f.Loaded parent nodes g) (hgh : g.Loaded parent rest g') :
    f.Loaded parent (nodes ++ rest) g' := by
  have hdisjoint (n : NodeId) (hn : n ∈ nodes.flatMap Node.ids) : n ∉ rest.flatMap Node.ids := by
    intro hrest
    obtain ⟨i, hi⟩ := contains_iff.1 (hfg.contains hn)
    simp [hgh.fresh n hrest] at hi
  have hsame (n : NodeId) (hn : n ∈ nodes.flatMap Node.ids) : g'.get? n = g.get? n :=
    hgh.other n (hdisjoint n hn)
  constructor
  · exact hgh.root_eq.trans hfg.root_eq
  · intro n hn
    rw [List.flatMap_append, List.mem_append] at hn
    rcases hn with hn | hn
    · exact hfg.fresh n hn
    · rw [← hfg.other n fun hn' => hdisjoint n hn' hn]
      exact hgh.fresh n hn
  · rw [List.flatMap_append, List.nodup_append']
    exact ⟨hfg.nodup, hgh.nodup, fun n hn hrest => hdisjoint n hn hrest⟩
  · intro n hn
    rw [List.flatMap_append, List.mem_append, not_or] at hn
    rw [hgh.other n hn.2, hfg.other n hn.1]
  · intro t ht m hm
    rcases List.mem_append.1 ht with ht | ht
    · rw [hsame _ (mem_ids ht hm)]
      exact hfg.item t ht m hm
    · exact hgh.item t ht m hm
  · intro t ht
    rcases List.mem_append.1 ht with ht | ht
    · rw [View.parent, entry_congr (hsame _ (mem_ids ht t.self_mem_preorder))]
      exact hfg.parent_top t ht
    · exact hgh.parent_top t ht
  · intro t ht m hm c hc
    rcases List.mem_append.1 ht with ht | ht
    · have hmem := mem_ids ht (Node.mem_preorder_of_mem_childList hm hc)
      rw [View.parent, entry_congr (hsame _ hmem)]
      exact hfg.parent_child t ht m hm c hc
    · exact hgh.parent_child t ht m hm c hc

/-- A node behind its children. -/
lemma addShown {item : Item} (hfg : f.Loaded (some t.id) t.childList g) (hshows : item.Shows t)
    (hparent : item.parent = parent) (hh : g.addShown t.id item = .ok g') :
    f.Loaded parent [t] g' := by
  rw [Forest.addShown] at hh
  split at hh
  · cases hh
  · next hnew =>
    obtain rfl := Except.ok.inj hh
    have hget (n : NodeId) : ({ g.put t.id item with
        nextNumber := max g.nextNumber (t.id.number + 1) } : Forest).get? n =
          if t.id = n then some item else g.get? n := g.get?_put ..
    have hnot : t.id ∉ t.childList.flatMap Node.ids := fun hmem => hnew (hfg.contains hmem)
    have hsame (n : NodeId) (hn : n ∈ t.childList.flatMap Node.ids) := (hget n).trans
      (if_neg fun heq : t.id = n => hnot (heq ▸ hn))
    constructor
    · exact hfg.root_eq
    · intro n hn
      rw [List.flatMap_singleton, Node.ids_eq_cons] at hn
      rcases List.mem_cons.1 hn with rfl | hn
      · rw [← hfg.other _ hnot]
        exact Option.not_isSome_iff_eq_none.1 hnew
      · exact hfg.fresh n hn
    · rw [List.flatMap_singleton, Node.ids_eq_cons]
      exact List.nodup_cons.2 ⟨hnot, hfg.nodup⟩
    · intro n hn
      rw [List.flatMap_singleton, Node.ids_eq_cons, List.mem_cons, not_or] at hn
      rw [hget, if_neg (Ne.symm hn.1), hfg.other n hn.2]
    · intro t' ht m hm
      obtain rfl := List.mem_singleton.1 ht
      rcases Node.mem_preorder_iff.1 hm with rfl | ⟨c, hc, hm⟩
      · exact ⟨item, by rw [hget, if_pos rfl], hshows⟩
      · rw [hsame _ (mem_ids hc hm)]
        exact hfg.item c hc m hm
    · intro t' ht
      obtain rfl := List.mem_singleton.1 ht
      rw [View.parent, entry_of_get? ((hget _).trans (if_pos rfl))]
      exact hparent
    · intro t' ht m hm c hc
      obtain rfl := List.mem_singleton.1 ht
      rcases Node.mem_preorder_iff.1 hm with rfl | ⟨d, hd, hm⟩
      · rw [View.parent, entry_congr (hsame _ (mem_ids hc c.self_mem_preorder))]
        exact hfg.parent_top c hc
      · have hmem := mem_ids hd (Node.mem_preorder_of_mem_childList hm hc)
        rw [View.parent, entry_congr (hsame _ hmem)]
        exact hfg.parent_child d hd m hm c hc

end Loaded

mutual

theorem loaded_of_loadShown (t : Node) {parent : Option NodeId} {f g : Forest}
    (hg : loadShown t parent f = .ok g) : f.Loaded parent [t] g := by
  match t with
  | .leaf id tag attributes => exact Loaded.nil.addShown ⟨rfl, rfl, rfl, rfl⟩ rfl hg
  | .container id tag attributes children =>
    obtain ⟨f', hf', hg⟩ := bind_eq_ok.1 hg
    exact (loaded_of_loadAll children hf').addShown ⟨rfl, rfl, rfl, rfl⟩ rfl hg

theorem loaded_of_loadAll (nodes : List Node) {parent : NodeId} {f g : Forest}
    (hg : loadShown.loadAll parent nodes f = .ok g) : f.Loaded (some parent) nodes g := by
  match nodes with
  | [] =>
    obtain rfl := Except.ok.inj hg
    exact .nil
  | child :: rest =>
    obtain ⟨f', hf', hg⟩ := bind_eq_ok.1 hg
    exact (loaded_of_loadShown child hf').append (loaded_of_loadAll rest hg)

end

mutual

/-- What adding each node of a description keeps. -/
theorem loadShown_induct {motive : Forest → Prop} (t : Node) {parent : Option NodeId} {f g : Forest}
    (hf : motive f) (hg : loadShown t parent f = .ok g)
    (step : ∀ f g n item, n ∈ t.ids → motive f → f.addShown n item = .ok g → motive g) :
    motive g := by
  match t with
  | .leaf id tag attributes => exact step f g id _ (Node.id_mem_ids _) hf hg
  | .container id tag attributes children =>
    obtain ⟨f', hf', hg⟩ := bind_eq_ok.1 hg
    apply step f' g id _ (Node.id_mem_ids _) _ hg
    apply loadAll_induct children hf hf'
    intro f g n item hn
    apply step f g n item
    rw [Node.ids_container]
    exact List.mem_cons_of_mem _ hn

theorem loadAll_induct {motive : Forest → Prop} (nodes : List Node) {parent : NodeId} {f g : Forest}
    (hf : motive f) (hg : loadShown.loadAll parent nodes f = .ok g)
    (step : ∀ f g n item, n ∈ nodes.flatMap Node.ids → motive f → f.addShown n item = .ok g →
      motive g) : motive g := by
  match nodes with
  | [] =>
    obtain rfl := Except.ok.inj hg
    exact hf
  | child :: rest =>
    rw [List.flatMap_cons] at step
    obtain ⟨f', hf', hg⟩ := bind_eq_ok.1 hg
    apply loadAll_induct rest _ hg
    · exact fun f g n item hn => step f g n item (List.mem_append_right _ hn)
    · apply loadShown_induct child hf hf'
      exact fun f g n item hn => step f g n item (List.mem_append_left _ hn)

end

/-! ### The forest of a page -/

/-- Whether a forest consists of a page alone, with every node as it is shown. -/
structure Presents (f : Forest) (page : Node) : Prop where
  /-- The page is the one of the forest. -/
  root_eq : f.root = page.id
  /-- Its nodes are loaded. -/
  loaded : (empty page.id).Loaded none [page] f

lemma presents_of_ofPage (hf : ofPage page = .ok f) : f.Presents page := by
  cases page with
  | leaf => cases hf
  | container id tag attributes children =>
    have hloaded := loaded_of_loadShown _ hf
    exact ⟨hloaded.root_eq, hloaded⟩

namespace Presents

variable (h : f.Presents page)

include h

lemma nodup : page.ids.Nodup := by
  simpa using h.loaded.nodup

lemma get?_of_notMem (hn : n ∉ page.ids) : f.get? n = none := by
  rw [h.loaded.other n (by simpa using hn)]
  simp [get?, empty]

lemma item (hm : m ∈ page.preorder) : ∃ i, f.get? m.id = some i ∧ i.Shows m :=
  h.loaded.item page List.mem_cons_self m hm

lemma mem_ids_of_get? (hi : f.get? n = some i) : n ∈ page.ids := by
  by_contra hn
  simp [h.get?_of_notMem hn] at hi

lemma contains (hn : n ∈ page.ids) : f.contains n := h.loaded.contains (by simpa using hn)

lemma parent_top : f.view.parent page.id = none := h.loaded.parent_top page List.mem_cons_self

lemma parent_child (hm : m ∈ page.preorder) (hc : c ∈ m.childList) :
    f.view.parent c.id = some m.id :=
  h.loaded.parent_child page List.mem_cons_self m hm c hc

lemma children_eq (hm : m ∈ page.preorder) : f.view.children m.id = m.childList.map Node.id := by
  obtain ⟨i, hi, hshows⟩ := h.item hm
  rw [View.children, entry_of_get? hi, Entry.childList, Item.entry, hshows.children_eq]
  cases m <;> rfl

/-- A node with a parent is a child of a node on the page. -/
lemma exists_parent (hm : m ∈ page.preorder) {p : NodeId} (hp : f.view.parent m.id = some p) :
    ∃ q ∈ page.preorder, q.id = p ∧ m ∈ q.childList := by
  rcases Node.exists_parent hm with rfl | ⟨q, hq, hmq⟩
  · simp [h.parent_top] at hp
  · exact ⟨q, hq, Option.some.inj ((h.parent_child hq hmq).symm.trans hp), hmq⟩

lemma mem_ids_of_parent {p : NodeId} (hp : f.view.parent n = some p) : n ∈ page.ids := by
  obtain ⟨i, hi, -⟩ := get?_of_parent? ((parent_view f n).symm.trans hp)
  exact h.mem_ids_of_get? hi

/-- What is above a node of the page is higher. -/
lemma height_lt {a : NodeId} (ha : IsAbove f.view.parent a n) (hm : m ∈ page.preorder)
    (hn : m.id = n) : ∃ q ∈ page.preorder, q.id = a ∧ m.height < q.height := by
  induction ha using Relation.TransGen.head_induction_on generalizing m with
  | single hp =>
    obtain ⟨q, hq, hid, hmq⟩ := h.exists_parent hm (hn ▸ hp)
    exact ⟨q, hq, hid, Node.height_lt_of_mem_childList hmq⟩
  | head hp _ ih =>
    obtain ⟨q, hq, hid, hmq⟩ := h.exists_parent hm (hn ▸ hp)
    obtain ⟨r, hr, hrid, hlt⟩ := ih hq hid
    exact ⟨r, hr, hrid, (Node.height_lt_of_mem_childList hmq).trans hlt⟩

lemma isForest : f.view.IsForest where
  mem_children n c := by
    constructor
    · intro hn
      obtain ⟨i, hi, -⟩ := get?_of_isContainer (View.isContainer_of_mem_children hn)
      obtain ⟨m, hm, rfl⟩ := Node.mem_ids.1 (h.mem_ids_of_get? hi)
      rw [h.children_eq hm] at hn
      obtain ⟨d, hd, rfl⟩ := List.mem_map.1 hn
      exact h.parent_child hm hd
    · intro hp
      obtain ⟨m, hm, rfl⟩ := Node.mem_ids.1 (h.mem_ids_of_parent hp)
      obtain ⟨q, hq, rfl, hmq⟩ := h.exists_parent hm hp
      rw [h.children_eq hq]
      exact List.mem_map_of_mem hmq
  nodup_children c := by
    by_cases hc : c ∈ page.ids
    · obtain ⟨m, hm, rfl⟩ := Node.mem_ids.1 hc
      rw [h.children_eq hm]
      exact Node.nodup_map_id_childList (Node.nodup_of_mem h.nodup hm)
    · rw [View.children, entry_of_get?_none (h.get?_of_notMem hc)]
      exact List.nodup_nil
  acyclic n ha := by
    obtain ⟨p, hp, -⟩ := isAbove_iff_parent.1 ha
    obtain ⟨m, hm, rfl⟩ := Node.mem_ids.1 (h.mem_ids_of_parent hp)
    obtain ⟨q, hq, hid, hlt⟩ := h.height_lt ha hm rfl
    rw [Node.eq_of_id_eq h.nodup hq hm hid] at hlt
    exact lt_irrefl _ hlt

lemma isSettled (n : NodeId) : f.view.IsSettled n := by
  rw [View.IsSettled, View.shownParent, View.parent]
  cases hi : f.get? n with
  | none => simp [entry_of_get?_none hi]
  | some i =>
    obtain ⟨m, hm, rfl⟩ := Node.mem_ids.1 (h.mem_ids_of_get? hi)
    obtain ⟨j, hj, hshows⟩ := h.item hm
    obtain rfl := Option.some.inj (hj.symm.trans hi)
    simp [entry_of_get? hi, Item.entry, Item.shownParent, hshows.record_eq]

/-- A page that is loaded is described as it was. -/
lemma describe_eq : f.view.describe page.id = page := by
  refine h.isForest.describe_eq_self fun m hm => ?_
  obtain ⟨i, hi, hshows⟩ := h.item hm
  rw [entry_of_get? hi]
  exact ⟨hshows.tag_eq, hshows.attributes_eq, hshows.children_eq⟩

lemma wellFormed : f.WellFormed where
  toIsForest := h.isForest
  contains_root := h.root_eq ▸ h.contains page.id_mem_ids
  parent_root := h.root_eq ▸ h.parent_top
  shownParent_root := h.root_eq ▸ (h.isSettled page.id).2.trans h.parent_top
  reaches n a hn := by
    cases hi : f.get? n with
    | none => simp [entry_of_get?_none hi, Entry.IsPending] at hn
    | some i =>
      obtain ⟨m, hm, rfl⟩ := Node.mem_ids.1 (h.mem_ids_of_get? hi)
      obtain ⟨j, hj, hshows⟩ := h.item hm
      simp [entry_of_get? hj, Item.entry, Entry.IsPending, hshows.record_eq] at hn

end Presents

end Forest

end PageSync
