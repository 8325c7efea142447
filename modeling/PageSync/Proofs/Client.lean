import PageSync.Operation
import PageSync.Proofs.Subtrees

/-!
# The client

A client shows one page and changes it by operations. The client is strict: it refuses an operation
on a node that it doesn't show, behind a sibling that is not where it is said to be, or with content
by which some identifier would be present twice. `Node.Admits` says what it accepts, `Node.perform`
what it does then, and `Node.applyAll?` follows a list of operations until one is refused.
-/

namespace PageSync

namespace Node

/-! ### Changing a page -/

/-- Removes the subtree of a node from below the topmost node. -/
def prune (gone : NodeId) : Node → Node
  | .leaf id tag attributes => .leaf id tag attributes
  | .container id tag attributes children =>
    .container id tag attributes (pruneAll gone children)
where
  /-- Removes the subtree of a node from among and below several ones. -/
  pruneAll (gone : NodeId) : List Node → List Node
    | [] => []
    | child :: rest =>
      if child.id = gone then pruneAll gone rest else child.prune gone :: pruneAll gone rest

/-- Changes the list of children of one container. -/
def arrange (target : NodeId) (change : List Node → List Node) : Node → Node
  | .leaf id tag attributes => .leaf id tag attributes
  | .container id tag attributes children =>
    .container id tag attributes
      (if id = target then change children else arrangeAll target change children)
where
  /-- Changes the list of children of one container below several nodes. -/
  arrangeAll (target : NodeId) (change : List Node → List Node) : List Node → List Node
    | [] => []
    | child :: rest => child.arrange target change :: arrangeAll target change rest

/-- Puts other attributes in the place of those of one node. -/
def dress (target : NodeId) (new : Attributes) : Node → Node
  | .leaf id tag attributes => .leaf id tag (if id = target then new else attributes)
  | .container id tag attributes children =>
    .container id tag (if id = target then new else attributes) (dressAll target new children)
where
  /-- Puts other attributes in the place of those of one node among and below several ones. -/
  dressAll (target : NodeId) (new : Attributes) : List Node → List Node
    | [] => []
    | child :: rest => child.dress target new :: dressAll target new rest

/-- Inserts a subtree into a list of siblings, directly behind one of them, or first. -/
def insertBehind (content : Node) : Option NodeId → List Node → List Node
  | none, siblings => content :: siblings
  | some _, [] => []
  | some after, sibling :: rest =>
    if sibling.id = after then sibling :: content :: rest
    else sibling :: insertBehind content (some after) rest

/-- Does what an operation says. -/
def perform (page : Node) : Operation → Node
  | .delete node => page.prune node
  | .insertAfter parent after content => page.arrange parent (insertBehind content after)
  | .replaceChildren host content => page.arrange host fun _ => content
  | .changeAttributes node attributes => page.dress node attributes

/-! ### A strict client -/

/-- Whether no identifier would be present twice if the content were added to the page. -/
def HasRoomFor (page : Node) (content : List Node) : Prop :=
  (content.flatMap ids).Nodup ∧ ∀ y ∈ content.flatMap ids, y ∉ page.ids

/-- Whether the client carries out an operation on the page that it shows: the node that it is
addressed to is present, a sibling that it names is a child of that container, no node comes to be
present twice, and the topmost node is not removed. -/
def Admits (page : Node) : Operation → Prop
  | .delete node => node ∈ page.ids ∧ node ≠ page.id
  | .insertAfter parent after content =>
    (∃ m ∈ page.preorder, m.id = parent ∧ m.isContainer ∧
      ∀ sibling ∈ after, sibling ∈ m.childList.map id) ∧ page.HasRoomFor [content]
  | .replaceChildren host content =>
    (∃ m ∈ page.preorder, m.id = host ∧ m.isContainer) ∧
      (page.arrange host fun _ => []).HasRoomFor content
  | .changeAttributes node _ => node ∈ page.ids

instance (page : Node) (content : List Node) : Decidable (page.HasRoomFor content) :=
  inferInstanceAs (Decidable (_ ∧ _))

instance (page : Node) : (operation : Operation) → Decidable (page.Admits operation)
  | .delete _ => inferInstanceAs (Decidable (_ ∧ _))
  | .insertAfter _ _ _ => inferInstanceAs (Decidable (_ ∧ _))
  | .replaceChildren _ _ => inferInstanceAs (Decidable (_ ∧ _))
  | .changeAttributes node _ => inferInstanceAs (Decidable (node ∈ page.ids))

/-- The page that a client shows after an operation, unless it refuses it. -/
def applyOne? (page : Node) (operation : Operation) : Option Node :=
  if page.Admits operation then some (page.perform operation) else none

/-- The page that a client shows after several operations, one by one, unless it refuses one. -/
def applyAll? (page : Node) (operations : List Operation) : Option Node :=
  operations.foldlM applyOne? page

/-! ### Operations away from their target -/

variable {id target gone : NodeId} {tag : String} {attributes new : Attributes}
  {children content : List Node} {change : List Node → List Node} {t : Node} {op : Operation}
  {y : NodeId}

lemma pruneAll_eq (nodes : List Node) :
    prune.pruneAll gone nodes = (nodes.filter (·.id ≠ gone)).map (prune gone) := by
  induction nodes with
  | nil => rfl
  | cons node rest ih => by_cases h : node.id = gone <;> simp [prune.pruneAll, h, ih]

lemma prune_container : (container id tag attributes children).prune gone =
    container id tag attributes ((children.filter (·.id ≠ gone)).map (prune gone)) := by
  rw [prune, pruneAll_eq]

lemma arrangeAll_eq (nodes : List Node) :
    arrange.arrangeAll target change nodes = nodes.map (arrange target change) := by
  induction nodes with
  | nil => rfl
  | cons node rest ih => simp [arrange.arrangeAll, ih]

lemma arrange_container_self : (container id tag attributes children).arrange id change =
    container id tag attributes (change children) := by
  simp [arrange]

lemma arrange_container_of_ne (h : id ≠ target) :
    (container id tag attributes children).arrange target change =
      container id tag attributes (children.map (arrange target change)) := by
  rw [arrange, if_neg h, arrangeAll_eq]

lemma dressAll_eq (nodes : List Node) :
    dress.dressAll target new nodes = nodes.map (dress target new) := by
  induction nodes with
  | nil => rfl
  | cons node rest ih => simp [dress.dressAll, ih]

lemma dress_container : (container id tag attributes children).dress target new =
    container id tag (if id = target then new else attributes)
      (children.map (dress target new)) := by
  rw [dress, dressAll_eq]

@[simp] lemma id_prune : (t.prune gone).id = t.id := by cases t <;> rfl

@[simp] lemma id_arrange : (t.arrange target change).id = t.id := by cases t <;> rfl

@[simp] lemma id_dress : (t.dress target new).id = t.id := by cases t <;> rfl

@[simp] lemma id_perform : (t.perform op).id = t.id := by cases op <;> simp [perform]

/-- An operation that is addressed neither to the topmost node nor removes a child of it changes
each child on its own. -/
lemma perform_container (hne : id ≠ op.target)
    (hdel : op.isDelete → op.target ∉ children.map Node.id) :
    (container id tag attributes children).perform op =
      container id tag attributes (children.map (perform · op)) := by
  cases op with
  | delete gone =>
    have hall : ∀ c ∈ children, c.id ≠ gone := fun c hm e =>
      hdel rfl (List.mem_map.2 ⟨c, hm, e⟩)
    rw [perform, prune_container, List.filter_eq_self.2 (by simpa using hall)]
    rfl
  | insertAfter parent after content => exact arrange_container_of_ne hne
  | replaceChildren host content => exact arrange_container_of_ne hne
  | changeAttributes node new =>
    rw [perform, dress_container, if_neg (show id ≠ node from hne)]
    rfl

/-- An operation leaves a page as it is that doesn't have the node it is addressed to. -/
lemma perform_of_notMem (op : Operation) (h : op.target ∉ t.ids) : t.perform op = t := by
  induction t with
  | leaf id tag attributes =>
    have hne : id ≠ op.target := by simpa [eq_comm] using h
    cases op <;> simp_all [perform, prune, arrange, dress, Operation.target]
  | container id tag attributes children ih =>
    have hne : id ≠ op.target := fun e => h (by simp [e])
    have hc : ∀ c ∈ children, op.target ∉ c.ids := fun c hc hmem =>
      h (by rw [ids_container]; exact List.mem_cons_of_mem _ (List.mem_flatMap.2 ⟨c, hc, hmem⟩))
    have hdel : op.target ∉ children.map Node.id := by
      rintro hmem
      obtain ⟨c, hm, hid⟩ := List.mem_map.1 hmem
      exact hc c hm (hid ▸ c.id_mem_ids)
    rw [perform_container hne fun _ => hdel,
      List.map_congr_left fun c hm => ih c hm (hc c hm), List.map_id']

/-- A child leaves its container and nothing else changes. -/
lemma prune_child {pre post : List Node} (h : ∀ s ∈ pre ++ post, t.id ∉ s.ids) :
    (container id tag attributes (pre ++ t :: post)).prune t.id =
      container id tag attributes (pre ++ post) := by
  have hkeep (l : List Node) (hl : ∀ s ∈ l, s ∈ pre ++ post) :
      l.filter (·.id ≠ t.id) = l := by
    refine List.filter_eq_self.2 fun s hs => decide_eq_true fun e => h s (hl s hs) ?_
    exact e ▸ s.id_mem_ids
  have hstay : (pre ++ post).map (prune t.id) = pre ++ post := by
    conv_rhs => rw [← List.map_id (pre ++ post)]
    exact List.map_congr_left fun s hs => perform_of_notMem (.delete t.id) (h s hs)
  rw [prune_container, List.filter_append, List.filter_cons_of_neg (by simp),
    hkeep pre fun s hs => List.mem_append_left _ hs,
    hkeep post fun s hs => List.mem_append_right _ hs, hstay]

lemma mem_insertBehind {content c : Node} {after : Option NodeId} {siblings : List Node}
    (h : c ∈ insertBehind content after siblings) : c = content ∨ c ∈ siblings := by
  induction siblings with
  | nil => cases after <;> simp_all [insertBehind]
  | cons d rest ih =>
    cases after with
    | none => simpa [insertBehind] using h
    | some after =>
      rw [insertBehind] at h
      split at h
      · simpa [or_left_comm] using h
      · rcases List.mem_cons.1 h with rfl | h
        · exact .inr List.mem_cons_self
        · exact (ih h).imp_right (List.mem_cons_of_mem _)

/-- After an operation the children of a node are old ones, sent ones, or changed old ones. -/
lemma mem_childList_perform {c : Node} (h : c ∈ (t.perform op).childList) :
    c ∈ t.childList ∨ c ∈ op.content ∨ ∃ d ∈ t.childList, d.perform op = c := by
  cases t with
  | leaf id tag attributes => cases op <;> exact .inl h
  | container id tag attributes children =>
    cases op with
    | delete gone =>
      rw [perform, prune_container] at h
      obtain ⟨d, hd, rfl⟩ := List.mem_map.1 h
      exact .inr (.inr ⟨d, (List.mem_filter.1 hd).1, rfl⟩)
    | insertAfter parent after content =>
      by_cases hid : id = parent
      · rw [perform, hid, arrange_container_self] at h
        exact (mem_insertBehind h).symm.imp_right fun e => .inl (List.mem_singleton.2 e)
      · rw [perform, arrange_container_of_ne hid] at h
        exact .inr (.inr (List.mem_map.1 h))
    | replaceChildren host content =>
      by_cases hid : id = host
      · rw [perform, hid, arrange_container_self] at h
        exact .inr (.inl h)
      · rw [perform, arrange_container_of_ne hid] at h
        exact .inr (.inr (List.mem_map.1 h))
    | changeAttributes node new =>
      rw [perform, dress_container] at h
      exact .inr (.inr (List.mem_map.1 h))

/-- After an operation no node is present that wasn't there before and wasn't sent either. -/
lemma mem_ids_perform (h : y ∈ (t.perform op).ids) : y ∈ t.ids ∨ y ∈ op.content.flatMap ids := by
  induction t with
  | leaf id tag attributes => cases op <;> exact .inl h
  | container id tag attributes children ih =>
    rcases mem_ids_iff.1 h with rfl | ⟨c, hc, hy⟩
    · exact .inl (by simp)
    rcases mem_childList_perform hc with hc | hc | ⟨d, hd, rfl⟩
    · exact .inl (mem_ids_iff.2 (.inr ⟨c, hc, hy⟩))
    · exact .inr (List.mem_flatMap.2 ⟨c, hc, hy⟩)
    · exact (ih d hd hy).imp_left fun hy => mem_ids_iff.2 (.inr ⟨d, hd, hy⟩)

end Node

end PageSync
