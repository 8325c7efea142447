import PageSync.Proofs.Commands

/-!
# Start tags

A client finds nodes by the identifiers in the start tags of what it was sent, and the node that a
command is about by what the start tag of the command selects. Attributes of inserted nodes do not
interfere with that. The attributes that a node is given later do so exactly if they are named like an
identifier or like a selection (`Xml.addresses_sent`), because these are written as they are.
-/

namespace PageSync

/-- Whether an operation puts an attribute of that name in the place of what a node had. -/
def Operation.Sets (name : String) : Operation → Prop
  | .changeAttributes _ own => name ∈ own.entries.map Prod.fst
  | _ => False

namespace Xml

/-- The node that a command is about. -/
def Command.target : Command → NodeId
  | .remove node => node
  | .prepend container _ => container
  | .after sibling _ => sibling
  | .replaceContent container _ => container
  | .changeTagAttributes node _ => node

namespace Element

/-- The attributes in the start tag of an element. -/
def entries : Element → List (String × String)
  | .empty _ entries => entries
  | .filled _ entries _ => entries

/-- The names of the attributes in the start tag of an element. -/
def names (e : Element) : List String := e.entries.map Prod.fst

/-- An element and all elements inside, each before its content. -/
def preorder : Element → List Element
  | .empty name entries => [.empty name entries]
  | .filled name entries content => .filled name entries content :: preorders content
where
  /-- The same of several elements, one after the other. -/
  preorders : List Element → List Element
    | [] => []
    | element :: rest => element.preorder ++ preorders rest

/-- The elements inside an element. -/
def inside : Element → List Element
  | .empty _ _ => []
  | .filled _ _ content => preorder.preorders content

end Element

/-- What the start tags in the element of an operation say about nodes. -/
structure Addresses (op : Operation) (e : Element) : Prop where
  /-- The command selects the node that it is about. -/
  select : AttributeList.find? "select" e.entries =
    some ("#" ++ (Command.ofOperation op).target.text)
  /-- Nothing else is selected unless an attribute is named like that. -/
  nodup_iff : e.names.Nodup ↔ ¬ op.Sets "select"
  /-- The command has no identifier unless an attribute is named like that. -/
  id_mem_iff : "id" ∈ e.names ↔ op.Sets "id"
  /-- The elements inside have the identifiers of the nodes that are inserted. -/
  ids : e.inside.map (fun m => AttributeList.find? "id" m.entries) =
    (op.content.flatMap Node.ids).map fun id => some id.text
  /-- No element inside has two attributes of one name. -/
  nodup : ∀ m ∈ e.inside, m.names.Nodup

/-! ### Names in a start tag -/

lemma nodup_names (own : Attributes) : (own.entries.map Prod.fst).Nodup := by
  refine List.pairwise_map.2 (own.sorted.imp ?_)
  rintro a b hlt heq
  exact String.lt_irrefl b.1 (heq ▸ hlt)

lemma notMem_names_erase (own : Attributes) (name : String) :
    name ∉ (own.erase name).entries.map Prod.fst := by
  intro hmem
  obtain ⟨entry, hentry, rfl⟩ := List.mem_map.1 hmem
  have hne := List.of_mem_filter hentry
  simp at hne

namespace Element

/-! ### Inserted nodes -/

lemma entries_ofNode (m : Node) : (ofNode m.withoutIds).entries =
    ("id", m.id.text) :: (m.attributes.erase "id").entries := by
  cases m <;> rfl

lemma find?_id_ofNode (m : Node) :
    AttributeList.find? "id" (ofNode m.withoutIds).entries = some m.id.text := by
  rw [entries_ofNode, AttributeList.find?, if_pos rfl]

lemma nodup_ofNode (m : Node) : (ofNode m.withoutIds).names.Nodup := by
  rw [names, entries_ofNode, List.map_cons, List.nodup_cons]
  exact ⟨notMem_names_erase m.attributes "id", nodup_names _⟩

mutual

theorem preorder_ofNode (content : Node) : (ofNode content.withoutIds).preorder =
    content.preorder.map fun m => ofNode m.withoutIds := by
  match content with
  | .leaf id tag own => rfl
  | .container id tag own children =>
    rw [Node.preorder_container, List.map_cons, ← preorders_ofNodes children, Node.withoutIds, ofNode,
      preorder]

theorem preorders_ofNodes (content : List Node) :
    preorder.preorders (ofNode.ofNodes (Node.withoutIds.all content)) =
      (content.flatMap Node.preorder).map fun m => ofNode m.withoutIds := by
  match content with
  | [] => rfl
  | child :: rest =>
    rw [List.flatMap_cons, List.map_append, ← preorder_ofNode child, ← preorders_ofNodes rest,
      Node.withoutIds.all, ofNode.ofNodes, preorder.preorders]

end

/-! ### Commands -/

/-- What is inside the element of an operation are the elements of the nodes that it carries. -/
lemma inside_ofCommand (op : Operation) : (ofCommand (.ofOperation op)).inside =
    (op.content.flatMap Node.preorder).map fun m => ofNode m.withoutIds := by
  match op with
  | .delete _ => rfl
  | .insertAfter _ none content => exact preorders_ofNodes [content]
  | .insertAfter _ (some _) content => exact preorders_ofNodes [content]
  | .replaceChildren _ content => exact preorders_ofNodes content
  | .changeAttributes _ _ => rfl

/-- The start tag of a command has the selection, then the attributes that the operation puts in
place. -/
lemma entries_ofCommand (op : Operation) : ∃ others,
    (ofCommand (.ofOperation op)).entries = selecting (Command.ofOperation op).target :: others ∧
      (others.map Prod.fst).Nodup ∧ ∀ name, name ∈ others.map Prod.fst ↔ op.Sets name := by
  match op with
  | .delete _ => exact ⟨[], rfl, by simp, by simp [Operation.Sets]⟩
  | .insertAfter _ none _ => exact ⟨[], rfl, by simp, by simp [Operation.Sets]⟩
  | .insertAfter _ (some _) _ => exact ⟨[], rfl, by simp, by simp [Operation.Sets]⟩
  | .replaceChildren _ _ => exact ⟨[], rfl, by simp, by simp [Operation.Sets]⟩
  | .changeAttributes _ own => exact ⟨own.entries, rfl, nodup_names own, fun _ => Iff.rfl⟩

lemma addresses_ofCommand (op : Operation) : Addresses op (ofCommand (.ofOperation op)) := by
  obtain ⟨others, hentries, hnodup, hsets⟩ := entries_ofCommand op
  constructor
  case select =>
    rw [hentries, selecting, AttributeList.find?, if_pos rfl]
  case nodup_iff =>
    rw [names, hentries, List.map_cons, List.nodup_cons, ← hsets]
    exact and_iff_left hnodup
  case id_mem_iff =>
    have hne : "id" ≠ "select" := by decide
    rw [names, hentries, List.map_cons, List.mem_cons, ← hsets]
    exact or_iff_right hne
  case ids =>
    have hids : op.content.flatMap Node.ids = (op.content.flatMap Node.preorder).map Node.id :=
      (List.map_flatMap ..).symm
    rw [inside_ofCommand, hids, List.map_map, List.map_map]
    exact List.map_congr_left fun m _ => find?_id_ofNode m
  case nodup =>
    rw [inside_ofCommand]
    intro e he
    obtain ⟨m, -, rfl⟩ := List.mem_map.1 he
    exact nodup_ofNode m

end Element

/-- In the written document attributes interfere with identifiers and selections exactly where an
operation puts attributes of such names in place. -/
theorem addresses_sent {xs : List Operation} (h : ∀ op ∈ xs, op.IsWellNamed) :
    ∃ s es, (sink.send xs).run {} = .ok () s ∧ readDocument s.writer.text = some es ∧
      List.Forall₂ Addresses xs es := by
  refine ⟨_, _, send_eq_ok xs, readDocument_document h, ?_⟩
  rw [List.map_map, List.forall₂_map_right_iff, List.forall₂_same]
  intro op _
  exact Element.addresses_ofCommand op

theorem addresses_stray : ∃ s e, (sink.send (strayInsertion ⟨1⟩ "n8")).run {} = .ok () s ∧
    readDocument s.writer.text = some [e] ∧ e.names.Nodup ∧ ∀ m ∈ e.inside, m.names.Nodup := by
  have hxs : ∀ op ∈ strayInsertion ⟨1⟩ "n8", op.IsWellNamed := by decide
  obtain ⟨s, es, hs, hes, hall⟩ := addresses_sent hxs
  obtain ⟨e, rest, haddresses, hrest, rfl⟩ := List.forall₂_cons_left_iff.1 hall
  obtain rfl := List.forall₂_nil_left_iff.1 hrest
  exact ⟨s, e, hs, hes, haddresses.nodup_iff.2 id, haddresses.nodup⟩

/-- A change of attributes that names both an identifier and a selection. -/
def reservedChange : Operation := .changeAttributes ⟨5⟩ (.ofList [("id", "n1"), ("select", "#n1")])

/-- Such a change gives the node another identifier, and its command two selections. -/
theorem reservedChange_sent : reservedChange.IsWellNamed ∧
    ∃ s e, (sink.send [reservedChange]).run {} = .ok () s ∧
      readDocument s.writer.text = some [e] ∧ ("id", "n1") ∈ e.entries ∧ ¬ e.names.Nodup := by
  refine ⟨by decide, _, _, send_eq_ok _, readDocument_document (by decide), ?_, ?_⟩
  · decide
  · decide

end Xml

end PageSync
