import PageSync.Proofs.Pieces
import PageSync.Proofs.Elements
import PageSync.Proofs.Subtrees

/-!
# Commands

What a client gets of an operation is a command: which node it is about, and what comes there
(`Xml.Command.ofOperation`). The parent of a node that is inserted behind a sibling is left out, and so
are attributes of inserted nodes that would pass for other identifiers. Nothing else is lost: the
commands can be read back from the document of a list of operations (`Xml.decode_document`), and two
lists are written as the same document exactly if their commands are the same
(`Xml.sent_text_eq_iff`).
-/

namespace PageSync

/-! ### What is sent -/

/-- A node without attributes, at any depth, that would pass for another identifier. -/
def Node.withoutIds : Node → Node
  | .leaf id tag own => .leaf id tag (own.erase "id")
  | .container id tag own children => .container id tag (own.erase "id") (all children)
where
  /-- The same of several nodes. -/
  all : List Node → List Node
    | [] => []
    | child :: rest => child.withoutIds :: all rest

/-- Whether all names in a node, at any depth, can be told apart from what stands behind them. -/
def Node.IsWellNamed (content : Node) : Prop :=
  ∀ m ∈ content.preorder, Xml.IsName m.tag ∧ ∀ entry ∈ m.attributes.entries, Xml.IsName entry.1

/-- Whether all names in an operation can be told apart from what stands behind them. -/
def Operation.IsWellNamed : Operation → Prop
  | .delete _ => True
  | .insertAfter _ _ content => content.IsWellNamed
  | .replaceChildren _ content => ∀ child ∈ content, child.IsWellNamed
  | .changeAttributes _ own => ∀ entry ∈ own.entries, Xml.IsName entry.1

instance : DecidablePred Node.IsWellNamed := fun content =>
  inferInstanceAs (Decidable (∀ m ∈ content.preorder, _ ∧ ∀ entry ∈ m.attributes.entries, _))

instance : DecidablePred Operation.IsWellNamed
  | .delete _ => .isTrue trivial
  | .insertAfter _ _ content => inferInstanceAs (Decidable content.IsWellNamed)
  | .replaceChildren _ content => inferInstanceAs (Decidable (∀ child ∈ content, child.IsWellNamed))
  | .changeAttributes _ own => inferInstanceAs (Decidable (∀ entry ∈ own.entries, Xml.IsName entry.1))

namespace Xml

/-- What a client is told to do. -/
inductive Command
  /-- Remove a node. -/
  | remove (node : NodeId)
  /-- Insert content before all children of a container. -/
  | prepend (container : NodeId) (content : Node)
  /-- Insert content behind a node. -/
  | after (sibling : NodeId) (content : Node)
  /-- Put content in the place of all children of a container. -/
  | replaceContent (container : NodeId) (content : List Node)
  /-- Put attributes in the place of all attributes of a node. -/
  | changeTagAttributes (node : NodeId) (attributes : Attributes)
deriving DecidableEq

/-- The command that is sent for an operation. -/
def Command.ofOperation : Operation → Command
  | .delete node => .remove node
  | .insertAfter parent none content => .prepend parent content.withoutIds
  | .insertAfter _ (some sibling) content => .after sibling content.withoutIds
  | .replaceChildren container content => .replaceContent container (Node.withoutIds.all content)
  | .changeAttributes node own => .changeTagAttributes node own

namespace Element

/-- The element of a node that is inserted. -/
def ofNode : Node → Element
  | .leaf id tag own => .empty tag (("id", id.text) :: own.entries)
  | .container id tag own children => .filled tag (("id", id.text) :: own.entries) (ofNodes children)
where
  /-- The elements of several nodes. -/
  ofNodes : List Node → List Element
    | [] => []
    | child :: rest => ofNode child :: ofNodes rest

/-- The attribute that selects a node. -/
def selecting (node : NodeId) : String × String := ("select", "#" ++ node.text)

/-- The element of a command. -/
def ofCommand : Command → Element
  | .remove node => .empty "remove" [selecting node]
  | .prepend container content => .filled "prepend" [selecting container] [ofNode content]
  | .after sibling content => .filled "after" [selecting sibling] [ofNode content]
  | .replaceContent container content =>
    .filled "replaceContent" [selecting container] (ofNode.ofNodes content)
  | .changeTagAttributes node own => .empty "changeTagAttributes" (selecting node :: own.entries)

end Element

/-! ### What is read -/

/-- The node of a written identifier. -/
def nodeId? (text : String) : Option NodeId :=
  let node : NodeId := ⟨UInt32.ofNat (Nat.ofDigitChars 10 (text.toList.drop 1) 0)⟩
  if node.text = text then some node else none

/-- The map of some entries, if they are in the order that maps have. -/
def attributes? (entries : List (String × String)) : Option Attributes :=
  if h : AttributeList.Sorted entries then some ⟨entries, h⟩ else none

/-- The node that an attribute selects. -/
def selected? (target : String × String) : Option NodeId :=
  match target.2.toList with
  | '#' :: text => if target.1 = "select" then nodeId? (String.ofList text) else none
  | _ => none

/-- The identifier and the map that the attributes of an inserted node stand for. -/
def ownAttributes? : List (String × String) → Option (NodeId × Attributes)
  | ("id", id) :: entries => do return (← nodeId? id, ← attributes? entries)
  | _ => none

namespace Element

/-- The node that an element stands for. -/
def node? : Element → Option Node
  | .empty tag entries => do
    let (id, own) ← ownAttributes? entries
    return .leaf id tag own
  | .filled tag entries content => do
    let (id, own) ← ownAttributes? entries
    return .container id tag own (← nodes? content)
where
  /-- The nodes that several elements stand for. -/
  nodes? : List Element → Option (List Node)
    | [] => some []
    | element :: rest => do return (← node? element) :: (← nodes? rest)

/-- The command that an element stands for. -/
def command? : Element → Option Command
  | .empty "remove" [target] => do return .remove (← selected? target)
  | .empty "changeTagAttributes" (target :: entries) => do
    return .changeTagAttributes (← selected? target) (← attributes? entries)
  | .filled "prepend" [target] [content] => do
    return .prepend (← selected? target) (← node? content)
  | .filled "after" [target] [content] => do return .after (← selected? target) (← node? content)
  | .filled "replaceContent" [target] content => do
    return .replaceContent (← selected? target) (← node?.nodes? content)
  | _ => none

end Element

/-- The commands of a document. -/
def decode (text : List Char) : Option (List Command) := do
  (← readDocument text).mapM Element.command?

variable {id : NodeId} {own : Attributes} {entries : List (String × String)}

/-! ### Identifiers and maps -/

lemma toList_text (id : NodeId) : id.text.toList = 'n' :: Nat.toDigits 10 id.number.toNat := by
  simp [NodeId.text, Nat.repr_eq_ofList_toDigits]

lemma nodeId?_text (id : NodeId) : nodeId? id.text = some id := by
  have hnumber : Nat.ofDigitChars 10 (id.text.toList.drop 1) 0 = id.number.toNat := by
    rw [toList_text, List.drop_one, List.tail_cons]
    exact Nat.ofDigitChars_toDigits (by decide) (by decide)
  have hid : (⟨UInt32.ofNat id.number.toNat⟩ : NodeId) = id := by rw [UInt32.ofNat_toNat]
  rw [nodeId?, hnumber, hid]
  simp

lemma attributes?_entries (own : Attributes) : attributes? own.entries = some own :=
  dif_pos own.sorted

lemma selected?_selecting (id : NodeId) : selected? (Element.selecting id) = some id := by
  simp [selected?, Element.selecting, nodeId?_text]

lemma ownAttributes?_cons (id : NodeId) (own : Attributes) :
    ownAttributes? (("id", id.text) :: own.entries) = some (id, own) := by
  simp [ownAttributes?, nodeId?_text, attributes?_entries]

namespace Element

/-! ### Commands are read back -/

mutual

theorem node?_ofNode (node : Node) : (ofNode node).node? = some node := by
  match node with
  | .leaf id tag own => simp [ofNode, node?, ownAttributes?_cons]
  | .container id tag own children =>
    simp [ofNode, node?, ownAttributes?_cons, nodes?_ofNodes children]

theorem nodes?_ofNodes (nodes : List Node) : node?.nodes? (ofNode.ofNodes nodes) = some nodes := by
  match nodes with
  | [] => rfl
  | node :: rest => simp [ofNode.ofNodes, node?.nodes?, node?_ofNode node, nodes?_ofNodes rest]

end

/-- The element of a command stands for it. -/
lemma command?_ofCommand (command : Command) : (ofCommand command).command? = some command := by
  cases command with
  | remove node => simp [ofCommand, command?, selected?_selecting]
  | prepend container content => simp [ofCommand, command?, selected?_selecting, node?_ofNode]
  | after sibling content => simp [ofCommand, command?, selected?_selecting, node?_ofNode]
  | replaceContent container content =>
    simp [ofCommand, command?, selected?_selecting, nodes?_ofNodes]
  | changeTagAttributes node own =>
    simp [ofCommand, command?, selected?_selecting, attributes?_entries]

end Element

/-! ### The text of commands -/

/-- Identifiers are written as they are. -/
lemma escape_text (id : NodeId) : escape id.text.toList = id.text.toList := by
  apply escape_of_forall_isPlain
  intro c hc
  rw [toList_text] at hc
  rcases List.mem_cons.1 hc with rfl | hc
  · exact ⟨by decide, by decide, by decide, by decide, by decide⟩
  · have hdigit := Nat.isDigit_of_mem_toDigits (by decide) (by decide) hc
    refine ⟨?_, ?_, ?_, ?_, ?_⟩ <;> (rintro rfl; revert hdigit; decide)

lemma attributes_id : attributes (("id", id.text) :: (own.erase "id").entries) =
    nodeAttributes id own := by
  rw [attributes_cons, escape_text]
  unfold nodeAttributes Attributes.erase
  simp

/-- The selection of a node is an attribute of the command. -/
lemma selection_append : selection id ++ attributes entries =
    attributes (Element.selecting id :: entries) := by
  have hvalue : (Element.selecting id).2.toList = '#' :: id.text.toList := by
    unfold Element.selecting
    rw [String.toList_append]
    rfl
  have hescape : escape (Element.selecting id).2.toList = '#' :: id.text.toList := by
    rw [hvalue, escape_cons, escape_text]
    rfl
  have hbegin : " select=\"#".toList = ' ' :: ("select".toList ++ ['=', '"', '#']) := by decide
  rw [attributes_cons, hescape]
  -- not `rw`, which would evaluate the literals to find the equation of `selection`
  unfold selection Element.selecting
  rw [hbegin]
  simp

namespace Element

mutual

/-- The text of an inserted node is that of its element, without attributes that would pass for other
identifiers. -/
theorem text_ofNode (content : Node) : (ofNode content.withoutIds).text = node content := by
  match content with
  | .leaf id tag own => rw [Node.withoutIds, ofNode, text, attributes_id, node]
  | .container id tag own children =>
    rw [Node.withoutIds, ofNode, text, attributes_id, texts_ofNodes children, node]

theorem texts_ofNodes (content : List Node) :
    text.texts (ofNode.ofNodes (Node.withoutIds.all content)) = node.nodes content := by
  match content with
  | [] => rfl
  | child :: rest =>
    rw [Node.withoutIds.all, ofNode.ofNodes, text.texts, text_ofNode child, texts_ofNodes rest,
      node.nodes]

end

/-- An empty command on a line of its own. -/
lemma text_empty_selecting (name : String) :
    (empty name (selecting id :: entries)).text ++ ['\n'] =
      '<' :: name.toList ++ selection id ++ attributes entries ++ "/>\n".toList := by
  rw [text, ← selection_append]
  simp

/-- A command with content on a line of its own. -/
lemma text_filled_selecting (name : String) (content : List Node) :
    (filled name [selecting id] (ofNode.ofNodes (Node.withoutIds.all content))).text ++ ['\n'] =
      command name id content := by
  rw [text, ← selection_append, texts_ofNodes, command]
  simp [attributes]

/-- The text of an operation is that of its command, on a line of its own. -/
theorem text_ofCommand (op : Operation) :
    (ofCommand (.ofOperation op)).text ++ ['\n'] = operation op := by
  match op with
  | .delete node =>
    have hname : "<remove".toList = '<' :: "remove".toList := by decide
    calc (ofCommand (.remove node)).text ++ ['\n']
      _ = '<' :: "remove".toList ++ selection node ++ [] ++ "/>\n".toList :=
        text_empty_selecting "remove"
      _ = "<remove".toList ++ selection node ++ "/>\n".toList := by rw [hname, List.append_nil]
  | .insertAfter parent none content => exact text_filled_selecting "prepend" [content]
  | .insertAfter _ (some sibling) content => exact text_filled_selecting "after" [content]
  | .replaceChildren container content => exact text_filled_selecting "replaceContent" content
  | .changeAttributes node own =>
    have hname : "<changeTagAttributes".toList = '<' :: "changeTagAttributes".toList := by decide
    calc (ofCommand (.changeTagAttributes node own)).text ++ ['\n']
      _ = '<' :: "changeTagAttributes".toList ++ selection node ++ attributes own.entries ++
          "/>\n".toList := text_empty_selecting "changeTagAttributes"
      _ = "<changeTagAttributes".toList ++ selection node ++ attributes own.entries ++
          "/>\n".toList := by rw [hname]

end Element

/-! ### Documents -/

/-- The document of several operations. -/
def document (ops : List Operation) : List Char := header ++ ops.flatMap operation ++ footer

/-- A document depends on the commands only. -/
lemma document_eq (ops : List Operation) : document ops = header ++
    (((ops.map Command.ofOperation).map Element.ofCommand).flatMap fun e => e.text ++ ['\n']) ++
      footer := by
  simp only [document, List.flatMap_map, Element.text_ofCommand]

/-- Operations that are sent behind the header are written one after the other. -/
lemma forM_operation (ops : List Operation) (written : List Char) :
    (ops.forM sink.operation).run { writer := { text := written }, started := true } =
      .ok () { writer := { text := written ++ ops.flatMap operation }, started := true } := by
  induction ops generalizing written with
  | nil => simp
  | cons op rest ih =>
    have hfirst : sink.operation op { writer := { text := written }, started := true } =
        .ok () { writer := { text := written ++ operation op }, started := true } := by
      rw [operation_sink]
      rfl
    have hrest := ih (written ++ operation op)
    rw [List.append_assoc] at hrest
    rw [List.forM_eq_forM] at hrest ⊢
    rw [List.forM_cons, EStateM.run, bind_of_ok hfirst]
    exact hrest

/-- A stream without a limit takes the whole document. -/
theorem send_eq_ok (ops : List Operation) :
    (sink.send ops).run {} = .ok () { writer := { text := document ops }, started := true } := by
  cases ops with
  | nil => rfl
  | cons op rest =>
    have hfirst : sink.operation op {} =
        .ok () { writer := { text := header ++ operation op }, started := true } := by
      rw [operation_sink]
      rfl
    have hops : ((op :: rest).forM sink.operation).run {} =
        .ok () {
          writer := { text := header ++ operation op ++ rest.flatMap operation }
          started := true } := by
      rw [List.forM_eq_forM, List.forM_cons, EStateM.run, bind_of_ok hfirst]
      exact forM_operation rest (header ++ operation op)
    rw [Sink.send, EStateM.run_bind, hops, document, List.flatMap_cons, ← List.append_assoc header]
    rfl

/-! ### Documents are read back -/

namespace Element

/-- The names of a node's attributes stay names when it gets its identifier. -/
lemma isName_ofNode (h : ∀ entry ∈ own.entries, IsName entry.1) :
    ∀ entry ∈ ("id", id.text) :: (own.erase "id").entries, IsName entry.1 := by
  have hid : IsName "id" := by decide
  intro entry hentry
  rcases List.mem_cons.1 hentry with rfl | hentry
  · exact hid
  · exact h entry (List.mem_of_mem_filter hentry)

mutual

theorem isWellNamed_ofNode (content : Node) (h : content.IsWellNamed) :
    (ofNode content.withoutIds).IsWellNamed := by
  have hself := h content content.self_mem_preorder
  match content with
  | .leaf id tag own => exact ⟨hself.1, isName_ofNode hself.2⟩
  | .container id tag own children =>
    have hchildren : ∀ child ∈ children, child.IsWellNamed := by
      intro child hchild m hm
      exact h m (Node.preorder_subset (Node.child_mem_preorder hchild) hm)
    exact ⟨hself.1, isName_ofNode hself.2, allWellNamed_ofNodes children hchildren⟩

theorem allWellNamed_ofNodes (content : List Node) (h : ∀ child ∈ content, child.IsWellNamed) :
    IsWellNamed.AllWellNamed (ofNode.ofNodes (Node.withoutIds.all content)) := by
  match content with
  | [] => trivial
  | child :: rest =>
    exact ⟨isWellNamed_ofNode child (h child List.mem_cons_self),
      allWellNamed_ofNodes rest fun c hc => h c (List.mem_cons_of_mem child hc)⟩

end

lemma isWellNamed_ofCommand {op : Operation} (h : op.IsWellNamed) :
    (ofCommand (.ofOperation op)).IsWellNamed := by
  have hselect (node : NodeId) {others : List (String × String)}
      (hothers : ∀ entry ∈ others, IsName entry.1) :
      ∀ entry ∈ selecting node :: others, IsName entry.1 := by
    have hname : IsName "select" := by decide
    exact List.forall_mem_cons.2 ⟨hname, hothers⟩
  match op with
  | .delete node => exact ⟨by decide, hselect node (List.forall_mem_nil _)⟩
  | .insertAfter parent none content =>
    exact ⟨by decide, hselect parent (List.forall_mem_nil _), isWellNamed_ofNode content h, trivial⟩
  | .insertAfter _ (some sibling) content =>
    exact ⟨by decide, hselect sibling (List.forall_mem_nil _), isWellNamed_ofNode content h, trivial⟩
  | .replaceChildren container content =>
    exact ⟨by decide, hselect container (List.forall_mem_nil _), allWellNamed_ofNodes content h⟩
  | .changeAttributes node own => exact ⟨by decide, hselect node h⟩

end Element

lemma mapM_command? (commands : List Command) :
    (commands.map Element.ofCommand).mapM Element.command? = some commands := by
  induction commands with
  | nil => rfl
  | cons command rest ih => simp [Element.command?_ofCommand, ih]

/-- The elements of the commands are read back, in order. -/
lemma readDocument_document {ops : List Operation} (h : ∀ op ∈ ops, op.IsWellNamed) :
    readDocument (document ops) = some ((ops.map Command.ofOperation).map Element.ofCommand) := by
  have helements : Element.IsWellNamed.AllWellNamed
      ((ops.map Command.ofOperation).map Element.ofCommand) := by
    simp only [Element.allWellNamed_iff, List.mem_map]
    rintro e ⟨command, ⟨op, hop, rfl⟩, rfl⟩
    exact Element.isWellNamed_ofCommand (h op hop)
  rw [document_eq, readDocument_append _ helements]

/-- The commands of a document are read back, in order. -/
theorem decode_document {ops : List Operation} (h : ∀ op ∈ ops, op.IsWellNamed) :
    decode (document ops) = some (ops.map Command.ofOperation) := by
  rw [decode, readDocument_document h]
  exact mapM_command? _

/-- Two lists of operations are sent as the same document exactly if they stand for the same
commands. -/
theorem sent_text_eq_iff {xs ys : List Operation} (hxs : ∀ op ∈ xs, op.IsWellNamed)
    (hys : ∀ op ∈ ys, op.IsWellNamed) :
    ∃ s t, (sink.send xs).run {} = .ok () s ∧ (sink.send ys).run {} = .ok () t ∧
      decode s.writer.text = some (xs.map Command.ofOperation) ∧
      (s.writer.text = t.writer.text ↔ xs.map Command.ofOperation = ys.map Command.ofOperation) := by
  refine ⟨_, _, send_eq_ok xs, send_eq_ok ys, decode_document hxs, ?_⟩
  constructor
  · intro heq
    have hdecode : decode (document xs) = decode (document ys) := congrArg decode heq
    rw [decode_document hxs, decode_document hys] at hdecode
    exact Option.some.inj hdecode
  · intro heq
    show document xs = document ys
    rw [document_eq, document_eq, heq]

/-- An insertion behind a sibling under another parent, of content with a stray identifier. -/
def strayInsertion (parent : NodeId) (identifier : String) : List Operation :=
  [.insertAfter parent (some ⟨3⟩) (.container ⟨7⟩ "p" (.ofList [("id", identifier), ("title", "<\"&")])
    [.leaf ⟨8⟩ "br" .empty])]

theorem sent_text_eq_of_stray : strayInsertion ⟨1⟩ "n8" ≠ strayInsertion ⟨2⟩ "n9" ∧
    ∃ s t, (sink.send (strayInsertion ⟨1⟩ "n8")).run {} = .ok () s ∧
      (sink.send (strayInsertion ⟨2⟩ "n9")).run {} = .ok () t ∧ s.writer.text = t.writer.text := by
  have hxs : ∀ op ∈ strayInsertion ⟨1⟩ "n8", op.IsWellNamed := by decide
  have hys : ∀ op ∈ strayInsertion ⟨2⟩ "n9", op.IsWellNamed := by decide
  obtain ⟨s, t, hs, ht, -, hiff⟩ := sent_text_eq_iff hxs hys
  exact ⟨by decide, s, t, hs, ht, hiff.2 (by decide)⟩

end Xml

end PageSync
