import PageSync.Operation

/-!
# Operations as XML

The written form of operations is a document of command elements, one for each operation. A
command selects the node that it is about by identifier; content that is inserted stands inside
the command, with the identifier of every node as an attribute.
-/

namespace PageSync.Xml

/-! ### Attributes -/

/-- What stands for a character in the value of an attribute. -/
def escapeChar : Char → List Char
  | '&' => "&amp;".toList
  | '<' => "&lt;".toList
  | '>' => "&gt;".toList
  | '"' => "&quot;".toList
  | '\x27' => "&#39;".toList
  | c => [c]

/-- The written form of the value of an attribute. -/
def escape (value : List Char) : List Char := value.flatMap escapeChar

/-- An attribute, with a blank before it. -/
def attributeText (name value : String) : List Char :=
  ' ' :: name.toList ++ "=\"".toList ++ escape value.toList ++ ['"']

/-- Several attributes. -/
def attributes (entries : List (String × String)) : List Char :=
  entries.flatMap fun (name, value) => attributeText name value

/-- The attributes of a node: its identifier, then its own attributes apart from one that would
pass for another identifier. -/
def nodeAttributes (id : NodeId) (own : Attributes) : List Char :=
  " id=\"".toList ++ id.text.toList ++ ['"'] ++
    attributes (own.entries.filter fun entry => entry.1 ≠ "id")

/-! ### Content -/

/-- A node and everything below it. -/
def node : Node → List Char
  | .leaf id tag own => '<' :: tag.toList ++ nodeAttributes id own ++ "/>".toList
  | .container id tag own children =>
    '<' :: tag.toList ++ nodeAttributes id own ++ ['>'] ++ nodes children ++
      "</".toList ++ tag.toList ++ ['>']
where
  /-- Several nodes, one after the other. -/
  nodes : List Node → List Char
    | [] => []
    | child :: rest => node child ++ nodes rest

/-! ### Commands -/

/-- The attribute that selects the node which a command is about. -/
def selection (id : NodeId) : List Char := " select=\"#".toList ++ id.text.toList ++ ['"']

/-- A command element with content, on a line of its own. -/
def command (element : String) (select : NodeId) (content : List Node) : List Char :=
  '<' :: element.toList ++ selection select ++ ['>'] ++ node.nodes content ++
    "</".toList ++ element.toList ++ ">\n".toList

/-- The command element of an operation. -/
def operation : Operation → List Char
  | .delete node => "<remove".toList ++ selection node ++ "/>\n".toList
  | .insertAfter parent none content => command "prepend" parent [content]
  | .insertAfter _ (some after) content => command "after" after [content]
  | .replaceChildren container content => command "replaceContent" container content
  | .changeAttributes node own =>
    "<changeTagAttributes".toList ++ selection node ++ attributes own.entries ++ "/>\n".toList

/-- What stands before the first command. -/
def header : List Char := "<?xml version=\"1.0\" encoding=\"utf-8\"?>\n<delta>\n".toList

/-- What stands behind the last command. -/
def footer : List Char := "</delta>\n".toList

end PageSync.Xml
