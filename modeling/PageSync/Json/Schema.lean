import PageSync.Json.Basic
import PageSync.Operation
import PageSync.Policy

/-!
# Pages and operations as JSON

The JSON forms of identifiers, attributes, nodes, operations and policies. A variant of a type is an
object with one member, whose name is that of the variant; its fields are an object, or an array in
a fixed order. Readers pass over members they don't know, and follow the structure of a type to a
fixed depth only.
-/

namespace PageSync

namespace Json

/-! ### Depth -/

/-- How many arrays and objects a reader may enter, one inside the other. -/
def levelLimit : Nat := 127

/-- Enters one more array or object, unless the limit has been reached. -/
def enter {α : Type} (levels : Nat) (read : Nat → Option α) : Option α :=
  match levels with
  | 0 => none
  | levels + 1 => read levels

/-! ### Fields -/

/-- The values of the members with a name. -/
def valuesOf (name : String) (members : List (Option String × Json)) : List Json :=
  members.filterMap fun (key, value) => if key = some name then some value else none

/-- The fields of a variant or a record by their names: from an object, where none may be given
twice, or from an array, where the last ones may be missing. -/
def fields? (names : List String) : Json → Option (List (Option Json))
  | .object members =>
    if members.all (fun member => member.1.isSome) &&
        names.all (fun name => (valuesOf name members).length ≤ 1) then
      some (names.map fun name => (valuesOf name members).head?)
    else none
  | .array items =>
    if items.length ≤ names.length then
      some (items.map some ++ List.replicate (names.length - items.length) none)
    else none
  | _ => none

/-- The name and the fields of a variant. -/
def variant? : Json → Option (String × Json)
  | .object [(some name, body)] => some (name, body)
  | _ => none

/-! ### Parts -/

/-- The text of a string. -/
def string? : Json → Option String
  | .string text => text
  | _ => none

/-- A natural number below a bound, written as an integer. -/
def natBelow? (bound : Nat) : Json → Option Nat
  | .number n =>
    if n.isInteger && !n.isNegative && n.decimal.digits < bound then some n.decimal.digits else none
  | _ => none

/-- The double nearest to a number, unless the number is too large for one. -/
def float? : Json → Option Float
  | .number n =>
    let size := n.decimal.nearest
    if size.isInf then none else some (if n.isNegative then -size else size)
  | _ => none

end Json

/-! ### Identifiers and attributes -/

/-- The JSON form of an identifier. -/
def NodeId.toJson (id : NodeId) : Json := .ofNat id.number.toNat

/-- Reads an identifier. -/
def NodeId.ofJson? (json : Json) : Option NodeId :=
  (json.natBelow? NodeId.count).map fun n => ⟨n.toUInt32⟩

/-- The JSON form of attributes. -/
def Attributes.toJson (attributes : Attributes) : Json :=
  .record (attributes.entries.map fun (name, value) => (name, .ofString value))

/-- Reads the name and the value of an attribute. -/
def Attributes.pair? (member : Option String × Json) : Option (String × String) := do
  return (← member.1, ← member.2.string?)

/-- Reads attributes; of several values of one name the last one counts. -/
def Attributes.ofJson? (levels : Nat) : Json → Option Attributes
  | .object members =>
    Json.enter levels fun _ =>
      (members.mapM pair?).map .ofList
  | _ => none

/-! ### Nodes -/

namespace Node

/-- The JSON form of a node. -/
def toJson : Node → Json
  | .leaf id tag attributes =>
    .record [("Leaf", .record [
      ("id", id.toJson), ("tag", .ofString tag), ("attributes", attributes.toJson)])]
  | .container id tag attributes children =>
    .record [("Container", .record [
      ("id", id.toJson), ("tag", .ofString tag), ("attributes", attributes.toJson),
      ("children", .array (toJsons children))])]
where
  /-- The JSON forms of several nodes. -/
  toJsons : List Node → List Json
    | [] => []
    | node :: rest => node.toJson :: toJsons rest

/-- Reads a node, to so many levels. -/
def ofJson? : Nat → Json → Option Node
  | 0, _ | 1, _ => none
  | levels + 2, json => do
    let (name, body) ← json.variant?
    match name with
    | "Leaf" =>
      match ← body.fields? ["id", "tag", "attributes"] with
      | [some id, some tag, some attributes] =>
        return .leaf (← NodeId.ofJson? id) (← tag.string?) (← Attributes.ofJson? levels attributes)
      | _ => none
    | "Container" =>
      match ← body.fields? ["id", "tag", "attributes", "children"] with
      | [some id, some tag, some attributes, some (.array children)] =>
        match levels with
        | 0 => none
        | below + 1 =>
          return .container (← NodeId.ofJson? id) (← tag.string?)
            (← Attributes.ofJson? levels attributes) (← children.mapM (ofJson? below))
      | _ => none
    | _ => none

end Node

/-! ### Operations -/

namespace Operation

/-- The JSON form of an operation. -/
def toJson : Operation → Json
  | .delete node => .record [("Delete", .record [("node", node.toJson)])]
  | .insertAfter parent after content =>
    .record [("InsertAfter", .record [
      ("parent", parent.toJson), ("after", (after.map NodeId.toJson).getD .null),
      ("content", content.toJson)])]
  | .replaceChildren container content =>
    .record [("ReplaceChildren", .record [
      ("container", container.toJson), ("content", .array (content.map Node.toJson))])]
  | .changeAttributes node attributes =>
    .record [("ChangeAttributes", .record [
      ("node", node.toJson), ("attributes", attributes.toJson)])]

/-- Reads the sibling behind which something is inserted; a missing one is the same as none. -/
def afterOfJson? : Option Json → Option (Option NodeId)
  | none | some .null => some none
  | some json => (NodeId.ofJson? json).map some

/-- Reads an operation, to so many levels. -/
def ofJson? : Nat → Json → Option Operation
  | 0, _ | 1, _ => none
  | levels + 2, json => do
    let (name, body) ← json.variant?
    match name with
    | "Delete" =>
      match ← body.fields? ["node"] with
      | [some node] => return .delete (← NodeId.ofJson? node)
      | _ => none
    | "InsertAfter" =>
      match ← body.fields? ["parent", "after", "content"] with
      | [some parent, after, some content] =>
        return .insertAfter (← NodeId.ofJson? parent) (← afterOfJson? after)
          (← Node.ofJson? levels content)
      | _ => none
    | "ReplaceChildren" =>
      match ← body.fields? ["container", "content"] with
      | [some container, some (.array content)] =>
        return .replaceChildren (← NodeId.ofJson? container)
          (← Json.enter levels fun below => content.mapM (Node.ofJson? below))
      | _ => none
    | "ChangeAttributes" =>
      match ← body.fields? ["node", "attributes"] with
      | [some node, some attributes] =>
        return .changeAttributes (← NodeId.ofJson? node) (← Attributes.ofJson? levels attributes)
      | _ => none
    | _ => none

end Operation

/-! ### Policies -/

namespace Policy

/-- Reads a field that has a value of its own where it is missing. -/
def fieldOr {α : Type} (standard : α) (read : Json → Option α) : Option Json → Option α
  | none => some standard
  | some json => read json

/-- Reads a policy; a missing field has its usual value. -/
def ofJson? (json : Json) : Option Policy := do
  let usual : Policy := {}
  match ← json.fields? ["minimum_retained_ratio", "maximum_change_ratio", "depth_limit"] with
  | [minRetained, maxChanged, depthLimit] =>
    return {
      minRetained := ← fieldOr usual.minRetained Json.float? minRetained
      maxChanged := ← fieldOr usual.maxChanged Json.float? maxChanged
      depthLimit := ← fieldOr usual.depthLimit
        (fun json => (json.natBelow? UInt64.size).map Nat.toUInt64) depthLimit }
  | _ => none

end Policy

end PageSync
