import PageSync.Sink
import PageSync.Xml.Text

/-!
# Writing XML to a stream

Operations are written to a stream as they come, the header together with the first of them, and each
of them in many small pieces of text. The writer behind the stream may have limited room, which is
counted in bytes of UTF-8: it keeps whole characters as long as they fit, and nothing behind the first
one that does not. A piece that does not fit as a whole ends the writing of its operation.
-/

namespace PageSync.Xml

/-! ### Writers -/

/-- The number of bytes that characters take. -/
def byteSize (text : List Char) : Nat := text.foldr (fun c size => c.utf8Size + size) 0

/-- The longest beginning of a text that takes no more than so many bytes. -/
def fitting : Nat → List Char → List Char
  | _, [] => []
  | room, c :: rest => if c.utf8Size ≤ room then c :: fitting (room - c.utf8Size) rest else []

/-- A text that grows at its end. -/
structure Writer where
  /-- How many more bytes there is room for, unless there is no limit. -/
  room : Option Nat := none
  /-- What has been written. -/
  text : List Char := []
deriving DecidableEq

/-- Why a text is not written as a whole. -/
inductive WriteError
  /-- Some character did not fit. -/
  | noRoom
  /-- The text was to be cut inside of a character. -/
  | noBoundary
deriving DecidableEq

/-- The text that reports a failure to write. -/
def WriteError.message : WriteError → String
  | .noRoom => "an error occurred when formatting an argument"
  | .noBoundary => "byte index is not a char boundary"

/-- Writes as much of a text as there is room for, and fails if that is not all of it. After a
failure there is no room left. -/
def Writer.put (text : List Char) : EStateM WriteError Writer Unit := do
  let writer ← get
  match writer.room with
  | none => set { writer with text := writer.text ++ text }
  | some room =>
    let kept := fitting room text
    if kept.length = text.length then
      set ({ room := some (room - byteSize text), text := writer.text ++ text } : Writer)
    else
      set ({ room := some 0, text := writer.text ++ kept } : Writer)
      throw .noRoom

/-! ### Pieces of text -/

namespace Writer

/-- Whether a character is not written as it is in the value of an attribute. -/
def isSpecial (c : Char) : Bool := c = '&' || c = '<' || c = '>' || c = '"' || c = '\x27'

/-- The entity that is written for the byte of a special character. -/
def entity (byte : UInt8) : List Char :=
  if byte = '&'.toUInt8 then "&amp;".toList
  else if byte = '<'.toUInt8 then "&lt;".toList
  else if byte = '>'.toUInt8 then "&gt;".toList
  else if byte = '"'.toUInt8 then "&quot;".toList
  else "&#39;".toList

theorem ne_endPos_of_find? {rest : String.Slice} {i : rest.Pos} (h : rest.find? isSpecial = some i) :
    i ≠ rest.endPos :=
  (String.Slice.find?_bool_eq_some_iff.1 h).1

/-- Less is left behind a byte. -/
theorem utf8ByteSize_sliceFrom_lt {rest : String.Slice} {k : Nat} {behind : rest.Pos}
    (h : rest.pos? ⟨k + 1⟩ = some behind) :
    (rest.sliceFrom behind).utf8ByteSize < rest.utf8ByteSize := by
  have hoffset : behind.offset.byteIdx = k + 1 := by
    unfold String.Slice.pos? at h
    split at h
    · cases h
      rfl
    · cases h
  have hle := behind.byteIdx_offset_le_utf8ByteSize
  rw [String.Slice.utf8ByteSize_sliceFrom]
  omega

/-- Writes the value of an attribute: the text up to the first special character, then the entity for the
byte that stands there, and then in the same way what stands one byte behind. -/
def value (rest : String.Slice) : EStateM WriteError Writer Unit :=
  match hfind : rest.find? isSpecial with
  | none => put rest.copy.toList
  | some i => do
    put (rest.sliceTo i).copy.toList
    put (entity (i.byte (ne_endPos_of_find? hfind)))
    match _hbehind : rest.pos? ⟨i.offset.byteIdx + 1⟩ with
    | none => throw .noBoundary
    | some behind => value (rest.sliceFrom behind)
termination_by rest.utf8ByteSize
decreasing_by exact utf8ByteSize_sliceFrom_lt _hbehind

/-- Writes an attribute, with a blank before it. -/
def entry (name text : String) : EStateM WriteError Writer Unit := do
  put [' ']
  put name.toList
  put "=\"".toList
  value text.toSlice
  put ['"']

/-- Writes the attributes of a node: its identifier, then its own attributes apart from one that would
pass for another identifier. -/
def nodeAttributes (id : NodeId) (own : Attributes) : EStateM WriteError Writer Unit := do
  put " id=\"".toList
  put id.text.toList
  put ['"']
  own.entries.forM fun (name, text) => do
    if name ≠ "id" then entry name text

/-- Writes a node and everything below it. -/
def node : Node → EStateM WriteError Writer Unit
  | .leaf id tag own => do
    put ['<']
    put tag.toList
    nodeAttributes id own
    put "/>".toList
  | .container id tag own children => do
    put ['<']
    put tag.toList
    nodeAttributes id own
    put ['>']
    nodes children
    put "</".toList
    put tag.toList
    put ['>']
where
  /-- Writes several nodes, one after the other. -/
  nodes : List Node → EStateM WriteError Writer Unit
    | [] => return ()
    | child :: rest => do
      node child
      nodes rest

/-- Writes a command element with content. -/
def command (element : String) (select : NodeId) (content : List Node) :
    EStateM WriteError Writer Unit := do
  put ['<']
  put element.toList
  put " select=\"#".toList
  put select.text.toList
  put "\">".toList
  node.nodes content
  put "</".toList
  put element.toList
  put ">\n".toList

/-- Writes the command element of an operation. -/
def operation : Operation → EStateM WriteError Writer Unit
  | .delete node => do
    put "<remove select=\"#".toList
    put node.text.toList
    put "\"/>\n".toList
  | .insertAfter parent none content => command "prepend" parent [content]
  | .insertAfter _ (some after) content => command "after" after [content]
  | .replaceChildren container content => command "replaceContent" container content
  | .changeAttributes node own => do
    put "<changeTagAttributes select=\"#".toList
    put node.text.toList
    put ['"']
    own.entries.forM fun (name, text) => entry name text
    put "/>\n".toList

end Writer

/-! ### Streams -/

/-- A document that is being written. -/
structure Stream where
  /-- Where the text goes. -/
  writer : Writer := {}
  /-- Whether writing the header has been attempted. -/
  started : Bool := false
deriving DecidableEq

namespace Stream

/-- Writes on the writer of a stream. -/
def write (pieces : EStateM WriteError Writer Unit) : EStateM WriteError Stream Unit := fun stream =>
  match pieces stream.writer with
  | .ok () writer => .ok () { stream with writer }
  | .error error writer => .error error { stream with writer }

/-- Writes the header, unless that has been attempted before. -/
def start : EStateM WriteError Stream Unit := do
  if (← get).started then return ()
  else
    modify fun stream => { stream with started := true }
    write (Writer.put header)

end Stream

/-- The sink that writes operations as XML. -/
def sink : Sink WriteError Stream where
  operation op := do
    Stream.start
    Stream.write (Writer.operation op)
  finish := do
    Stream.start
    Stream.write (Writer.put footer)

end PageSync.Xml
