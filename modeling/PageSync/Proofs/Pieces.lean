import PageSync.Proofs.Escapes
import PageSync.Xml.Stream

/-!
# Writing in pieces

Operations are written in many small pieces, and after a piece that does not fit nothing more is
written. That comes to the same as to write the whole text at once (`Xml.operation_sink`): what does not
fit is cut off at the same character, whichever pieces the text comes in (`Xml.Writer.put_append`). The
pieces of a value are found by counting bytes, and they are what stands for its characters one after the
other (`Xml.Writer.value_eq`).
-/

namespace PageSync

namespace Xml

variable {text more : List Char} {room : Nat} {c : Char} {writer : Writer}

/-! ### Sizes -/

@[simp] lemma byteSize_nil : byteSize [] = 0 := rfl

@[simp] lemma byteSize_cons : byteSize (c :: text) = c.utf8Size + byteSize text := rfl

@[simp] lemma byteSize_append (text more : List Char) :
    byteSize (text ++ more) = byteSize text + byteSize more := by
  induction text with
  | nil => simp
  | cons c rest ih => simp [ih, Nat.add_assoc]

/-! ### What fits -/

@[simp] lemma fitting_nil (room : Nat) : fitting room [] = [] := by
  rw [fitting]

lemma fitting_cons : fitting room (c :: text) =
    if c.utf8Size ≤ room then c :: fitting (room - c.utf8Size) text else [] := by
  rw [fitting]

/-- What fits takes no more than the room. -/
lemma byteSize_fitting_le (room : Nat) (text : List Char) : byteSize (fitting room text) ≤ room := by
  induction text generalizing room with
  | nil => simp
  | cons c rest ih =>
    rw [fitting_cons]
    split
    · next h =>
      have hrest := ih (room - c.utf8Size)
      rw [byteSize_cons]
      omega
    · simp

/-- Any other beginning that takes no more than the room is a beginning of what fits. -/
lemma isPrefix_fitting (h : more <+: text) (hsize : byteSize more ≤ room) :
    more <+: fitting room text := by
  induction more generalizing room text with
  | nil => exact List.nil_prefix
  | cons c more ih =>
    obtain ⟨rest, rfl⟩ := h
    rw [byteSize_cons] at hsize
    rw [List.cons_append, fitting_cons, if_pos (by omega)]
    exact List.cons_prefix_cons.2 ⟨rfl, ih (List.prefix_append more rest) (by omega)⟩

lemma fitting_isPrefix (room : Nat) (text : List Char) : fitting room text <+: text := by
  induction text generalizing room with
  | nil => simp
  | cons c rest ih =>
    rw [fitting_cons]
    split
    · exact List.cons_prefix_cons.2 ⟨rfl, ih _⟩
    · exact List.nil_prefix

/-- A text fits as a whole if it is short enough. -/
lemma fitting_eq_self_iff : fitting room text = text ↔ byteSize text ≤ room := by
  constructor
  · intro h
    exact h ▸ byteSize_fitting_le room text
  · intro h
    exact (fitting_isPrefix room text).eq_of_length_le (isPrefix_fitting List.prefix_rfl h).length_le

/-- Of a text that is short enough all is kept, and what comes behind it gets the rest of the room. -/
lemma fitting_append_of_le (h : byteSize text ≤ room) (more : List Char) :
    fitting room (text ++ more) = text ++ fitting (room - byteSize text) more := by
  induction text generalizing room with
  | nil => simp
  | cons c rest ih =>
    rw [byteSize_cons] at h
    rw [List.cons_append, fitting_cons, if_pos (by omega), ih (by omega), byteSize_cons, Nat.sub_sub,
      List.cons_append]

/-- Behind a text that is too long nothing is kept. -/
lemma fitting_append_of_lt (h : room < byteSize text) (more : List Char) :
    fitting room (text ++ more) = fitting room text := by
  induction text generalizing room with
  | nil => simp at h
  | cons c rest ih =>
    rw [byteSize_cons] at h
    rw [List.cons_append, fitting_cons, fitting_cons]
    split
    · rw [ih (by omega)]
    · rfl

/-! ### One piece -/

section Steps

variable {ε σ α β : Type} {m : EStateM ε σ α} {k : α → EStateM ε σ β} {s s' : σ} {a : α} {e : ε}

lemma bind_of_ok (h : m s = .ok a s') : (m >>= k) s = k a s' := by
  simp only [bind, EStateM.bind, h]

lemma bind_of_error (h : m s = .error e s') : (m >>= k) s = .error e s' := by
  simp only [bind, EStateM.bind, h]

end Steps

namespace Writer

lemma put_of_unlimited (text written : List Char) :
    put text ⟨none, written⟩ = .ok () ⟨none, written ++ text⟩ := rfl

lemma put_limited (text written : List Char) (room : Nat) : put text ⟨some room, written⟩ =
    (if (fitting room text).length = text.length then
      set ({ room := some (room - byteSize text), text := written ++ text } : Writer)
    else do
      set ({ room := some 0, text := written ++ fitting room text } : Writer)
      throw .noRoom : EStateM WriteError Writer Unit) ⟨some room, written⟩ := rfl

/-- A text that fits is written. -/
lemma put_of_le (h : byteSize text ≤ room) (written : List Char) : put text ⟨some room, written⟩ =
    .ok () ⟨some (room - byteSize text), written ++ text⟩ := by
  rw [put_limited, if_pos (congrArg List.length (fitting_eq_self_iff.2 h))]
  rfl

/-- Of a text that does not fit the writer takes what fits, and then it has no room left. -/
lemma put_of_lt (h : room < byteSize text) (written : List Char) : put text ⟨some room, written⟩ =
    .error .noRoom ⟨some 0, written ++ fitting room text⟩ := by
  rw [put_limited, if_neg]
  · rfl
  · intro hlength
    have hself := (fitting_isPrefix room text).eq_of_length hlength
    exact absurd (fitting_eq_self_iff.1 hself) (by omega)

/-- Nothing is written without fail. -/
lemma put_nil : put [] = pure () := by
  funext ⟨room, written⟩
  cases room with
  | none => rw [put_of_unlimited, List.append_nil]; rfl
  | some room => rw [put_of_le (Nat.zero_le room), List.append_nil]; rfl

/-- It makes no difference whether two texts are written together or one after the other. -/
theorem put_append (text more : List Char) :
    put (text ++ more) = (do put text; put more : EStateM WriteError Writer Unit) := by
  funext ⟨room, written⟩
  cases room with
  | none =>
    rw [bind_of_ok (put_of_unlimited text written), put_of_unlimited, put_of_unlimited,
      List.append_assoc]
  | some room =>
    by_cases hfirst : byteSize text ≤ room
    · rw [bind_of_ok (put_of_le hfirst written)]
      by_cases hboth : byteSize text + byteSize more ≤ room
      · rw [put_of_le (by rw [byteSize_append]; omega), put_of_le (by omega), byteSize_append,
          Nat.sub_sub, List.append_assoc]
      · rw [put_of_lt (by rw [byteSize_append]; omega), put_of_lt (by omega),
          fitting_append_of_le hfirst, List.append_assoc]
    · have hlt : room < byteSize text := Nat.not_le.1 hfirst
      rw [bind_of_error (put_of_lt hlt written), put_of_lt (by rw [byteSize_append]; omega),
        fitting_append_of_lt hlt]

/-! ### Values -/

section Values

variable {rest : String.Slice} {i behind : rest.Pos} {before after : String} {b : UInt8}

lemma isSpecial_eq_false_iff : isSpecial c = false ↔ IsPlain c := by
  simp [isSpecial, IsPlain, and_assoc]

/-- A special character is a single byte, and its entity is known by that. -/
lemma utf8EncodeChar_of_isSpecial (h : isSpecial c = true) :
    String.utf8EncodeChar c = [c.toUInt8] ∧ entity c.toUInt8 = escapeChar c := by
  rcases entity_or_isPlain c with ⟨e, he, rfl⟩ | hplain
  · have hall : ∀ e ∈ entities, String.utf8EncodeChar e.1 = [e.1.toUInt8] ∧
        entity e.1.toUInt8 = escapeChar e.1 := by decide
    exact hall e he
  · rw [isSpecial_eq_false_iff.2 hplain] at h
    cases h

/-- The byte at a position is that of the character behind it, if this has only one. -/
lemma byte_eq (hsplits : i.Splits before (String.singleton c ++ after)) (hi : i ≠ rest.endPos)
    (hc : String.utf8EncodeChar c = [b]) : i.byte hi = b := by
  have hbytes : rest.copy.toByteArray.data.toList =
      before.toByteArray.data.toList ++ b :: after.toByteArray.data.toList := by
    rw [hsplits.eq_append]
    simp [String.toByteArray_append, List.utf8Encode, hc]
  have hoffset : i.offset.byteIdx = before.toByteArray.data.toList.length := by
    rw [hsplits.offset_eq_rawEndPos]
    rfl
  have hget : rest.copy.toByteArray.data.toList[i.offset.byteIdx]? = some b := by
    rw [hbytes, hoffset, List.getElem?_append_right (Nat.le_refl _), Nat.sub_self]
    rfl
  obtain ⟨_, hget⟩ := List.getElem?_eq_some_iff.1 hget
  exact String.Slice.getUTF8Byte_copy.symm.trans hget

/-- One byte behind a character that has only one the next character begins. -/
lemma exists_pos?_eq (hsplits : i.Splits before (String.singleton c ++ after))
    (hsize : c.utf8Size = 1) : ∃ behind, rest.pos? ⟨i.offset.byteIdx + 1⟩ = some behind ∧
      (rest.sliceFrom behind).copy = after := by
  have hi : i ≠ rest.endPos := hsplits.ne_endPos_of_singleton
  have hnext : (i.next hi).Splits (before ++ String.singleton c) after := hsplits.next
  have hoffset : (i.next hi).offset = ⟨i.offset.byteIdx + 1⟩ := by
    apply String.Pos.Raw.ext
    rw [String.Slice.Pos.byteIdx_offset_next, hnext.get_eq_of_singleton, hsize]
  refine ⟨i.next hi, ?_, hnext.copy_sliceFrom_eq⟩
  rw [← hoffset]
  exact dif_pos (String.Pos.Raw.isValidForSlice_eq_true_iff.2 (i.next hi).isValidForSlice)

lemma value_of_none (hfind : rest.find? isSpecial = none) : value rest = put rest.copy.toList := by
  rw [value]
  split
  · rfl
  · next i hsome =>
    rw [hfind] at hsome
    cases hsome

lemma value_of_some (hfind : rest.find? isSpecial = some i)
    (hbehind : rest.pos? ⟨i.offset.byteIdx + 1⟩ = some behind) : value rest = (do
      put (rest.sliceTo i).copy.toList
      put (entity (i.byte (ne_endPos_of_find? hfind)))
      value (rest.sliceFrom behind)) := by
  rw [value]
  split
  · next hnone =>
    rw [hfind] at hnone
    cases hnone
  · next i hsome =>
    obtain rfl := Option.some.inj (hfind.symm.trans hsome)
    split
    · next hnone =>
      rw [hbehind] at hnone
      cases hnone
    · next behind hsome =>
      obtain rfl := Option.some.inj (hbehind.symm.trans hsome)
      rfl

/-- The pieces of a value make up its escaped form, and it is never cut inside of a character. -/
theorem value_eq (rest : String.Slice) : value rest = put (escape rest.copy.toList) := by
  induction rest using value.induct with
  | case1 rest hfind =>
    rw [value_of_none hfind, escape_of_forall_isPlain]
    rw [String.Slice.find?_eq_none_iff, String.Slice.contains_bool_eq, List.any_eq_false] at hfind
    exact fun c hc => isSpecial_eq_false_iff.1 (eq_false_of_ne_true (hfind c hc))
  | case2 rest i hfind ih =>
    obtain ⟨before, c, after, hsplits, hc, hbefore⟩ :=
      String.Slice.find?_bool_eq_some_iff_splits.1 hfind
    obtain ⟨hbyte, hentity⟩ := utf8EncodeChar_of_isSpecial hc
    have hsize : c.utf8Size = 1 := by
      rw [← String.length_utf8EncodeChar, hbyte, List.length_singleton]
    obtain ⟨behind, hbehind, hcopy⟩ := exists_pos?_eq hsplits hsize
    have hplain : escape before.toList = before.toList :=
      escape_of_forall_isPlain fun d hd => isSpecial_eq_false_iff.1 (hbefore d hd)
    have htext : escape rest.copy.toList =
        before.toList ++ (entity c.toUInt8 ++ escape after.toList) := by
      rw [hsplits.eq_append, String.toList_append, String.toList_append, String.toList_singleton,
        escape_append, hplain, List.singleton_append, escape_cons, hentity]
    rw [value_of_some hfind hbehind, byte_eq hsplits _ hbyte, hsplits.copy_sliceTo_eq,
      ih behind hbehind, hcopy, htext, put_append, put_append]

end Values

/-! ### Many pieces -/

variable {entries : List (String × String)} {id : NodeId} {own : Attributes}

lemma entry_eq (name text : String) : entry name text = put (attributeText name text) := by
  have htext : attributeText name text =
      [' '] ++ (name.toList ++ ("=\"".toList ++ (escape text.toList ++ ['"']))) := by
    simp [attributeText]
  rw [entry, value_eq, String.copy_toSlice, htext]
  simp only [put_append]

/-- Pieces for some elements of a list, and none for the others. -/
lemma forM_eq {α : Type} {step : α → EStateM WriteError Writer Unit} {kept : α → Bool}
    {piece : α → List Char} (items : List α)
    (hstep : ∀ item, step item = if kept item then put (piece item) else pure ()) :
    items.forM step = put ((items.filter kept).flatMap piece) := by
  induction items with
  | nil => exact put_nil.symm
  | cons item rest ih =>
    rw [List.forM_eq_forM] at ih ⊢
    rw [List.forM_cons, ih, hstep]
    by_cases hkept : kept item
    · rw [if_pos hkept, List.filter_cons_of_pos hkept, List.flatMap_cons, put_append]
    · rw [if_neg hkept, List.filter_cons_of_neg hkept, pure_bind]

lemma entries_eq (entries : List (String × String)) :
    (entries.forM fun (name, text) => entry name text) = put (attributes entries) := by
  have hpieces : (entries.forM fun (name, text) => entry name text) =
      put ((entries.filter fun _ => true).flatMap fun (name, text) => attributeText name text) :=
    forM_eq entries fun (name, text) => entry_eq name text
  rwa [List.filter_eq_self.2 fun _ _ => rfl] at hpieces

lemma nodeAttributes_eq (id : NodeId) (own : Attributes) :
    nodeAttributes id own = put (Xml.nodeAttributes id own) := by
  have hown : (own.entries.forM fun (name, text) => do if name ≠ "id" then entry name text) =
      put (attributes (own.entries.filter fun e => e.1 ≠ "id")) := by
    apply forM_eq
    rintro ⟨name, text⟩
    simp [entry_eq]
  have htext : Xml.nodeAttributes id own = " id=\"".toList ++ id.text.toList ++ ['"'] ++
      attributes (own.entries.filter fun e => e.1 ≠ "id") := rfl
  rw [nodeAttributes, hown, htext]
  simp only [put_append, bind_assoc]

mutual

/-- The pieces of a node make up its written form. -/
theorem node_eq (content : Node) : node content = put (Xml.node content) := by
  match content with
  | .leaf id tag own =>
    have htext : Xml.node (.leaf id tag own) =
        ['<'] ++ tag.toList ++ Xml.nodeAttributes id own ++ "/>".toList := rfl
    rw [node, nodeAttributes_eq, htext]
    simp only [put_append, bind_assoc]
  | .container id tag own children =>
    have htext : Xml.node (.container id tag own children) =
        ['<'] ++ tag.toList ++ Xml.nodeAttributes id own ++ ['>'] ++ Xml.node.nodes children ++
          "</".toList ++ tag.toList ++ ['>'] := rfl
    rw [node, nodeAttributes_eq, nodes_eq, htext]
    simp only [put_append, bind_assoc]

theorem nodes_eq (contents : List Node) : node.nodes contents = put (Xml.node.nodes contents) := by
  match contents with
  | [] => exact put_nil.symm
  | content :: rest => rw [node.nodes, node_eq, nodes_eq, Xml.node.nodes, put_append]

end

lemma command_eq (element : String) (select : NodeId) (content : List Node) :
    command element select content = put (Xml.command element select content) := by
  have hclose : "\">".toList = ['"'] ++ ['>'] := by decide
  have htext : Xml.command element select content = ['<'] ++ element.toList ++
      " select=\"#".toList ++ select.text.toList ++ "\">".toList ++ Xml.node.nodes content ++
        "</".toList ++ element.toList ++ ">\n".toList := by
    unfold Xml.command selection
    rw [hclose]
    simp only [List.append_assoc, List.cons_append, List.nil_append]
  rw [command, nodes_eq, htext]
  simp only [put_append, bind_assoc]

/-- The pieces of an operation make up its written form. -/
theorem operation_eq (op : Operation) : operation op = put (Xml.operation op) := by
  match op with
  | .delete node =>
    have hopen : "<remove select=\"#".toList = "<remove".toList ++ " select=\"#".toList := by decide
    have hclose : "\"/>\n".toList = ['"'] ++ "/>\n".toList := by decide
    have htext : Xml.operation (.delete node) =
        "<remove select=\"#".toList ++ node.text.toList ++ "\"/>\n".toList := by
      unfold Xml.operation selection
      rw [hopen, hclose]
      simp only [List.append_assoc]
    rw [operation, htext]
    simp only [put_append, bind_assoc]
  | .insertAfter parent none content => exact command_eq "prepend" parent [content]
  | .insertAfter _ (some sibling) content => exact command_eq "after" sibling [content]
  | .replaceChildren container content => exact command_eq "replaceContent" container content
  | .changeAttributes node own =>
    have hopen : "<changeTagAttributes select=\"#".toList =
        "<changeTagAttributes".toList ++ " select=\"#".toList := by decide
    have htext : Xml.operation (.changeAttributes node own) =
        "<changeTagAttributes select=\"#".toList ++ node.text.toList ++ ['"'] ++
          attributes own.entries ++ "/>\n".toList := by
      unfold Xml.operation selection
      rw [hopen]
      simp only [List.append_assoc]
    rw [operation, entries_eq, htext]
    simp only [put_append, bind_assoc]

end Writer

/-! ### Whole texts -/

namespace Stream

/-- Writes a text, behind the header if that has not been attempted yet. -/
def put (text : List Char) : EStateM WriteError Stream Unit := fun stream =>
  match Writer.put (if stream.started then text else header ++ text) stream.writer with
  | .ok () writer => .ok () { writer, started := true }
  | .error error writer => .error error { writer, started := true }

lemma put_of_ok {stream : Stream}
    (h : Writer.put (if stream.started then text else header ++ text) stream.writer = .ok () writer) :
    put text stream = .ok () { writer, started := true } := by
  rw [put, h]

lemma put_of_error {stream : Stream} {e : WriteError}
    (h : Writer.put (if stream.started then text else header ++ text) stream.writer =
      .error e writer) : put text stream = .error e { writer, started := true } := by
  rw [put, h]

lemma write_bind (m k : EStateM WriteError Writer Unit) :
    write (do m; k) = (do write m; write k) := by
  funext stream
  cases hm : m stream.writer with
  | ok a writer =>
    have hfirst : write m stream = .ok () { stream with writer } := by rw [write, hm]
    rw [bind_of_ok hfirst, write, bind_of_ok hm]
    rfl
  | error e writer =>
    have hfirst : write m stream = .error e { stream with writer } := by rw [write, hm]
    rw [bind_of_error hfirst, write, bind_of_error hm]

/-- To write the header, if need be, and then a text is to write both together. -/
lemma start_then_write (text : List Char) : (do start; write (Writer.put text)) = put text := by
  funext ⟨writer, started⟩
  cases started with
  | true => rfl
  | false =>
    have hstart : (do start; write (Writer.put text) : EStateM WriteError Stream Unit) ⟨writer, false⟩ =
        (do write (Writer.put header); write (Writer.put text) : EStateM WriteError Stream Unit)
          ⟨writer, true⟩ := rfl
    rw [hstart, ← write_bind, ← Writer.put_append]
    rfl

end Stream

/-- An operation is written as if its text were written at once. -/
theorem operation_sink (op : Operation) : sink.operation op = Stream.put (operation op) := by
  rw [← Stream.start_then_write, ← Writer.operation_eq]
  rfl

lemma finish_sink : sink.finish = Stream.put footer := Stream.start_then_write footer

end Xml

end PageSync
