import Mathlib.Data.List.Basic
import PageSync.Proofs.Escapes

/-!
# Elements and their text

An element has a name, attributes in order, and content unless it is an empty one. Its text can be read
back if its names, and those of the elements inside, can be told apart from what stands behind them
(`Xml.readElement_append`); values may be any. A document that consists of such elements, each on a line
of its own, can be read back as a whole (`Xml.readDocument_append`).
-/

namespace PageSync.Xml

/-! ### Names -/

/-- Whether a character can stand in a name without ending it. -/
def isNameChar (c : Char) : Bool :=
  !c.isWhitespace && !(['<', '>', '/', '=', '"', '\x27', '&'].contains c)

/-- Whether a text is a name that can be told apart from what stands behind it. -/
def IsName (name : String) : Prop := name ≠ "" ∧ name.toList.all isNameChar

instance : DecidablePred IsName := fun _ => inferInstanceAs (Decidable (_ ∧ _))

/-- An element, and everything inside. -/
inductive Element
  | empty (name : String) (attributes : List (String × String))
  | filled (name : String) (attributes : List (String × String)) (content : List Element)

namespace Element

/-- The text of an element. -/
def text : Element → List Char
  | .empty name entries => '<' :: name.toList ++ attributes entries ++ "/>".toList
  | .filled name entries content =>
    '<' :: name.toList ++ attributes entries ++ ['>'] ++ texts content ++ "</".toList ++
      name.toList ++ ['>']
where
  /-- The text of several elements, one after the other. -/
  texts : List Element → List Char
    | [] => []
    | element :: rest => element.text ++ texts rest

/-- Whether all names in an element can be told apart from what stands behind them. -/
def IsWellNamed : Element → Prop
  | .empty name entries => IsName name ∧ ∀ entry ∈ entries, IsName entry.1
  | .filled name entries content =>
    IsName name ∧ (∀ entry ∈ entries, IsName entry.1) ∧ AllWellNamed content
where
  /-- Whether this holds of several elements. -/
  AllWellNamed : List Element → Prop
    | [] => True
    | element :: rest => element.IsWellNamed ∧ AllWellNamed rest

end Element

/-! ### Reading -/

/-- The name at the beginning of a text, and what stands behind it. -/
def readName (text : List Char) : Option (String × List Char) :=
  let name := text.takeWhile isNameChar
  if name.isEmpty then none else some (String.ofList name, text.dropWhile isNameChar)

/-- The value of an attribute at the beginning of a text, behind the sign of equality, and what stands
behind it. -/
def readValue : List Char → Option (String × List Char)
  | '=' :: '"' :: text =>
    match text.dropWhile (· ≠ '"') with
    | [] => none
    | _ :: rest => some (String.ofList (unescape (text.takeWhile (· ≠ '"'))), rest)
  | _ => none

/-- The attributes at the beginning of a text, not more than so many, and what stands behind them. -/
def readAttributes : Nat → List Char → Option (List (String × String) × List Char)
  | 0, _ => none
  | steps + 1, ' ' :: text => do
    let (name, text) ← readName text
    let (value, text) ← readValue text
    let (entries, text) ← readAttributes steps text
    return ((name, value) :: entries, text)
  | _ + 1, text => some ([], text)

mutual

/-- The element at the beginning of a text, and what stands behind it. The number of steps bounds how
long the element may be. -/
def readElement : Nat → List Char → Option (Element × List Char)
  | steps + 1, '<' :: text => do
    let (name, text) ← readName text
    let (entries, text) ← readAttributes steps text
    match text with
    | '/' :: '>' :: text => return (.empty name entries, text)
    | '>' :: text =>
      let (content, text) ← readContent [] steps text
      let text ← text.dropPrefix? ("</".toList ++ name.toList ++ ['>'])
      return (.filled name entries content, text)
    | _ => none
  | _, _ => none

/-- The elements at the beginning of a text up to an end tag, each followed by a separator, and what
stands behind them. -/
def readContent (separator : List Char) : Nat → List Char → Option (List Element × List Char)
  | 0, _ => none
  | _ + 1, '<' :: '/' :: text => some ([], '<' :: '/' :: text)
  | steps + 1, text => do
    let (element, text) ← readElement steps text
    let text ← text.dropPrefix? separator
    let (rest, text) ← readContent separator steps text
    return (element :: rest, text)

end

/-- The elements of a document, each on a line of its own. -/
def readDocument (text : List Char) : Option (List Element) := do
  let text ← text.dropPrefix? header
  let (elements, text) ← readContent ['\n'] (text.length + 1) text
  let rest ← text.dropPrefix? footer
  if rest.isEmpty then some elements else none

variable {c : Char} {name value : String} {rest : List Char} {entries : List (String × String)}
  {steps : Nat}

/-! ### Names and values -/

/-- A text is cut in two at the first character of another kind. -/
lemma takeWhile_append_cons {p : Char → Bool} {begin : List Char} (hbegin : ∀ d ∈ begin, p d = true)
    (hc : p c = false) (rest : List Char) : (begin ++ c :: rest).takeWhile p = begin ∧
      (begin ++ c :: rest).dropWhile p = c :: rest := by
  rw [List.takeWhile_append_of_pos hbegin, List.dropWhile_append_of_pos hbegin,
    List.takeWhile_cons, List.dropWhile_cons, hc]
  simp

/-- A name begins with something else than a slash. -/
lemma exists_cons_of_isName (h : IsName name) : ∃ c tail, name.toList = c :: tail ∧ c ≠ '/' := by
  cases hlist : name.toList with
  | nil => exact absurd (by simpa using hlist) h.1
  | cons c tail =>
    refine ⟨c, tail, rfl, ?_⟩
    rintro rfl
    have hslash := List.all_eq_true.1 h.2 '/' (hlist ▸ List.mem_cons_self)
    exact absurd hslash (by decide)

lemma readName_append (h : IsName name) (hc : isNameChar c = false) :
    readName (name.toList ++ c :: rest) = some (name, c :: rest) := by
  obtain ⟨htake, hdrop⟩ := takeWhile_append_cons (List.all_eq_true.1 h.2) hc rest
  have hne : name.toList ≠ [] := by simpa using h.1
  simp [readName, htake, hdrop, hne]

lemma readValue_append (value : String) (rest : List Char) :
    readValue ('=' :: '"' :: (escape value.toList ++ '"' :: rest)) = some (value, rest) := by
  have hquote : ∀ c ∈ escape value.toList, decide (c ≠ '"') = true := by
    intro c hc
    refine decide_eq_true ?_
    rintro rfl
    exact quote_notMem_escape _ hc
  obtain ⟨htake, hdrop⟩ := takeWhile_append_cons (c := '"') hquote (by simp) rest
  simp only [readValue, htake, hdrop, unescape_escape, String.ofList_toList]

/-! ### Attributes -/

lemma attributes_cons {entry : String × String} : attributes (entry :: entries) =
    ' ' :: (entry.1.toList ++ '=' :: '"' :: (escape entry.2.toList ++ '"' :: attributes entries)) := by
  simp [attributes, attributeText]

/-- Attributes are read until something else than a blank comes. -/
lemma readAttributes_append (hnames : ∀ entry ∈ entries, IsName entry.1) (hc : c ≠ ' ')
    (hsteps : (attributes entries).length < steps) :
    readAttributes steps (attributes entries ++ c :: rest) = some (entries, c :: rest) := by
  induction entries generalizing steps with
  | nil =>
    cases steps with
    | zero => cases hsteps
    | succ steps =>
      simp [attributes, readAttributes, hc]
  | cons entry entries ih =>
    cases steps with
    | zero => cases hsteps
    | succ steps =>
      have hrest : (attributes entries).length < steps := by
        rw [attributes_cons] at hsteps
        simp at hsteps
        omega
      have hname := hnames entry List.mem_cons_self
      have hequal : isNameChar '=' = false := by decide
      have hothers := ih (fun e he => hnames e (List.mem_cons_of_mem entry he)) hrest
      rw [attributes_cons]
      simp [readAttributes, readName_append hname hequal, readValue_append, hothers]

/-! ### Elements -/

namespace Element

lemma allWellNamed_iff {es : List Element} :
    IsWellNamed.AllWellNamed es ↔ ∀ e ∈ es, e.IsWellNamed := by
  induction es with
  | nil => simp [IsWellNamed.AllWellNamed]
  | cons e rest ih => simp [IsWellNamed.AllWellNamed, ih]

/-- The text of an element begins with a start tag, not with an end tag. -/
lemma exists_text_eq {e : Element} (h : e.IsWellNamed) :
    ∃ c tail, e.text = '<' :: c :: tail ∧ c ≠ '/' := by
  cases e with
  | empty name entries =>
    obtain ⟨c, tail, heq, hc⟩ := exists_cons_of_isName h.1
    exact ⟨c, tail ++ _, by simp only [text, heq, List.cons_append, List.append_assoc]; rfl, hc⟩
  | filled name entries content =>
    obtain ⟨c, tail, heq, hc⟩ := exists_cons_of_isName h.1
    exact ⟨c, tail ++ _, by simp only [text, heq, List.cons_append, List.append_assoc]; rfl, hc⟩

lemma texts_eq_flatMap (es : List Element) : text.texts es = es.flatMap fun e => e.text ++ [] := by
  induction es with
  | nil => rfl
  | cons e rest ih => rw [text.texts, ih, List.flatMap_cons, List.append_nil]

lemma text_empty_append : (empty name entries).text ++ rest =
    '<' :: (name.toList ++ (attributes entries ++ '/' :: '>' :: rest)) := by
  simp [text]

lemma text_filled_append {content : List Element} : (filled name entries content).text ++ rest =
    '<' :: (name.toList ++ (attributes entries ++ '>' ::
      ((content.flatMap fun e => e.text ++ []) ++ '<' :: '/' :: (name.toList ++ '>' :: rest)))) := by
  simp [text, texts_eq_flatMap]

end Element

/-- The name in a start tag is read up to the attributes or up to the end of the tag. -/
lemma readName_tag (h : IsName name) (hc : isNameChar c = false) (rest : List Char) :
    readName (name.toList ++ (attributes entries ++ c :: rest)) =
      some (name, attributes entries ++ c :: rest) := by
  cases entries with
  | nil => exact readName_append h hc
  | cons entry entries =>
    rw [attributes_cons, List.cons_append]
    exact readName_append h (by decide)

/-- A start tag is not taken for the end of the content. -/
lemma readContent_element {e : Element} (h : e.IsWellNamed) {separator : List Char} :
    readContent separator (steps + 1) (e.text ++ rest) = (do
      let (element, text) ← readElement steps (e.text ++ rest)
      let text ← text.dropPrefix? separator
      let (others, text) ← readContent separator steps text
      return (element :: others, text)) := by
  obtain ⟨c, tail, heq, hc⟩ := Element.exists_text_eq h
  rw [heq, List.cons_append, List.cons_append, readContent]
  rintro _ heq'
  exact hc (List.cons.inj (List.cons.inj heq').2).1

mutual

/-- An element is read up to its end. -/
theorem readElement_append (e : Element) (h : e.IsWellNamed) {steps : Nat}
    (hsteps : e.text.length ≤ steps) (rest : List Char) :
    readElement steps (e.text ++ rest) = some (e, rest) := by
  obtain ⟨steps, rfl⟩ : ∃ k, steps = k + 1 := by
    obtain ⟨c, tail, heq, -⟩ := Element.exists_text_eq h
    rw [heq] at hsteps
    exact ⟨steps - 1, by simp at hsteps; omega⟩
  match e with
  | .empty name entries =>
    have hlength : (attributes entries).length < steps := by
      simp [Element.text] at hsteps
      omega
    rw [Element.text_empty_append]
    simp only [readElement, readName_tag (c := '/') h.1 (by decide),
      readAttributes_append (c := '/') h.2 (by decide) hlength, Option.bind_eq_bind,
      Option.bind_some, Option.pure_def]
  | .filled name entries content =>
    have hlength : (attributes entries).length < steps ∧
        (content.flatMap fun e => e.text ++ []).length < steps := by
      simp only [Element.text, Element.texts_eq_flatMap, List.length_append, List.length_cons] at hsteps
      omega
    have hcontent := readContent_append content h.2.2 [] hlength.2 (name.toList ++ '>' :: rest)
    have hend : ('<' :: '/' :: (name.toList ++ '>' :: rest)).dropPrefix?
        ("</".toList ++ name.toList ++ ['>']) = some rest := by
      have happend := List.dropPrefix?_append_of_beq rest
        (beq_self_eq_true ("</".toList ++ name.toList ++ ['>']))
      simpa using happend
    rw [Element.text_filled_append]
    simp only [readElement, readName_tag (c := '>') h.1 (by decide),
      readAttributes_append (c := '>') h.2.1 (by decide) hlength.1, hcontent, hend,
      Option.bind_eq_bind, Option.bind_some, Option.pure_def]

/-- Several elements are read up to the next end tag. -/
theorem readContent_append (es : List Element) (h : Element.IsWellNamed.AllWellNamed es)
    (separator : List Char) {steps : Nat}
    (hsteps : (es.flatMap fun e => e.text ++ separator).length < steps) (rest : List Char) :
    readContent separator steps ((es.flatMap fun e => e.text ++ separator) ++ '<' :: '/' :: rest) =
      some (es, '<' :: '/' :: rest) := by
  match es, steps with
  | _, 0 => cases hsteps
  | [], steps + 1 => rfl
  | e :: es, steps + 1 =>
    have hlength : e.text.length ≤ steps ∧
        (es.flatMap fun e => e.text ++ separator).length < steps := by
      obtain ⟨c, tail, heq, -⟩ := Element.exists_text_eq h.1
      simp only [List.flatMap_cons, List.length_append] at hsteps
      rw [heq, List.length_cons] at hsteps ⊢
      omega
    have helement := readElement_append e h.1 hlength.1
      (separator ++ ((es.flatMap fun e => e.text ++ separator) ++ '<' :: '/' :: rest))
    have hrest := readContent_append es h.2 separator hlength.2 rest
    rw [List.flatMap_cons, List.append_assoc, List.append_assoc, readContent_element h.1]
    simp only [helement, List.dropPrefix?_append_of_beq _ (beq_self_eq_true separator), hrest,
      Option.bind_eq_bind, Option.bind_some, Option.pure_def]

end

/-- A document is read as the elements on its lines. -/
theorem readDocument_append (es : List Element) (h : Element.IsWellNamed.AllWellNamed es) :
    readDocument (header ++ (es.flatMap fun e => e.text ++ ['\n']) ++ footer) = some es := by
  have hlength : (es.flatMap fun e => e.text ++ ['\n']).length <
      ((es.flatMap fun e => e.text ++ ['\n']) ++ footer).length + 1 := by
    rw [List.length_append]
    omega
  have hcontent : readContent ['\n'] (((es.flatMap fun e => e.text ++ ['\n']) ++ footer).length + 1)
      ((es.flatMap fun e => e.text ++ ['\n']) ++ footer) = some (es, footer) :=
    readContent_append es h ['\n'] hlength "delta>\n".toList
  have hheader := List.dropPrefix?_append_of_beq ((es.flatMap fun e => e.text ++ ['\n']) ++ footer)
    (beq_self_eq_true header)
  have hfooter : footer.dropPrefix? footer = some [] := rfl
  rw [List.append_assoc, readDocument]
  simp only [hheader, hcontent, hfooter, Option.bind_eq_bind, Option.bind_some, List.isEmpty_nil,
    if_true]

end PageSync.Xml
