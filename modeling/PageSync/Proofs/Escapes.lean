import Mathlib.Tactic.Common
import PageSync.Xml.Text

/-!
# Escaped values

In the value of an attribute the five characters that mean something in XML are replaced by entities.
Replacing the entities back gives the value again (`Xml.unescape_escape`), and no quotation mark is left
in what is written, so that the next one ends the value (`Xml.quote_notMem_escape`).
-/

namespace PageSync.Xml

variable {c : Char} {value rest : List Char}

/-- Replaces the entities of the five characters back, from left to right. -/
def unescape : List Char → List Char
  | '&' :: 'a' :: 'm' :: 'p' :: ';' :: rest => '&' :: unescape rest
  | '&' :: 'l' :: 't' :: ';' :: rest => '<' :: unescape rest
  | '&' :: 'g' :: 't' :: ';' :: rest => '>' :: unescape rest
  | '&' :: 'q' :: 'u' :: 'o' :: 't' :: ';' :: rest => '"' :: unescape rest
  | '&' :: '#' :: '3' :: '9' :: ';' :: rest => '\x27' :: unescape rest
  | c :: rest => c :: unescape rest
  | [] => []

/-- The characters that mean something in XML, and the entities that stand for them. -/
def entities : List (Char × String) :=
  [('&', "&amp;"), ('<', "&lt;"), ('>', "&gt;"), ('"', "&quot;"), ('\x27', "&#39;")]

/-- Whether a character is written as it is. -/
def IsPlain (c : Char) : Prop := c ≠ '&' ∧ c ≠ '<' ∧ c ≠ '>' ∧ c ≠ '"' ∧ c ≠ '\x27'

instance : DecidablePred IsPlain := fun c =>
  inferInstanceAs (Decidable (c ≠ '&' ∧ c ≠ '<' ∧ c ≠ '>' ∧ c ≠ '"' ∧ c ≠ '\x27'))

lemma special_or_isPlain (c : Char) :
    c = '&' ∨ c = '<' ∨ c = '>' ∨ c = '"' ∨ c = '\x27' ∨ IsPlain c := by
  unfold IsPlain
  tauto

lemma entity_or_isPlain (c : Char) : (∃ entry ∈ entities, entry.1 = c) ∨ IsPlain c := by
  rcases special_or_isPlain c with rfl | rfl | rfl | rfl | rfl | hplain
  · exact .inl ⟨('&', "&amp;"), by decide, rfl⟩
  · exact .inl ⟨('<', "&lt;"), by decide, rfl⟩
  · exact .inl ⟨('>', "&gt;"), by decide, rfl⟩
  · exact .inl ⟨('"', "&quot;"), by decide, rfl⟩
  · exact .inl ⟨('\x27', "&#39;"), by decide, rfl⟩
  · exact .inr hplain

lemma escapeChar_of_isPlain (h : IsPlain c) : escapeChar c = [c] := by
  obtain ⟨hamp, hlt, hgt, hquot, hapos⟩ := h
  unfold escapeChar
  split
  · exact absurd rfl hamp
  · exact absurd rfl hlt
  · exact absurd rfl hgt
  · exact absurd rfl hquot
  · exact absurd rfl hapos
  · rfl

lemma escape_cons : escape (c :: value) = escapeChar c ++ escape value := rfl

lemma escape_append (value rest : List Char) : escape (value ++ rest) = escape value ++ escape rest :=
  List.flatMap_append

/-- Only an ampersand may begin an entity. -/
lemma unescape_cons (hc : c ≠ '&') : unescape (c :: rest) = c :: unescape rest := by
  simp [unescape, hc]

/-- Replacing the entities in a written value back gives the value. -/
theorem unescape_escape (value : List Char) : unescape (escape value) = value := by
  induction value with
  | nil => rfl
  | cons c rest ih =>
    rw [escape_cons]
    rcases special_or_isPlain c with rfl | rfl | rfl | rfl | rfl | hplain
    · exact congrArg ('&' :: ·) ih
    · exact congrArg ('<' :: ·) ih
    · exact congrArg ('>' :: ·) ih
    · exact congrArg ('"' :: ·) ih
    · exact congrArg ('\x27' :: ·) ih
    · rw [escapeChar_of_isPlain hplain, List.singleton_append, unescape_cons hplain.1, ih]

/-- Of the five characters only ampersands are written. -/
lemma isPlain_of_mem_escape (h : c ∈ escape value) : c = '&' ∨ IsPlain c := by
  obtain ⟨d, -, hd⟩ := List.mem_flatMap.1 h
  rcases entity_or_isPlain d with ⟨entry, hentry, rfl⟩ | hplain
  · have hall : ∀ entry ∈ entities, (escapeChar entry.1).all (fun c => c = '&' ∨ IsPlain c) := by decide
    exact of_decide_eq_true (List.all_eq_true.1 (hall entry hentry) c hd)
  · rw [escapeChar_of_isPlain hplain, List.mem_singleton] at hd
    exact .inr (hd ▸ hplain)

/-- A quotation mark in a value is not written as such. -/
lemma quote_notMem_escape (value : List Char) : '"' ∉ escape value := by
  intro hmem
  rcases isPlain_of_mem_escape hmem with heq | hplain
  · cases heq
  · exact hplain.2.2.2.1 rfl

/-- Where nothing is special, a value is written as it is. -/
lemma escape_of_forall_isPlain (h : ∀ c ∈ value, IsPlain c) : escape value = value := by
  induction value with
  | nil => rfl
  | cons c rest ih =>
    rw [escape_cons, escapeChar_of_isPlain (h c List.mem_cons_self),
      ih fun d hd => h d (List.mem_cons_of_mem c hd), List.singleton_append]

end PageSync.Xml
