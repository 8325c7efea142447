import Mathlib.Data.List.Basic
import PageSync.Proofs.Escapes
import PageSync.Proofs.Pieces

/-!
# Values are written exactly

Writing the value of an attribute replaces five characters by entities, and keeps all others in order
(`Xml.Writer.value_exact`). In what is written an ampersand begins one of the five entities, so that a
reader who replaces the entities back gets the value again, even if the value itself contains texts that
look like entities. The five characters take one byte each, and their bytes are not part of any other
character, so that it is the same to replace single bytes of UTF-8.
-/

namespace PageSync.Xml

variable {c : Char} {value before after tail : List Char} {b : UInt8}

/-! ### Entities -/

/-- What is written for a character: an entity, or else the character itself. -/
def replacement (c : Char) : List Char :=
  match entities.lookup c with
  | some entity => entity.toList
  | none => [c]

lemma replacement_of_isPlain (h : IsPlain c) : replacement c = [c] := by
  obtain ⟨hamp, hlt, hgt, hquot, hapos⟩ := h
  have hnone : entities.lookup c = none := List.lookup_eq_none_iff.2 <| by simp [entities, *]
  rw [replacement, hnone]

/-- The characters are replaced by what the table says. -/
lemma escapeChar_eq (c : Char) : escapeChar c = replacement c := by
  rcases entity_or_isPlain c with ⟨entry, hentry, rfl⟩ | hplain
  · have hall : ∀ entry ∈ entities, escapeChar entry.1 = replacement entry.1 := by decide
    exact hall entry hentry
  · rw [escapeChar_of_isPlain hplain, replacement_of_isPlain hplain]

/-- An ampersand in what stands for a character begins an entity, and that is all that stands for it. -/
lemma entity_of_escapeChar (h : escapeChar c = before ++ '&' :: tail) :
    before = [] ∧ ∃ entry ∈ entities, entry.2.toList = '&' :: tail := by
  rcases entity_or_isPlain c with ⟨entry, hentry, rfl⟩ | hplain
  · have hall : ∀ entry ∈ entities, escapeChar entry.1 = entry.2.toList ∧
        '&' ∉ entry.2.toList.tail := by decide
    obtain ⟨heq, hnot⟩ := hall entry hentry
    rw [heq] at h
    cases before with
    | nil => exact ⟨rfl, entry, hentry, h⟩
    | cons d before =>
      rw [h] at hnot
      exact absurd (by simp) hnot
  · rw [escapeChar_of_isPlain hplain] at h
    have hmem : '&' ∈ [c] := h ▸ by simp
    exact absurd (List.mem_singleton.1 hmem).symm hplain.1

/-- An ampersand in the written form of a value begins an entity. -/
lemma entity_of_escape (h : escape value = before ++ '&' :: after) :
    ∃ entry ∈ entities, entry.2.toList <+: '&' :: after := by
  induction value generalizing before with
  | nil => simp [escape] at h
  | cons c rest ih =>
    rw [escape_cons] at h
    rcases List.append_eq_append_iff.1 h with ⟨part, -, hrest⟩ | ⟨part, hc, hafter⟩
    · exact ih hrest
    · cases part with
      | nil =>
        have hrest : escape rest = [] ++ '&' :: after := hafter.symm
        exact ih hrest
      | cons d tail =>
        obtain ⟨rfl, rfl⟩ := List.cons.inj hafter
        obtain ⟨-, entry, hentry, heq⟩ := entity_of_escapeChar hc
        exact ⟨entry, hentry, heq ▸ List.prefix_append _ _⟩

/-! ### Bytes -/

/-- The bytes of UTF-8 that a text takes. -/
def bytes (text : String) : List UInt8 := text.toByteArray.data.toList

lemma bytes_eq (text : String) : bytes text = text.toList.flatMap String.utf8EncodeChar := by
  rw [bytes, ← String.utf8Encode_toList, List.utf8Encode, List.data_toByteArray, List.toList_toArray]

/-- What is written for a byte: the bytes of an entity if it is a character of its own that means
something in XML, or else the byte itself. -/
def replaceByte (b : UInt8) : List UInt8 :=
  if b.toNat < 128 then (replacement (Char.ofNat b.toNat)).flatMap String.utf8EncodeChar else [b]

/-- No byte of a character that takes several bytes is a character of its own. -/
lemma le_of_mem_utf8EncodeChar (hc : 127 < c.toNat) (hb : b ∈ String.utf8EncodeChar c) :
    128 ≤ b.toNat := by
  have hnot : ¬ c.val.toNat ≤ 127 := Nat.not_le.2 hc
  rw [String.utf8EncodeChar, if_neg hnot] at hb
  split_ifs at hb <;>
    · simp only [List.mem_cons, List.not_mem_nil, or_false] at hb
      rcases hb with rfl | rfl | rfl | rfl <;> simp <;> omega

/-- To replace a character is to replace its bytes. -/
lemma flatMap_replaceByte (c : Char) :
    (String.utf8EncodeChar c).flatMap replaceByte = (replacement c).flatMap String.utf8EncodeChar := by
  by_cases hc : c.toNat ≤ 127
  · have hbyte : (UInt8.ofNat c.toNat).toNat = c.toNat := by simp; omega
    have hsingle : String.utf8EncodeChar c = [UInt8.ofNat c.toNat] := by
      rw [String.utf8EncodeChar]
      exact if_pos hc
    rw [hsingle, List.flatMap_singleton, replaceByte, hbyte, if_pos (by omega), Char.ofNat_toNat]
  · have hplain : IsPlain c := by
      refine (entity_or_isPlain c).resolve_left ?_
      rintro ⟨entry, hentry, rfl⟩
      have hall : ∀ entry ∈ entities, entry.1.toNat ≤ 127 := by decide
      exact hc (hall entry hentry)
    have hkept : ∀ b ∈ String.utf8EncodeChar c, replaceByte b = [b] := fun b hb => by
      have hle := le_of_mem_utf8EncodeChar (Nat.not_le.1 hc) hb
      rw [replaceByte, if_neg (by omega)]
    rw [replacement_of_isPlain hplain, List.flatMap_singleton, List.flatMap_congr hkept,
      List.flatMap_singleton']

/-! ### Values -/

/-- For every value: to write it without limit is to write, for one character after the other, the entity
that stands for it or the character itself. In what is written there is no angle bracket and no quotation
mark, and an ampersand begins one of the five entities; replacing the entities back from left to right gives
the value. The bytes of what is written come from replacing the bytes of the value one after the other. -/
theorem Writer.value_exact (value : String) (written : List Char) :
    let out := value.toList.flatMap replacement
    Writer.value value.toSlice ⟨none, written⟩ = .ok () ⟨none, written ++ out⟩ ∧
    (∀ c ∈ out, c ≠ '<' ∧ c ≠ '>' ∧ c ≠ '"' ∧ c ≠ '\x27') ∧
    (∀ before after, out = before ++ '&' :: after →
      ∃ entry ∈ entities, entry.2.toList <+: '&' :: after) ∧
    unescape out = value.toList ∧
    bytes (String.ofList out) = (bytes value).flatMap replaceByte := by
  intro out
  have hout : out = escape value.toList := List.flatMap_congr fun c _ => (escapeChar_eq c).symm
  refine ⟨?_, fun c hc => ?_, fun before after h => ?_, ?_, ?_⟩
  · rw [value_eq, String.copy_toSlice, put_of_unlimited, hout]
  · rcases isPlain_of_mem_escape (hout ▸ hc) with rfl | ⟨-, hplain⟩
    · decide
    · exact hplain
  · exact entity_of_escape (hout ▸ h)
  · rw [hout, unescape_escape]
  · rw [bytes_eq, bytes_eq, String.toList_ofList, List.flatMap_assoc, List.flatMap_assoc]
    exact List.flatMap_congr fun c _ => (flatMap_replaceByte c).symm

/-- A value that looks like an entity is told from the character that the entity stands for. -/
theorem Writer.value_exact_entity :
    Writer.value "&lt;".toSlice ⟨none, []⟩ = .ok () ⟨none, "&amp;lt;".toList⟩ ∧
      unescape "&amp;lt;".toList = "&lt;".toList := by
  have hout : "&lt;".toList.flatMap replacement = "&amp;lt;".toList := by decide
  obtain ⟨hwritten, -, -, hback, -⟩ := Writer.value_exact "&lt;" []
  rw [hout] at hwritten hback
  exact ⟨hwritten, hback⟩

end PageSync.Xml
