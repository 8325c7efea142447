import Mathlib.Tactic.Common
import PageSync.Pass.Emission

/-!
# Reading a ledger

`Told` says which operations the sheets of a ledger lead to, sheet by sheet along the outline. In
what a pass writes each sheet has a greater number than the one it is nested in, so the outline ends
before there are more levels than sheets, and the operations of the pass are those that are told
(`Told.operations_eq`).
-/

namespace PageSync

namespace Pass

variable {pass : Pass} {ledger ledger' : Ledger} {low low' high high' : Nat}
  {numbers numbers' : List Nat} {removals removals' others others' : List Operation}

/-- The sheet of a line of the outline, which must not be cut off. -/
def readLine (ledger : Ledger) (line : Ledger.Line) : Except PassError Sheet :=
  if line.isCut then .error (.cyclic ((ledger.sheet line.number).container.getD .last))
  else .ok (ledger.sheet line.number)

/-- Whether the sheets of the given numbers and those nested in them have numbers from `low` to
below `high`, each a greater one than the sheet it is nested in, and lead to the given removals and
other operations. -/
inductive Told (pass : Pass) (ledger : Ledger) (high : Nat) :
    Nat → List Nat → List Operation → List Operation → Prop
  | nil (low : Nat) : Told pass ledger high low [] [] []
  | cons {low number : Nat} {rest : List Nat} {own inner innerRemovals outer outerRemovals :
        List Operation} (low_le : low ≤ number) (lt_high : number < high)
      (nested : Told pass ledger high (number + 1) (ledger.sheet number).nested innerRemovals inner)
      (additions : pass.additions (ledger.sheet number) = .ok own)
      (siblings : Told pass ledger high low rest outerRemovals outer) :
      Told pass ledger high low (number :: rest)
        ((ledger.sheet number).deletions ++ innerRemovals ++ outerRemovals) (own ++ inner ++ outer)

namespace Told

lemma append (h : Told pass ledger high low numbers removals others)
    (h' : Told pass ledger high low numbers' removals' others') :
    Told pass ledger high low (numbers ++ numbers') (removals ++ removals') (others ++ others') := by
  induction h with
  | nil => exact h'
  | cons low_le lt_high nested additions _ _ ih =>
    have := Told.cons low_le lt_high nested additions (ih h')
    simpa only [List.append_assoc, List.cons_append] using this

lemma mono (h : Told pass ledger high low numbers removals others) (hlow : low' ≤ low)
    (hhigh : high ≤ high') : Told pass ledger high' low' numbers removals others := by
  induction h generalizing low' with
  | nil => exact .nil _
  | cons low_le lt_high _ additions _ ihnested ihrest =>
    exact .cons (Nat.le_trans hlow low_le) (Nat.lt_of_lt_of_le lt_high hhigh)
      (ihnested (Nat.le_refl _)) additions (ihrest hlow)

/-- Nothing is told by sheets outside of the range. -/
lemma congr (h : Told pass ledger high low numbers removals others)
    (hsheet : ∀ number, low ≤ number → number < high → ledger'.sheet number = ledger.sheet number) :
    Told pass ledger' high low numbers removals others := by
  induction h with
  | nil => exact .nil _
  | cons low_le lt_high _ additions _ ihnested ihrest =>
    have heq := hsheet _ low_le lt_high
    have hnested := ihnested fun number hlow => hsheet number (by omega)
    rw [← heq] at additions hnested ⊢
    exact .cons low_le lt_high hnested additions (ihrest hsheet)

/-- The outline below sheets that are told of is not cut off, and the operations are read off from
its lines. -/
lemma outline (h : Told pass ledger high low numbers removals others) (levels : Nat)
    (hlevels : high ≤ levels + low) (depth : Nat) :
    ∃ sheets additions,
      (numbers.flatMap (ledger.outlineFrom levels depth)).mapM (readLine ledger) = .ok sheets ∧
      sheets.flatMap Sheet.deletions = removals ∧
      sheets.mapM pass.additions = .ok additions ∧ additions.flatten = others := by
  induction h generalizing levels depth with
  | nil => exact ⟨[], [], rfl, rfl, rfl, rfl⟩
  | @cons low number rest own inner innerRemovals outer outerRemovals low_le lt_high nested
      additions _ ihnested ihrest =>
    obtain ⟨levels, rfl⟩ : ∃ l, levels = l + 1 := ⟨levels - 1, by omega⟩
    obtain ⟨S, A, hS, hSr, hA, hAo⟩ := ihnested levels (by omega) (depth + 1)
    obtain ⟨S', A', hS', hSr', hA', hAo'⟩ := ihrest _ hlevels depth
    refine ⟨ledger.sheet number :: S ++ S', own :: A ++ A', ?_, ?_, ?_, ?_⟩
    · rw [List.flatMap_cons, Ledger.outlineFrom, List.mapM_append, List.mapM_cons, hS, hS']
      rfl
    · simp [hSr, hSr']
    · rw [List.mapM_append, List.mapM_cons, additions, hA, hA']
      rfl
    · simp [hAo, hAo']

/-- The operations of a pass are those that its first sheet tells of. -/
lemma operations_eq (h : Told pass ledger ledger.next 0 [Ledger.first] removals others) :
    pass.operations ledger = .ok (removals ++ others) := by
  obtain ⟨S, A, hS, hSr, hA, hAo⟩ := h.outline ledger.next (Nat.le_add_right _ _) 0
  rw [List.flatMap_singleton] at hS
  have hsheets : Pass.sheets ledger = .ok S := hS
  rw [operations, hsheets]
  simp only [bind, Except.bind, hA, hSr, hAo, pure, Except.pure]

end Told

end Pass

end PageSync
