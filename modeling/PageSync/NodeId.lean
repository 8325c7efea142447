import Std.Data.TreeMap

/-!
# Node identifiers

Every node of a forest is identified by a 32-bit number. Identifiers are ordered by that number,
so that they can be the keys of sorted tables.
-/

namespace PageSync

/-- Identifies a node within its forest. -/
structure NodeId where
  /-- The number that tells the node apart. -/
  number : UInt32
deriving DecidableEq, Inhabited

namespace NodeId

/-- The written form of an identifier, `n` followed by its number in decimal digits. -/
def text (n : NodeId) : String := "n" ++ Nat.repr n.number.toNat

/-- The identifier with the largest number. -/
def last : NodeId := ⟨4294967295⟩

/-- How many identifiers there are, and so a bound on every chain of nodes without repetition. -/
def count : Nat := 4294967296

@[ext] theorem ext {a b : NodeId} (h : a.number = b.number) : a = b := by
  cases a; cases b; simp_all

/-! ### Order -/

instance : Ord NodeId := ⟨fun a b => compare a.number b.number⟩

theorem compare_def (a b : NodeId) : compare a b = compare a.number b.number := rfl

instance : Std.TransOrd NodeId where
  eq_swap {a b} := by
    have h : compare a.number b.number = (compare b.number a.number).swap :=
      Std.OrientedCmp.eq_swap
    exact h
  isLE_trans {a b c} hab hbc := by
    have hab : (compare a.number b.number).isLE := hab
    have hac : (compare a.number c.number).isLE := Std.TransCmp.isLE_trans hab hbc
    exact hac

instance : Std.LawfulEqOrd NodeId where
  compare_self {a} := by
    have h : compare a.number a.number = .eq := Std.ReflCmp.compare_self
    exact h
  eq_of_compare {a b} h := by
    have h : compare a.number b.number = .eq := h
    exact ext (Std.LawfulEqCmp.eq_of_compare h)

end NodeId

end PageSync
