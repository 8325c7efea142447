import Mathlib.Logic.Relation
import Mathlib.Data.Fintype.EquivFin
import PageSync.NodeId

/-!
# Parents and ancestors

A table of parents says of every node under which other node it stands, if under any. The current
parents of a view are such a table, and so are the parents under which a client shows the nodes.

`Covers up a n` says that `a` is `n` or above it, `IsAbove up a n` that it is above. Since a node
has at most one parent, the nodes that cover a given one form a chain (`Covers.total`), and below
two children of one parent no node is common (`Acyclic.not_covers_both`).
-/

namespace PageSync

variable {up : NodeId → Option NodeId} {a b c n p : NodeId}

/-- Whether `a` is the node `n` itself or an ancestor of it. -/
def Covers (up : NodeId → Option NodeId) (a n : NodeId) : Prop :=
  Relation.ReflTransGen (fun x y => up x = some y) n a

/-- Whether `a` is an ancestor of `n`. -/
def IsAbove (up : NodeId → Option NodeId) (a n : NodeId) : Prop :=
  Relation.TransGen (fun x y => up x = some y) n a

/-- Whether no node is an ancestor of itself. -/
def Acyclic (up : NodeId → Option NodeId) : Prop := ∀ n, ¬ IsAbove up n n

/-! ### Finitely many nodes -/

/-- The number of a node, below the number of all identifiers. -/
def NodeId.toFin (n : NodeId) : Fin NodeId.count := n.number.toFin

lemma NodeId.toFin_injective : Function.Injective NodeId.toFin :=
  fun _ _ h => NodeId.ext (UInt32.toFin_inj.1 h)

/-- A list without repetition has no more nodes than there are identifiers. -/
lemma NodeId.length_le_count {nodes : List NodeId} (h : nodes.Nodup) :
    nodes.length ≤ NodeId.count := by
  simpa using (h.map NodeId.toFin_injective).length_le_card

/-! ### Chains -/

@[refl] lemma Covers.refl (n : NodeId) : Covers up n n := Relation.ReflTransGen.refl

lemma Covers.trans (hab : Covers up a b) (hbn : Covers up b n) : Covers up a n :=
  Relation.ReflTransGen.trans hbn hab

lemma IsAbove.covers (h : IsAbove up a n) : Covers up a n := Relation.TransGen.to_reflTransGen h

lemma IsAbove.of_parent (h : up n = some p) : IsAbove up p n := Relation.TransGen.single h

lemma Covers.of_parent (h : up n = some p) : Covers up p n := Relation.ReflTransGen.single h

lemma IsAbove.trans_covers (hab : IsAbove up a b) (hbn : Covers up b n) : IsAbove up a n :=
  Relation.TransGen.trans_right hbn hab

lemma Covers.trans_isAbove (hab : Covers up a b) (hbn : IsAbove up b n) : IsAbove up a n :=
  Relation.TransGen.trans_left hbn hab

lemma covers_iff_eq_or_isAbove : Covers up a n ↔ a = n ∨ IsAbove up a n := by
  rw [Covers, Relation.reflTransGen_iff_eq_or_transGen]
  rfl

/-- What is above a node covers its parent. -/
lemma isAbove_iff_parent : IsAbove up a n ↔ ∃ p, up n = some p ∧ Covers up a p :=
  Relation.TransGen.head'_iff

/-- What is above a node is the parent of a node that covers it. -/
lemma isAbove_iff_child : IsAbove up a n ↔ ∃ c, up c = some a ∧ Covers up c n := by
  rw [IsAbove, Relation.TransGen.tail'_iff]
  exact exists_congr fun _ => and_comm

lemma IsAbove.covers_parent (h : IsAbove up a n) (hp : up n = some p) : Covers up a p := by
  obtain ⟨q, hq, hcov⟩ := isAbove_iff_parent.1 h
  obtain rfl : p = q := Option.some.inj (hp.symm.trans hq)
  exact hcov

/-- A top is covered by nothing else. -/
lemma Covers.eq_of_top (h : Covers up a n) (hn : up n = none) : a = n := by
  rcases covers_iff_eq_or_isAbove.1 h with rfl | h
  · rfl
  · obtain ⟨p, hp, _⟩ := isAbove_iff_parent.1 h
    simp [hn] at hp

/-- The nodes that cover a given one form a chain. -/
lemma Covers.total (ha : Covers up a n) (hb : Covers up b n) : Covers up a b ∨ Covers up b a :=
  (Relation.ReflTransGen.total_of_right_unique
    (fun _ _ _ h h' => Option.some.inj (h.symm.trans h')) ha hb).symm

/-- Changing the parents outside of a chain leaves the chain as it is. -/
lemma Covers.congr {up' : NodeId → Option NodeId} (h : Covers up a n)
    (hup : ∀ m, Covers up m n → m ≠ a → up' m = up m) : Covers up' a n := by
  induction h using Relation.ReflTransGen.head_induction_on with
  | refl => exact .refl _
  | @head x y hxy hya ih =>
    by_cases hxa : x = a
    · exact hxa ▸ .refl _
    · have hy : Covers up' a y := ih fun m hm => hup m (hm.trans (.of_parent hxy))
      exact hy.trans (.of_parent ((hup x (.refl _) hxa).trans hxy))

/-! ### Other tables -/

variable {up' : NodeId → Option NodeId} {child container : NodeId}

/-- Where parents are only taken away, no node gets ancestors. -/
lemma Covers.of_le (h : Covers up' a n) (hle : ∀ x p, up' x = some p → up x = some p) :
    Covers up a n :=
  Relation.ReflTransGen.mono (fun x p => hle x p) n a h

lemma IsAbove.of_le (h : IsAbove up' a n) (hle : ∀ x p, up' x = some p → up x = some p) :
    IsAbove up a n :=
  Relation.TransGen.mono (fun x p => hle x p) n a h

/-- Where a node only gets a new parent, the nodes that it covers get new ancestors: those that cover
the parent. -/
lemma Covers.of_attach (h : Covers up' a n) (hcov : ¬ Covers up child container)
    (hle : ∀ x p, up' x = some p → up x = some p ∨ x = child ∧ p = container) :
    Covers up a n ∨ Covers up child n ∧ Covers up a container := by
  induction h using Relation.ReflTransGen.head_induction_on with
  | refl => exact .inl (.refl _)
  | @head x y hxy _ ih =>
    rcases hle x y hxy with hold | ⟨rfl, rfl⟩
    · rcases ih with hay | ⟨hchild, ha⟩
      · exact .inl (hay.trans (.of_parent hold))
      · exact .inr ⟨hchild.trans (.of_parent hold), ha⟩
    · rcases ih with hay | ⟨hchild, -⟩
      · exact .inr ⟨.refl _, hay⟩
      · exact absurd hchild hcov

lemma IsAbove.of_attach (h : IsAbove up' a n) (hcov : ¬ Covers up child container)
    (hle : ∀ x p, up' x = some p → up x = some p ∨ x = child ∧ p = container) :
    IsAbove up a n ∨ Covers up child n ∧ Covers up a container := by
  obtain ⟨p, hp, hap⟩ := isAbove_iff_parent.1 h
  rcases hle n p hp, hap.of_attach hcov hle with ⟨hold | ⟨rfl, rfl⟩, ha | ⟨hchild, ha⟩⟩
  · exact .inl (isAbove_iff_parent.2 ⟨p, hold, ha⟩)
  · exact .inr ⟨hchild.trans (.of_parent hold), ha⟩
  · exact .inr ⟨.refl _, ha⟩
  · exact absurd hchild hcov

/-- Where no node below another one has nodes below, no node is above itself. -/
lemma Acyclic.of_flat (hup : ∀ n p, up n = some p → up p = none) : Acyclic up := by
  intro n h
  obtain ⟨p, hp, hcov⟩ := isAbove_iff_parent.1 h
  obtain rfl := hcov.eq_of_top (hup n p hp)
  simp [hup n n hp] at hp

/-- Where parents come before their children, no node is above itself. -/
lemma Acyclic.of_lt (rank : NodeId → Nat) (hup : ∀ n p, up n = some p → rank p < rank n) :
    Acyclic up := by
  have hlt {a n : NodeId} (h : IsAbove up a n) : rank a < rank n := by
    induction h with
    | single h => exact hup _ _ h
    | tail _ h ih => exact Nat.lt_trans (hup _ _ h) ih
  exact fun n h => Nat.lt_irrefl _ (hlt h)

lemma Acyclic.of_le (hac : Acyclic up) (hle : ∀ x p, up' x = some p → up x = some p) :
    Acyclic up' :=
  fun n h => hac n (h.of_le hle)

/-- A node that is attached to one outside of its own tree does not come to be above itself. -/
lemma Acyclic.of_attach (hac : Acyclic up) (hcov : ¬ Covers up child container)
    (hle : ∀ x p, up' x = some p → up x = some p ∨ x = child ∧ p = container) : Acyclic up' := by
  intro n h
  rcases h.of_attach hcov hle with h | ⟨hchild, hn⟩
  · exact hac n h
  · exact hcov (hchild.trans hn)

/-! ### Acyclic tables -/

namespace Acyclic

variable (hac : Acyclic up)

include hac

lemma isAbove_iff : IsAbove up a n ↔ Covers up a n ∧ a ≠ n := by
  constructor
  · intro h
    exact ⟨h.covers, fun e => hac n (e ▸ h)⟩
  · rintro ⟨h, hne⟩
    exact (covers_iff_eq_or_isAbove.1 h).resolve_left hne

lemma not_covers_parent (hp : up n = some p) : ¬ Covers up n p :=
  fun h => hac n (h.trans_isAbove (.of_parent hp))

/-- Below two children of one parent no node is common. -/
lemma not_covers_both (ha : up a = some p) (hb : up b = some p) (hne : a ≠ b)
    (han : Covers up a n) : ¬ Covers up b n := by
  intro hbn
  rcases han.total hbn with hab | hba
  · exact hac.not_covers_parent ha ((hac.isAbove_iff.2 ⟨hab, hne⟩).covers_parent hb)
  · exact hac.not_covers_parent hb ((hac.isAbove_iff.2 ⟨hba, hne.symm⟩).covers_parent ha)

end Acyclic

end PageSync
