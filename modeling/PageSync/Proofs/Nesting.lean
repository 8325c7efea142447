import Mathlib.Data.List.Nodup
import PageSync.Proofs.Ensuring
import PageSync.Proofs.Walking

/-!
# Sheets nest in a tree

Whatever a view says: a sheet is nested, once, in one other sheet at most, and that one was opened before
it (`Ledger.IsNested`). This is because a sheet is hung up once, when the pass is done with its container,
below a sheet that was there when the walk came to the container (`Pass.isNested_of_gather`). The outline of
such a ledger lists each of the sheets that hang together with the first one, and none of them twice, and it
is never cut off.
-/

namespace PageSync

/-! ### Outlines of trees -/

namespace Ledger

variable {ledger : Ledger} {k l m n number levels depth : Nat} {line : Line}

/-- Whether a sheet is listed on another one as nested in it. -/
def Nests (ledger : Ledger) (k n : Nat) : Prop := n ∈ (ledger.sheet k).nested

/-- Whether a sheet is another one, or nested in it, directly or not. -/
def Reaches (ledger : Ledger) (k n : Nat) : Prop := Relation.ReflTransGen ledger.Nests k n

/-- Whether a sheet hangs together with the first one. -/
def Hangs (ledger : Ledger) (n : Nat) : Prop := ledger.Reaches first n

/-- Whether the sheets of a ledger nest in trees, in which sheets below have greater numbers. -/
structure IsNested (ledger : Ledger) : Prop where
  /-- A sheet has a greater number than the one that it is nested in. -/
  lt : ∀ k n, ledger.Nests k n → k < n
  /-- Sheets exist that are listed. -/
  lt_next : ∀ k n, ledger.Nests k n → n < ledger.next
  /-- No sheet lists another one twice. -/
  nodup : ∀ k, (ledger.sheet k).nested.Nodup
  /-- No two sheets list the same one. -/
  eq_of_nests : ∀ n k l, ledger.Nests k n → ledger.Nests l n → k = l
  /-- No sheet is nested in one that sends all children anew. -/
  nested_eq_nil : ∀ k, (ledger.sheet k).isReplaced = true → (ledger.sheet k).nested = []

lemma isNested_start : IsNested .start := by
  have hnone : ∀ k, (Ledger.start.sheet k).nested = [] := fun k => by cases k <;> rfl
  have hnot : ∀ k n, ¬ Ledger.start.Nests k n := fun k n => by simp [Nests, hnone]
  exact ⟨fun k n h => absurd h (hnot k n), fun k n h => absurd h (hnot k n),
    fun k => by simp [hnone], fun n k l h => absurd h (hnot k n), fun k _ => hnone k⟩

namespace IsNested

variable (h : ledger.IsNested)

include h

lemma le_of_reaches (hn : ledger.Reaches k n) : k ≤ n := by
  induction hn with
  | refl => exact Nat.le_refl k
  | tail _ hnests ih => exact ih.trans (h.lt _ _ hnests).le

lemma lt_next_of_hangs (hnext : 0 < ledger.next) (hn : ledger.Hangs n) : n < ledger.next := by
  rcases Relation.ReflTransGen.cases_tail hn with rfl | ⟨k, -, hnests⟩
  · exact hnext
  · exact h.lt_next k n hnests

/-- The first sheet is nested in no other one. -/
lemma not_nests_first (k : Nat) : ¬ ledger.Nests k first :=
  fun hnests => (h.lt k first hnests).not_ge (Nat.zero_le k)

/-- Two sheets that the same one is nested in are in line. -/
lemma reaches_total (hk : ledger.Reaches k n) (hl : ledger.Reaches l n) :
    ledger.Reaches k l ∨ ledger.Reaches l k := by
  have hunique : Relator.RightUnique (Function.swap ledger.Nests) :=
    fun n k l hk hl => h.eq_of_nests n k l hk hl
  have htotal := Relation.ReflTransGen.total_of_right_unique hunique
    (Relation.reflTransGen_swap.2 hk) (Relation.reflTransGen_swap.2 hl)
  exact htotal.symm.imp Relation.reflTransGen_swap.1 Relation.reflTransGen_swap.1

/-- Of two sheets on one list neither is nested in the other. -/
lemma not_reaches (hk : ledger.Nests number k) (hl : ledger.Nests number l) (hne : k ≠ l) :
    ¬ ledger.Reaches k l := by
  intro hkl
  obtain ⟨m, hkm, hml⟩ := (Relation.ReflTransGen.cases_tail hkl).resolve_left hne.symm
  obtain rfl := h.eq_of_nests l number m hl hml
  exact (h.lt _ _ hk).not_ge (h.le_of_reaches hkm)

/-! With as many levels as there are sheets behind the one that it starts from, an outline comes to an
end. -/

lemma isCut_of_mem_outlineFrom (hnumber : number < ledger.next) (hlevels : ledger.next ≤ levels + number)
    (hline : line ∈ ledger.outlineFrom levels depth number) : line.isCut = false := by
  induction levels generalizing depth number with
  | zero => omega
  | succ levels ih =>
    rw [outlineFrom, List.mem_cons, List.mem_flatMap] at hline
    rcases hline with rfl | ⟨n, hn, hline⟩
    · rfl
    · have hlt := h.lt number n hn
      exact ih (h.lt_next number n hn) (by omega) hline

lemma mem_outlineFrom_iff (hnumber : number < ledger.next) (hlevels : ledger.next ≤ levels + number) :
    n ∈ (ledger.outlineFrom levels depth number).map Line.number ↔ ledger.Reaches number n := by
  induction levels generalizing depth number with
  | zero => omega
  | succ levels ih =>
    have hbelow (m : Nat) (hm : ledger.Nests number m) :
        n ∈ (ledger.outlineFrom levels (depth + 1) m).map Line.number ↔ ledger.Reaches m n := by
      have hlt := h.lt number m hm
      exact ih (h.lt_next number m hm) (by omega)
    rw [outlineFrom, List.map_cons, List.map_flatMap, List.mem_cons, List.mem_flatMap, Reaches,
      Relation.ReflTransGen.cases_head_iff, eq_comm]
    refine or_congr_right (exists_congr fun m => and_congr_right fun hm => hbelow m hm)

lemma nodup_outlineFrom (hnumber : number < ledger.next) (hlevels : ledger.next ≤ levels + number) :
    ((ledger.outlineFrom levels depth number).map Line.number).Nodup := by
  induction levels generalizing depth number with
  | zero => omega
  | succ levels ih =>
    have hbelow (m : Nat) (hm : ledger.Nests number m) :
        m < ledger.next ∧ ledger.next ≤ levels + m := by
      have hlt := h.lt number m hm
      exact ⟨h.lt_next number m hm, by omega⟩
    rw [outlineFrom, List.map_cons, List.map_flatMap, List.nodup_cons, List.nodup_flatMap]
    refine ⟨fun hmem => ?_, fun m hm => ih (hbelow m hm).1 (hbelow m hm).2, ?_⟩
    · obtain ⟨m, hm, hmem⟩ := List.mem_flatMap.1 hmem
      rw [h.mem_outlineFrom_iff (hbelow m hm).1 (hbelow m hm).2] at hmem
      exact (h.lt _ _ hm).not_ge (h.le_of_reaches hmem)
    · apply (h.nodup number).imp_of_mem
      intro k l hk hl hne n hkn hln
      rw [h.mem_outlineFrom_iff (hbelow k hk).1 (hbelow k hk).2] at hkn
      rw [h.mem_outlineFrom_iff (hbelow l hl).1 (hbelow l hl).2] at hln
      rcases h.reaches_total hkn hln with hkl | hlk
      · exact h.not_reaches hk hl hne hkl
      · exact h.not_reaches hl hk hne.symm hlk

/-- The outline has a line for each sheet that hangs together with the first one. -/
lemma mem_outline_iff (hnext : 0 < ledger.next) :
    n ∈ ledger.outline.map Line.number ↔ ledger.Hangs n :=
  h.mem_outlineFrom_iff hnext (Nat.le_add_right _ _)

end IsNested

/-! ### Changes of ledgers -/

/-- Sheets may be taken off the lists. -/
lemma IsNested.of_sublist {ledger' : Ledger} (h : ledger.IsNested) (hnext : ledger.next ≤ ledger'.next)
    (hnested : ∀ k, (ledger'.sheet k).nested.Sublist (ledger.sheet k).nested)
    (hreplaced : ∀ k, (ledger'.sheet k).isReplaced = true →
      (ledger.sheet k).isReplaced = true ∨ (ledger'.sheet k).nested = []) :
    ledger'.IsNested where
  lt k n hn := h.lt k n ((hnested k).subset hn)
  lt_next k n hn := (h.lt_next k n ((hnested k).subset hn)).trans_le hnext
  nodup k := (h.nodup k).sublist (hnested k)
  eq_of_nests n k l hk hl := h.eq_of_nests n k l ((hnested k).subset hk) ((hnested l).subset hl)
  nested_eq_nil k hk := by
    rcases hreplaced k hk with hk | hnil
    · exact List.eq_nil_of_sublist_nil (h.nested_eq_nil k hk ▸ hnested k)
    · exact hnil

lemma nests_nest_iff (hlt : k < ledger.next) :
    (ledger.update k (·.nest number)).Nests l n ↔ ledger.Nests l n ∨ l = k ∧ n = number := by
  rw [Nests, sheet_update _ _ _ _ hlt]
  split
  · next heq => simp [heq, Sheet.nest, Nests]
  · next hne => simp [Ne.symm hne, Nests]

lemma isReplaced_nest (ledger : Ledger) (k number l : Nat) :
    ((ledger.update k (·.nest number)).sheet l).isReplaced = (ledger.sheet l).isReplaced := by
  rcases ledger.sheet_update_or k l (·.nest number) with heq | ⟨rfl, heq⟩
  · rw [heq]
  · rw [heq, Sheet.nest]

/-- A sheet that is listed nowhere may be hung up below an earlier one that is not replaced. -/
lemma IsNested.nest (h : ledger.IsNested) (hlt : k < number) (hnumber : number < ledger.next)
    (hnot : ∀ l, ¬ ledger.Nests l number) (hopen : (ledger.sheet k).isReplaced = false) :
    (ledger.update k (·.nest number)).IsNested := by
  have hnests (l n : Nat) : (ledger.update k (·.nest number)).Nests l n ↔
      ledger.Nests l n ∨ l = k ∧ n = number := nests_nest_iff (hlt.trans hnumber)
  constructor
  · intro l n hn
    rcases (hnests l n).1 hn with hn | ⟨rfl, rfl⟩
    · exact h.lt l n hn
    · exact hlt
  · intro l n hn
    rw [next_update]
    rcases (hnests l n).1 hn with hn | ⟨rfl, rfl⟩
    · exact h.lt_next l n hn
    · exact hnumber
  · intro l
    rcases ledger.sheet_update_or k l (·.nest number) with heq | ⟨rfl, heq⟩
    · rw [heq]
      exact h.nodup l
    · have hnotMem : number ∉ (ledger.sheet l).nested := hnot l
      rw [heq]
      exact List.nodup_append'.2 ⟨h.nodup l, List.nodup_singleton number, by simpa using hnotMem⟩
  · intro n l m hl hm
    rw [hnests] at hl hm
    rcases hl with hl | ⟨rfl, rfl⟩
    · rcases hm with hm | ⟨-, rfl⟩
      · exact h.eq_of_nests n l m hl hm
      · exact absurd hl (hnot l)
    · rcases hm with hm | ⟨rfl, -⟩
      · exact absurd hm (hnot m)
      · rfl
  · intro l hl
    rw [isReplaced_nest] at hl
    rcases ledger.sheet_update_or k l (·.nest number) with heq | ⟨rfl, -⟩
    · rw [heq]
      exact h.nested_eq_nil l hl
    · rw [hopen] at hl
      cases hl

/-- Whether a change of a ledger concerns neither what is nested in its sheets nor what they replace. -/
structure KeepsLists (ledger ledger' : Ledger) : Prop where
  /-- No sheet gets lost. -/
  next_le : ledger.next ≤ ledger'.next
  /-- The same sheets are nested in each sheet. -/
  nested_eq : ∀ k, (ledger'.sheet k).nested = (ledger.sheet k).nested
  /-- The same sheets are replaced. -/
  isReplaced_eq : ∀ k, (ledger'.sheet k).isReplaced = (ledger.sheet k).isReplaced

namespace KeepsLists

lemma update {change : Sheet → Sheet} (ledger : Ledger) (number : Nat)
    (hnested : ∀ sheet, (change sheet).nested = sheet.nested)
    (hreplaced : ∀ sheet, (change sheet).isReplaced = sheet.isReplaced) :
    ledger.KeepsLists (ledger.update number change) := by
  refine ⟨Nat.le_of_eq (ledger.next_update number change).symm, fun k => ?_, fun k => ?_⟩
  · rcases ledger.sheet_update_or number k change with heq | ⟨rfl, heq⟩
    · rw [heq]
    · rw [heq, hnested]
  · rcases ledger.sheet_update_or number k change with heq | ⟨rfl, heq⟩
    · rw [heq]
    · rw [heq, hreplaced]

/-- A sheet that is opened is as blank as one that does not exist. -/
lemma openSheet (ledger : Ledger) (c : NodeId) : ledger.KeepsLists (ledger.openSheet c) := by
  have hblank : ledger.sheet ledger.next = {} := by simp [sheet, next]
  refine ⟨?_, fun k => ?_, fun k => ?_⟩
  · rw [next_openSheet]
    exact Nat.le_succ _
  · rw [sheet_openSheet]
    split
    · next heq => rw [heq, hblank]
    · rfl
  · rw [sheet_openSheet]
    split
    · next heq => rw [heq, hblank]
    · rfl

lemma trans {ledger' ledger'' : Ledger} (h : ledger.KeepsLists ledger')
    (h' : ledger'.KeepsLists ledger'') : ledger.KeepsLists ledger'' where
  next_le := h.next_le.trans h'.next_le
  nested_eq k := (h'.nested_eq k).trans (h.nested_eq k)
  isReplaced_eq k := (h'.isReplaced_eq k).trans (h.isReplaced_eq k)

lemma markNew (ledger : Ledger) (c : NodeId) : ledger.KeepsLists (ledger.markNew c) := by
  rw [Ledger.markNew]
  split
  · exact update ledger _ (fun _ => rfl) fun _ => rfl
  · exact (openSheet ledger c).trans (update _ _ (fun _ => rfl) fun _ => rfl)

end KeepsLists

end Ledger

/-! ### Walks -/

namespace Pass

variable {pass : Pass} {s₀ s s' : Progress} {number into levels k n : Nat} {c x : NodeId}
  {shown current : List NodeId} {change : Sheet → Sheet}

/-- Whether a state comes after another one of a pass whose sheets nest in trees: none of the sheets that
were there before has been hung up since, and none of them has been replaced. -/
structure Nesting (s₀ s : Progress) : Prop where
  /-- No sheet gets lost. -/
  next_le : s₀.ledger.next ≤ s.ledger.next
  /-- The sheets nest in trees. -/
  isNested : s.ledger.IsNested
  /-- Only new sheets are hung up. -/
  nests : ∀ k n, s.ledger.Nests k n → s₀.ledger.Nests k n ∨ s₀.ledger.next ≤ n
  /-- Only new sheets are replaced. -/
  isReplaced_eq : ∀ k < s₀.ledger.next,
    (s.ledger.sheet k).isReplaced = (s₀.ledger.sheet k).isReplaced

namespace Nesting

lemma refl (h : s.ledger.IsNested) : Nesting s s := ⟨Nat.le_refl _, h, fun _ _ => .inl, fun _ _ => rfl⟩

lemma trans (h : Nesting s₀ s) (h' : Nesting s s') : Nesting s₀ s' where
  next_le := h.next_le.trans h'.next_le
  isNested := h'.isNested
  nests k n hn := by
    rcases h'.nests k n hn with hn | hle
    · exact h.nests k n hn
    · exact .inr (h.next_le.trans hle)
  isReplaced_eq k hk := (h'.isReplaced_eq k (hk.trans_le h.next_le)).trans (h.isReplaced_eq k hk)

lemma congr (h : Nesting s₀ s) (hs : s.ledger.KeepsLists s'.ledger) : Nesting s₀ s' := by
  refine h.trans ⟨hs.next_le, ?_, fun k n hn => .inl ?_, fun k _ => hs.isReplaced_eq k⟩
  · exact h.isNested.of_sublist hs.next_le (fun k => hs.nested_eq k ▸ .refl _)
      fun k hk => .inl (hs.isReplaced_eq k ▸ hk)
  · rwa [Ledger.Nests, hs.nested_eq] at hn

end Nesting

/-- Entries about nodes don't concern the lists of sheets. -/
lemma enduring_nesting : pass.Enduring (Nesting s₀) where
  noteOn _ _ hchange _ hs := hs.congr (.update _ _ hchange.nested_eq hchange.isReplaced_eq)
  setMoved _ _ hs := ⟨hs.next_le, hs.isNested, hs.nests, hs.isReplaced_eq⟩
  markNew c := by
    rw [markNew]
    exact .ite (fun _ s hs => hs.congr (.markNew s.ledger c)) fun _ => .pure ()

lemma ensures_nesting_markDone (c : NodeId) : Ensures (Nesting s₀) (markDone c) (Nesting s₀) :=
  fun _ hs => ⟨hs.next_le, hs.isNested, hs.nests, hs.isReplaced_eq⟩

/-- Whether a state comes after another one, and a sheet that was opened since has not been hung up. -/
structure Loose (s₀ : Progress) (number : Nat) (s : Progress) : Prop extends Nesting s₀ s where
  /-- The sheet was opened since. -/
  le_number : s₀.ledger.next ≤ number
  /-- The sheet exists. -/
  number_lt : number < s.ledger.next
  /-- It is listed nowhere. -/
  not_nests : ∀ k, ¬ s.ledger.Nests k number

namespace Loose

lemma congr (h : Loose s₀ number s) (hs : s.ledger.KeepsLists s'.ledger) : Loose s₀ number s' where
  toNesting := h.toNesting.congr hs
  le_number := h.le_number
  number_lt := h.number_lt.trans_le hs.next_le
  not_nests k hk := h.not_nests k (by rwa [Ledger.Nests, hs.nested_eq] at hk)

lemma markDone (c : NodeId) : Ensures (Loose s₀ number) (markDone c) (Loose s₀ number) :=
  fun s hs => ⟨ensures_nesting_markDone c s hs.toNesting, hs.le_number, hs.number_lt, hs.not_nests⟩

/-- A sheet that is opened for a container whose children changed is loose. -/
lemma opened (h : s.ledger.IsNested) (c : NodeId) : Loose s s.ledger.next (pass.opened c s) := by
  have hlists : s.ledger.KeepsLists (pass.opened c s).ledger :=
    (Ledger.KeepsLists.openSheet s.ledger c).trans (.update _ _ (fun _ => rfl) fun _ => rfl)
  refine ⟨(Nesting.refl h).congr hlists, Nat.le_refl _, pass.next_lt_opened c s, fun k hk => ?_⟩
  rw [Ledger.Nests, hlists.nested_eq] at hk
  exact (h.lt_next k _ hk).false

/-- It stays loose while its children are compared. -/
lemma later (h : Loose s₀ number s) (hs : Nesting s s') : Loose s₀ number s' where
  toNesting := h.toNesting.trans hs
  le_number := h.le_number
  number_lt := h.number_lt.trans_le hs.next_le
  not_nests k hk := (hs.nests k number hk).elim (h.not_nests k) h.number_lt.not_ge

/-- A sheet that is replaced loses the sheets nested in it. -/
lemma noteReplace (h : Loose s₀ number s) :
    Loose s₀ number { s with ledger := s.ledger.update number Sheet.replace } := by
  have hnext := Nat.le_of_eq (s.ledger.next_update number Sheet.replace).symm
  have hsheet (k : Nat) := s.ledger.sheet_update_or number k Sheet.replace
  have hnested (k : Nat) : ((s.ledger.update number Sheet.replace).sheet k).nested.Sublist
      (s.ledger.sheet k).nested := by
    rcases hsheet k with heq | ⟨rfl, heq⟩
    · rw [heq]
    · rw [heq]
      exact List.nil_sublist _
  refine ⟨⟨h.next_le.trans hnext, h.isNested.of_sublist hnext hnested fun k hk => ?_, fun k n hn => ?_,
    fun k hk => ?_⟩, h.le_number, h.number_lt.trans_le hnext, fun k hn => ?_⟩
  · rcases hsheet k with heq | ⟨rfl, heq⟩
    · exact .inl (heq ▸ hk)
    · exact .inr (congrArg Sheet.nested heq)
  · exact h.nests k n ((hnested k).subset hn)
  · rw [Ledger.sheet_update_of_ne _ (Nat.ne_of_gt (hk.trans_le h.le_number))]
    exact h.isReplaced_eq k hk
  · exact h.not_nests k ((hnested k).subset hn)

lemma replace : Ensures (Loose s₀ number) (pass.replace levels number c shown) (Loose s₀ number) := by
  intro s hs
  rw [Pass.replace, yields_bind, yields_noteOn]
  cases pass.evicted c levels c shown with
  | error e => trivial
  | ok gone => exact hs.noteReplace.congr (.update _ _ (fun _ => rfl) fun _ => rfl)

/-- In the end it is hung up below a sheet that was there before. -/
lemma nest (h : Loose s₀ number s) (hinto : into < s₀.ledger.next)
    (hopen : (s₀.ledger.sheet into).isReplaced = false) :
    Nesting s₀ { s with ledger := s.ledger.update into (·.nest number) } := by
  have hlt : into < s.ledger.next := hinto.trans_le h.next_le
  refine ⟨h.next_le.trans_eq (s.ledger.next_update into _).symm, ?_, fun k n hn => ?_, fun k hk => ?_⟩
  · apply h.isNested.nest (hinto.trans_le h.le_number) h.number_lt h.not_nests
    rw [h.isReplaced_eq into hinto, hopen]
  · rcases (Ledger.nests_nest_iff hlt).1 hn with hn | ⟨-, rfl⟩
    · exact h.nests k n hn
    · exact .inr h.le_number
  · exact (s.ledger.isReplaced_nest into number k).trans (h.isReplaced_eq k hk)

end Loose

/-- A walk at a container with changed children opens a sheet and hangs it up, if the steps below take
care of the sheets that there are then. -/
lemma ensures_nesting_walkChanged {descend : Nat → NodeId → Walk Unit}
    (hdescend : ∀ (s₀ : Progress) (into : Nat) (x : NodeId), into < s₀.ledger.next →
      (s₀.ledger.sheet into).isReplaced = false →
        Ensures (Nesting s₀) (descend into x) (Nesting s₀))
    (hinto : into < s₀.ledger.next) (hopen : (s₀.ledger.sheet into).isReplaced = false) :
    Ensures (Nesting s₀) (pass.walkChanged descend levels into c shown current) (Nesting s₀) := by
  intro s hs
  rw [walkChanged, yields_bind, yields_get]
  dsimp only
  cases s.ledger.find? c with
  | some number =>
    rw [yields_ite]
    exact ⟨fun _ => trivial, fun _ => trivial⟩
  | none =>
    rw [yields_bind, yields_note, yields_bind, yields_noteOn]
    have hopened : Loose s s.ledger.next (pass.opened c s) := .opened hs.isNested c
    have hnone : ((pass.opened c s).ledger.sheet s.ledger.next).isReplaced = false := by
      rw [sheet_opened]
    have hrest : Ensures (Loose s s.ledger.next) (do
        Pass.markDone c
        if (← sheet s.ledger.next).isBlank then return () else hang into s.ledger.next c)
        (Nesting s) := by
      apply (Loose.markDone c).bind
      intro _
      apply (Ensures.sheet _).bind
      intro _
      apply Ensures.ite
      · exact fun _ s' hs' => hs'.toNesting
      · intro _
        apply Ensures.hang
        intro s' hs'
        exact hs'.nest (hinto.trans_le hs.next_le) ((hs.isReplaced_eq into hinto).trans hopen)
    refine Yields.mono (yields_ite.2 ⟨fun _ => ?_, fun _ => ?_⟩) fun _ _ => hs.trans
    · exact (Loose.replace.bind fun _ => hrest) _ hopened
    · rw [yields_bind]
      have hcompare : Ensures (Nesting (pass.opened c s))
          (pass.compareChildren (descend s.ledger.next) s.ledger.next c shown current)
          (Nesting (pass.opened c s)) := by
        apply enduring_nesting.compareChildren
        · exact fun _ _ _ hs => ⟨hs.next_le, hs.isNested, hs.nests, hs.isReplaced_eq⟩
        · exact fun x _ _ => hdescend _ _ x hopened.number_lt hnone
      apply (hcompare _ (.refl hopened.isNested)).mono
      intro _ s₁ hs₁
      refine Ensures.bind (Ensures.sheet _) (fun _ => ?_) s₁ (hopened.later hs₁)
      exact .ite (fun _ => Loose.replace.bind fun _ => hrest) fun _ => hrest

/-- A walk hangs up new sheets alone. -/
lemma ensures_nesting_walk (levels : Nat) (c : NodeId) (hinto : into < s₀.ledger.next)
    (hopen : (s₀.ledger.sheet into).isReplaced = false) :
    Ensures (Nesting s₀) (pass.walk levels into c) (Nesting s₀) := by
  induction levels generalizing into c s₀ with
  | zero => exact .throw _
  | succ levels ih =>
    rw [walk]
    split
    · exact ensures_nesting_walkChanged (fun _ _ x hinto hopen => ih x hinto hopen) hinto hopen
    · exact enduring_nesting.walkSettled (ensures_nesting_markDone c) fun x _ => ih x hinto hopen

/-- When the whole tree has been walked, the sheets nest in trees. -/
lemma isNested_of_gather {tables : Tables} (h : pass.gather.run { tables } = .ok () s) :
    s.ledger.IsNested ∧ 0 < s.ledger.next := by
  have hstart : Nesting { tables } { tables } := .refl Ledger.isNested_start
  have hwalk : Ensures (Nesting { tables }) pass.gather (Nesting { tables }) :=
    ensures_nesting_walk _ pass.root Nat.zero_lt_one rfl
  have hs : Nesting { tables } s := (hwalk _ hstart).of_run h
  exact ⟨hs.isNested, Nat.lt_of_lt_of_le Nat.zero_lt_one hs.next_le⟩

end Pass

end PageSync
