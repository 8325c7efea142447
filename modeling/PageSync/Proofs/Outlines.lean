import PageSync.Proofs.Agreement
import PageSync.Proofs.Commands
import PageSync.Proofs.Faults
import PageSync.Proofs.Nesting

/-!
# Outlines and texts of ledgers

The text of a ledger is written from a list of sheets that are due, and stops after as many sheets as there
are. If the outline is not cut off and has no more lines than there are sheets, then the text shows the
lines of the outline, one block of rows for each of them (`Ledger.lines_eq_outline`). Each block has one
heading, so that the headings can be told in the text.

Since sheets nest in a tree when the walk is over, the outline shows each of the sheets that hang together
with the first one, and none of them twice; so do the operations of the pass and the text
(`Pass.isOutlined_of_gather`).
-/

namespace PageSync

namespace Ledger

variable {ledger : Ledger} {cs ds : List Char} {depth left levels more number : Nat}
  {line : Line} {text : String} {rows : List String}

/-! ### Lines -/

/-- An outline that is not cut off stays the same if more levels are allowed. -/
lemma outlineFrom_of_le (h : ∀ line ∈ ledger.outlineFrom levels depth number, line.isCut = false)
    (hle : levels ≤ more) :
    ledger.outlineFrom more depth number = ledger.outlineFrom levels depth number := by
  induction levels generalizing depth number more with
  | zero => cases h _ List.mem_cons_self
  | succ levels ih =>
    obtain ⟨more, rfl⟩ := Nat.exists_eq_add_of_lt hle
    rw [outlineFrom, outlineFrom]
    refine congrArg _ (List.flatMap_congr fun n hn => ih (fun line hline => h line ?_) (by omega))
    exact List.mem_cons_of_mem _ (List.mem_flatMap.2 ⟨n, hn, hline⟩)

/-- The sheets nested in a sheet may have one more level when they are due. -/
lemma flatMap_nested
    (h : ∀ line ∈ ledger.outlineFrom (levels + 1) depth number, line.isCut = false) :
    (((ledger.sheet number).nested.map (depth + 1, ·)).flatMap fun d =>
        ledger.outlineFrom (levels + 1) d.1 d.2) =
      (ledger.sheet number).nested.flatMap (ledger.outlineFrom levels (depth + 1)) := by
  rw [List.flatMap_map]
  refine List.flatMap_congr fun n hn => outlineFrom_of_le (fun line hline => h line ?_)
    (Nat.le_succ levels)
  exact List.mem_cons_of_mem _ (List.mem_flatMap.2 ⟨n, hn, hline⟩)

/-- As long as not too many sheets are due, the lines about them are those of their outlines. -/
lemma linesFrom_eq {due : List (Nat × Nat)}
    (h : ∀ line ∈ due.flatMap fun d => ledger.outlineFrom levels d.1 d.2, line.isCut = false)
    (hleft : (due.flatMap fun d => ledger.outlineFrom levels d.1 d.2).length ≤ left) :
    ledger.linesFrom left due = due.flatMap fun d => ledger.outlineFrom levels d.1 d.2 := by
  induction left generalizing due with
  | zero =>
    have hnil := List.length_eq_zero_iff.1 (Nat.le_zero.1 hleft)
    cases due with
    | nil => rfl
    | cons d due =>
      rw [List.flatMap_cons, List.append_eq_nil_iff] at hnil
      cases levels <;> cases hnil.1
  | succ left ih =>
    cases due with
    | nil => rfl
    | cons d due =>
      obtain ⟨depth, number⟩ := d
      rw [List.flatMap_cons] at h hleft ⊢
      cases levels with
      | zero => cases h _ List.mem_cons_self
      | succ levels =>
        have hnested := flatMap_nested fun line hline => h line (List.mem_append_left _ hline)
        rw [linesFrom, ih, List.flatMap_append, hnested, outlineFrom, List.cons_append]
        · intro line hline
          rw [List.flatMap_append, hnested] at hline
          exact h line (List.mem_cons_of_mem _ hline)
        · rw [List.flatMap_append, hnested]
          exact Nat.le_of_succ_le_succ hleft

/-- The lines of the text are those of the outline, if that is not cut off and there are enough sheets. -/
theorem lines_eq_outline (h : ∀ line ∈ ledger.outline, line.isCut = false)
    (hlength : ledger.outline.length ≤ ledger.next) : ledger.lines = ledger.outline := by
  have hall : ([(0, first)].flatMap fun d => ledger.outlineFrom ledger.sheets.size d.1 d.2) =
      ledger.outline := List.flatMap_singleton ..
  rw [lines, linesFrom_eq (hall ▸ h) (hall ▸ hlength), hall]

/-- Where sheets are nested in each other, the text stops when as many as there are have been shown. -/
example : (⟨#[{ nested := [1, 1] }, { container := some ⟨5⟩, nested := [0, 1] }], ∅⟩ : Ledger).text =
    "[root]\n  [n5]\n    (cycle)\n    (cycle)\n  (cycle)\n" := by
  decide +kernel

/-! ### Rows -/

/-- Whether a text has none of some characters. -/
def Lacks (cs : List Char) (text : String) : Prop := ∀ c ∈ cs, c ∉ text.toList

instance (cs : List Char) (text : String) : Decidable (Lacks cs text) :=
  List.decidableBAll (fun c => c ∉ text.toList) cs

lemma Lacks.mono (h : Lacks cs text) (hsub : ds ⊆ cs) : Lacks ds text := fun c hc => h c (hsub hc)

lemma lacks_append {text more : String} :
    Lacks cs (text ++ more) ↔ Lacks cs text ∧ Lacks cs more := by
  simp only [Lacks, String.toList_append, List.mem_append, not_or, forall_and]

lemma lacks_ite {p : Prop} [Decidable p] (h : Lacks cs text) : Lacks cs (if p then text else "") := by
  split
  · exact h
  · exact fun _ _ => List.not_mem_nil

lemma lacks_join {parts : List String} (h : ∀ part ∈ parts, Lacks cs part) :
    Lacks cs (String.join parts) := by
  intro c hc hmem
  rw [String.toList_join, List.mem_flatMap] at hmem
  obtain ⟨part, hpart, hmem⟩ := hmem
  exact h part hpart c hc hmem

/-- The characters that stand around titles, between rows, and where a text is cut off. -/
def marks : List Char := ['[', '\n', '(']

lemma lacks_text (id : NodeId) : Lacks marks id.text := by
  have hall : ∀ c ∈ marks, c ≠ 'n' ∧ c.isDigit = false := by simp [marks]
  intro c hc hmem
  rw [Xml.toList_text, List.mem_cons] at hmem
  obtain ⟨hne, hnot⟩ := hall c hc
  have hdigit := Nat.isDigit_of_mem_toDigits (by decide) (by decide) (hmem.resolve_left hne)
  rw [hnot] at hdigit
  cases hdigit

lemma lacks_indent (depth : Nat) : Lacks marks (indent depth) := by
  have hall : ∀ c ∈ marks, c ≠ ' ' := by simp [marks]
  intro c hc hmem
  rw [indent, String.toList_ofList] at hmem
  exact hall c hc (List.eq_of_mem_replicate hmem)

lemma lacks_labelled {label : String} (hlabel : Lacks marks label) (nodes : List NodeId) :
    ∀ row ∈ labelled depth label nodes, Lacks marks row := by
  have hnodes : Lacks marks (String.join (nodes.map fun node => " " ++ node.text)) := by
    apply lacks_join
    intro part hpart
    obtain ⟨node, -, rfl⟩ := List.mem_map.1 hpart
    exact lacks_append.2 ⟨by decide, lacks_text node⟩
  intro row hrow
  rw [labelled] at hrow
  split at hrow
  · cases hrow
  · rw [List.mem_singleton.1 hrow]
    simp only [lacks_append]
    exact ⟨⟨⟨⟨lacks_indent depth, by decide⟩, hlabel⟩, by decide⟩, hnodes⟩

/-- A heading is one row, and is not cut off. -/
lemma lacks_heading (ledger : Ledger) (depth number : Nat) :
    Lacks ['\n', '('] (ledger.heading depth number) := by
  have hsub : ['\n', '('] ⊆ marks := by simp [marks]
  simp only [heading, lacks_append, and_assoc]
  refine ⟨(lacks_indent depth).mono hsub, by decide, ?_, by decide, lacks_ite (by decide),
    lacks_ite (by decide), lacks_ite (by decide)⟩
  cases (ledger.sheet number).container with
  | none => decide
  | some container => exact (lacks_text container).mono hsub

lemma mem_heading (ledger : Ledger) (depth number : Nat) :
    '[' ∈ (ledger.heading depth number).toList := by
  simp [heading, String.toList_append]

/-- Behind the heading there is none in the block of a sheet. -/
lemma exists_block_eq (ledger : Ledger) (depth number : Nat) :
    ∃ rest, ledger.block depth number = ledger.heading depth number :: rest ∧
      ∀ row ∈ rest, Lacks marks row := by
  refine ⟨_, rfl, fun row hrow => ?_⟩
  simp only [List.mem_append] at hrow
  rcases hrow with ((hrow | hrow) | hrow) | hrow <;> exact lacks_labelled (by decide) _ row hrow

lemma lacks_block (ledger : Ledger) (depth number : Nat) :
    ∀ row ∈ ledger.block depth number, Lacks ['\n', '('] row := by
  obtain ⟨rest, hblock, hrest⟩ := exists_block_eq ledger depth number
  intro row hrow
  rw [hblock] at hrow
  rcases List.mem_cons.1 hrow with rfl | hrow
  · exact lacks_heading ledger depth number
  · exact (hrest row hrow).mono (by simp [marks])

/-- The headings are the rows with a bracket. -/
lemma filter_block (ledger : Ledger) (depth number : Nat) :
    (ledger.block depth number).filter (fun row => '[' ∈ row.toList) =
      [ledger.heading depth number] := by
  obtain ⟨rest, hblock, hrest⟩ := exists_block_eq ledger depth number
  have hnone : rest.filter (fun row => '[' ∈ row.toList) = [] := by
    rw [List.filter_eq_nil_iff]
    exact fun row hrow => mt of_decide_eq_true (hrest row hrow '[' (by decide))
  rw [hblock, List.filter_cons, hnone]
  exact if_pos (decide_eq_true (mem_heading ledger depth number))

/-- A page is split into its rows at the ends of rows. -/
lemma splitOn_page (h : ∀ row ∈ rows, '\n' ∉ row.toList) :
    (page rows).toList.splitOn '\n' = rows.map String.toList ++ [[]] := by
  induction rows with
  | nil => rfl
  | cons row rows ih =>
    obtain ⟨hrow, hrows⟩ := List.forall_mem_cons.1 h
    have hpage : (page (row :: rows)).toList = row.toList ++ '\n' :: (page rows).toList := by
      simp [page, String.toList_append]
    rw [hpage, List.splitOn_append_cons_self_of_not_mem hrow, ih hrows, List.map_cons,
      List.cons_append]

lemma lacks_blocks (ledger : Ledger) (lines : List Line) :
    ∀ row ∈ lines.flatMap fun line => ledger.block line.depth line.number, Lacks ['\n', '('] row := by
  intro row hrow
  obtain ⟨line, -, hrow⟩ := List.mem_flatMap.1 hrow
  exact lacks_block ledger line.depth line.number row hrow

/-- The headings on a page of blocks. -/
lemma headings_page (ledger : Ledger) (lines : List Line) :
    ((page (lines.flatMap fun line => ledger.block line.depth line.number)).toList.splitOn '\n').filter
        (fun row => '[' ∈ row) =
      lines.map fun line => (ledger.heading line.depth line.number).toList := by
  have hrows : ∀ row ∈ lines.flatMap fun line => ledger.block line.depth line.number,
      '\n' ∉ row.toList := fun row hrow => lacks_blocks ledger lines row hrow '\n' (by decide)
  have hblocks : (lines.flatMap fun line => ledger.block line.depth line.number).filter
      (fun row => '[' ∈ row.toList) = lines.map fun line => ledger.heading line.depth line.number := by
    rw [List.filter_flatMap, List.map_eq_flatMap]
    exact List.flatMap_congr fun line _ => filter_block ledger line.depth line.number
  rw [splitOn_page hrows, List.filter_append, List.filter_map]
  exact (List.append_nil _).trans ((congrArg _ hblocks).trans List.map_map)

lemma lacks_page (h : ∀ row ∈ rows, Lacks ['('] row) : Lacks ['('] (page rows) := by
  apply lacks_join
  intro part hpart
  obtain ⟨row, hrow, rfl⟩ := List.mem_map.1 hpart
  exact lacks_append.2 ⟨h row hrow, by decide⟩

/-- The text has the blocks of the outline if that is not cut off and there are enough sheets. -/
lemma text_eq_page (huncut : ∀ line ∈ ledger.outline, line.isCut = false)
    (hlength : ledger.outline.length ≤ ledger.next) : ledger.text =
      page (ledger.outline.flatMap fun line => ledger.block line.depth line.number) := by
  rw [Ledger.text, lines_eq_outline huncut hlength]
  refine congrArg _ (List.flatMap_congr fun line hline => ?_)
  rw [Ledger.rows, huncut line hline]
  exact if_neg Bool.false_ne_true

end Ledger

namespace Pass

variable {pass : Pass} {s : Progress}

/-! ### Operations -/

/-- The sheets of an outline that is not cut off can be read. -/
lemma sheets_eq_ok {ledger : Ledger} (h : ∀ line ∈ ledger.outline, line.isCut = false) :
    sheets ledger = .ok (ledger.outline.map fun line => ledger.sheet line.number) := by
  rw [sheets, mapM_congr (l := fun line => pure (ledger.sheet line.number)) fun line hline => ?_]
  · exact List.mapM_pure
  · rw [h line hline, if_neg Bool.false_ne_true]
    rfl

/-- First the removals are read off the sheets of such an outline, then the other operations. -/
lemma operations_of_outline {ledger : Ledger} (h : ∀ line ∈ ledger.outline, line.isCut = false) :
    pass.operations ledger = do
      let additions ← ledger.outline.mapM fun line => pass.additions (ledger.sheet line.number)
      return (ledger.outline.flatMap fun line => (ledger.sheet line.number).deletions) ++
        additions.flatten := by
  rw [operations, sheets_eq_ok h]
  change ((ledger.outline.map fun line => ledger.sheet line.number).mapM pass.additions >>= _) = _
  rw [List.mapM_map, List.flatMap_map]
  rfl

/-- If the operations cannot be read off the sheets, then because some sibling is missing. -/
lemma operations_ne_cyclic {ledger : Ledger} (h : ∀ line ∈ ledger.outline, line.isCut = false)
    (c : NodeId) : pass.operations ledger ≠ .error (.cyclic c) := by
  intro herror
  rw [operations_of_outline h] at herror
  rcases of_bind_eq_error herror with hadditions | ⟨_, -, hdone⟩
  · obtain ⟨line, -, hsheet⟩ := exists_of_mapM_eq_error hadditions
    obtain ⟨d, -, entry, -, hinsertion⟩ := additions_eq_error hsheet
    obtain ⟨heq, -⟩ := insertion_eq_error hinsertion
    cases heq
  · cases hdone

/-! ### After a walk -/

/-- Whether the sheets that hang together with the first one form a tree, and whether the outline, the
operations and the text of a ledger come to each of them exactly once. -/
structure IsOutlined (pass : Pass) (ledger : Ledger) : Prop where
  /-- Each of the sheets apart from the first one is listed on exactly one of them, once, and has a greater
  number than that one. -/
  nested_once : ∀ n, ledger.Hangs n → n ≠ Ledger.first → ∃ k, ledger.Hangs k ∧ k < n ∧
    (ledger.sheet k).nested.count n = 1 ∧ ∀ l, n ∈ (ledger.sheet l).nested → l = k
  /-- The first sheet is listed on none. -/
  first_notMem : ∀ k, Ledger.first ∉ (ledger.sheet k).nested
  /-- Nothing is nested in a sheet that sends all children anew. -/
  nested_eq_nil : ∀ k, (ledger.sheet k).isReplaced = true → (ledger.sheet k).nested = []
  /-- The outline has a line for each of the sheets. -/
  mem_outline_iff : ∀ n, n ∈ ledger.outline.map Ledger.Line.number ↔ ledger.Hangs n
  /-- No sheet has two lines. -/
  nodup_outline : (ledger.outline.map Ledger.Line.number).Nodup
  /-- There are no more lines than sheets. -/
  length_outline_le : ledger.outline.length ≤ ledger.next
  /-- The outline is not cut off. -/
  isCut_eq_false : ∀ line ∈ ledger.outline, line.isCut = false
  /-- The operations are read off the sheets of the outline. -/
  sheets_eq : sheets ledger = .ok (ledger.outline.map fun line => ledger.sheet line.number)
  /-- The removals come to each line of the outline in order, and so do the other operations. -/
  operations_eq : pass.operations ledger = do
    let additions ← ledger.outline.mapM fun line => pass.additions (ledger.sheet line.number)
    return (ledger.outline.flatMap fun line => (ledger.sheet line.number).deletions) ++
      additions.flatten
  /-- No container is said to be in a cycle. -/
  operations_ne : ∀ c, pass.operations ledger ≠ .error (.cyclic c)
  /-- The text has the block of each line of the outline, and nothing else. -/
  text_eq : ledger.text =
    Ledger.page (ledger.outline.flatMap fun line => ledger.block line.depth line.number)
  /-- The rows of the text that have a bracket are the headings, one for each line of the outline. -/
  headings_eq : (ledger.text.toList.splitOn '\n').filter (fun row => '[' ∈ row) =
    ledger.outline.map fun line => (ledger.heading line.depth line.number).toList
  /-- The text does not speak of a cycle. -/
  not_cycle : ¬ "(cycle)".toList <:+: ledger.text.toList

/-- Whatever a view says: when a pass has walked the whole tree, each sheet that hangs together with the
first one is nested in exactly one of these sheets, and the outline, the operations and the text come to it
exactly once. -/
theorem isOutlined_of_gather {tables : Tables} (h : pass.gather.run { tables } = .ok () s) :
    pass.IsOutlined s.ledger := by
  obtain ⟨hnested, hnext⟩ := isNested_of_gather h
  have hlevels : s.ledger.next ≤ s.ledger.sheets.size + Ledger.first := Nat.le_add_right _ _
  have hnodup : (s.ledger.outline.map Ledger.Line.number).Nodup :=
    hnested.nodup_outlineFrom hnext hlevels
  have hmem (n : Nat) := hnested.mem_outline_iff (n := n) hnext
  have huncut : ∀ line ∈ s.ledger.outline, line.isCut = false := fun line hline =>
    hnested.isCut_of_mem_outlineFrom hnext hlevels hline
  have hlength : s.ledger.outline.length ≤ s.ledger.next := by
    have hrange : s.ledger.outline.map Ledger.Line.number ⊆ List.range s.ledger.next := fun n hn =>
      List.mem_range.2 (hnested.lt_next_of_hangs hnext ((hmem n).1 hn))
    simpa using (hnodup.subperm hrange).length_le
  have htext := Ledger.text_eq_page huncut hlength
  refine { nested_once := fun n hn hne => ?_, first_notMem := hnested.not_nests_first,
           nested_eq_nil := hnested.nested_eq_nil, mem_outline_iff := hmem, nodup_outline := hnodup,
           length_outline_le := hlength, isCut_eq_false := huncut, sheets_eq := sheets_eq_ok huncut,
           operations_eq := operations_of_outline huncut,
           operations_ne := operations_ne_cyclic huncut, text_eq := htext, headings_eq := ?_,
           not_cycle := fun hcycle => ?_ }
  · obtain ⟨k, hk, hkn⟩ := (Relation.ReflTransGen.cases_tail hn).resolve_left hne
    exact ⟨k, hk, hnested.lt k n hkn, List.count_eq_one_of_mem (hnested.nodup k) hkn,
      fun l hl => hnested.eq_of_nests n l k hl hkn⟩
  · rw [htext]
    exact Ledger.headings_page s.ledger s.ledger.outline
  · have hlacks : Ledger.Lacks ['('] s.ledger.text := htext ▸ Ledger.lacks_page fun row hrow =>
      (Ledger.lacks_blocks s.ledger s.ledger.outline row hrow).mono (by simp)
    exact hlacks '(' (by decide) (hcycle.subset (by decide))

/-- The view contradicts itself, so that an insertion comes to no sibling; still, the sheet of the inner
container is nested in that of the outer one, and the text shows each of them once. -/
theorem isOutlined_of_gather_crossed :
    let pass : Pass := ⟨View.crossed, {}, ⟨0⟩⟩
    ∃ s, pass.gather.run {} = .ok () s ∧ s.ledger.outline.map Ledger.Line.number = [0, 1, 2] ∧
      s.ledger.Hangs 2 ∧ (∃ k, k < 2 ∧ (s.ledger.sheet k).nested.count 2 = 1) ∧
      (∀ c, pass.operations s.ledger ≠ .error (.cyclic c)) ∧
      s.ledger.text = "[root]\n  [n0]\n    deleted: n6\n    added: n6\n    [n1]\n" ++
        "      deleted: n7 n8\n      added: n8 n7\n" := by
  intro pass
  have hdone : (match pass.gather.run {} with
      | .ok _ s => decide (s.ledger.outline = [⟨0, 0, false⟩, ⟨1, 1, false⟩, ⟨2, 2, false⟩] ∧
          Ledger.page (s.ledger.outline.flatMap fun line => s.ledger.block line.depth line.number) =
            "[root]\n  [n0]\n    deleted: n6\n    added: n6\n    [n1]\n" ++
              "      deleted: n7 n8\n      added: n8 n7\n")
      | .error .. => false) = true := by decide +kernel
  split at hdone
  · next s hrun =>
    obtain ⟨houtline, hpage⟩ := of_decide_eq_true hdone
    have h := isOutlined_of_gather hrun
    have hhangs : s.ledger.Hangs 2 := (h.mem_outline_iff 2).1 (by simp [houtline])
    obtain ⟨k, -, hlt, hcount, -⟩ := h.nested_once 2 hhangs (by decide)
    exact ⟨s, hrun, by simp [houtline], hhangs, ⟨k, hlt, hcount⟩, h.operations_ne,
      h.text_eq.trans hpage⟩
  · cases hdone

end Pass

end PageSync
