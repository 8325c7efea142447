import PageSync.Proofs.Walking

/-!
# Sheets as edit scripts

The sheet of a container whose children have been compared says which of them are removed and which
nodes are inserted at which positions. Such a sheet is an edit script that leads from the shown
children to the current ones (`Sheet.IsScript`): carried out step by step, each insertion finds the
child in place that it has to come behind.
-/

namespace PageSync

namespace Sheet

/-- Puts a node directly behind another one, which has to be there. -/
def putBehind (sibling node : NodeId) : List NodeId → Option (List NodeId)
  | [] => none
  | head :: rest =>
    if head = sibling then some (head :: node :: rest)
    else (putBehind sibling node rest).map (head :: ·)

/-- Inserts a node where it stands among the current children: directly behind the one before its
position, or first. -/
def put? (current nodes : List NodeId) : Nat × NodeId → Option (List NodeId)
  | (0, node) => some (node :: nodes)
  | (before + 1, node) => do putBehind (← current[before]?) node nodes

/-- What a sheet makes of the shown children: first some of them are removed, then nodes are inserted,
one after the other. -/
def replay? (sheet : Sheet) (shown current : List NodeId) : Option (List NodeId) :=
  sheet.inserted.foldlM (put? current) (shown.filter (· ∉ sheet.removed))

/-- Whether a sheet leads from the shown children of a container to the current ones and leaves some
where they are. -/
structure IsScript (sheet : Sheet) (shown current kept : List NodeId) : Prop where
  /-- The kept children are in the order in which they are shown. -/
  kept_shown : kept.Sublist shown
  /-- They are in the order in which they stand now. -/
  kept_current : kept.Sublist current
  /-- If any shown child is a current one, then not all are moved. -/
  kept_ne_nil : (∃ n ∈ shown, n ∈ current) → kept ≠ []
  /-- No child is removed twice. -/
  nodup_removed : sheet.removed.Nodup
  /-- The shown children that are not kept are removed, and nothing else is. -/
  mem_removed : ∀ n, n ∈ sheet.removed ↔ n ∈ shown ∧ n ∉ kept
  /-- Nodes are inserted in ascending order of positions. -/
  sorted : sheet.inserted.Pairwise fun a b => a.1 < b.1
  /-- The current children that are not kept are inserted where they stand, and nothing else is. -/
  mem_inserted : ∀ position n, (position, n) ∈ sheet.inserted ↔
    current[position]? = some n ∧ n ∉ kept
  /-- Step by step, the shown children become the current ones. -/
  replay_eq : sheet.replay? shown current = some current

variable {sibling n : NodeId} {current kept done rest nodes : List NodeId}
  {inserted : List (Nat × NodeId)}

lemma putBehind_append (n : NodeId) (nodes : List NodeId) (hdone : sibling ∉ done) :
    putBehind sibling n (done ++ sibling :: nodes) = some (done ++ sibling :: n :: nodes) := by
  induction done with
  | nil => simp [putBehind]
  | cons head done ih =>
    rw [List.mem_cons, not_or] at hdone
    rw [List.cons_append, putBehind, if_neg (Ne.symm hdone.1), ih hdone.2]
    rfl

/-- If all children before a position are in place, a node can be inserted there. -/
lemma put?_append (hnodup : current.Nodup) (hcurrent : current = done ++ n :: rest) :
    put? current (done ++ nodes) (done.length, n) = some (done ++ n :: nodes) := by
  rcases List.eq_nil_or_concat done with rfl | ⟨before, sibling, rfl⟩
  · rfl
  · rw [List.concat_eq_append] at hcurrent ⊢
    have hget : current[before.length]? = some sibling := by simp [hcurrent]
    have hsibling : sibling ∉ before := by
      rw [hcurrent, List.append_assoc, List.nodup_append] at hnodup
      exact fun hmem => hnodup.2.2 sibling hmem sibling (by simp) rfl
    rw [List.length_append, List.length_singleton, put?, hget]
    simpa using putBehind_append n nodes hsibling

/-- When the kept children and the current ones before a position are in place, the insertions from
there on lead to the current children. -/
lemma foldlM_put? (h : Pass.Inserts kept current done inserted) (hnodup : current.Nodup)
    (hcurrent : current = done ++ rest) :
    inserted.foldlM (put? current) (done ++ rest.filter (· ∈ kept)) = some current := by
  induction rest generalizing done inserted with
  | nil =>
    rw [List.append_nil] at hcurrent
    subst hcurrent
    rw [h.eq_nil]
    simp
  | cons n rest ih =>
    have hcurrent' : current = (done ++ [n]) ++ rest := by simp [hcurrent]
    by_cases hkept : n ∈ kept
    · rw [List.filter_cons_of_pos (by simpa using hkept)]
      simpa using ih (h.skip hcurrent hkept) hcurrent'
    · obtain ⟨later, rfl, hlater⟩ := h.exists_cons hcurrent hkept
      rw [List.filter_cons_of_neg (by simpa using hkept), List.foldlM_cons,
        put?_append hnodup hcurrent]
      simpa using ih hlater hcurrent'

end Sheet

namespace Pass

variable {pass : Pass} {t : Node} {number : Nat} {shown current : List NodeId} {s s₁ : Progress}
  {parts : List (Node × Share)}

/-- When the children of a container have been compared, its sheet is an edit script. -/
lemma Compared.isScript (h : pass.Compared t number shown current s₁ parts s)
    (hshown : t.childList.map Node.id = shown) (hnodup : shown.Nodup) (hcurrent : current.Nodup) :
    (s.ledger.sheet number).IsScript shown current (parts.map (·.1.id)) := by
  obtain ⟨inserted, numbers, hsheet, hsorted, hmem, -⟩ := h.sheet
  have hkept : (parts.map (·.1.id)).Sublist shown := by
    have hmap := h.shown_order.map Node.id
    rwa [hshown, List.map_map] at hmap
  have hstay : shown.filter (· ∉ pass.removals t.id shown current) =
      current.filter (· ∈ parts.map (·.1.id)) := by
    rw [Node.filter_eq_of_sublist h.current_order hcurrent fun n _ => by simp]
    exact Node.filter_eq_of_sublist hkept hnodup fun n hn => by simp [h.mem_removals, hn]
  have hreplay : (s.ledger.sheet number).replay? shown current = some current := by
    rw [Sheet.replay?, hsheet, hstay]
    exact Sheet.foldlM_put? ⟨hsorted, fun e => by simpa using hmem e⟩ hcurrent
      (List.nil_append current).symm
  refine ⟨hkept, h.current_order, fun hmeet => ?_, ?_, ?_, ?_, ?_, hreplay⟩
  · simpa using h.kept_ne_nil hmeet
  · rw [hsheet]
    exact h.nodup_removals
  · rw [hsheet]
    exact h.mem_removals
  · rw [hsheet]
    exact hsorted
  · rw [hsheet]
    exact fun position n => hmem (position, n)

end Pass

end PageSync
