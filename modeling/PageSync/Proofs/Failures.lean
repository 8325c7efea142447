import PageSync.Proofs.Chains
import PageSync.Proofs.Jams

/-!
# Edits that make passes fail

Suppose that the records of a node and of a container that the client shows contradict each other: the
node is among the children that are shown in the container, but recorded elsewhere, or the other way
round. Then the tree can be edited such that every pass over it fails (`Forest.leads_jams`): the node
becomes the only child of the container, and the path from the top to the container a line of only
children, so that no pass can do without the comparison.
-/

namespace PageSync

namespace Node

variable {t m q : Node} {rest : List Node}

/-- Whether a list of nodes leads from the top of a page down to one of its nodes. -/
structure Path (t : Node) (rest : List Node) (m : Node) : Prop where
  /-- Each node is a child of the one before. -/
  isChain : List.IsChain (fun p c => p ∈ t.preorder ∧ c ∈ p.childList) (t :: rest)
  /-- The last one is the node. -/
  getLast_eq : (t :: rest).getLast (List.cons_ne_nil t rest) = m
  /-- All are on the page. -/
  mem_preorder : ∀ q ∈ t :: rest, q ∈ t.preorder
  /-- All others have children. -/
  childList_ne_nil : ∀ q ∈ t :: rest, q = m ∨ q.childList ≠ []
  /-- None occurs twice. -/
  nodup : t.ids.Nodup → ((t :: rest).map id).Nodup

lemma path_nil (t : Node) : t.Path [] t :=
  ⟨.singleton _, rfl, by simp [self_mem_preorder], by simp, by simp⟩

lemma Path.cons {c : Node} (hc : c ∈ t.childList) (hpath : c.Path rest m) : t.Path (c :: rest) m := by
  have hct : c ∈ t.preorder := mem_preorder_of_mem_childList t.self_mem_preorder hc
  refine ⟨?_, ?_, ?_, ?_, ?_⟩
  · refine .cons_cons ⟨t.self_mem_preorder, hc⟩ (hpath.isChain.imp fun p d h => ?_)
    exact ⟨preorder_subset hct h.1, h.2⟩
  · rw [List.getLast_cons (List.cons_ne_nil c rest)]
    exact hpath.getLast_eq
  · rintro q (_ | ⟨_, hq⟩)
    · exact t.self_mem_preorder
    · exact preorder_subset hct (hpath.mem_preorder q hq)
  · rintro q (_ | ⟨_, hq⟩)
    · exact .inr (List.ne_nil_of_mem hc)
    · exact hpath.childList_ne_nil q hq
  · intro hnodup
    rw [List.map_cons, List.nodup_cons]
    refine ⟨fun hmem => ?_, hpath.nodup (nodup_of_mem hnodup hct)⟩
    obtain ⟨q, hq, hid⟩ := List.mem_map.1 hmem
    exact notMem_ids_of_mem_childList hnodup hc (mem_ids.2 ⟨q, hpath.mem_preorder q hq, hid⟩)

lemma Path.mem (hpath : t.Path rest m) : m ∈ t.preorder :=
  hpath.mem_preorder m (hpath.getLast_eq ▸ List.getLast_mem _)

/-- From the top of a page a path leads to each of its nodes. -/
lemma exists_path (hm : m ∈ t.preorder) : ∃ rest, t.Path rest m := by
  induction t using induct_childList with
  | step t ih =>
    rcases mem_preorder_iff.1 hm with rfl | ⟨c, hc, hm⟩
    · exact ⟨[], path_nil _⟩
    · obtain ⟨rest, hpath⟩ := ih c hc hm
      exact ⟨c :: rest, hpath.cons hc⟩

/-- On the way from the top of a page to a node of a certain kind there is a first one of the kind. -/
lemma exists_path_until (kind : NodeId → Prop) (htop : ¬ kind t.id) (hq : q ∈ t.preorder)
    (hkind : kind q.id) : ∃ rest m c, t.Path rest m ∧ c ∈ m.childList ∧ kind c.id ∧
      ∀ p ∈ t :: rest, ¬ kind p.id := by
  induction t using induct_childList with
  | step t ih =>
    rcases mem_preorder_iff.1 hq with rfl | ⟨c, hc, hq⟩
    · exact absurd hkind htop
    · by_cases hfirst : kind c.id
      · exact ⟨[], t, c, path_nil t, hc, hfirst, by simpa using htop⟩
      · obtain ⟨rest, m, d, hpath, hd, hkindd, hrest⟩ := ih c hc hfirst hq
        refine ⟨c :: rest, m, d, hpath.cons hc, hd, hkindd, ?_⟩
        rintro p (_ | ⟨_, hp⟩)
        · exact htop
        · exact hrest p hp

end Node

namespace Forest

variable {f g : Forest} {page t m : Node} {n : NodeId} {rest : List Node}

/-- Whether a forest knows a container with the children that are shown in it. -/
structure Knows (f : Forest) (m : Node) : Prop where
  /-- It is a container. -/
  isContainer : f.view.isContainer m.id
  /-- Its children are known. -/
  shownChildList_eq : (f.view.entry m.id).shownChildList = m.childList.map Node.id
  /-- There are some. -/
  childList_ne_nil : m.childList ≠ []
  /-- None is shown twice. -/
  nodup : (m.childList.map Node.id).Nodup

lemma Knows.congr (h : f.Knows m) (hentry : g.view.entry m.id = f.view.entry m.id) : g.Knows m where
  isContainer := by
    rw [View.isContainer, hentry]
    exact h.isContainer
  shownChildList_eq := by
    rw [hentry]
    exact h.shownChildList_eq
  childList_ne_nil := h.childList_ne_nil
  nodup := h.nodup

/-- Whether a forest knows a node as a child that is shown in another one. -/
def KnowsChild (f : Forest) (p c : Node) : Prop :=
  c ∈ p.childList ∧ f.view.shownParent c.id = some p.id

lemma exists_knowsChild {q : Node} (hchain : List.IsChain f.KnowsChild (t :: rest)) (hq : q ∈ rest) :
    ∃ p, f.KnowsChild p q := by
  induction rest generalizing t with
  | nil => cases hq
  | cons c rest ih =>
    obtain ⟨hc, hchain⟩ := List.isChain_cons_cons.1 hchain
    rcases List.mem_cons.1 hq with rfl | hq
    · exact ⟨t, hc⟩
    · exact ih hchain hq

lemma narrows_of_narrowed (hknows : f.Knows m) (hkeeps : f.Keeps g) (hnarrowed : g.Narrowed m.id n) :
    g.view.Narrows m.id n (m.childList.map Node.id) := by
  have hchildren := hnarrowed.children_eq
  have hshown := (hkeeps.shownChildList_eq m.id).trans hknows.shownChildList_eq
  obtain ⟨shown, hs⟩ := Option.isSome_iff_exists.1 hnarrowed.isSome_shownChildren
  rw [Entry.shownChildList, hs] at hshown
  refine ⟨?_, hs.trans (congrArg some hshown), ?_, hknows.nodup, hnarrowed.replacesChildren_eq⟩
  · rw [View.children, Entry.childList] at hchildren
    cases hc : (g.view.entry m.id).children with
    | none => simp [hc] at hchildren
    | some cs => simpa [hc] using hchildren
  · simpa using hknows.childList_ne_nil

/-- A line of only children leads down to a contradiction. -/
lemma jams_of_line (hkeeps : f.Keeps g) (hchain : List.IsChain f.KnowsChild (t :: rest))
    (hknows : ∀ q ∈ t :: rest, f.Knows q)
    (hline : List.IsChain g.Narrowed ((t :: rest).map Node.id ++ [n]))
    (hlast : (t :: rest).getLast (List.cons_ne_nil t rest) = m)
    (hcontradiction : ¬ (n ∈ m.childList.map Node.id ↔ f.view.shownParent n = some m.id)) :
    g.view.Jams t.id := by
  induction rest generalizing t with
  | nil =>
    obtain rfl : t = m := hlast
    have hnarrows := narrows_of_narrowed (hknows t List.mem_cons_self) hkeeps
      (List.isChain_cons_cons.1 hline).1
    refine .here hnarrows ?_
    rwa [hkeeps.shownParent_eq]
  | cons c rest ih =>
    have hnarrows := narrows_of_narrowed (hknows t List.mem_cons_self) hkeeps
      (List.isChain_cons_cons.1 hline).1
    obtain ⟨⟨hc, hparent⟩, hchain⟩ := List.isChain_cons_cons.1 hchain
    refine .deeper hnarrows (List.mem_map_of_mem hc) ?_ ?_
    · rwa [hkeeps.shownParent_eq]
    · exact ih hchain (fun q hq => hknows q (List.mem_cons_of_mem _ hq))
        (List.isChain_cons_cons.1 hline).2 (by rwa [List.getLast_cons] at hlast)

lemma isChain_knowsChild
    (hchain : List.IsChain (fun p c => p ∈ page.preorder ∧ c ∈ p.childList) (t :: rest))
    (hparents : ∀ c ∈ rest, ∀ p ∈ page.preorder, c ∈ p.childList →
      f.view.shownParent c.id = some p.id) : List.IsChain f.KnowsChild (t :: rest) := by
  induction rest generalizing t with
  | nil => exact .singleton t
  | cons c rest ih =>
    obtain ⟨⟨ht, hc⟩, hchain⟩ := List.isChain_cons_cons.1 hchain
    exact .cons_cons ⟨hc, hparents c List.mem_cons_self t ht hc⟩
      (ih hchain fun d hd => hparents d (List.mem_cons_of_mem _ hd))

/-- Where a node and a container contradict each other, edits lead to a tree that no pass can go over.
-/
lemma leads_jams (h : f.WellFormed) (hnodup : page.ids.Nodup) (hpath : page.Path rest m)
    (htop : f.view.parent page.id = none) (hknows : ∀ q ∈ page :: rest, f.Knows q)
    (hparents : ∀ c ∈ rest, ∀ p ∈ page.preorder, c ∈ p.childList →
      f.view.shownParent c.id = some p.id)
    (hn : f.contains n) (hroot : n ≠ f.root) (hnew : n ∉ (page :: rest).map Node.id)
    (hcontradiction : ¬ (n ∈ m.childList.map Node.id ↔ f.view.shownParent n = some m.id)) :
    ∃ es, f.Allows page.id es ∧ (f.edits es).view.IsForest ∧ (f.edits es).view.Jams page.id := by
  have hchain := isChain_knowsChild hpath.isChain hparents
  have hnodup : (page.id :: (rest.map Node.id ++ [n])).Nodup := by
    rw [← List.cons_append, ← List.map_cons, List.nodup_append']
    exact ⟨hpath.nodup hnodup, List.nodup_singleton n, by simpa using hnew⟩
  have hne (x : NodeId) (hx : x ∈ rest.map Node.id ++ [n]) : x ≠ page.id := by
    rintro rfl
    exact (List.nodup_cons.1 hnodup).1 hx
  have hrest : ∀ x ∈ rest.map Node.id ++ [n],
      f.contains x ∧ x ≠ f.root ∧ ¬ Covers f.view.parent x page.id := by
    intro x hx
    have hcov : ¬ Covers f.view.parent x page.id := fun hcov => hne x hx (hcov.eq_of_top htop)
    rcases List.mem_append.1 hx with hx | hx
    · obtain ⟨q, hq, rfl⟩ := List.mem_map.1 hx
      obtain ⟨p, -, hparent⟩ := exists_knowsChild hchain hq
      refine ⟨contains_of_isContainer (hknows q (List.mem_cons_of_mem _ hq)).isContainer, ?_, hcov⟩
      intro heq
      rw [heq, h.shownParent_root] at hparent
      cases hparent
    · obtain rfl := List.mem_singleton.1 hx
      exact ⟨hn, hroot, hcov⟩
  have hcontainers : ∀ x ∈ (page.id :: (rest.map Node.id ++ [n])).dropLast,
      f.view.isContainer x := by
    intro x hx
    rw [← List.cons_append, List.dropLast_concat, ← List.map_cons] at hx
    obtain ⟨q, hq, rfl⟩ := List.mem_map.1 hx
    exact (hknows q hq).isContainer
  obtain ⟨g, ⟨es, hallows, rfl⟩, hsteps, hline, -⟩ := leads_line _ h htop (.refl _) hcontainers hrest
    (List.nodup_cons.1 hnodup).2
  exact ⟨es, hallows, (hsteps.wellFormed h).toIsForest,
    jams_of_line hsteps.keeps hchain hknows hline hpath.getLast_eq hcontradiction⟩

end Forest

end PageSync
