import PageSync.Pass.Emission
import PageSync.Proofs.Evictions
import PageSync.Proofs.Relocations
import PageSync.Proofs.Steps

/-!
# What a walk contributes

The walk below one shown node contributes removals, changes of attributes and other operations to
its pass. `Pass.Planned` says which contributions there are: for a node whose children have not
changed what its children contribute, for one with other children the removal of those that are gone
and the insertion of those that are new, or else everything anew.

`Planned.carries` says that such a contribution carries the client from the shown subtree to the
current one in the three stages in which the operations are sent. After the first stage no node is
left that is to be inserted elsewhere, which is what allows the contributions of different subtrees
to be interleaved.
-/

namespace PageSync

/-- What the walk below one shown node contributes to the operations of a pass. -/
structure Share where
  /-- The nodes that are removed. -/
  deleted : List NodeId := []
  /-- The nodes whose attributes are sent together with the changes to a container above. -/
  altered : List NodeId := []
  /-- The changes to containers at and below the node, other than removals. -/
  rest : List Operation := []

namespace Pass

open Node (Runs)

/-- The node itself, if its attributes are to be sent. -/
def ownAltered (pass : Pass) (node : NodeId) : List NodeId :=
  if (pass.view.entry node).attributesChanged then [node] else []

/-- The insertions of those children that are not kept, the first one behind a given child. -/
def insertions (pass : Pass) (container : NodeId) (kept : List NodeId) :
    Option NodeId → List NodeId → List Operation
  | _, [] => []
  | before, node :: rest =>
    (if node ∈ kept then [] else [.insertAfter container before (pass.view.describe node)]) ++
      pass.insertions container kept (some node) rest

/-- The shown children of a container that are removed when its children are compared: those that are
gone, and those that are moved. -/
def removals (pass : Pass) (container : NodeId) (shown current : List NodeId) : List NodeId :=
  (shown.filter fun node => pass.view.parent node ≠ some container) ++
    relocated (shown.filter fun node => pass.view.parent node = some container)
      (current.filter fun node => pass.view.shownParent node = some container)

/-- The current children that are inserted then: those that are new, and those that are moved. -/
def arrivals (pass : Pass) (container : NodeId) (shown current : List NodeId) : List NodeId :=
  current.filter fun node => node ∉ shown ∨ node ∈ pass.removals container shown current

/-- The number of changes to the children of a container. -/
def changes (pass : Pass) (container : NodeId) (shown current : List NodeId) : Nat :=
  (pass.removals container shown current).length + (pass.arrivals container shown current).length

/-- What a pass may contribute because of one shown node and the nodes shown below it. -/
inductive Planned (pass : Pass) : Node → Share → Prop
  /-- Nothing below the node changed. -/
  | still {t : Node} (compared : (pass.view.entry t.id).compared = none)
      (unmarked : (pass.view.entry t.id).changedBelow = false) :
      Planned pass t { altered := pass.ownAltered t.id }
  /-- The children of the node are the ones that are shown. -/
  | through {t : Node} {parts : List (Node × Share)}
      (compared : (pass.view.entry t.id).compared = none)
      (children : parts.map (·.1) = t.childList)
      (planned : ∀ p ∈ parts, Planned pass p.1 p.2) :
      Planned pass t
        { deleted := parts.flatMap (·.2.deleted)
          altered := pass.ownAltered t.id ++ parts.flatMap (·.2.altered)
          rest := parts.flatMap (·.2.rest) }
  /-- Some shown children are removed, and some current ones are inserted; these are not too many
  changes. -/
  | mixed {t : Node} {shown current : List NodeId} {parts : List (Node × Share)}
      (compared : (pass.view.entry t.id).compared = some (shown, current))
      (nodup_removals : (pass.removals t.id shown current).Nodup)
      (mem_removals : ∀ n, n ∈ pass.removals t.id shown current ↔
        n ∈ shown ∧ n ∉ parts.map (·.1.id))
      (shown_order : (parts.map (·.1)).Sublist t.childList)
      (current_order : (parts.map (·.1.id)).Sublist current)
      (accepted : pass.policy.rejectsChanges (pass.changes t.id shown current) current.length = false)
      (planned : ∀ p ∈ parts, Planned pass p.1 p.2) :
      Planned pass t
        { deleted := pass.removals t.id shown current ++ parts.flatMap (·.2.deleted)
          rest := (pass.ownAltered t.id ++ parts.flatMap (·.2.altered)).map pass.alteration ++
            pass.insertions t.id (parts.map (·.1.id)) none current ++ parts.flatMap (·.2.rest) }
  /-- All children are sent anew, at once or since there are too many changes to them. -/
  | anew {t : Node} {shown current gone : List NodeId} {levels : Nat}
      (compared : (pass.view.entry t.id).compared = some (shown, current))
      (reason : pass.sendsAnew t.id shown current = true ∨
        pass.policy.rejectsChanges (pass.changes t.id shown current) current.length = true)
      (evicted : pass.evicted t.id levels t.id shown = .ok gone) :
      Planned pass t
        { deleted := gone
          rest := .replaceChildren t.id (current.map pass.view.describe) ::
            (pass.ownAltered t.id).map pass.alteration }

/-- Whether a share carries a client from a shown subtree by way of `m` and `m'` to the current
subtree of the same node. -/
structure Via (pass : Pass) (t : Node) (share : Share) (m m' : Node) : Prop where
  /-- All that is to be removed is present until then. -/
  deletes : Runs (fun _ => True) t (share.deleted.map .delete) m
  /-- What is left is below the node now, or else in no tree that the pass walks. -/
  kept : ∀ y ∈ m.ids, y ∈ t.ids ∧
    (Covers pass.view.parent pass.root y → Covers pass.view.parent t.id y)
  /-- Attributes are sent to nodes that are present. -/
  alters : Runs (fun _ => True) m (share.altered.map pass.alteration) m'
  /-- No node comes or goes by that. -/
  ids_eq : m'.ids = m.ids
  /-- The other operations send nothing but nodes that belong below the node. -/
  completes : Runs (fun y => ¬ Covers pass.view.parent t.id y) m' share.rest
    (pass.view.describe t.id)

/-- Whether a share carries a client from a shown subtree to the current subtree of its node. -/
def Carries (pass : Pass) (t : Node) (share : Share) : Prop := ∃ m m', pass.Via t share m m'

end Pass

/-! ### Removing and inserting children -/

namespace Node

variable {id : NodeId} {tag : String} {attributes : Attributes} {children : List Node}
  {gone kept current : List NodeId} {t : Node} {y : NodeId}

/-- A list without repetition is filtered to those of its members that make up a sublist. -/
lemma filter_eq_of_sublist {α : Type*} {l ks : List α} {p : α → Bool} (hsub : ks.Sublist l)
    (hl : l.Nodup) (hp : ∀ a ∈ l, p a = true ↔ a ∈ ks) : l.filter p = ks := by
  have hks : ks.filter p = ks := List.filter_eq_self.2 fun a ha => (hp a (hsub.subset ha)).2 ha
  have hle : ks.Sublist (l.filter p) := hks ▸ hsub.filter p
  refine (hle.eq_of_length_le ((hl.filter p).subperm fun a ha => ?_).length_le).symm
  obtain ⟨hal, hpa⟩ := List.mem_filter.1 ha
  exact (hp a hal).1 hpa

/-- Children are removed one after the other. -/
lemma runs_delete_children (tag : String) (attributes : Attributes) (hid : ∀ c ∈ children, id ∉ c.ids)
    (hdisjoint : children.Pairwise fun c d => ∀ y ∈ c.ids, y ∉ d.ids) (hnodup : gone.Nodup)
    (hmem : ∀ n ∈ gone, n ∈ children.map Node.id) :
    Runs (fun _ => True) (container id tag attributes children) (gone.map .delete)
      (container id tag attributes (children.filter (·.id ∉ gone))) := by
  induction gone generalizing children with
  | nil => simpa using Runs.nil _
  | cons g gone ih =>
    obtain ⟨hg, hgone⟩ := List.nodup_cons.1 hnodup
    obtain ⟨c, hc, rfl⟩ := List.mem_map.1 (hmem g List.mem_cons_self)
    obtain ⟨pre, post, rfl⟩ := List.append_of_mem hc
    obtain ⟨-, hpost, hprepost⟩ := List.pairwise_append.1 hdisjoint
    have hsib : ∀ s ∈ pre ++ post, c.id ∉ s.ids := by
      intro s hs hmem
      rcases List.mem_append.1 hs with hs | hs
      · exact hprepost s hs c List.mem_cons_self _ hmem c.id_mem_ids
      · exact (List.pairwise_cons.1 hpost).1 s hs _ c.id_mem_ids hmem
    have hsub : (pre ++ post).Sublist (pre ++ c :: post) :=
      (List.Sublist.refl pre).append (List.sublist_cons_self c post)
    rw [List.map_cons]
    refine .cons ⟨mem_ids_inside.2 (.inl c.id_mem_ids), ?_⟩ (by simp [Operation.content]) ?_
    · rintro (heq : c.id = id)
      exact hid c hc (heq ▸ c.id_mem_ids)
    · rw [perform, prune_child hsib]
      have hfilter : (pre ++ c :: post).filter (·.id ∉ c.id :: gone) =
          (pre ++ post).filter (·.id ∉ gone) := by
        rw [List.filter_append, List.filter_cons_of_neg (by simp), ← List.filter_append]
        apply List.filter_congr
        intro s hs
        have hne : s.id ≠ c.id := fun e => hsib s hs (e ▸ s.id_mem_ids)
        simp [hne]
      rw [hfilter]
      refine ih (fun s hs => hid s (hsub.subset hs)) (hdisjoint.sublist hsub) hgone ?_
      intro n hn
      obtain ⟨s, hs, rfl⟩ := List.mem_map.1 (hmem n (List.mem_cons_of_mem _ hn))
      apply List.mem_map_of_mem
      rcases (by simpa [or_left_comm] using hs : s = c ∨ s ∈ pre ++ post) with rfl | hs
      · exact absurd hn hg
      · exact hs

lemma insertBehind_last {content : Node} {pre post : List Node} (hpre : (pre.map Node.id).Nodup) :
    insertBehind content (pre.getLast?.map Node.id) (pre ++ post) = pre ++ content :: post := by
  induction pre with
  | nil => simp [insertBehind]
  | cons c pre ih =>
    obtain ⟨hc, hpre⟩ := List.nodup_cons.1 hpre
    cases pre with
    | nil => simp [insertBehind]
    | cons d pre =>
      have ih := ih hpre
      rw [List.getLast?_cons_cons]
      obtain ⟨last, hlast⟩ : ∃ last, (d :: pre).getLast? = some last :=
        Option.isSome_iff_exists.1 (by simp)
      have hne : c.id ≠ last.id := fun e =>
        hc (e ▸ List.mem_map_of_mem (List.mem_of_getLast? hlast))
      rw [hlast, Option.map_some] at ih ⊢
      rw [List.cons_append, insertBehind, if_neg hne, ih]
      rfl

/-- A child is inserted behind those that are in place already. -/
lemma runs_insertion {pass : Pass} {n : NodeId} {done others : List Node} (tag : String)
    (attributes : Attributes) (hforest : pass.view.IsForest) (hparent : pass.view.parent n = some id)
    (hdone : (done.map Node.id).Nodup)
    (hapart : ∀ c ∈ done ++ others, ∀ y, Covers pass.view.parent n y → y ∉ c.ids) :
    Runs (fun y => ¬ Covers pass.view.parent id y) (container id tag attributes (done ++ others))
      [.insertAfter id (done.map Node.id).getLast? (pass.view.describe n)]
      (container id tag attributes (done ++ pass.view.describe n :: others)) := by
  refine .cons ⟨⟨_, self_mem_preorder _, rfl, rfl, ?_⟩, ?_, ?_⟩ ?_ ?_
  · intro sibling hs
    exact List.map_append ▸ List.mem_append_left _ (List.mem_of_getLast? hs)
  · simpa using hforest.nodup_ids_describe n
  · intro y hy hpage
    have hcov : Covers pass.view.parent n y := by simpa [hforest.mem_ids_describe] using hy
    rcases mem_ids_iff.1 hpage with rfl | ⟨c, hc, hyc⟩
    · exact hforest.acyclic.not_covers_parent hparent hcov
    · exact hapart c hc y hcov hyc
  · intro y hy hout
    have hcov : Covers pass.view.parent n y := by
      simpa [Operation.content, hforest.mem_ids_describe] using hy
    exact hout (.trans (.of_parent hparent) hcov)
  · have hlast : (done.map Node.id).getLast? = done.getLast?.map Node.id := List.getLast?_map
    rw [perform, arrange_container_self, hlast, insertBehind_last hdone]
    exact .nil _

/-- Children are inserted one after the other between those that are kept. -/
lemma runs_insertions {pass : Pass} {f : NodeId → Node} (hforest : pass.view.IsForest)
    (hf : ∀ n, (f n).id = n) (hnew : ∀ n ∈ current, n ∉ kept → f n = pass.view.describe n)
    (hnodup : current.Nodup) (hparent : ∀ n ∈ current, pass.view.parent n = some id)
    (hapart : ∀ n ∈ current, ∀ k ∈ current, k ≠ n → ∀ y, Covers pass.view.parent n y →
      y ∉ (f k).ids) :
    Runs (fun y => ¬ Covers pass.view.parent id y)
      (container id tag attributes ((current.filter (· ∈ kept)).map f))
      (pass.insertions id kept none current) (container id tag attributes (current.map f)) := by
  -- the children before a position are in place when it is reached
  suffices ∀ done rest, current = done ++ rest →
      Runs (fun y => ¬ Covers pass.view.parent id y)
        (container id tag attributes (done.map f ++ (rest.filter (· ∈ kept)).map f))
        (pass.insertions id kept done.getLast? rest)
        (container id tag attributes (current.map f)) from this [] current rfl
  intro done rest
  induction rest generalizing done with
  | nil =>
    rintro rfl
    simpa [Pass.insertions] using Runs.nil _
  | cons n rest ih =>
    intro hcurrent
    have hnext := ih (done ++ [n]) (by simp [hcurrent])
    have hn : n ∈ current := by simp [hcurrent]
    rw [List.getLast?_append_of_ne_nil _ (by simp), List.getLast?_singleton] at hnext
    rw [Pass.insertions]
    by_cases hkept : n ∈ kept
    · simpa [hkept] using hnext
    rw [if_neg hkept, List.filter_cons_of_neg (by simpa using hkept)]
    have hids : (done.map f).map Node.id = done := by
      rw [List.map_map]
      exact (List.map_congr_left fun n _ => hf n).trans (List.map_id done)
    have hmem : ∀ c ∈ done.map f ++ (rest.filter (· ∈ kept)).map f,
        ∃ k ∈ current, k ≠ n ∧ c = f k := by
      rw [hcurrent] at hnodup ⊢
      obtain ⟨-, hrest, hdone⟩ := List.nodup_append.1 hnodup
      intro c hc
      rcases List.mem_append.1 hc with hc | hc
      · obtain ⟨k, hk, rfl⟩ := List.mem_map.1 hc
        exact ⟨k, by simp [hk], hdone k hk n List.mem_cons_self, rfl⟩
      · obtain ⟨k, hk, rfl⟩ := List.mem_map.1 hc
        have hk := (List.mem_filter.1 hk).1
        exact ⟨k, by simp [hk], fun e => (List.nodup_cons.1 hrest).1 (e ▸ hk), rfl⟩
    have hone := runs_insertion tag attributes hforest (hparent n hn)
      (hids ▸ (List.nodup_append.1 (hcurrent ▸ hnodup)).1) fun c hc y hcov => by
        obtain ⟨k, hk, hne, rfl⟩ := hmem c hc
        exact hapart n hn k hk hne y hcov
    rw [hids] at hone
    apply hone.append
    rw [← hnew n hn hkept]
    simpa using hnext

/-! ### Attributes -/

lemma dress_eq_leaf {new : Attributes} (hkind : t.isContainer = false) :
    t.dress t.id new = .leaf t.id t.tag new := by
  cases t with
  | leaf => simp [dress, Node.tag]
  | container => cases hkind

lemma dress_eq_container {new : Attributes} (hkind : t.isContainer = true)
    (ht : ∀ c ∈ t.childList, t.id ∉ c.ids) :
    t.dress t.id new = .container t.id t.tag new t.childList := by
  cases t with
  | leaf => cases hkind
  | container id tag attributes children =>
    have hstay : children.map (dress id new) = children := by
      conv_rhs => rw [← List.map_id children]
      exact List.map_congr_left fun c hc =>
        perform_of_notMem (.changeAttributes id new) (ht c hc)
    rw [id_container, dress_container, hstay, if_pos rfl]
    rfl

lemma dress_self (ht : ∀ c ∈ t.childList, t.id ∉ c.ids) : t.dress t.id t.attributes = t := by
  cases hkind : t.isContainer with
  | false => rw [dress_eq_leaf hkind, ← eq_leaf hkind]
  | true => rw [dress_eq_container hkind ht, ← eq_container hkind]

lemma ids_dress {new : Attributes} {n : NodeId} : (t.dress n new).ids = t.ids := by
  induction t with
  | leaf => rfl
  | container id tag attributes children ih =>
    rw [dress_container, ids_container, ids_container, List.flatMap_map]
    exact congrArg (id :: ·) (List.flatMap_congr ih)

/-- The attributes of a node are brought up to date. -/
lemma runs_ownAltered {pass : Pass} (ht : ∀ c ∈ t.childList, t.id ∉ c.ids)
    (hsame : (pass.view.entry t.id).attributesChanged = false →
      (pass.view.entry t.id).attributes = t.attributes) :
    Runs (fun _ => True) t ((pass.ownAltered t.id).map pass.alteration)
      (t.dress t.id (pass.view.entry t.id).attributes) := by
  rw [Pass.ownAltered]
  split
  · exact .single t.id_mem_ids (by simp [Pass.alteration, Operation.content])
  · next hunchanged =>
    rw [hsame (Bool.not_eq_true _ ▸ hunchanged), dress_self ht]
    exact .nil _

end Node

end PageSync
