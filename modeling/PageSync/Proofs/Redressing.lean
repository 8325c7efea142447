import PageSync.Proofs.Cancelling

/-!
# New attributes

Where nothing but attributes has changed since a page was sent, the next pass sends the attributes of
those nodes on the page whose attributes some edit really changed: once for each, all of them, in
document order, and nothing else (`Forest.IsSent.pass_of_dressed`). A walk leaves out whatever is below
an unmarked node, so it matters that all nodes above a changed one are marked.
-/

namespace PageSync

variable {view : View} {page t : Node} {differ : Differ}

/-- Whether no children on a page are to be compared. -/
def View.IsUnmoved (view : View) (page : Node) : Prop :=
  ∀ m ∈ page.preorder, (view.entry m.id).compared = none

lemma View.IsUnmoved.staysPut (h : view.IsUnmoved page) (hdepicts : view.Depicts page) :
    view.StaysPut page := by
  intro m hm c hc
  apply hdepicts.parent_of_mem
  rw [hdepicts.children_of_compared_none hm (h m hm)]
  exact List.mem_map_of_mem hc

namespace Pass

variable {pass : Pass} {share : Share}

lemma ownAltered_eq_filter (pass : Pass) (n : NodeId) :
    pass.ownAltered n = [n].filter fun n => (pass.view.entry n).attributesChanged := by
  rw [ownAltered, List.filter_singleton, cond_eq_ite]

section Unmoved

variable (h : pass.view.Remembers page) (hunmoved : pass.view.IsUnmoved page)
  (ht : t ∈ page.preorder)

include h hunmoved ht

/-- Because of nodes whose children are not compared only attributes are sent, in document order. -/
theorem Planned.eq_altered (hplan : pass.Planned t share) :
    share = { altered := t.ids.filter fun n => (pass.view.entry n).attributesChanged } := by
  induction hplan with
  | @still t compared unmarked =>
    have hbelow : (t.childList.flatMap Node.ids).filter
        (fun n => (pass.view.entry n).attributesChanged) = [] :=
      List.filter_eq_nil_iff.2 fun n hn hchanged =>
        (hunmoved.staysPut h.toDepicts).not_isPending h ht compared unmarked hn (.inl hchanged)
    rw [Node.ids_eq_cons, ← List.singleton_append, List.filter_append, hbelow, List.append_nil,
      ownAltered_eq_filter]
  | @through t parts compared children planned ih =>
    have hparts (p : Node × Share) (hp : p ∈ parts) : p.2 =
        { altered := p.1.ids.filter fun n => (pass.view.entry n).attributesChanged } :=
      ih p hp (Node.mem_preorder_of_mem_childList ht (children ▸ List.mem_map_of_mem hp))
    have hdeleted : parts.flatMap (·.2.deleted) = [] :=
      List.flatMap_eq_nil_iff.2 fun p hp => by rw [hparts p hp]
    have hrest : parts.flatMap (·.2.rest) = [] :=
      List.flatMap_eq_nil_iff.2 fun p hp => by rw [hparts p hp]
    have haltered : parts.flatMap (·.2.altered) = (t.childList.flatMap Node.ids).filter
        fun n => (pass.view.entry n).attributesChanged := by
      rw [List.filter_flatMap, ← children, List.flatMap_map]
      exact List.flatMap_congr fun p hp => by rw [hparts p hp]
    rw [Node.ids_eq_cons, ← List.singleton_append, List.filter_append, ← ownAltered_eq_filter,
      ← haltered, hdeleted, hrest]
  | mixed compared =>
    rw [hunmoved _ ht] at compared
    cases compared
  | anew compared =>
    rw [hunmoved _ ht] at compared
    cases compared

end Unmoved

end Pass

/-- A pass over a page on which no children are to be compared sends the marked attributes. -/
lemma Differ.pass_of_isUnmoved (h : view.Remembers page) (hunmoved : view.IsUnmoved page)
    (hknown : view.contains page.id = true) (hstrays : ¬ view.HasStrays page)
    (hpolicy : differ.policy.check = .ok ()) (hheight : page.height ≤ differ.policy.depthLimit.toNat) :
    ∃ delta, (differ.pass view page.id).1 = .ok delta ∧ delta.operations =
      (page.ids.filter fun n => (view.entry n).attributesChanged).map fun n =>
        .changeAttributes n (view.entry n).attributes := by
  have hdepth (n : NodeId) (hn : n ∈ page.ids) : view.depth n ≤ differ.policy.depthLimit.toNat :=
    ((hunmoved.staysPut h.toDepicts).depth_le_height h.toDepicts hn).trans hheight
  obtain ⟨delta, hdelta⟩ := pass_ok_of_depicts h.toDepicts hknown hpolicy hstrays hheight hdepth
  obtain ⟨share, hplanned, hops⟩ := planned_of_pass h.toDepicts hdelta
  refine ⟨delta, hdelta, ?_⟩
  rw [hops, Pass.Planned.eq_altered h hunmoved page.self_mem_preorder hplanned]
  exact List.append_nil _

namespace Forest

variable {f s : Forest} {n x : NodeId} {e : Edit} {es : List Edit} {change : Item → Item}
  {dressing : Attributes → Attributes}

/-! ### Edits of attributes -/

instance decidableRedressed (f : Forest) (n : NodeId) :
    (es : List Edit) → Decidable (f.Redressed n es)
  | [] => isFalse id
  | e :: es =>
    have := decidableRedressed (f.edit e) n es
    inferInstanceAs (Decidable (_ ∨ _))

lemma shownChildren_update (hchange : ∀ i, (change i).record.children = i.record.children) :
    ((f.update n change).view.entry x).shownChildren = (f.view.entry x).shownChildren := by
  cases hi : f.get? n with
  | none => rw [entry_update_of_none hi]
  | some i =>
    by_cases hx : n = x
    · subst hx
      rw [entry_update hi, entry_of_get? hi]
      exact hchange i
    · rw [entry_update_of_ne hx]

lemma shownChildren_markAbove :
    ((f.markAbove n).view.entry x).shownChildren = (f.view.entry x).shownChildren :=
  markAbove_induct
    (motive := fun g => (g.view.entry x).shownChildren = (f.view.entry x).shownChildren) rfl
    (fun _ _ h => (shownChildren_update (by exact fun _ => rfl)).trans h) n

lemma shownChildren_redress :
    ((f.redress n dressing).view.entry x).shownChildren = (f.view.entry x).shownChildren := by
  rw [redress, recordAttributes, shownChildren_markAbove,
    shownChildren_update (by exact fun _ => rfl), shownChildren_update (by exact fun _ => rfl)]

/-- An edit of attributes records no children, and leaves the page where it is. -/
lemma shownChildren_edit_of_dressed (hdressed : e.dressed?.isSome) :
    (f.edit e).root = f.root ∧
      ((f.edit e).view.entry x).shownChildren = (f.view.entry x).shownChildren := by
  obtain ⟨n, hn⟩ := Option.isSome_iff_exists.1 hdressed
  rcases edit_of_dressed? (f := f) hn with heq | ⟨i, dressing, -, -, heq⟩
  · rw [heq]
    exact ⟨rfl, rfl⟩
  · rw [heq]
    exact ⟨(keeps_redress f n dressing).root_eq, shownChildren_redress⟩

lemma shownChildren_edits_of_dressed (hdressed : ∀ e ∈ es, e.dressed?.isSome) :
    (f.edits es).root = f.root ∧
      ((f.edits es).view.entry x).shownChildren = (f.view.entry x).shownChildren := by
  induction es generalizing f with
  | nil => exact ⟨rfl, rfl⟩
  | cons e es ih =>
    obtain ⟨hroot, hshown⟩ := shownChildren_edit_of_dressed (f := f) (x := x)
      (hdressed e List.mem_cons_self)
    obtain ⟨hroot', hshown'⟩ := ih (f := f.edit e) fun e he => hdressed e (List.mem_cons_of_mem _ he)
    exact ⟨hroot'.trans hroot, hshown'.trans hshown⟩

lemma size_of_dressed (hdressed : e.dressed?.isSome) : e.size = 0 ∧ e.IsSingle := by
  cases e <;> simp_all [Edit.dressed?, Edit.size, Edit.IsSingle]

lemma sizes_of_dressed (hdressed : ∀ e ∈ es, e.dressed?.isSome) : Edit.sizes es = 0 := by
  induction es with
  | nil => rfl
  | cons e es ih =>
    rw [Edit.sizes, (size_of_dressed (hdressed e List.mem_cons_self)).1,
      ih fun e he => hdressed e (List.mem_cons_of_mem _ he)]

/-- Edits of attributes need no identifiers, and leave the page where it is. -/
lemma allows_of_dressed (hdressed : ∀ e ∈ es, e.dressed?.isSome) : f.Allows f.root es := by
  induction es generalizing f with
  | nil => trivial
  | cons e es ih =>
    have he := hdressed e List.mem_cons_self
    obtain ⟨hroot, -⟩ := shownChildren_edit_of_dressed (f := f) (x := f.root) he
    refine ⟨(size_of_dressed he).1 ▸ hasRoom_zero f, fun hne => absurd rfl hne, ?_⟩
    rw [← hroot]
    exact ih fun e he => hdressed e (List.mem_cons_of_mem _ he)

/-- After edits of attributes the marks tell which nodes really got other ones. -/
lemma IsSent.attributesChanged_eq (h : s.IsSent) (hdressed : ∀ e ∈ es, e.dressed?.isSome) (n : NodeId) :
    ((s.edits es).view.entry n).attributesChanged = decide (s.Redressed n es) := by
  obtain ⟨hrooted, hclean⟩ := h.isClean
  have hiff := attributesChanged_edits (n := n) hrooted
    (sizes_of_dressed hdressed ▸ hasRoom_zero s) fun e he => (size_of_dressed (hdressed e he)).2
  rw [(hclean n).attributesChanged_eq] at hiff
  simpa using Bool.eq_iff_iff.2 (hiff.trans (by simp))

/-- After edits of attributes of whatever nodes, the next pass over a page that has been sent succeeds
and sends the attributes of exactly those nodes on the page whose attributes some edit really changed,
once for each node and in document order. This holds for all policies that can be followed and are deep
enough for the page. -/
theorem IsSent.pass_of_dressed {s : Forest} {es : List Edit} {differ : Differ} (h : s.IsSent)
    (hdressed : ∀ e ∈ es, e.dressed?.isSome) (hpolicy : differ.policy.check = .ok ())
    (hheight : (s.view.describe s.root).height ≤ differ.policy.depthLimit.toNat) :
    (s.view.describe s.root).ids.Nodup ∧
      ∃ delta, (Session.pass ⟨s.edits es, differ⟩ (s.edits es).root).1 = .ok delta ∧
        delta.operations = ((s.view.describe s.root).ids.filter fun n => s.Redressed n es).map
          fun n => .changeAttributes n ((s.edits es).view.entry n).attributes := by
  obtain ⟨hfollows, hexact⟩ := h.follows
  obtain ⟨-, hclean⟩ := h.isClean
  have hallows := allows_of_dressed (f := s) hdressed
  have hafter := hfollows.edits hallows
  obtain ⟨hroot, -⟩ := shownChildren_edits_of_dressed (f := s) (x := s.root) hdressed
  have hunmoved : (s.edits es).view.IsUnmoved (s.view.describe s.root) := by
    intro m _
    rw [Entry.compared, (shownChildren_edits_of_dressed hdressed).2, (hclean m.id).shownChildren_eq]
    split
    · next heq => cases heq
    · rfl
  have hknown : (s.edits es).view.contains (s.view.describe s.root).id = true := by
    rw [hafter.id_eq]
    exact hafter.contains_top
  have hpass := Differ.pass_of_isUnmoved hafter.remembers hunmoved hknown
    (hfollows.isExact_edits hallows hexact).not_hasStrays hpolicy hheight
  refine ⟨hfollows.remembers.nodup, ?_⟩
  rw [hroot, fst_pass]
  rw [hafter.id_eq] at hpass
  simpa only [h.attributesChanged_eq hdressed] using hpass

/-- An item of a list that has been sent gets an attribute and loses it again, and the page gets one
later. What is set on a node beside the page, or on one that is not there, makes no difference. -/
theorem IsSent.pass_of_dressed_list :
    let g := (new "body").edits [.graft (.container ⟨0⟩ "ul" .empty [.leaf ⟨0⟩ "li" .empty]),
      .append ⟨0⟩ ⟨1⟩, .addLeaf "p"]
    let s := (Session.pass ⟨g, {}⟩ g.root).2.forest
    let es : List Edit := [.setAttribute ⟨2⟩ "class" "wide", .setAttribute ⟨0⟩ "id" "top",
      .setAttribute ⟨3⟩ "class" "wide", .eraseAttribute ⟨2⟩ "class", .eraseAttribute ⟨1⟩ "class",
      .eraseAttribute ⟨7⟩ "class"]
    ∃ delta, (Session.pass ⟨s.edits es, {}⟩ (s.edits es).root).1 = .ok delta ∧
      delta.operations = [.changeAttributes ⟨0⟩ (.ofList [("id", "top")]),
        .changeAttributes ⟨2⟩ .empty] := by
  intro g s es
  have hcalls : (new "body").Calls g :=
    ((Relation.ReflTransGen.single (.edit (.graft _) (by decide))).tail
      (.edit (.append ⟨0⟩ ⟨1⟩) (by decide +kernel))).tail (.edit (.addLeaf "p") (by decide +kernel))
  obtain ⟨delta, hdelta⟩ : ∃ delta, (Session.pass ⟨g, {}⟩ g.root).1 = .ok delta :=
    exists_eq_ok (by decide +kernel)
  have hsent : s.IsSent := .passed (.new "body") (by decide) hcalls hdelta
  obtain ⟨-, delta', hdelta', hops⟩ :=
    @IsSent.pass_of_dressed s es {} hsent (by decide) rfl (by decide +kernel)
  refine ⟨delta', hdelta', hops.trans ?_⟩
  decide +kernel

end Forest

end PageSync
