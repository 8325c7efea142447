import PageSync.Proofs.Cleaning

/-!
# The history since the last pass over the page

Records are filled in by the first change that makes it necessary, and where there is no record the
present state counts as the shown one. `Forest.Since s es f` says that the page of `f` was last passed
over when the forest was `s`, and that the single edits `es` have been made since then. In all such
histories the records say exactly what `s` was like, and which nodes got other attributes
(`Forest.Since.recalls`).
-/

namespace PageSync

/-- The node the attributes of which an edit is about. -/
def Edit.dressed? : Edit → Option NodeId
  | .setAttribute node _ _ | .eraseAttribute node _ => some node
  | _ => none

/-- Whether an edit is a single one, that is, no graft. -/
def Edit.IsSingle : Edit → Prop
  | .graft _ => False
  | _ => True

/-- How many nodes several edits make. -/
def Edit.sizes : List Edit → Nat
  | [] => 0
  | e :: es => e.size + sizes es

namespace Forest

variable {f g s : Forest} {n x container child : NodeId} {i : Item} {change : Item → Item}
  {dressing : Attributes → Attributes} {arrange : List NodeId → List NodeId} {up : Option NodeId}
  {index : Nat} {tag : String} {children : Option (List NodeId)} {e : Edit} {es es' : List Edit}

/-! ### Attributes -/

/-- The attributes of a node, and whether they are known to have changed. -/
def dress (f : Forest) (n : NodeId) : Attributes × Bool :=
  ((f.view.entry n).attributes, (f.view.entry n).attributesChanged)

lemma dress_update (hchange : ∀ i, (change i).attributes = i.attributes ∧
    (change i).record.attributesChanged = i.record.attributesChanged) :
    (f.update n change).dress = f.dress := by
  funext x
  rw [dress, dress]
  cases hi : f.get? n with
  | none => rw [entry_update_of_none hi]
  | some i =>
    by_cases hx : n = x
    · subst hx
      rw [entry_update hi, entry_of_get? hi, Item.entry, Item.entry, (hchange i).1, (hchange i).2]
    · rw [entry_update_of_ne hx]

@[simp] lemma dress_markAbove (f : Forest) (n : NodeId) : (f.markAbove n).dress = f.dress :=
  markAbove_induct (motive := fun g => g.dress = f.dress) rfl
    (fun _ _ h => (dress_update (by exact fun _ => ⟨rfl, rfl⟩)).trans h) n

lemma dress_relink : (f.relink n container arrange up).dress = f.dress := by
  rw [relink, dress_update (by exact fun _ => ⟨rfl, rfl⟩),
    dress_update (by exact fun _ => ⟨rfl, rfl⟩), recordChildren, dress_markAbove,
    dress_update (by exact fun _ => ⟨rfl, rfl⟩), recordParent,
    dress_update (by exact fun _ => ⟨rfl, rfl⟩)]

lemma dress_takeOut : (f.takeOut n).dress = f.dress := by
  cases hp : f.view.parent n with
  | none => rw [takeOut_of_top hp]
  | some p => rw [takeOut_of_parent hp, dress_relink]

lemma dress_move : (f.move container index child).dress = f.dress := by
  rw [move_eq, dress_relink, dress_takeOut]

/-- A new node has no attributes. -/
lemma dress_add (hnew : f.contains ⟨f.nextNumber⟩ = false) : (f.add tag children).2.dress = f.dress := by
  funext x
  by_cases hx : x = ⟨f.nextNumber⟩
  · rw [hx, dress, dress, entry_add_self,
      entry_of_get?_none (Option.not_isSome_iff_eq_none.1 (Bool.eq_false_iff.1 hnew))]
  · rw [dress, dress, entry_add_of_ne hx]

lemma dress_redress (hi : f.get? n = some i) : (f.redress n dressing).dress x =
    if x = n then (dressing i.attributes, true) else f.dress x := by
  rw [redress, recordAttributes, dress_markAbove, dress]
  split
  · next hx =>
    subst hx
    rw [entry_update (i := { i with attributes := dressing i.attributes })]
    · rfl
    · rw [get?_update, if_pos rfl, hi]
      rfl
  · next hx => rw [entry_update_of_ne (Ne.symm hx), entry_update_of_ne (Ne.symm hx), dress]

/-- Edits that are not about attributes leave those of all nodes as they are. -/
lemma dress_edit (hroom : f.HasRoom e.size) (hsingle : e.IsSingle) (hdressed : e.dressed? = none) :
    (f.edit e).dress = f.dress := by
  rw [edit]
  split
  · next g hg =>
    cases e with
    | addLeaf tag =>
      cases hg
      exact dress_add (hroom.not_contains (k := 0))
    | addContainer tag =>
      cases hg
      exact dress_add (hroom.not_contains (k := 0))
    | graft content => exact hsingle.elim
    | insert container index child =>
      obtain ⟨-, -, -, -, -, rfl⟩ := of_insert_eq_ok hg
      exact dress_move
    | append container child =>
      obtain ⟨index, hg⟩ := of_append_eq_ok hg
      obtain ⟨-, -, -, -, -, rfl⟩ := of_insert_eq_ok hg
      exact dress_move
    | remove node =>
      obtain ⟨-, rfl⟩ := of_remove_eq_ok hg
      exact dress_takeOut
    | setAttribute node name value => cases hdressed
    | eraseAttribute node name => cases hdressed
    | setReplacesChildren container value =>
      rw [of_setReplacesChildren_eq_ok hg]
      exact dress_update fun _ => ⟨rfl, rfl⟩
  · rfl

/-- An edit of a node's attributes leaves everything as it is or really changes them. -/
lemma edit_of_dressed? (hdressed : e.dressed? = some n) : f.edit e = f ∨
    ∃ i dressing, f.get? n = some i ∧ dressing i.attributes ≠ i.attributes ∧
      f.edit e = f.redress n dressing := by
  rw [edit]
  split
  · next g hg =>
    cases e with
    | setAttribute node name value =>
      cases hdressed
      obtain ⟨i, hi, ⟨-, rfl⟩ | ⟨hother, rfl⟩⟩ := of_setAttribute_eq_ok hg
      · exact .inl rfl
      · refine .inr ⟨i, _, hi, fun heq => hother ?_, rfl⟩
        rw [← heq, Attributes.get?_insert_self]
    | eraseAttribute node name =>
      cases hdressed
      obtain ⟨i, hi, ⟨-, rfl⟩ | ⟨hsome, rfl⟩⟩ := of_eraseAttribute_eq_ok hg
      · exact .inl rfl
      · refine .inr ⟨i, _, hi, fun heq => hsome ?_, rfl⟩
        rw [← heq, Attributes.get?_erase_self]
    | _ => cases hdressed
  · exact .inl rfl

/-- Whether one of several edits is about the attributes of a node and really changes them. -/
def Redressed (f : Forest) (n : NodeId) : List Edit → Prop
  | [] => False
  | e :: es =>
    (e.dressed? = some n ∧ ((f.edit e).view.entry n).attributes ≠ (f.view.entry n).attributes) ∨
      (f.edit e).Redressed n es

lemma Redressed.exists_dressed (h : f.Redressed n es) : ∃ e ∈ es, e.dressed? = some n := by
  induction es generalizing f with
  | nil => exact h.elim
  | cons e es ih =>
    rcases h with ⟨hdressed, -⟩ | h
    · exact ⟨e, List.mem_cons_self, hdressed⟩
    · obtain ⟨e', he', hdressed⟩ := ih h
      exact ⟨e', List.mem_cons_of_mem _ he', hdressed⟩

lemma redressed_append :
    f.Redressed n (es ++ es') ↔ f.Redressed n es ∨ (f.edits es).Redressed n es' := by
  induction es generalizing f with
  | nil => simp [Redressed]
  | cons e es ih => rw [List.cons_append, Redressed, Redressed, ih, edits_cons, or_assoc]

/-- Attributes are marked as changed exactly by an edit that really changes them. -/
lemma attributesChanged_edit (hroom : f.HasRoom e.size) (hsingle : e.IsSingle) :
    ((f.edit e).view.entry n).attributesChanged = true ↔
      (f.view.entry n).attributesChanged = true ∨ e.dressed? = some n ∧
        ((f.edit e).view.entry n).attributes ≠ (f.view.entry n).attributes := by
  have hchanged (g : Forest) : (g.view.entry n).attributesChanged = (g.dress n).2 := rfl
  have hattributes (g : Forest) : (g.view.entry n).attributes = (g.dress n).1 := rfl
  rw [hchanged, hchanged, hattributes, hattributes]
  cases hdressed : e.dressed? with
  | none => simp [dress_edit hroom hsingle hdressed]
  | some m =>
    rcases edit_of_dressed? (f := f) hdressed with heq | ⟨i, dressing, hi, hne, heq⟩
    · simp [heq]
    · rw [heq, dress_redress hi]
      by_cases hn : n = m
      · subst hn
        have hold : (f.dress n).1 = i.attributes := by
          rw [dress, entry_of_get? hi]
          rfl
        simp [hold, hne]
      · simp [hn, Ne.symm hn]

lemma attributesChanged_edits (h : f.Rooted) (hroom : f.HasRoom (Edit.sizes es))
    (hsingle : ∀ e ∈ es, e.IsSingle) :
    ((f.edits es).view.entry n).attributesChanged = true ↔
      (f.view.entry n).attributesChanged = true ∨ f.Redressed n es := by
  induction es generalizing f with
  | nil => simp [Redressed]
  | cons e es ih =>
    rw [Edit.sizes] at hroom
    have hroom' : f.HasRoom e.size :=
      ⟨(Nat.le_add_right _ _).trans hroom.1, fun i hi => hroom.2 i (Nat.lt_add_right _ hi)⟩
    rw [edits_cons, Redressed, ← or_assoc,
      ← attributesChanged_edit hroom' (hsingle e List.mem_cons_self)]
    exact ih ((h.steps_edit hroom').rooted h) (h.hasRoom_edit hroom)
      fun e he => hsingle e (List.mem_cons_of_mem _ he)

/-! ### Single edits -/

lemma sizes_append : Edit.sizes (es ++ es') = Edit.sizes es + Edit.sizes es' := by
  induction es with
  | nil => exact (Nat.zero_add _).symm
  | cons e es ih => rw [List.cons_append, Edit.sizes, Edit.sizes, ih, Nat.add_assoc]

lemma sizes_storing (n : NodeId) (entries : List (String × String)) :
    Edit.sizes (storing n entries) = 0 := by
  induction entries with
  | nil => rfl
  | cons entry rest ih => exact (Nat.zero_add _).trans ih

lemma dressed_storing {entries : List (String × String)} (he : e ∈ storing x entries)
    (hdressed : e.dressed? = some n) : n = x := by
  obtain ⟨entry, -, rfl⟩ := List.mem_map.1 he
  exact (Option.some.inj hdressed).symm

lemma isSingle_of_mem_storing {entries : List (String × String)} (he : e ∈ storing n entries) :
    e.IsSingle := by
  obtain ⟨entry, -, rfl⟩ := List.mem_map.1 he
  trivial

mutual

/-- The script of a subtree consists of single edits, which make as many nodes as it has. -/
theorem single_script (content : Node) (number : UInt32) :
    Edit.sizes (content.script number) = content.size ∧
      ∀ e ∈ content.script number, e.IsSingle := by
  match content with
  | .leaf _ tag attributes =>
    rw [Node.script, Node.size]
    constructor
    · exact congrArg (1 + ·) (sizes_storing _ _)
    · intro e he
      rcases List.mem_cons.1 he with rfl | he
      · trivial
      · exact isSingle_of_mem_storing he
  | .container _ tag attributes children =>
    obtain ⟨hsizes, hsingle⟩ := single_scripts children ⟨number⟩ (number + 1)
    rw [Node.script, Node.size, List.cons_append]
    constructor
    · have hrest := sizes_append.trans (congrArg₂ (· + ·) (sizes_storing ⟨number⟩ attributes.entries)
        hsizes)
      rw [Nat.zero_add] at hrest
      exact congrArg (1 + ·) hrest
    · intro e he
      rcases List.mem_cons.1 he with rfl | he
      · trivial
      · rcases List.mem_append.1 he with he | he
        · exact isSingle_of_mem_storing he
        · exact hsingle e he

theorem single_scripts (contents : List Node) (container : NodeId) (number : UInt32) :
    Edit.sizes (Node.script.scripts container contents number) = Node.size.sizes contents ∧
      ∀ e ∈ Node.script.scripts container contents number, e.IsSingle := by
  match contents with
  | [] => exact ⟨rfl, fun e he => absurd he List.not_mem_nil⟩
  | content :: rest =>
    obtain ⟨hsizes, hsingle⟩ := single_script content number
    obtain ⟨hsizes', hsingle'⟩ := single_scripts rest container (number + UInt32.ofNat content.size)
    rw [Node.script.scripts, Node.size.sizes]
    constructor
    · rw [sizes_append, hsizes, ← hsizes']
      exact congrArg (content.size + ·) (Nat.zero_add _)
    · intro e he
      rcases List.mem_append.1 he with he | he
      · exact hsingle e he
      · rcases List.mem_cons.1 he with rfl | he
        · trivial
        · exact hsingle' e he

end

/-- The single edits of an edit make as many nodes as it does. -/
lemma single_singles (f : Forest) (e : Edit) :
    Edit.sizes (e.singles f) = e.size ∧ ∀ e' ∈ e.singles f, e'.IsSingle := by
  cases e with
  | graft content => exact single_script content f.nextNumber
  | _ => simp [Edit.singles, Edit.sizes, Edit.IsSingle]

lemma singles_of_isSingle (hsingle : e.IsSingle) : e.singles f = [e] := by
  cases e with
  | graft => exact hsingle.elim
  | _ => rfl

mutual

/-- No attributes are stored by the script of a subtree but those of the new nodes. -/
theorem dressed_script (content : Node) (number : UInt32) (he : e ∈ content.script number)
    (hdressed : e.dressed? = some n) : ∃ k < content.size, n = ⟨number + UInt32.ofNat k⟩ := by
  match content with
  | .leaf _ tag attributes =>
    rw [Node.script] at he
    rcases List.mem_cons.1 he with rfl | he
    · cases hdressed
    · exact ⟨0, Nat.zero_lt_one, (dressed_storing he hdressed).trans (by simp)⟩
  | .container _ tag attributes children =>
    rw [Node.script, List.cons_append] at he
    rw [Node.size]
    rcases List.mem_cons.1 he with rfl | he
    · cases hdressed
    · rcases List.mem_append.1 he with he | he
      · exact ⟨0, by omega, (dressed_storing he hdressed).trans (by simp)⟩
      · obtain ⟨k, hk, rfl⟩ := dressed_scripts children ⟨number⟩ (number + 1) he hdressed
        refine ⟨1 + k, Nat.add_lt_add_left hk 1, ?_⟩
        rw [UInt32.ofNat_add, ← UInt32.add_assoc]
        rfl

theorem dressed_scripts (contents : List Node) (container : NodeId) (number : UInt32)
    (he : e ∈ Node.script.scripts container contents number) (hdressed : e.dressed? = some n) :
    ∃ k < Node.size.sizes contents, n = ⟨number + UInt32.ofNat k⟩ := by
  match contents with
  | [] => cases he
  | content :: rest =>
    rw [Node.script.scripts] at he
    rw [Node.size.sizes]
    rcases List.mem_append.1 he with he | he
    · obtain ⟨k, hk, rfl⟩ := dressed_script content number he hdressed
      exact ⟨k, Nat.lt_add_right _ hk, rfl⟩
    · rcases List.mem_cons.1 he with rfl | he
      · cases hdressed
      · obtain ⟨k, hk, rfl⟩ := dressed_scripts rest container _ he hdressed
        refine ⟨content.size + k, Nat.add_lt_add_left hk _, ?_⟩
        rw [UInt32.ofNat_add, ← UInt32.add_assoc]

end

/-- An edit leaves the attributes of the nodes alone that are there and that it is not about. -/
lemma attributesChanged_edit_of_contains (h : f.Rooted) (hroom : f.HasRoom e.size) (hn : f.contains n)
    (hdressed : e.dressed? ≠ some n) : ((f.edit e).view.entry n).attributesChanged =
      (f.view.entry n).attributesChanged := by
  obtain ⟨hsizes, hsingle⟩ := single_singles f e
  have hnot : ¬ f.Redressed n (e.singles f) := by
    intro hredressed
    obtain ⟨e', he', hdressed'⟩ := hredressed.exists_dressed
    cases e with
    | graft content =>
      obtain ⟨k, hk, rfl⟩ := dressed_script content f.nextNumber he' hdressed'
      rw [hroom.2 k hk] at hn
      cases hn
    | _ => exact hdressed (List.mem_singleton.1 he' ▸ hdressed')
  have hiff := attributesChanged_edits (n := n) h (hsizes ▸ hroom) hsingle
  rw [h.edits_singles hroom, or_iff_left hnot] at hiff
  exact Bool.eq_iff_iff.2 hiff

/-- Edits leave the attributes of the nodes alone that are there and that they are not about. -/
lemma attributesChanged_edits_of_contains {top : NodeId} (h : f.Rooted) (hallows : f.Allows top es)
    (hn : f.contains n) (hdressed : ∀ e ∈ es, e.dressed? ≠ some n) :
    ((f.edits es).view.entry n).attributesChanged = (f.view.entry n).attributesChanged := by
  induction es generalizing f with
  | nil => rfl
  | cons e es ih =>
    have hsteps := h.steps_edit hallows.1
    rw [edits_cons, ih (hsteps.rooted h) hallows.2.2 (hsteps.keeps.contains hn)
      fun e he => hdressed e (List.mem_cons_of_mem _ he)]
    exact attributesChanged_edit_of_contains h hallows.1 hn (hdressed e List.mem_cons_self)

/-! ### Histories -/

/-- Whether a forest `f` comes about from a page that its client shows, by edits and passes over the
page under any policies, such that `s` was the forest after the last pass that succeeded, or at the
beginning, and `es` are the single edits since then. -/
inductive Since : Forest → List Edit → Forest → Prop
  /-- Nothing has happened yet. -/
  | begins {f : Forest} {page : Node} (h : f.Begins page) : Since f [] f
  /-- An edit, accepted or not. -/
  | edit {s f : Forest} {es : List Edit} (h : Since s es f) (e : Edit) (hroom : f.HasRoom e.size) :
    Since s (es ++ e.singles f) (f.edit e)
  /-- A pass over the page that fails. -/
  | failed {s f : Forest} {es : List Edit} (h : Since s es f) (differ : Differ) {error : PassError}
    (hpass : (Session.pass ⟨f, differ⟩ f.root).1 = .error error) :
    Since s es (Session.pass ⟨f, differ⟩ f.root).2.forest
  /-- A pass over the page that succeeds. -/
  | passed {s f : Forest} {es : List Edit} (h : Since s es f) (differ : Differ) {delta : Delta}
    (hpass : (Session.pass ⟨f, differ⟩ f.root).1 = .ok delta) :
    Since (Session.pass ⟨f, differ⟩ f.root).2.forest [] (Session.pass ⟨f, differ⟩ f.root).2.forest

/-- What the records of a forest say about an earlier one, from which it came about by edits. -/
structure Recalls (s : Forest) (es : List Edit) (f : Forest) : Prop where
  /-- The edits lead from the one to the other. -/
  edits_eq : s.edits es = f
  /-- A node is recorded under the parent that it had. -/
  shownParent_eq : ∀ n, s.contains n → f.view.shownParent n = s.view.parent n
  /-- A container is recorded with the children that it had. -/
  shownChildList_eq : ∀ c, s.view.isContainer c →
    (f.view.entry c).shownChildList = s.view.children c
  /-- A node that is new is recorded without parent and children. -/
  new : ∀ n, s.contains n = false → f.view.shownParent n = none ∧ (f.view.entry n).shownChildList = []
  /-- A node is recorded as changed exactly if an edit really changed its attributes. -/
  attributesChanged_iff : ∀ n, (f.view.entry n).attributesChanged = true ↔ s.Redressed n es
  /-- Recorded parents and children mirror each other. -/
  shownParent_iff : ∀ n c, f.view.shownParent n = some c ↔ n ∈ (f.view.entry c).shownChildList
  /-- Recorded and present links agree. -/
  accords : ∀ c, f.view.Accords c

namespace Since

lemma edits {top : NodeId} (h : Since s es f) (hallows : f.Allows top es')
    (hsingle : ∀ e ∈ es', e.IsSingle) : Since s (es ++ es') (f.edits es') := by
  induction es' generalizing f es with
  | nil => rwa [List.append_nil]
  | cons e es' ih =>
    have hfirst := h.edit e hallows.1
    rw [singles_of_isSingle (hsingle e List.mem_cons_self)] at hfirst
    have hrest := ih hfirst hallows.2.2 fun e he => hsingle e (List.mem_cons_of_mem _ he)
    rwa [List.append_assoc] at hrest

/-- In a history a clean forest has been changed by steps. -/
lemma steps (h : Since s es f) :
    s.Rooted ∧ (∀ n, s.view.IsClean n) ∧ s.Steps f ∧ s.edits es = f := by
  induction h with
  | @begins f page h =>
    have hpresents := h.presents
    refine ⟨hpresents.wellFormed.rooted, fun n => isClean_of_record fun i hi => ?_, .refl, rfl⟩
    obtain ⟨m, hm, rfl⟩ := Node.mem_ids.1 (hpresents.mem_ids_of_get? hi)
    obtain ⟨j, hj, hshows⟩ := hpresents.item hm
    obtain rfl := Option.some.inj (hj.symm.trans hi)
    exact hshows.record_eq
  | @edit s f es h e hroom ih =>
    obtain ⟨hrooted, hclean, hsteps, hedits⟩ := ih
    have hrooted' := hsteps.rooted hrooted
    refine ⟨hrooted, hclean, hsteps.trans (hrooted'.steps_edit hroom), ?_⟩
    rw [edits_append, hedits, hrooted'.edits_singles hroom]
  | failed h differ hpass ih =>
    rw [forest_of_pass_error hpass]
    exact ih
  | @passed s f es h differ delta hpass ih =>
    obtain ⟨hrooted, -, hsteps, -⟩ := ih
    have hrooted' := hsteps.rooted hrooted
    obtain ⟨-, hs⟩ := settledBy_of_pass hrooted'.toIsForest hpass
    refine ⟨⟨isForest_congr hs.now_eq hrooted'.toIsForest, ?_, ?_⟩,
      fun n => hs.isClean (.inl rfl), .refl, rfl⟩
    · rw [hs.root_eq, contains_congr hs.now_eq]
      exact hrooted'.contains_root
    · rw [hs.root_eq, parent_congr hs.now_eq]
      exact hrooted'.parent_root

lemma attributesChanged_iff (h : Since s es f) (n : NodeId) :
    (f.view.entry n).attributesChanged = true ↔ s.Redressed n es := by
  induction h with
  | begins h =>
    have hclean := (Since.begins h).steps.2.1 n
    simp [hclean.attributesChanged_eq, Redressed]
  | @edit s f es h e hroom ih =>
    obtain ⟨hrooted, -, hsteps, hedits⟩ := h.steps
    have hrooted' := hsteps.rooted hrooted
    obtain ⟨hsizes, hsingle⟩ := single_singles f e
    rw [redressed_append, hedits, ← ih, ← hrooted'.edits_singles hroom]
    exact attributesChanged_edits hrooted' (hsizes ▸ hroom) hsingle
  | failed h differ hpass ih =>
    rw [forest_of_pass_error hpass]
    exact ih
  | passed h differ hpass =>
    have hclean := (h.passed differ hpass).steps.2.1 n
    simp [hclean.attributesChanged_eq, Redressed]

/-- However a forest comes about, its records say exactly what it was like after the last pass over the
page that succeeded. -/
theorem recalls (h : Since s es f) : s.Recalls es f := by
  obtain ⟨hrooted, hclean, hsteps, hedits⟩ := h.steps
  have hkeeps := hsteps.keeps
  have hparent (n : NodeId) : f.view.shownParent n = s.view.parent n :=
    (hkeeps.shownParent_eq n).trans (hclean n).shownParent_eq
  have hchildren (c : NodeId) : (f.view.entry c).shownChildList = s.view.children c := by
    rw [hkeeps.shownChildList_eq, Entry.shownChildList, (hclean c).shownChildren_eq]
    rfl
  have hmirror (n c : NodeId) :
      f.view.shownParent n = some c ↔ n ∈ (f.view.entry c).shownChildList := by
    rw [hparent, hchildren, hrooted.mem_children]
  refine ⟨hedits, fun n _ => hparent n, fun c _ => hchildren c, fun n hn => ?_,
    h.attributesChanged_iff, hmirror, fun c => ⟨fun n _ => (hmirror n c).1, fun n _ => ?_⟩⟩
  · have hentry := entry_of_get?_none (Option.not_isSome_iff_eq_none.1 (Bool.eq_false_iff.1 hn))
    rw [hparent, hchildren, View.parent, View.children, hentry]
    exact ⟨rfl, rfl⟩
  · exact ((hsteps.rooted hrooted).mem_children n c).2

/-- A list that has been sent is moved into another one, and gets an attribute. -/
theorem recalls_moved :
    let g := (new "body").edits [.addContainer "ul", .append ⟨0⟩ ⟨1⟩]
    let s := (Session.pass ⟨g, {}⟩ g.root).2.forest
    let es : List Edit := [.addContainer "ol", .append ⟨0⟩ ⟨2⟩, .append ⟨2⟩ ⟨1⟩,
      .setAttribute ⟨1⟩ "class" "wide"]
    s.Recalls es (s.edits es) ∧ (s.edits es).view.parent ⟨1⟩ = some ⟨2⟩ ∧
      (s.edits es).view.shownParent ⟨1⟩ = some ⟨0⟩ := by
  intro g s es
  have hg : Since (new "body") [.addContainer "ul", .append ⟨0⟩ ⟨1⟩] g :=
    (begins (.new "body")).edits (show (new "body").Allows ⟨0⟩ _ by decide +kernel)
      (by simp [Edit.IsSingle])
  obtain ⟨delta, hdelta⟩ : ∃ delta, (Session.pass ⟨g, {}⟩ g.root).1 = .ok delta :=
    exists_eq_ok (by decide +kernel)
  have hmoved : Since s es (s.edits es) :=
    (hg.passed {} hdelta).edits (show s.Allows ⟨0⟩ es by decide +kernel)
      (by simp [Edit.IsSingle])
  have hrecalls := hmoved.recalls
  refine ⟨hrecalls, by decide +kernel, ?_⟩
  rw [hrecalls.shownParent_eq ⟨1⟩ (by decide +kernel)]
  decide +kernel

end Since

end Forest

end PageSync
