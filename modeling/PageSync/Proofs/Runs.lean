import PageSync.Proofs.Loading

/-!
# Runs

Between the passes over a tree its forest is edited, and the client of the tree is sent the operations
of every pass that succeeds. In all such runs the forest goes on to say the truth about the page that
the client shows (`Run.follows`). If the run starts with a page that was loaded and the passes go
over that page, every pass brings the client up to date and none fails but for its policy
(`Run.pass_root`).
-/

namespace PageSync

namespace Forest

variable {f g : Forest} {page shown : Node} {top n : NodeId} {differ : Differ}

/-- Whether a forest is one that starts with a page, the client of which shows it already. -/
inductive Begins : Forest → Node → Prop
  /-- An empty page. -/
  | new (tag : String) : Begins (.new tag) (.container ⟨0⟩ tag .empty [])
  /-- A page that is loaded. -/
  | load {f : Forest} {page : Node} (hload : ofPage page = .ok f) : Begins f page

lemma ofPage_empty (tag : String) :
    ofPage (.container ⟨0⟩ tag .empty []) = .ok (.new tag) := by
  simp [ofPage, loadShown, loadShown.loadAll, addShown, contains, get?, empty, new, bind, Except.bind]
  rfl

lemma Begins.presents (h : f.Begins page) : f.Presents page := by
  cases h with
  | new tag => exact presents_of_ofPage (ofPage_empty tag)
  | load hload => exact presents_of_ofPage hload

/-- Whether a forest is well-formed and says the truth about a page that is shown of one of its
trees. -/
structure Follows (f : Forest) (top : NodeId) (page : Node) : Prop where
  /-- The forest is well-formed. -/
  wellFormed : f.WellFormed
  /-- It remembers the page. -/
  remembers : f.view.Remembers page
  /-- The page is one of that tree. -/
  id_eq : page.id = top
  /-- The top of the tree is a node. -/
  contains_top : f.contains top
  /-- It is not shown under a parent. -/
  shownParent_top : f.view.shownParent top = none

namespace Follows

lemma contains (h : f.Follows top page) (hn : n ∈ page.ids) : f.contains n := by
  obtain ⟨m, hm, rfl⟩ := Node.mem_ids.1 hn
  rcases Node.exists_parent hm with rfl | ⟨p, hp, hmp⟩
  · rw [h.id_eq]
    exact h.contains_top
  · have hparent := h.remembers.shownParent_eq p hp m hmp
    by_contra hnot
    rw [View.shownParent, entry_of_get?_none (Option.not_isSome_iff_eq_none.1 hnot)] at hparent
    cases hparent

/-- Edits are recorded. -/
lemma steps (h : f.Follows top page) (hsteps : f.Steps g)
    (hdetached : top ≠ f.root → g.view.parent top = none) : g.Follows top page := by
  have hkeeps := hsteps.keeps
  have hwell := hsteps.wellFormed h.wellFormed
  have htop : g.view.parent top = none := by
    by_cases hroot : top = f.root
    · rw [hroot, ← hkeeps.root_eq]
      exact hwell.parent_root
    · exact hdetached hroot
  refine ⟨hwell, ?_, h.id_eq, hkeeps.contains h.contains_top, ?_⟩
  · exact {
      toIsForest := hwell.toIsForest
      nodup := h.remembers.nodup
      entry_matches := fun m hm => hkeeps.entry_matches
        (h.contains (Node.mem_ids.2 ⟨m, hm, rfl⟩)) (h.remembers.entry_matches m hm)
      shownParent_eq := fun m hm c hc => by
        rw [hkeeps.shownParent_eq]
        exact h.remembers.shownParent_eq m hm c hc
      parent_top := by rwa [h.id_eq]
      reaches := hwell.reaches }
  · rw [hkeeps.shownParent_eq]
    exact h.shownParent_top

lemma edits {es : List Edit} (h : f.Follows top page) (hallows : f.Allows top es) :
    (f.edits es).Follows top page := by
  induction es generalizing f with
  | nil => exact h
  | cons e es ih =>
    exact ih (h.steps (steps_edit h.wellFormed hallows.1) hallows.2.1) hallows.2.2

/-- A pass over a page that the forest follows succeeds, if its policy allows it and there are no
strays. -/
lemma exists_pass_ok (h : f.Follows top page) (hpolicy : differ.policy.check = .ok ())
    (hstrays : ¬ f.view.HasStrays page) (hheight : page.height ≤ differ.policy.depthLimit.toNat)
    (hdepth : ∀ n ∈ page.ids, f.view.depth n ≤ differ.policy.depthLimit.toNat) :
    ∃ delta, (Session.pass ⟨f, differ⟩ top).1 = .ok delta := by
  obtain ⟨delta, hdelta⟩ := Differ.pass_ok_of_depicts h.remembers.toDepicts
    (h.id_eq ▸ h.contains_top) hpolicy hstrays hheight hdepth
  rw [h.id_eq, ← fst_pass] at hdelta
  exact ⟨delta, hdelta⟩

/-- After a pass the forest follows the tree as it is then. -/
lemma settledBy (h : f.WellFormed) (hs : f.SettledBy top g) (htop : f.view.parent top = none)
    (hknown : f.contains top) : g.Follows top (g.view.describe top) where
  wellFormed := hs.wellFormed h
  remembers := hs.remembers h htop
  id_eq := (hs.wellFormed h).toIsForest.id_describe top
  contains_top := by rwa [contains_congr hs.now_eq]
  shownParent_top := by rw [(hs.isSettled (.inr (.refl top))).2, parent_congr hs.now_eq, htop]

end Follows

lemma Presents.follows (h : f.Presents page) : f.Follows f.root page := by
  have hforest := h.isForest
  have hremembers := hforest.remembers_describe h.parent_top (fun n _ => h.isSettled n)
    h.wellFormed.reaches
  rw [h.describe_eq] at hremembers
  exact ⟨h.wellFormed, hremembers, h.root_eq.symm, h.wellFormed.contains_root,
    h.wellFormed.shownParent_root⟩

lemma forest_of_pass_error {e : PassError} (hpass : (Session.pass ⟨f, differ⟩ top).1 = .error e) :
    (Session.pass ⟨f, differ⟩ top).2.forest = f := by
  rw [Session.pass] at hpass ⊢
  split at hpass
  · rfl
  · cases hpass

end Forest

open Forest

variable {f g : Forest} {page shown : Node} {top : NodeId}

/-- A run from a forest, with a page that the client of one of its trees shows, to another forest and
another page shown: edits, accepted or not, and passes over the tree, successful or not, under any
policies. The tree is not hung below another node, and there are identifiers for all new nodes. -/
inductive Run (top : NodeId) (f : Forest) (page : Node) : Forest → Node → Prop
  /-- Nothing has happened yet. -/
  | start : Run top f page f page
  /-- An edit comes next. -/
  | edit {g : Forest} {shown : Node} (hrun : Run top f page g shown) (e : Edit)
    (hroom : g.HasRoom e.size) (hdetached : top ≠ g.root → (g.edit e).view.parent top = none) :
    Run top f page (g.edit e) shown
  /-- A pass comes next that fails, so that nothing is sent. -/
  | failed {g : Forest} {shown : Node} (hrun : Run top f page g shown) (differ : Differ)
    {e : PassError} (hpass : (Session.pass ⟨g, differ⟩ top).1 = .error e) :
    Run top f page (Session.pass ⟨g, differ⟩ top).2.forest shown
  /-- A pass comes next that succeeds, and the client carries out its operations. -/
  | passed {g : Forest} {shown shown' : Node} (hrun : Run top f page g shown) (differ : Differ)
    {delta : Delta} (hpass : (Session.pass ⟨g, differ⟩ top).1 = .ok delta)
    (hclient : shown.applyAll? delta.operations = some shown') :
    Run top f page (Session.pass ⟨g, differ⟩ top).2.forest shown'

namespace Run

lemma edits {es : List Edit} (hrun : Run top f page g shown) (hallows : g.Allows top es) :
    Run top f page (g.edits es) shown := by
  induction es generalizing g with
  | nil => exact hrun
  | cons e es ih => exact ih (hrun.edit e hallows.1 hallows.2.1) hallows.2.2

/-- A pass over a page that the forest follows is accepted, and the forest follows the tree after it. -/
lemma follows_pass {differ : Differ} {delta : Delta} (h : f.Follows top page)
    (hpass : (Session.pass ⟨f, differ⟩ top).1 = .ok delta) :
    page.applyAll? delta.operations =
        some ((Session.pass ⟨f, differ⟩ top).2.forest.view.describe top) ∧
      (Session.pass ⟨f, differ⟩ top).2.forest.Follows top
        ((Session.pass ⟨f, differ⟩ top).2.forest.view.describe top) := by
  obtain ⟨hdelta, hs⟩ := settledBy_of_pass h.wellFormed.toIsForest hpass
  have hid := h.id_eq
  have htop := h.remembers.parent_top
  rw [h.id_eq] at htop
  refine ⟨?_, Follows.settledBy h.wellFormed hs htop h.contains_top⟩
  rw [← hid] at hdelta
  rw [Differ.accepted_of_remembers h.remembers hdelta, hid, describe_congr hs.now_eq]

/-- A pass over a page that the forest follows brings the client up to date. -/
lemma exists_accepted {differ : Differ} {delta : Delta} (h : f.Follows top page)
    (hpass : (Session.pass ⟨f, differ⟩ top).1 = .ok delta) :
    ∃ shown, page.applyAll? delta.operations = some shown ∧
      (Session.pass ⟨f, differ⟩ top).2.forest.describe top = .ok shown := by
  obtain ⟨haccepted, hafter⟩ := follows_pass h hpass
  refine ⟨_, haccepted, ?_⟩
  obtain ⟨i, -, hi⟩ := item_of_contains hafter.contains_top
  simp [Forest.describe, hi, bind, Except.bind, pure, Except.pure]

/-- In every run the forest follows the page that the client shows. -/
theorem follows (h : f.Follows top page) (hrun : Run top f page g shown) :
    g.Follows top shown := by
  induction hrun with
  | start => exact h
  | edit hrun e hroom hdetached ih => exact ih.steps (steps_edit ih.wellFormed hroom) hdetached
  | failed hrun differ hpass ih =>
    rw [forest_of_pass_error hpass]
    exact ih
  | passed hrun differ hpass hclient ih =>
    obtain ⟨haccepted, hfollows⟩ := follows_pass ih hpass
    rw [haccepted] at hclient
    exact Option.some.inj hclient ▸ hfollows

/-- In a run with passes over the page of the forest, no other nodes are recorded as shown on the page
than those that are. -/
lemma isExact (h : f.Follows f.root page) (hexact : f.view.IsExact page)
    (hrun : Run f.root f page g shown) : g.root = f.root ∧ g.view.IsExact shown := by
  induction hrun with
  | start => exact ⟨rfl, hexact⟩
  | @edit g shown hrun e hroom _ ih =>
    have hkeeps := (steps_edit (hrun.follows h).wellFormed hroom).keeps
    refine ⟨hkeeps.root_eq.trans ih.1, fun m hm n hn => ih.2 m hm n ?_⟩
    rwa [← hkeeps.shownParent_eq]
  | failed hrun differ hpass ih =>
    rw [forest_of_pass_error hpass]
    exact ih
  | @passed g shown shown' hrun differ delta hpass hclient ih =>
    have hfollows := hrun.follows h
    obtain ⟨haccepted, hafter⟩ := follows_pass hfollows hpass
    obtain ⟨-, hs⟩ := settledBy_of_pass hfollows.wellFormed.toIsForest hpass
    rw [haccepted] at hclient
    refine ⟨hs.root_eq.trans ih.1, Option.some.inj hclient ▸ ?_⟩
    exact hafter.wellFormed.toIsForest.isExact_describe _ fun n => hs.isSettled (.inl ih.1.symm)

/-- In a run that starts with a page, with passes over it, the forest follows the page that is shown and
its records are exact. -/
lemma follows_root (hbegins : f.Begins page) (hrun : Run f.root f page g shown) :
    g.Follows g.root shown ∧ g.view.IsExact shown := by
  have hpresents := hbegins.presents
  have hexact : f.view.IsExact page := by
    have hdescribe := hpresents.isForest.isExact_describe f.root hpresents.isSettled
    rwa [hpresents.root_eq, hpresents.describe_eq] at hdescribe
  obtain ⟨hroot, hexact⟩ := hrun.isExact hpresents.follows hexact
  exact ⟨hroot ▸ hrun.follows hpresents.follows, hexact⟩

end Run

/-- Whatever the edits and the passes over the page before, each pass over the page that succeeds sends
operations that a strict client accepts one by one, and the client shows the page then as the forest
describes it. Under a policy that can be followed a pass fails only if some node on the client's page is
deeper, there or where it is now, than the policy allows. -/
theorem Run.pass_root (hbegins : f.Begins page) (hrun : Run f.root f page g shown)
    (differ : Differ) :
    (∀ delta, (Session.pass ⟨g, differ⟩ g.root).1 = .ok delta →
      ∃ shown', shown.applyAll? delta.operations = some shown' ∧
        (Session.pass ⟨g, differ⟩ g.root).2.forest.describe g.root = .ok shown') ∧
    (differ.policy.check = .ok () → shown.height ≤ differ.policy.depthLimit.toNat →
      (∀ n ∈ shown.ids, g.view.depth n ≤ differ.policy.depthLimit.toNat) →
        ∃ delta, (Session.pass ⟨g, differ⟩ g.root).1 = .ok delta) := by
  obtain ⟨hfollows, hexact⟩ := hrun.follows_root hbegins
  constructor
  · intro delta hpass
    exact exists_accepted hfollows hpass
  · intro hpolicy hheight hdepth
    exact hfollows.exists_pass_ok hpolicy hexact.not_hasStrays hheight hdepth

/-- A page to which a first child was appended can be sent. -/
theorem Run.pass_appended :
    let g := (Forest.new "body").edits [.addLeaf "p", .append ⟨0⟩ ⟨1⟩]
    ∃ delta, (Session.pass ⟨g, {}⟩ g.root).1 = .ok delta ∧
      ∃ shown', (Node.container ⟨0⟩ "body" .empty []).applyAll? delta.operations = some shown' ∧
        (Session.pass ⟨g, {}⟩ g.root).2.forest.describe g.root = .ok shown' := by
  intro g
  have hallows : (Forest.new "body").Allows ⟨0⟩ [.addLeaf "p", .append ⟨0⟩ ⟨1⟩] := by
    decide +kernel
  have hrun : Run ⟨0⟩ (Forest.new "body") (.container ⟨0⟩ "body" .empty []) g
      (.container ⟨0⟩ "body" .empty []) := Run.start.edits hallows
  obtain ⟨haccepted, hok⟩ := Run.pass_root (.new "body") hrun {}
  obtain ⟨delta, hdelta⟩ := hok rfl (by decide) (by decide +kernel)
  exact ⟨delta, hdelta, haccepted delta hdelta⟩

end PageSync
