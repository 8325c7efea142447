import PageSync.Proofs.Nesting

/-!
# Sheets are retained

While a pass looks at the children of a container, it writes on the sheet of the container and on new ones,
and whether a sheet says that its container is new does not change any more (`Pass.Proceeds`). No child
whose children are compared has a sheet by then, if the lists of the view agree with the parents
(`View.Paired`).

`Leads t I m m' s Q` is what is shown of the steps: a step `m` that is taken in a state `s` stops in a state
as `I` says, whether it fails or not; sheets are retained; and the step is as good as a variation `m'` of it
unless it stops in a state that comes after `t`. The variation is one that fails where the pass goes on at
some node.
-/

namespace PageSync

/-- Whether the children that a view lists, the current ones and the shown ones, are those that have the
container for their parent, and none of them is listed twice. -/
structure View.Paired (view : View) : Prop extends view.IsForest where
  /-- A node is among the children that are shown in its shown parent, and nowhere else. -/
  mem_shown : ∀ n c, n ∈ (view.entry c).shownChildList ↔ view.shownParent n = some c
  /-- No child is shown twice. -/
  nodup_shown : ∀ c, (view.entry c).shownChildList.Nodup

/-- Whether a failure says that a container which a pass comes to has a sheet already. -/
def PassError.IsRepeat : PassError → Prop
  | .inconsistent _ .sentAsWhole _ | .cyclic _ => True
  | _ => False

namespace Pass

variable {α β : Type} {pass : Pass} {t s₀ s s' s'' : Progress} {I J : Progress → Prop}
  {A B : NodeId → Prop} {m m' m'' : Walk α} {k k' : α → Walk β} {m₁ m₁' k₁ k₁' : Walk β}
  {Q Q' : α → Progress → Prop}
  {R : β → Progress → Prop} {a : α} {e : PassError} {into into' number levels : Nat} {c n x y : NodeId}
  {place : Place} {change : Sheet → Sheet} {change' : Ledger → Ledger}

/-! ### Sheets that are there -/

/-- The state in which a step stops, whether it fails or not. -/
def stop (m : Walk α) (s : Progress) : Progress :=
  match m.run s with
  | .ok _ s' => s'
  | .error _ s' => s'

lemma stop_of_ok (h : m.run s = .ok a s') : stop m s = s' := by rw [stop, h]

lemma stop_of_error (h : m.run s = .error e s') : stop m s = s' := by rw [stop, h]

/-- Whether containers that have sheets in a state have them in another one too, and are new there if they
were so before. -/
structure Retains (s s' : Progress) : Prop where
  /-- No sheet gets lost. -/
  next_le : s.ledger.next ≤ s'.ledger.next
  /-- Each container keeps its sheet. -/
  find?_of_some : ∀ c number, s.ledger.find? c = some number → s'.ledger.find? c = some number
  /-- Each sheet says the same of its container being new. -/
  isNew_eq : ∀ number < s.ledger.next, (s'.ledger.sheet number).isNew = (s.ledger.sheet number).isNew

namespace Retains

lemma refl (s : Progress) : Retains s s := ⟨Nat.le_refl _, fun _ _ => id, fun _ _ => rfl⟩

lemma trans (h : Retains s s') (h' : Retains s' s'') : Retains s s'' where
  next_le := h.next_le.trans h'.next_le
  find?_of_some c number hc := h'.find?_of_some c number (h.find?_of_some c number hc)
  isNew_eq number hlt := (h'.isNew_eq number (hlt.trans_le h.next_le)).trans (h.isNew_eq number hlt)

end Retains

/-- Whether no sheet of a new container is hung up. -/
def HangsNoNew (ledger : Ledger) : Prop :=
  ∀ k n, ledger.Nests k n → n < ledger.next ∧ (ledger.sheet n).isNew = false

lemma hangsNoNew_start : HangsNoNew .start := by
  intro k n hn
  have hlt := Ledger.isNested_start.lt k n hn
  have hnext : n < 1 := Ledger.isNested_start.lt_next k n hn
  omega

/-- Whether a pass comes from one state to another by writing on one of the sheets and on new ones, and by
making entries about the nodes `A` alone, while sheets retain what they say about new containers. -/
structure Proceeds (A : NodeId → Prop) (into : Nat) (s s' : Progress) : Prop
    extends Confined A into s s' where
  /-- No sheet says anything else of its container being new. -/
  retains : Retains s s'
  /-- No sheet of a new container gets hung up. -/
  hangsNoNew : HangsNoNew s.ledger → HangsNoNew s'.ledger

namespace Proceeds

lemma refl (s : Progress) : Proceeds A into s s := ⟨.refl s, .refl s, id⟩

lemma mono (h : Proceeds A into s s') (hAB : ∀ y, A y → B y) : Proceeds B into s s' :=
  ⟨h.toConfined.mono hAB, h.retains, h.hangsNoNew⟩

/-- First one sheet, then the same or a new one. -/
lemma trans (h : Proceeds A into s s') (h' : Proceeds A into' s' s'')
    (hinto : into' = into ∨ s.ledger.next ≤ into') : Proceeds A into s s'' where
  toConfined := h.toConfined.trans h'.toConfined hinto
  retains := h.retains.trans h'.retains
  hangsNoNew := h'.hangsNoNew ∘ h.hangsNoNew

/-- What is noted in the tables doesn't concern sheets. -/
lemma of_confined (h : Confined A into s s') (hledger : s'.ledger = s.ledger) :
    Proceeds A into s s' := by
  refine ⟨h, ⟨h.next_le, fun _ _ hc => ?_, fun _ _ => ?_⟩, fun hs => ?_⟩
  · rwa [hledger]
  · rw [hledger]
  · rwa [hledger]

/-- A sheet may be changed if it says the same of its container and no sheet of a new one is hung up. -/
lemma noteOn (hnew : ∀ sheet, (change sheet).isNew = sheet.isNew)
    (hnested : ∀ n ∈ (change (s.ledger.sheet into)).nested, n ∈ (s.ledger.sheet into).nested ∨
      n < s.ledger.next ∧ (s.ledger.sheet n).isNew = false) :
    Proceeds A into s { s with ledger := s.ledger.update into change } := by
  have hisNew (number : Nat) : ((s.ledger.update into change).sheet number).isNew =
      (s.ledger.sheet number).isNew := by
    rcases s.ledger.sheet_update_or into number change with heq | ⟨rfl, heq⟩
    · rw [heq]
    · rw [heq, hnew]
  refine ⟨.noteOn, ⟨Confined.noteOn.next_le (A := A), fun _ _ => id, fun number _ => hisNew number⟩, ?_⟩
  intro hs k n hn
  rw [hisNew, Ledger.next_update]
  dsimp only at hn
  rcases s.ledger.sheet_update_or into k change with heq | ⟨rfl, heq⟩
  · rw [Ledger.Nests, heq] at hn
    exact hs k n hn
  · rw [Ledger.Nests, heq] at hn
    exact (hnested n hn).elim (hs k n) id

/-- Entries about nodes may be made on a sheet. -/
lemma entry (hentry : IsEntry change) :
    Proceeds A into s { s with ledger := s.ledger.update into change } :=
  noteOn hentry.isNew_eq fun _ hn => .inl (hentry.nested_eq _ ▸ hn)

/-- A sheet may be opened for a container that has none. -/
lemma openSheet (hc : A c) (hnone : s.ledger.find? c = none)
    (hblank : (change { container := some c }).nested = []) :
    Proceeds A into s { s with ledger := (s.ledger.openSheet c).update s.ledger.next change } := by
  have hlt : s.ledger.next < (s.ledger.openSheet c).next := by
    rw [Ledger.next_openSheet]
    exact Nat.lt_succ_self _
  have hconfined : Confined A s.ledger.next s
      { s with ledger := (s.ledger.openSheet c).update s.ledger.next change } :=
    (Confined.openSheet hc).trans .noteOn (.inl rfl)
  have hsheet (k : Nat) (hk : k < s.ledger.next) :
      ((s.ledger.openSheet c).update s.ledger.next change).sheet k = s.ledger.sheet k :=
    hconfined.sheet_eq k hk hk.ne
  refine ⟨(Confined.refl s).trans hconfined (.inr (Nat.le_refl _)), ⟨hconfined.next_le, ?_, ?_⟩, ?_⟩
  · intro d number hd
    dsimp only
    rw [Ledger.find?_update, Ledger.find?_openSheet, if_neg, hd]
    rintro rfl
    rw [hnone] at hd
    cases hd
  · intro number hnumber
    dsimp only
    rw [hsheet number hnumber]
  · intro hs k n hn
    dsimp only at hn ⊢
    have hnests : s.ledger.Nests k n := by
      rw [Ledger.Nests, Ledger.sheet_update _ _ _ _ hlt] at hn
      split at hn
      · rw [Ledger.sheet_openSheet, if_pos rfl, hblank] at hn
        cases hn
      · next hne => rwa [Ledger.sheet_openSheet, if_neg (Ne.symm hne)] at hn
    obtain ⟨hltn, hnew⟩ := hs k n hnests
    rw [hsheet n hltn]
    exact ⟨hltn.trans_le hconfined.next_le, hnew⟩

end Proceeds

/-! ### Steps and their variations -/

/-- Whether a step that is taken in a state stops in a state of one kind, whether it fails or not, and does
not fail because a container has a sheet already, while sheets retain what they say; and whether a variation
of the step ends in the same way, unless the step stops in a state that comes after a given one. -/
structure Leads (t : Progress) (I : Progress → Prop) (m m' : Walk α) (s : Progress)
    (Q : α → Progress → Prop) : Prop where
  /-- How the step goes on. -/
  of_ok : ∀ a s', m.run s = .ok a s' → I s' ∧ Retains s s' ∧ Q a s'
  /-- How the step fails. -/
  of_error : ∀ e s', m.run s = .error e s' → I s' ∧ Retains s s' ∧ ¬ e.IsRepeat
  /-- Where the variation matters. -/
  same_or : m'.run s = m.run s ∨ Retains t (stop m s)

namespace Leads

lemma stops (h : Leads t I m m' s Q) : I (stop m s) ∧ Retains s (stop m s) := by
  cases hrun : m.run s with
  | ok a s' =>
    rw [stop_of_ok hrun]
    exact ⟨(h.of_ok a s' hrun).1, (h.of_ok a s' hrun).2.1⟩
  | error e s' =>
    rw [stop_of_error hrun]
    exact ⟨(h.of_error e s' hrun).1, (h.of_error e s' hrun).2.1⟩

lemma mono (h : Leads t I m m' s Q) (hI : ∀ s', I s' → J s') (hQ : ∀ a s', I s' → Q a s' → Q' a s') :
    Leads t J m m' s Q' where
  of_ok a s' hrun := by
    obtain ⟨hs', hretains, hq⟩ := h.of_ok a s' hrun
    exact ⟨hI s' hs', hretains, hQ a s' hs' hq⟩
  of_error e s' hrun := (h.of_error e s' hrun).imp_left (hI s')
  same_or := h.same_or

lemma weaken (h : Leads t I m m' s Q) : Leads t I m m' s fun _ _ => True :=
  h.mono (fun _ => id) fun _ _ _ _ => trivial

/-- A step of which there is no variation, and which doesn't fail. -/
lemma of_yields (h : Yields m s (fun a s' => I s' ∧ Retains s s' ∧ Q a s') fun _ => False) :
    Leads t I m m s Q where
  of_ok _ _ hrun := h.of_run hrun
  of_error _ _ hrun := (h.of_run_error hrun).elim
  same_or := .inl rfl

/-- A step that fails at once. -/
lemma of_error_self (hI : I s) (hrun : m.run s = .error e s) (he : ¬ e.IsRepeat) :
    Leads t I m m s Q where
  of_ok a s' hok := by
    rw [hrun] at hok
    cases hok
  of_error e' s' herror := by
    rw [hrun] at herror
    cases herror
    exact ⟨hI, .refl s, he⟩
  same_or := .inl rfl

/-- A step of which there is no variation, and of which it is known how it goes on. -/
lemma of_run (hrun : m.run s = .ok a s') (hI : I s') (hretains : Retains s s') :
    Leads t I m m s fun b s'' => a = b ∧ s' = s'' := by
  apply of_yields
  rw [Yields, hrun]
  exact ⟨hI, hretains, rfl, rfl⟩

lemma pure (hI : I s) (hQ : Q a s) : Leads t I (pure a) (pure a) s Q :=
  of_yields ⟨hI, .refl s, hQ⟩

lemma ite {p : Prop} [Decidable p] {m₁ m₁' : Walk α} (htrue : p → Leads t I m m' s Q)
    (hfalse : ¬ p → Leads t I m₁ m₁' s Q) :
    Leads t I (if p then m else m₁) (if p then m' else m₁') s Q := by
  split
  · next hp => exact htrue hp
  · next hp => exact hfalse hp

lemma contradict (hI : I s) {reason : Inconsistency} (hreason : reason ≠ .sentAsWhole) :
    Leads t I (pass.contradict c reason : Walk α) (pass.contradict c reason) s Q := by
  apply of_error_self hI rfl
  intro he
  cases reason with
  | sentAsWhole => exact hreason rfl
  | _ => exact he

/-- What is shown of a step is shown of one that goes the same way. -/
lemma of_run_eq (h : Leads t I k₁ k₁' s' R) (hretains : Retains s s')
    (hrun : m₁.run s = k₁.run s') (hrun' : m₁'.run s = k₁'.run s') : Leads t I m₁ m₁' s R where
  of_ok b s'' hm := (h.of_ok b s'' (hrun ▸ hm)).imp_right (And.imp_left hretains.trans)
  of_error e s'' hm := (h.of_error e s'' (hrun ▸ hm)).imp_right (And.imp_left hretains.trans)
  same_or := by
    rw [stop, hrun, hrun']
    exact h.same_or

/-- Another variation may be put in the place of one. -/
lemma vary (h : Leads t I m m' s Q) (hsame : m''.run s = m'.run s ∨ Retains t (stop m s)) :
    Leads t I m m'' s Q where
  of_ok := h.of_ok
  of_error := h.of_error
  same_or := hsame.elim (fun heq => h.same_or.imp_left heq.trans) .inr

/-- A step after another one. -/
lemma bind (hm : Leads t I m m' s Q)
    (hk : ∀ a s', I s' → Retains s s' → Q a s' → Leads t I (k a) (k' a) s' R) :
    Leads t I (m >>= k) (m' >>= k') s R := by
  cases hrun : m.run s with
  | ok a s₁ =>
    obtain ⟨hI, hretains, hQ⟩ := hm.of_ok a s₁ hrun
    have hnext := hk a s₁ hI hretains hQ
    have hleads : Leads t I (m >>= k) (m >>= k') s R :=
      hnext.of_run_eq hretains (by rw [run_bind, hrun]) (by rw [run_bind, hrun])
    rcases hm.same_or with heq | hafter
    · exact hleads.vary (.inl (by rw [run_bind, run_bind, heq]))
    · have hstop : stop (m >>= k) s = stop (k a) s₁ := by rw [stop, run_bind, hrun, stop]
      rw [stop_of_ok hrun] at hafter
      exact hleads.vary (.inr (hstop ▸ hafter.trans hnext.stops.2))
  | error e s₁ =>
    have hrun₁ : (m >>= k).run s = .error e s₁ := by rw [run_bind, hrun]
    constructor
    · intro b s' hb
      rw [hrun₁] at hb
      cases hb
    · intro e' s' he
      rw [hrun₁] at he
      cases he
      exact hm.of_error e s₁ hrun
    · rw [stop_of_error hrun₁, hrun₁, run_bind]
      rcases hm.same_or with heq | hafter
      · rw [heq, hrun]
        exact .inl rfl
      · rw [stop_of_error hrun] at hafter
        exact .inr hafter

/-- A step after one of which it is known how it goes on. -/
lemma bind_of_run (hrun : m.run s = .ok a s') (hI : I s') (hretains : Retains s s')
    (hk : Leads t I (k a) (k' a) s' R) : Leads t I (m >>= k) (m >>= k') s R := by
  apply (of_run hrun hI hretains).bind
  rintro _ _ - - ⟨rfl, rfl⟩
  exact hk

/-- A last step of which it is known how it goes on. -/
lemma last (hrun : m.run s = .ok a s') (hI : I s') (hretains : Retains s s') :
    Leads t I m m s fun _ _ => True :=
  (of_run hrun hI hretains).weaken

/-- Several steps one after the other. -/
lemma forM {γ : Type} {step step' : γ → Walk Unit} {P : List γ → Progress → Prop}
    (hstep : ∀ x rest s, I s → P (x :: rest) s → Leads t I (step x) (step' x) s fun _ => P rest)
    (todo : List γ) (hI : I s) (hP : P todo s) :
    Leads t I (todo.forM step) (todo.forM step') s fun _ => P [] := by
  induction todo generalizing s with
  | nil => exact .pure hI hP
  | cons x rest ih =>
    simp only [List.forM_eq_forM, List.forM_cons] at ih ⊢
    exact (hstep x rest s hI hP).bind fun _ s' hI' _ hP' => ih hI' hP'

end Leads

/-! ### Single nodes -/

lemma leads_placeOf (hI : I s) :
    Leads t I (placeOf x) (placeOf x) s fun _ s' => s = s' := by
  refine Leads.bind_of_run rfl hI (.refl s) ?_
  cases s.tables.places[x]? with
  | none => exact .of_error_self hI rfl id
  | some place => exact .pure hI rfl

/-- A node without a sheet may be marked as new. -/
lemma yields_markNew_proceeds (into : Nat) (hx : A x) (hnone : s.ledger.find? x = none) :
    Yields (pass.markNew x) s (fun _ s' => Proceeds A into s s' ∧ s'.tables = s.tables) fun _ => False := by
  rw [markNew, yields_ite]
  constructor
  · intro _
    rw [yields_note, Ledger.markNew, hnone]
    exact ⟨.openSheet hx hnone rfl, rfl⟩
  · exact fun _ => ⟨.refl s, rfl⟩

/-- A child without a sheet may be moved. -/
lemma leads_moveChild (hI : ∀ s', Proceeds (· = x) number s s' → I s') (hnone : s.ledger.find? x = none) :
    Leads t I (pass.moveChild number x) (pass.moveChild number x) s
      fun _ s' => Proceeds (· = x) number s s' ∧ s'.tables.moved.contains x = true := by
  apply (leads_placeOf (hI s (.refl s))).bind
  rintro place _ - - rfl
  apply Leads.of_yields
  rw [yields_bind, yields_setMoved, yields_bind]
  set s₁ : Progress := { s with tables := { s.tables with moved := s.tables.moved.insert x } } with hs₁
  have hmoved : Proceeds (· = x) number s s₁ := .of_confined (.setMoved rfl) rfl
  have hnone₁ : s₁.ledger.find? x = none := hnone
  apply (yields_markNew_proceeds (A := (· = x)) number rfl hnone₁).mono
  rintro _ s₂ ⟨hs₂, htables⟩
  rw [yields_noteOn]
  have hnoted : Proceeds (· = x) number s₂ { s₂ with
      ledger := s₂.ledger.update number fun sheet => (sheet.remove x).insert place.target x } :=
    .entry ((isEntry_remove x).comp (isEntry_insert _ x))
  have hall := (hmoved.trans hs₂ (.inl rfl)).trans hnoted (.inl rfl)
  refine ⟨hI _ hall, hall.retains, hall, ?_⟩
  rw [htables, hs₁]
  simp

/-! ### Children -/

/-- Where a child stands doesn't concern what has happened to nodes. -/
lemma Fresh.setPlace (h : pass.Fresh s y) : pass.Fresh { s with
    tables := { s.tables with places := s.tables.places.insert x place } } y :=
  fun z hz => ⟨(h z hz).find?_eq, (h z hz).moved_eq, (h z hz).finished⟩

/-- When the shown children that have stayed are counted, all nodes stay fresh. -/
lemma leads_countStayed {nodes : List NodeId} (hI : I s)
    (hplace : ∀ s' x place, x ∈ nodes → I s' → I { s' with
      tables := { s'.tables with places := s'.tables.places.insert x place } }) (old : Nat) :
    Leads t I (pass.countStayed c old nodes) (pass.countStayed c old nodes) s
      fun _ s' => ∀ y, pass.Fresh s y → pass.Fresh s' y := by
  induction nodes generalizing old s with
  | nil => exact .pure hI fun _ => id
  | cons x rest ih =>
    rw [countStayed]
    refine Leads.bind_of_run rfl hI (.refl s) ?_
    cases s.tables.places[x]? with
    | none => exact .contradict hI (by simp)
    | some place =>
      have hretains : Retains s { s with
          tables := { s.tables with places := s.tables.places.insert x { place with old } } } :=
        ⟨Nat.le_refl _, fun _ _ => id, fun _ _ => rfl⟩
      have hI' := hplace s x { place with old } List.mem_cons_self hI
      refine Leads.bind_of_run rfl hI' hretains ?_
      have hrest := ih hI' (fun s' y place hy => hplace s' y place (List.mem_cons_of_mem x hy)) (old + 1)
      exact hrest.mono (fun _ => id) fun _ s' _ hs' y hy => hs' y hy.setPlace

/-- The shown children of a container that have stayed, and the current ones that were shown before, as far
as they have not been looked at: those that have not been moved are fresh. -/
structure Facing (pass : Pass) (c : NodeId) (nodes others : List NodeId) (s : Progress) : Prop where
  /-- No shown child comes twice. -/
  nodup_nodes : nodes.Nodup
  /-- No current child comes twice. -/
  nodup_others : others.Nodup
  /-- They are children of the container. -/
  parent_eq : ∀ x, x ∈ nodes ∨ x ∈ others → pass.view.parent x = some c
  /-- Nothing has happened to them unless they were moved. -/
  fresh : ∀ x, x ∈ nodes ∨ x ∈ others → s.tables.moved.contains x = false → pass.Fresh s x

lemma Facing.of_sublist {nodes nodes' others others' : List NodeId} (hf : pass.Facing c nodes others s)
    (hnodes : nodes'.Sublist nodes) (hothers : others'.Sublist others) :
    pass.Facing c nodes' others' s where
  nodup_nodes := hf.nodup_nodes.sublist hnodes
  nodup_others := hf.nodup_others.sublist hothers
  parent_eq x hx := hf.parent_eq x (hx.imp (hnodes.subset ·) (hothers.subset ·))
  fresh x hx := hf.fresh x (hx.imp (hnodes.subset ·) (hothers.subset ·))

/-- Whether walks at the children of a node, and variations of them, lead to states in which nothing is
written but on the given sheet and new ones, and no entries are made but below the child. -/
def Serves (pass : Pass) (t : Progress) (n : NodeId) (descend descend' : Nat → NodeId → Walk Unit) :
    Prop :=
  ∀ into x s, pass.view.parent x = some n → into < s.ledger.next → pass.Fresh s x →
    Leads t (Proceeds (Covers pass.view.parent x) into s) (descend into x) (descend' into x) s
      fun _ _ => True

section Paired

variable (h : pass.view.Paired)

include h

/-- What happens at one child leaves the others fresh. -/
lemma Proceeds.fresh_sibling (hs : Proceeds (Covers pass.view.parent x) into s s')
    (hx : pass.view.parent x = some c) (hy : pass.view.parent y = some c) (hne : x ≠ y)
    (hfresh : pass.Fresh s y) : pass.Fresh s' y :=
  hfresh.confined hs.toConfined fun _ hyz hxz => h.acyclic.not_covers_both hx hy hne hxz hyz

/-- When the current children are taken in, those that were shown before stay fresh. -/
lemma yields_takeIn_proceeds {nodes : List NodeId} (hparent : ∀ x ∈ nodes, pass.view.parent x = some c)
    (hnodup : nodes.Nodup) (hfresh : ∀ x ∈ nodes, pass.Fresh s x) (target new : Nat) :
    Yields (pass.takeIn number c target new nodes) s
      (fun before s' => Proceeds (Covers pass.view.parent c) number s s' ∧
        before = nodes.filter (fun x => pass.view.shownParent x = some c) ∧
        ∀ y, pass.view.parent y = some c → pass.Fresh s y →
          (y ∈ nodes → pass.view.shownParent y = some c) → pass.Fresh s' y)
      fun _ => False := by
  induction nodes generalizing target new s with
  | nil => exact ⟨.refl s, rfl, fun _ _ hy _ => hy⟩
  | cons x rest ih =>
    have hx := hparent x List.mem_cons_self
    have hrest := fun y hy => hparent y (List.mem_cons_of_mem x hy)
    obtain ⟨hnot, hnodup⟩ := List.nodup_cons.1 hnodup
    rw [takeIn, yields_ite]
    constructor
    · intro hshown
      rw [yields_bind, yields_setPlace, yields_bind]
      have hplace : Proceeds (Covers pass.view.parent c) number s { s with tables := { s.tables with
          places := s.tables.places.insert x { old := 0, new, target } } } :=
        .of_confined (.setPlace (.of_parent hx)) rfl
      refine Yields.mono (ih hrest hnodup (fun y hy => ?_) _ _) ?_
      · exact (hfresh y (List.mem_cons_of_mem x hy)).setPlace
      · rintro before s' ⟨hs', rfl, hkept⟩
        refine ⟨hplace.trans hs' (.inl rfl), by simp [hshown], fun y hy hyfresh hyshown => ?_⟩
        exact hkept y hy hyfresh.setPlace fun hmem => hyshown (List.mem_cons_of_mem x hmem)
    · intro hshown
      rw [yields_bind]
      apply (yields_markNew_proceeds (A := (· = x)) number rfl
        (hfresh x List.mem_cons_self).self.find?_eq).mono
      rintro _ s₁ ⟨hs₁, -⟩
      rw [yields_bind, yields_noteOn]
      have hnoted : Proceeds (· = x) number s₁
          { s₁ with ledger := s₁.ledger.update number (·.insert target x) } :=
        .entry (isEntry_insert target x)
      have hone := (hs₁.trans hnoted (.inl rfl)).mono (B := Covers pass.view.parent x)
        fun y heq => heq ▸ .refl _
      have hsibling (y : NodeId) (hy : pass.view.parent y = some c) (hne : x ≠ y)
          (hyfresh : pass.Fresh s y) := hone.fresh_sibling h hx hy hne hyfresh
      refine Yields.mono (ih hrest hnodup (fun y hy => ?_) _ _) ?_
      · exact hsibling y (hrest y hy) (fun heq => hnot (heq ▸ hy))
          (hfresh y (List.mem_cons_of_mem x hy))
      · rintro before s' ⟨hs', rfl, hkept⟩
        refine ⟨(hone.mono fun _ hxy => .trans (.of_parent hx) hxy).trans hs' (.inl rfl),
          by simp [hshown], fun y hy hyfresh hyshown => ?_⟩
        have hne : x ≠ y := fun heq => hshown (heq ▸ hyshown (heq ▸ List.mem_cons_self))
        exact hkept y hy (hsibling y hy hne hyfresh) fun hmem => hyshown (List.mem_cons_of_mem x hmem)

/-- What happens at one child leaves the lists of children as they should be, if that child is not on
them any more or has been moved. -/
lemma Facing.later {nodes others : List NodeId} (hf : pass.Facing c nodes others s)
    (hs : Proceeds (Covers pass.view.parent x) number s s') (hx : pass.view.parent x = some c)
    (hdone : x ∈ nodes ∨ x ∈ others → s'.tables.moved.contains x = true) :
    pass.Facing c nodes others s' where
  nodup_nodes := hf.nodup_nodes
  nodup_others := hf.nodup_others
  parent_eq := hf.parent_eq
  fresh y hy hunmoved := by
    have hne : x ≠ y := by
      rintro rfl
      rw [hdone hy] at hunmoved
      cases hunmoved
    have hyc := hf.parent_eq y hy
    rw [hs.moved_eq y fun hxy => h.acyclic.not_covers_both hx hyc hne hxy (.refl y)] at hunmoved
    exact hs.fresh_sibling h hx hyc hne (hf.fresh y hy hunmoved)

/-- A child that has not been moved may be moved. -/
lemma Facing.leads_moveChild {nodes others : List NodeId} (hf : pass.Facing c nodes others s)
    (hs : Proceeds (Covers pass.view.parent c) number s₀ s) (hmem : x ∈ nodes ∨ x ∈ others)
    (hunmoved : s.tables.moved.contains x = false) :
    Leads t (Proceeds (Covers pass.view.parent c) number s₀) (pass.moveChild number x)
      (pass.moveChild number x) s
      fun _ s' => Proceeds (· = x) number s s' ∧ pass.Facing c nodes others s' := by
  have hx := hf.parent_eq x hmem
  have hcovers (y : NodeId) (hy : y = x) : Covers pass.view.parent c y := hy ▸ .of_parent hx
  have hbelow (y : NodeId) (hy : y = x) : Covers pass.view.parent x y := hy ▸ .refl _
  refine (Pass.leads_moveChild (fun s' hs' => hs.trans (hs'.mono hcovers) (.inl rfl))
    (hf.fresh x hmem hunmoved).self.find?_eq).mono (fun _ => id) ?_
  rintro _ s' - ⟨hs', hmoved⟩
  exact ⟨hs', hf.later h (hs'.mono hbelow) hx fun _ => hmoved⟩

section Serves

variable {descend descend' : Nat → NodeId → Walk Unit} (hserves : pass.Serves t c descend descend')
  (hnumber : number < s₀.ledger.next)

include hserves hnumber

omit h in
/-- A walk at a child is part of the walk at the container. -/
lemma Serves.leads_child (hs : Proceeds (Covers pass.view.parent c) number s₀ s)
    (hx : pass.view.parent x = some c) (hfresh : pass.Fresh s x) :
    Leads t (Proceeds (Covers pass.view.parent c) number s₀) (descend number x) (descend' number x) s
      fun _ s' => Proceeds (Covers pass.view.parent x) number s s' :=
  (hserves number x s hx (hnumber.trans_le hs.next_le) hfresh).mono
    (fun _ hs' => hs.trans (hs'.mono fun _ hxy => .trans (.of_parent hx) hxy) (.inl rfl))
    fun _ _ hs' _ => hs'

/-- A shown child that has not been moved stays, is moved, or has no counterpart. -/
lemma leads_alignChild {nodes others : List NodeId}
    {next next' : Nat → List NodeId → Walk (List NodeId)} {Q : List NodeId → Progress → Prop}
    (hnext : ∀ new others s, Proceeds (Covers pass.view.parent c) number s₀ s →
      pass.Facing c nodes others s →
      Leads t (Proceeds (Covers pass.view.parent c) number s₀) (next new others) (next' new others) s Q)
    (hs : Proceeds (Covers pass.view.parent c) number s₀ s)
    (hfacing : pass.Facing c (x :: nodes) others s) (hunmoved : s.tables.moved.contains x = false)
    (old new : Nat) :
    Leads t (Proceeds (Covers pass.view.parent c) number s₀)
      (pass.alignChild (descend number) number c x old next new others)
      (pass.alignChild (descend' number) number c x old next' new others) s Q := by
  have hx := hfacing.parent_eq x (.inl List.mem_cons_self)
  have hnodes : nodes.Sublist (x :: nodes) := List.sublist_cons_self x nodes
  induction others generalizing s new with
  | nil =>
    rw [alignChild, alignChild]
    exact .contradict hs (by simp)
  | cons y others ih =>
    rw [alignChild, alignChild]
    have hothers : others.Sublist (y :: others) := List.sublist_cons_self y others
    refine Leads.bind_of_run rfl hs (.refl s) ?_
    apply Leads.ite
    · exact fun _ => ih hs (hfacing.of_sublist (.refl _) hothers) hunmoved (new + 1)
    · intro hyunmoved
      rw [Bool.not_eq_true] at hyunmoved
      apply Leads.ite
      · rintro rfl
        apply (hserves.leads_child hnumber hs hx (hfacing.fresh x (.inl List.mem_cons_self)
          hunmoved)).bind
        intro _ s' hs' _ hstep
        apply hnext (new + 1) others s' hs'
        refine (hfacing.of_sublist hnodes hothers).later h hstep hx fun hmem => ?_
        exact (hmem.elim (List.nodup_cons.1 hfacing.nodup_nodes).1
          (List.nodup_cons.1 hfacing.nodup_others).1).elim
      · intro hne
        apply (leads_placeOf hs).bind
        rintro _ _ - - rfl
        apply (leads_placeOf hs).bind
        rintro _ _ - - rfl
        apply Leads.ite
        · intro _
          apply (hfacing.leads_moveChild h hs (.inl List.mem_cons_self) hunmoved).bind
          rintro _ s' hs' - ⟨-, hfacing'⟩
          exact hnext new (y :: others) s' hs' (hfacing'.of_sublist hnodes (.refl _))
        · intro _
          apply (hfacing.leads_moveChild h hs (.inr List.mem_cons_self) hyunmoved).bind
          rintro _ s' hs' - ⟨hstep, hfacing'⟩
          refine ih hs' (hfacing'.of_sublist (.refl _) hothers) ?_ (new + 1)
          rw [hstep.moved_eq x hne, hunmoved]

/-- The shown children that have stayed are dealt with one after the other. -/
lemma leads_align {nodes others : List NodeId}
    (hs : Proceeds (Covers pass.view.parent c) number s₀ s) (hfacing : pass.Facing c nodes others s)
    (old new : Nat) :
    Leads t (Proceeds (Covers pass.view.parent c) number s₀)
      (pass.align (descend number) number c old nodes new others)
      (pass.align (descend' number) number c old nodes new others) s
      fun left s' => pass.Facing c [] left s' := by
  induction nodes generalizing s old new others with
  | nil => exact .pure hs hfacing
  | cons x nodes ih =>
    rw [align, align]
    refine Leads.bind_of_run rfl hs (.refl s) ?_
    apply Leads.ite
    · exact fun _ => ih hs (hfacing.of_sublist (List.sublist_cons_self x nodes) (.refl _)) _ _
    · intro hunmoved
      rw [Bool.not_eq_true] at hunmoved
      exact leads_alignChild h hserves hnumber (fun new others s hs hfacing => ih hs hfacing _ new) hs
        hfacing hunmoved old new

omit hserves hnumber in
/-- Children that are left are moved. -/
lemma leads_moveLeft {left : List NodeId} (hs : Proceeds (Covers pass.view.parent c) number s₀ s)
    (hleft : pass.Facing c [] left s) :
    Leads t (Proceeds (Covers pass.view.parent c) number s₀)
      (left.forM fun node => do if ← isMoved node then return () else pass.moveChild number node)
      (left.forM fun node => do if ← isMoved node then return () else pass.moveChild number node) s
      fun _ _ => True := by
  refine (Leads.forM (P := pass.Facing c []) (fun x rest s hs hrest => ?_) left hs hleft).weaken
  have hsub : rest.Sublist (x :: rest) := List.sublist_cons_self x rest
  refine Leads.bind_of_run rfl hs (.refl s) ?_
  apply Leads.ite
  · exact fun _ => .pure hs (hrest.of_sublist (.refl _) hsub)
  · intro hunmoved
    rw [Bool.not_eq_true] at hunmoved
    exact (hrest.leads_moveChild h hs (.inr List.mem_cons_self) hunmoved).mono (fun _ => id)
      fun _ _ _ hmoved => hmoved.2.of_sublist (.refl _) hsub

omit hserves hnumber in
/-- When the current children have been taken in, neither the shown children that have stayed nor the current
ones that were shown before have been looked at. -/
lemma leads_takeIn {shown current : List NodeId} (hshown : (pass.view.entry c).shownChildList = shown)
    (hcurrent : pass.view.children c = current)
    (hs : Proceeds (Covers pass.view.parent c) number s₀ s)
    (hfresh : ∀ y, pass.view.parent y = some c → pass.Fresh s y) :
    Leads t (Proceeds (Covers pass.view.parent c) number s₀) (pass.takeIn number c 0 0 current)
      (pass.takeIn number c 0 0 current) s fun before s' =>
        pass.Facing c (shown.filter fun node => pass.view.parent node = some c) before s' ∧
        ∀ y, y ∈ shown.filter (fun node => pass.view.parent node = some c) ∨ y ∈ before →
          pass.Fresh s' y := by
  have hparent (y : NodeId) (hy : y ∈ current) : pass.view.parent y = some c :=
    (h.mem_children y c).1 (hcurrent ▸ hy)
  have hnodup : current.Nodup := hcurrent ▸ h.nodup_children c
  apply Leads.of_yields
  apply (yields_takeIn_proceeds h hparent hnodup (fun y hy => hfresh y (hparent y hy)) 0 0).mono
  rintro _ s' ⟨hs', rfl, hkept⟩
  have hboth (y : NodeId) (hy : y ∈ shown.filter (fun node => pass.view.parent node = some c) ∨
      y ∈ current.filter fun x => pass.view.shownParent x = some c) :
      pass.view.parent y = some c ∧ pass.view.shownParent y = some c := by
    rcases hy with hy | hy
    · obtain ⟨hmem, hy⟩ := List.mem_filter.1 hy
      exact ⟨of_decide_eq_true hy, (h.mem_shown y c).1 (hshown ▸ hmem)⟩
    · obtain ⟨hmem, hy⟩ := List.mem_filter.1 hy
      exact ⟨hparent y hmem, of_decide_eq_true hy⟩
  have hfresh' (y : NodeId) (hy : y ∈ shown.filter (fun node => pass.view.parent node = some c) ∨
      y ∈ current.filter fun x => pass.view.shownParent x = some c) : pass.Fresh s' y :=
    hkept y (hboth y hy).1 (hfresh y (hboth y hy).1) fun _ => (hboth y hy).2
  refine ⟨hs.trans hs' (.inl rfl), hs'.retains, ⟨?_, hnodup.filter _, fun y hy => (hboth y hy).1,
    fun y hy _ => hfresh' y hy⟩, hfresh'⟩
  exact (hshown ▸ h.nodup_shown c).filter _

omit hnumber in
/-- The children of a container are compared. -/
lemma leads_compareChildren {shown current : List NodeId} (hnumber : number < s.ledger.next)
    (hcompared : (pass.view.entry c).compared = some (shown, current))
    (hfresh : ∀ y, pass.view.parent y = some c → pass.Fresh s y) :
    Leads t (Proceeds (Covers pass.view.parent c) number s)
      (pass.compareChildren (descend number) number c shown current)
      (pass.compareChildren (descend' number) number c shown current) s fun _ _ => True := by
  obtain ⟨hcurrent, hshown⟩ := View.of_compared_eq_some hcompared
  have hlisted : (pass.view.entry c).shownChildList = shown := by rw [Entry.shownChildList, hshown]; rfl
  rw [compareChildren, compareChildren]
  set gone := shown.filter fun node => pass.view.parent node ≠ some c
  have hnoted : Proceeds (Covers pass.view.parent c) number s { s with
      ledger := s.ledger.update number fun sheet => gone.foldl Sheet.remove sheet } :=
    .entry (isEntry_foldl_remove gone)
  refine Leads.bind_of_run rfl hnoted hnoted.retains ?_
  have htakeIn := leads_takeIn (t := t) h hlisted (View.childList_of_some hcurrent) hnoted fun y hy =>
    (hfresh y hy).confined (A := fun _ => False) .noteOn fun _ _ => id
  apply htakeIn.bind
  rintro before s₁ hs₁ - ⟨hfacing, hfresh₁⟩
  apply Leads.ite
  · exact fun _ => .contradict hs₁ (by simp)
  · intro _
    apply (leads_countStayed hs₁ ?_ 0).bind
    · intro _ s₂ hs₂ _ hkept
      have hfacing₂ := { hfacing with fresh := fun y hy _ => hkept y (hfresh₁ y hy) }
      exact (leads_align h hserves hnumber hs₂ hfacing₂ 0 0).bind fun left s₃ hs₃ _ hleft =>
        leads_moveLeft h hs₃ hleft
    · intro s' x place hx hs'
      have hx := of_decide_eq_true (List.mem_filter.1 hx).2
      exact hs'.trans (.of_confined (.setPlace (.of_parent hx)) rfl) (.inl rfl)

end Serves

end Paired

end Pass

end PageSync
