import PageSync.Proofs.Retaining
import PageSync.Proofs.Visits

/-!
# Sheets are opened once

A container gets a sheet when the pass comes to it and its children changed, or when it is new where it is
now. If the lists of a view agree with the parents (`View.Paired`), then never both of these happen to a
container, and neither of them twice, in whatever order and even if the pass fails in the end
(`Pass.opened_once`).
-/

namespace PageSync

namespace Pass

variable {pass : Pass} {tables : Tables} {t s₀ s s' : Progress} {I : Progress → Prop} {A : NodeId → Prop}
  {e : PassError} {levels into into' number : Nat} {c n n' : NodeId} {shown current : List NodeId}
  {descend descend' : Nat → NodeId → Walk Unit}

/-! ### Walks -/

/-- What a walk does at a container once the sheet of the container is open. -/
def walkOpened (pass : Pass) (descend : Nat → NodeId → Walk Unit) (levels into number : Nat)
    (container : NodeId) (shown current : List NodeId) : Walk Unit := do
  if pass.sendsAnew container shown current then
    pass.replace levels number container shown
  else
    pass.compareChildren (descend number) number container shown current
    let changes ← sheet number
    if pass.policy.rejectsChanges (changes.removed.length + changes.inserted.length)
        current.length then
      pass.replace levels number container shown
  markDone container
  if (← sheet number).isBlank then return () else hang into number container

/-- A container without a sheet gets one, whatever becomes of it then. -/
lemma run_walkChanged (pass : Pass) (descend : Nat → NodeId → Walk Unit) (levels into : Nat)
    (shown current : List NodeId) (hnone : s.ledger.find? c = none) :
    (pass.walkChanged descend levels into c shown current).run s =
      (pass.walkOpened descend levels into s.ledger.next c shown current).run (pass.opened c s) := by
  have hget : (get : Walk Progress).run s = .ok s s := rfl
  rw [walkChanged, run_bind, hget]
  simp only [hnone]
  rfl

/-- The children of a container may be sent anew. -/
lemma leads_replace (hI : ∀ s', Proceeds A number s s' → I s') :
    Leads t I (pass.replace levels number c shown) (pass.replace levels number c shown) s
      fun _ _ => True := by
  have hreplaced : Proceeds A number s { s with ledger := s.ledger.update number Sheet.replace } :=
    .noteOn (fun _ => rfl) nofun
  rw [replace]
  refine Leads.bind_of_run rfl (hI _ hreplaced) hreplaced.retains ?_
  cases hevicted : pass.evicted c levels c shown with
  | error e =>
    obtain ⟨n, limit, rfl⟩ := isTooDeep_of_evicted hevicted
    exact .of_error_self (hI _ hreplaced) rfl id
  | ok gone =>
    have hnoted : Proceeds A number { s with ledger := s.ledger.update number Sheet.replace }
        { s with ledger := (s.ledger.update number Sheet.replace).update number fun sheet =>
          { sheet with evicted := gone } } := .noteOn (fun _ => rfl) fun _ => .inl
    exact .last rfl (hI _ (hreplaced.trans hnoted (.inl rfl))) hnoted.retains

/-- A sheet may be hung up if it is not that of a new container. -/
lemma leads_hang (hI : ∀ s', Proceeds A into s s' → I s') (hc : A c) (hne : into ≠ number)
    (hnumber : number < s.ledger.next) (hnew : (s.ledger.sheet number).isNew = false) :
    Leads t I
      (do Pass.markDone c
          if (← sheet number).isBlank then return () else hang into number c)
      (do Pass.markDone c
          if (← sheet number).isBlank then return () else hang into number c) s fun _ _ => True := by
  have hdone : Proceeds A into s { s with finished := s.finished ++ [c] } :=
    .of_confined (.markDone hc) rfl
  refine Leads.bind_of_run rfl (hI _ hdone) hdone.retains ?_
  refine Leads.bind_of_run rfl (hI _ hdone) (.refl _) ?_
  apply Leads.ite
  · exact fun _ => .pure (hI _ hdone) trivial
  · intro _
    have hnested : Proceeds A into { s with finished := s.finished ++ [c] }
        { s with
          finished := s.finished ++ [c]
          ledger := s.ledger.update into (·.nest number) } := by
      refine .noteOn (fun _ => rfl) fun n hn => (List.mem_append.1 hn).imp_right fun hn => ?_
      obtain rfl := List.mem_singleton.1 hn
      exact ⟨hnumber, hnew⟩
    rw [hang, if_neg hne]
    exact .last rfl (hI _ (hdone.trans hnested (.inl rfl))) hnested.retains

section Paired

variable (h : pass.view.Paired)

include h

/-- What is noted on the sheet of a container that has just been opened is part of the walk at the
container. -/
lemma leads_walkOpened (hserves : pass.Serves t c descend descend') (hinto : into < s.ledger.next)
    (hfresh : pass.Fresh s c) (hcompared : (pass.view.entry c).compared = some (shown, current)) :
    Leads t (Proceeds (Covers pass.view.parent c) into s)
      (pass.walkOpened descend levels into s.ledger.next c shown current)
      (pass.walkOpened descend' levels into s.ledger.next c shown current) (pass.opened c s)
      fun _ _ => True := by
  have hlt := pass.next_lt_opened c s
  have hopened : Proceeds (Covers pass.view.parent c) into s (pass.opened c s) :=
    .openSheet (.refl c) hfresh.self.find?_eq rfl
  have hnew : ((pass.opened c s).ledger.sheet s.ledger.next).isNew = false := by rw [sheet_opened]
  have hrest (s₁ : Progress) (hs₁ : Proceeds (Covers pass.view.parent c) into s s₁)
      (hretains : Retains (pass.opened c s) s₁) :=
    leads_hang (t := t) (fun _ hs₂ => hs₁.trans hs₂ (.inl rfl)) (.refl c) hinto.ne
      (hlt.trans_le hretains.next_le) ((hretains.isNew_eq _ hlt).trans hnew)
  have hanew (s₁ : Progress) (hs₁ : Proceeds (Covers pass.view.parent c) into s s₁) :
      Leads t (Proceeds (Covers pass.view.parent c) into s)
        (pass.replace levels s.ledger.next c shown) (pass.replace levels s.ledger.next c shown) s₁
        fun _ _ => True :=
    leads_replace fun _ hs₂ => hs₁.trans hs₂ (.inr (Nat.le_refl _))
  have hchildren (y : NodeId) (hy : pass.view.parent y = some c) : pass.Fresh (pass.opened c s) y :=
    fresh_opened h.acyclic hfresh hy
  rw [walkOpened, walkOpened]
  apply Leads.ite
  · exact fun _ => (hanew _ hopened).bind fun _ s₁ hs₁ hretains _ => hrest s₁ hs₁ hretains
  · intro _
    have hcompare := (leads_compareChildren h hserves hlt hcompared hchildren).mono
      (fun _ hs' => hopened.trans hs' (.inr (Nat.le_refl _))) fun _ _ _ => id
    apply hcompare.bind
    intro _ s₁ hs₁ hretains _
    refine Leads.bind_of_run rfl hs₁ (.refl s₁) ?_
    apply Leads.ite
    · exact fun _ => (hanew s₁ hs₁).bind fun _ s₂ hs₂ hretains₂ _ =>
        hrest s₂ hs₂ (hretains.trans hretains₂)
    · exact fun _ => hrest s₁ hs₁ hretains

/-- A walk at a node whose children did not change goes on at the children, one after the other. -/
lemma leads_children (hserves : pass.Serves t n descend descend') (hinto : into < s₀.ledger.next)
    (hs : Proceeds (Covers pass.view.parent n) into s₀ s) (hfresh : pass.Fresh s n) :
    Leads t (Proceeds (Covers pass.view.parent n) into s₀)
      ((pass.view.entry n).childList.forM (descend into))
      ((pass.view.entry n).childList.forM (descend' into)) s fun _ _ => True := by
  have hparent (x : NodeId) (hx : x ∈ (pass.view.entry n).childList) : pass.view.parent x = some n :=
    (h.mem_children x n).1 hx
  -- the children that come later are fresh
  refine (Leads.forM (P := fun rest s => rest.Nodup ∧ ∀ x ∈ rest,
    pass.view.parent x = some n ∧ pass.Fresh s x) (fun x rest s hs hrest => ?_) _ hs ?_).weaken
  · obtain ⟨hnot, hnodup⟩ := List.nodup_cons.1 hrest.1
    obtain ⟨hx, hxfresh⟩ := hrest.2 x List.mem_cons_self
    refine (hserves.leads_child hinto hs hx hxfresh).mono (fun _ => id) fun _ s' _ hs' => ?_
    refine ⟨hnodup, fun y hy => ?_⟩
    obtain ⟨hyn, hyfresh⟩ := hrest.2 y (List.mem_cons_of_mem x hy)
    exact ⟨hyn, hs'.fresh_sibling h hx hyn (fun heq => hnot (heq ▸ hy)) hyfresh⟩
  · exact ⟨h.nodup_children n, fun x hx => ⟨hparent x hx, hfresh.below (.of_parent (hparent x hx))⟩⟩

lemma leads_walkSettled (hserves : pass.Serves t n descend descend') (hinto : into < s.ledger.next)
    (hfresh : pass.Fresh s n) :
    Leads t (Proceeds (Covers pass.view.parent n) into s) (pass.walkSettled descend into n)
      (pass.walkSettled descend' into n) s fun _ _ => True := by
  have hrest (s₁ : Progress) (hs₁ : Proceeds (Covers pass.view.parent n) into s s₁)
      (hfresh₁ : pass.Fresh s₁ n) :
      Leads t (Proceeds (Covers pass.view.parent n) into s)
        (do
          if (pass.view.entry n).changedBelow then (pass.view.entry n).childList.forM (descend into)
          Pass.markDone n)
        (do
          if (pass.view.entry n).changedBelow then (pass.view.entry n).childList.forM (descend' into)
          Pass.markDone n) s₁ fun _ _ => True := by
    have hdone (s₂ : Progress) (hs₂ : Proceeds (Covers pass.view.parent n) into s s₂) :
        Leads t (Proceeds (Covers pass.view.parent n) into s) (Pass.markDone n) (Pass.markDone n) s₂
          fun _ _ => True := by
      have hdone : Proceeds (Covers pass.view.parent n) into s₂
          { s₂ with finished := s₂.finished ++ [n] } := .of_confined (.markDone (.refl n)) rfl
      exact .last rfl (hs₂.trans hdone (.inl rfl)) hdone.retains
    apply Leads.ite
    · exact fun _ => (leads_children h hserves hinto hs₁ hfresh₁).bind fun _ s₂ hs₂ _ _ => hdone s₂ hs₂
    · exact fun _ => hdone s₁ hs₁
  rw [walkSettled, walkSettled]
  apply Leads.ite
  · intro _
    have hnoted : Proceeds (Covers pass.view.parent n) into s
        { s with ledger := s.ledger.update into (·.alter n) } :=
      .entry (isEntry_alter n)
    refine Leads.bind_of_run rfl hnoted hnoted.retains ?_
    exact hrest _ hnoted (hfresh.confined (A := fun _ => False) .noteOn fun _ _ => id)
  · exact fun _ => hrest s (.refl s) hfresh

/-- A walk at a fresh node opens a sheet if the children of the node changed, and goes on at children. -/
lemma leads_lookAt (levels : Nat) (hserves : pass.Serves t n descend descend') (hinto : into < s.ledger.next)
    (hfresh : pass.Fresh s n) :
    Leads t (Proceeds (Covers pass.view.parent n) into s) (pass.lookAt levels into n descend)
      (pass.lookAt levels into n descend') s fun _ _ => True := by
  rw [lookAt, lookAt]
  cases hcompared : (pass.view.entry n).compared with
  | none => exact leads_walkSettled h hserves hinto hfresh
  | some lists =>
    have hnone := hfresh.self.find?_eq
    have hopened : Proceeds (Covers pass.view.parent n) into s (pass.opened n s) :=
      .openSheet (.refl n) hnone rfl
    exact (leads_walkOpened h hserves hinto hfresh hcompared).of_run_eq hopened.retains
      (run_walkChanged pass descend _ into _ _ hnone) (run_walkChanged pass descend' _ into _ _ hnone)

lemma leads_walk (levels : Nat) (hinto : into < s.ledger.next) (hfresh : pass.Fresh s n) :
    Leads t (Proceeds (Covers pass.view.parent n) into s) (pass.walk levels into n)
      (pass.walk levels into n) s fun _ _ => True := by
  induction levels generalizing into n s with
  | zero => exact .of_error_self (.refl s) rfl id
  | succ levels ih =>
    exact leads_lookAt h levels (fun _ _ _ _ hinto hfresh => ih hinto hfresh) hinto hfresh

/-- The sheet that is opened when a walk comes to a container with changed children is retained. -/
lemma retains_opened {lists : List NodeId × List NodeId} (hinto : into < s.ledger.next)
    (hfresh : pass.Fresh s c) (hcompared : (pass.view.entry c).compared = some lists) :
    Retains (pass.opened c s) (stop (pass.walk (levels + 1) into c) s) := by
  have hserves : pass.Serves s c (pass.walk levels) (pass.walk levels) :=
    fun _ _ _ _ hinto hfresh => leads_walk h levels hinto hfresh
  have hwalk := run_walkChanged pass (pass.walk levels) (levels + 1) into lists.1 lists.2
    hfresh.self.find?_eq
  rw [walk_succ, lookAt, hcompared, stop, hwalk]
  exact (leads_walkOpened h hserves hinto hfresh hcompared).stops.2

end Paired

/-! ### Visited nodes -/

lemma failAt_self : (failAt descend into n s e into n).run s = .error e s :=
  if_pos ⟨rfl, rfl, rfl⟩

lemma failAt_of_ne (hne : ¬ (into' = into ∧ n' = n ∧ s' = s)) :
    (failAt descend into n s e into' n').run s' = (descend into' n').run s' :=
  if_neg hne

/-- Steps that fail at one place and at another one may be told in either order. -/
lemma failAt_comm {e' : PassError} (hne : ¬ (into' = into ∧ n' = n ∧ s' = s)) :
    failAt (failAt descend into n s e) into' n' s' e' =
      failAt (failAt descend into' n' s' e') into n s e := by
  funext i x p
  simp only [failAt]
  split_ifs with h₁ h₂
  · obtain ⟨rfl, rfl, rfl⟩ := h₁
    exact absurd h₂ hne
  all_goals rfl

/-- The step at one node may be made to fail. -/
lemma Serves.failAt (e : PassError) (hserves : pass.Serves t c descend descend)
    (hafter : Retains t (stop (descend into n) s)) :
    pass.Serves t c descend (failAt descend into n s e) := by
  intro i x p hx hi hfresh
  have hsame := hserves i x p hx hi hfresh
  by_cases hat : i = into ∧ x = n ∧ p = s
  · obtain ⟨rfl, rfl, rfl⟩ := hat
    exact hsame.vary (.inr hafter)
  · exact hsame.vary (.inl (failAt_of_ne hat))

section Paired

variable (h : pass.view.Paired)

include h

/-- Walks serve even if they fail in one place, as long as that does not matter. -/
lemma serves_failAt (levels : Nat) (he : pass.view.parent n' = some n → into' < s'.ledger.next →
      pass.Fresh s' n' → ¬ e.IsRepeat) :
    pass.Serves t n (failAt (pass.walk levels) into' n' s' e)
      (Pass.failAt (pass.walk levels) into' n' s' e) := by
  intro i x p hx hi hfresh
  by_cases hat : i = into' ∧ x = n' ∧ p = s'
  · obtain ⟨rfl, rfl, rfl⟩ := hat
    exact .of_error_self (.refl p) failAt_self (he hx hi hfresh)
  · exact (leads_walk h levels hi hfresh).of_run_eq (.refl p) (failAt_of_ne hat) (failAt_of_ne hat)

section Comes

variable (hcomes : ComesTo (pass.lookAt levels into n) (pass.walk levels) s into' n' s')
  (hinto : into < s.ledger.next) (hfresh : pass.Fresh s n)

include hcomes hinto hfresh

/-- A pass goes on at children that are fresh. -/
lemma ComesTo.fresh : pass.view.parent n' = some n ∧ into' < s'.ledger.next ∧ pass.Fresh s' n' := by
  by_contra hnot
  have hserves : pass.Serves s n (failAt (pass.walk levels) into' n' s' (.cyclic n'))
      (failAt (pass.walk levels) into' n' s' (.cyclic n')) :=
    serves_failAt h levels fun hn hi hf => absurd ⟨hn, hi, hf⟩ hnot
  exact ((leads_lookAt h levels hserves hinto hfresh).of_error _ _ (hcomes _)).2.2 trivial

/-- It does so in a state that comes after the one in which it came to their parent. -/
lemma ComesTo.retains : Retains s s' := by
  have hserves : pass.Serves s n (failAt (pass.walk levels) into' n' s' (.unknownTop n'))
      (failAt (pass.walk levels) into' n' s' (.unknownTop n')) := serves_failAt h levels fun _ _ _ => id
  exact ((leads_lookAt h levels hserves hinto hfresh).of_error _ _ (hcomes _)).2.1

/-- The walk at the parent stops when that at the child has stopped. -/
lemma ComesTo.retains_stop :
    Retains (stop (pass.walk levels into' n') s') (stop (pass.walk (levels + 1) into n) s) := by
  have hserves : pass.Serves (stop (pass.walk levels into' n') s') n (pass.walk levels)
      (failAt (pass.walk levels) into' n' s' (.cyclic n')) :=
    Serves.failAt _ (fun _ _ _ _ hi hf => leads_walk h levels hi hf) (.refl _)
  have hleads := leads_lookAt h levels hserves hinto hfresh
  refine hleads.same_or.resolve_left fun heq => ?_
  -- a walk that went the same way would fail for a reason for which walks don't fail
  exact (hleads.of_error _ _ (heq.symm.trans (hcomes _))).2.2 trivial

end Comes

/-- If walks fail in either of two places where a pass goes on below a node, then the walk at the node fails
in the one of them, or else it comes to it after the other. -/
lemma ComesTo.run_or {into₁ into₂ : Nat} {n₁ n₂ : NodeId} {s₁ s₂ : Progress} (e₁ : PassError)
    {e₂ : PassError} (hcomes₂ : ComesTo (pass.lookAt levels into n) (pass.walk levels) s into₂ n₂ s₂)
    (hinto : into < s.ledger.next) (hfresh : pass.Fresh s n)
    (hne : ¬ (into₁ = into₂ ∧ n₁ = n₂ ∧ s₁ = s₂)) (he₂ : ¬ e₂.IsRepeat) :
    (pass.lookAt levels into n (failAt (failAt (pass.walk levels) into₂ n₂ s₂ e₂) into₁ n₁ s₁ e₁)).run s =
        .error e₂ s₂ ∨
      Retains (stop (pass.walk levels into₁ n₁) s₁) s₂ := by
  have hafter : Retains (stop (pass.walk levels into₁ n₁) s₁)
      (stop (failAt (pass.walk levels) into₂ n₂ s₂ e₂ into₁ n₁) s₁) := by
    rw [stop, stop, failAt_of_ne hne]
    exact .refl _
  have hfail : pass.Serves (stop (pass.walk levels into₁ n₁) s₁) n
      (failAt (pass.walk levels) into₂ n₂ s₂ e₂) (failAt (pass.walk levels) into₂ n₂ s₂ e₂) :=
    serves_failAt h levels fun _ _ _ => he₂
  have hserves := hfail.failAt e₁ hafter
  rcases (leads_lookAt h levels hserves hinto hfresh).same_or with heq | hretains
  · exact .inl (heq.trans (hcomes₂ e₂))
  · rw [stop_of_error (hcomes₂ e₂)] at hretains
    exact .inr hretains

/-- Of two places where a pass goes on below a node one comes after the other, or they are the same. -/
lemma ComesTo.eq_or_retains {into₁ into₂ : Nat} {n₁ n₂ : NodeId} {s₁ s₂ : Progress}
    (hcomes₁ : ComesTo (pass.lookAt levels into n) (pass.walk levels) s into₁ n₁ s₁)
    (hcomes₂ : ComesTo (pass.lookAt levels into n) (pass.walk levels) s into₂ n₂ s₂)
    (hinto : into < s.ledger.next) (hfresh : pass.Fresh s n) :
    (into₁ = into₂ ∧ n₁ = n₂ ∧ s₁ = s₂) ∨ Retains (stop (pass.walk levels into₁ n₁) s₁) s₂ ∨
      Retains (stop (pass.walk levels into₂ n₂) s₂) s₁ := by
  refine or_iff_not_imp_left.2 fun hne => ?_
  have hne' : ¬ (into₂ = into₁ ∧ n₂ = n₁ ∧ s₂ = s₁) :=
    fun ⟨hinto, hn, hs⟩ => hne ⟨hinto.symm, hn.symm, hs.symm⟩
  have he₁ : ¬ (PassError.unknownTop n₁).IsRepeat := id
  have he₂ : ¬ (PassError.notATop n₂ n₂).IsRepeat := id
  -- a walk that fails in both places can't fail for the one reason and for the other
  rcases hcomes₂.run_or h (.unknownTop n₁) hinto hfresh hne he₂ with hrun₂ | hretains
  · rcases hcomes₁.run_or h (.notATop n₂ n₂) hinto hfresh hne' he₁ with hrun₁ | hretains
    · rw [failAt_comm hne', hrun₂] at hrun₁
      cases hrun₁
    · exact .inr hretains
  · exact .inl hretains

/-- A pass visits nodes below its top, which are fresh then. -/
lemma Visits.fresh (hvisits : pass.Visits tables levels into n s) :
    Covers pass.view.parent pass.root n ∧ into < s.ledger.next ∧ pass.Fresh s n := by
  induction hvisits with
  | top => exact ⟨.refl _, Nat.zero_lt_one, pass.fresh_start tables pass.root⟩
  | next _ comes ih =>
    obtain ⟨hcovers, hinto, hfresh⟩ := ih
    obtain ⟨hparent, hinto', hfresh'⟩ := comes.fresh h hinto hfresh
    exact ⟨hcovers.trans (.of_parent hparent), hinto', hfresh'⟩

/-- The pass stops when the walk at a visited node has stopped. -/
lemma Visits.retains_stop (hvisits : pass.Visits tables levels into n s) :
    Retains (stop (pass.walk levels into n) s) (stop pass.gather { tables := tables.emptied }) := by
  induction hvisits with
  | top => exact .refl _
  | next visits comes ih =>
    obtain ⟨-, hinto, hfresh⟩ := visits.fresh h
    exact (comes.retains_stop h hinto hfresh).trans ih

/-- The top is not visited below itself. -/
lemma Visits.not_comes_root (hvisits : pass.Visits tables (levels + 1) into n s) :
    ¬ ComesTo (pass.lookAt levels into n) (pass.walk levels) s into' pass.root s' := by
  intro hcomes
  obtain ⟨hcovers, hinto, hfresh⟩ := hvisits.fresh h
  exact h.acyclic.not_covers_parent (hcomes.fresh h hinto hfresh).1 hcovers

/-- Of two visits to a node one comes after the other has ended, or they are the same. -/
lemma Visits.eq_or_retains {levels' : Nat} (hvisits : pass.Visits tables levels into n s)
    (hvisits' : pass.Visits tables levels' into' n s') :
    (levels' = levels ∧ into' = into ∧ s' = s) ∨ Retains (stop (pass.walk levels into n) s) s' ∨
      Retains (stop (pass.walk levels' into' n) s') s := by
  induction hvisits generalizing levels' into' s' with
  | top =>
    cases hvisits' with
    | top => exact .inl ⟨rfl, rfl, rfl⟩
    | next visits' comes' => exact absurd comes' (visits'.not_comes_root h)
  | next visits comes ih =>
    obtain ⟨-, hinto, hfresh⟩ := visits.fresh h
    cases hvisits' with
    | top => exact absurd comes (visits.not_comes_root h)
    | next visits' comes' =>
      obtain ⟨-, hinto', hfresh'⟩ := visits'.fresh h
      obtain rfl := Option.some.inj
        ((comes.fresh h hinto hfresh).1.symm.trans (comes'.fresh h hinto' hfresh').1)
      rcases ih visits' with ⟨heq, rfl, rfl⟩ | hretains | hretains
      · obtain rfl := Nat.succ.inj heq
        rcases comes.eq_or_retains h comes' hinto hfresh with ⟨rfl, -, rfl⟩ | hretains
        · exact .inl ⟨rfl, rfl, rfl⟩
        · exact .inr hretains
      · exact .inr (.inl (((comes.retains_stop h hinto hfresh).trans hretains).trans
          (comes'.retains h hinto' hfresh')))
      · exact .inr (.inr (((comes'.retains_stop h hinto' hfresh').trans hretains).trans
          (comes.retains h hinto hfresh)))

/-- When a pass comes to a container with changed children, the container gets a sheet and keeps it, and it
is not that of a new container. -/
lemma Visits.opens {lists : List NodeId × List NodeId}
    (hvisits : pass.Visits tables (levels + 1) into c s)
    (hcompared : (pass.view.entry c).compared = some lists) :
    let last := stop pass.gather { tables := tables.emptied }
    last.ledger.find? c = some s.ledger.next ∧ (last.ledger.sheet s.ledger.next).isNew = false := by
  obtain ⟨-, hinto, hfresh⟩ := hvisits.fresh h
  have hretains := (retains_opened h hinto hfresh hcompared).trans (hvisits.retains_stop h)
  refine ⟨hretains.find?_of_some c _ (pass.find?_opened c s), ?_⟩
  rw [hretains.isNew_eq _ (pass.next_lt_opened c s), sheet_opened]

/-- A container with changed children is visited once. -/
lemma Visits.eq_of_compared {levels' : Nat} {lists : List NodeId × List NodeId}
    (hvisits : pass.Visits tables (levels + 1) into c s)
    (hvisits' : pass.Visits tables (levels' + 1) into' c s')
    (hcompared : (pass.view.entry c).compared = some lists) :
    levels' = levels ∧ into' = into ∧ s' = s := by
  obtain ⟨-, hinto, hfresh⟩ := hvisits.fresh h
  obtain ⟨-, hinto', hfresh'⟩ := hvisits'.fresh h
  -- after one of the visits the container has a sheet, before the other one it has none
  rcases hvisits.eq_or_retains h hvisits' with ⟨heq, hrest⟩ | hretains | hretains
  · exact ⟨Nat.succ.inj heq, hrest⟩
  · have hafter := (retains_opened h hinto hfresh hcompared).trans hretains
    have hsome := hafter.find?_of_some c _ (pass.find?_opened c s)
    rw [hfresh'.self.find?_eq] at hsome
    cases hsome
  · have hafter := (retains_opened h hinto' hfresh' hcompared).trans hretains
    have hsome := hafter.find?_of_some c _ (pass.find?_opened c s')
    rw [hfresh.self.find?_eq] at hsome
    cases hsome

end Paired

/-- When a pass has walked the whole tree, the outline has no sheet of a new container. -/
lemma isNew_of_gather (hrun : pass.gather.run { tables } = .ok () s) {line : Ledger.Line}
    (hline : line ∈ s.ledger.outline) (hs : Proceeds A Ledger.first { tables } s) :
    (s.ledger.sheet line.number).isNew = false := by
  obtain ⟨hnested, hnext⟩ := isNested_of_gather hrun
  rcases Relation.ReflTransGen.cases_tail
    ((hnested.mem_outline_iff hnext).1 (List.mem_map_of_mem hline)) with heq | ⟨k, -, hk⟩
  · rw [heq, hs.retains.isNew_eq Ledger.first Nat.zero_lt_one]
    rfl
  · exact (hs.hangsNoNew hangsNoNew_start k _ hk).2

/-- If the lists of a view agree with the parents, then in every pass, one that fails included: when the
pass comes to a container with changed children, the container has no sheet yet, so it has neither been
marked as new nor been looked at; it gets one that is not marked as new up to the end; and the pass does not
come to it again. Sheets that are there when the pass comes to any node are there in the end as well, and
say the same about their containers being new. The pass does not fail because a container has a sheet
already, and if it succeeds, no sheet of its outline is marked as new. -/
theorem opened_once (h : pass.view.Paired) (tables : Tables) :
    let start : Progress := { tables := tables.emptied }
    let last := stop pass.gather start
    (∀ levels into c s lists, pass.Visits tables (levels + 1) into c s →
      (pass.view.entry c).compared = some lists →
        s.ledger.find? c = none ∧ last.ledger.find? c = some s.ledger.next ∧
        (last.ledger.sheet s.ledger.next).isNew = false ∧
        ∀ levels' into' s', pass.Visits tables (levels' + 1) into' c s' →
          levels' = levels ∧ into' = into ∧ s' = s) ∧
    (∀ levels into n s, pass.Visits tables levels into n s → Retains s last) ∧
    (∀ e s, pass.gather.run start = .error e s → ¬ e.IsRepeat) ∧
    ∀ s, pass.gather.run start = .ok () s →
      ∀ line ∈ s.ledger.outline, (s.ledger.sheet line.number).isNew = false := by
  intro start last
  have hwalk : Leads start (Proceeds (Covers pass.view.parent pass.root) Ledger.first start) pass.gather
      pass.gather start fun _ _ => True :=
    leads_walk h _ Nat.zero_lt_one (pass.fresh_start tables pass.root)
  refine ⟨fun levels into c s lists hvisits hcompared => ?_, fun levels into n s hvisits => ?_,
    fun e s hrun => (hwalk.of_error e s hrun).2.2, fun s hrun line hline => ?_⟩
  · obtain ⟨-, -, hfresh⟩ := hvisits.fresh h
    obtain ⟨hfind, hnew⟩ := hvisits.opens h hcompared
    exact ⟨hfresh.self.find?_eq, hfind, hnew, fun _ _ _ hvisits' =>
      hvisits.eq_of_compared h hvisits' hcompared⟩
  · obtain ⟨-, hinto, hfresh⟩ := hvisits.fresh h
    exact (leads_walk (t := s) h levels hinto hfresh).stops.2.trans (hvisits.retains_stop h)
  · exact isNew_of_gather hrun hline (hwalk.of_ok () s hrun).1

end Pass

/-! ### A page on which a child moves to a new container -/

/-- A container with a list that is empty now, since its item is in a new list. -/
def View.refilled : View where
  contains n := decide (n.number < 4)
  entry n :=
    if n = ⟨0⟩ then { tag := "div", children := some [⟨1⟩, ⟨2⟩], shownChildren := some [⟨1⟩] }
    else if n = ⟨1⟩ then
      { tag := "ul", children := some [], parent := some ⟨0⟩, shownChildren := some [⟨3⟩],
        shownParent := some ⟨0⟩ }
    else if n = ⟨2⟩ then
      { tag := "ol", children := some [⟨3⟩], parent := some ⟨0⟩, shownChildren := some [] }
    else if n = ⟨3⟩ then { tag := "li", parent := some ⟨2⟩, shownParent := some ⟨1⟩ }
    else {}

namespace View

lemma parent_refilled (n : NodeId) : refilled.parent n =
    if n ∈ [⟨1⟩, ⟨2⟩] then some ⟨0⟩ else if n = ⟨3⟩ then some ⟨2⟩ else none := by
  grind [parent, refilled]

lemma shownParent_refilled (n : NodeId) : refilled.shownParent n =
    if n = ⟨1⟩ then some ⟨0⟩ else if n = ⟨3⟩ then some ⟨1⟩ else none := by
  grind [shownParent, refilled]

lemma children_refilled (n : NodeId) : refilled.children n =
    if n = ⟨0⟩ then [⟨1⟩, ⟨2⟩] else if n = ⟨2⟩ then [⟨3⟩] else [] := by
  grind [children, Entry.childList, refilled]

lemma shownChildList_refilled (n : NodeId) : (refilled.entry n).shownChildList =
    if n = ⟨0⟩ then [⟨1⟩] else if n = ⟨1⟩ then [⟨3⟩] else [] := by
  grind [Entry.shownChildList, Entry.childList, refilled]

lemma paired_refilled : refilled.Paired where
  mem_children n c := by
    rw [children_refilled, parent_refilled]
    grind
  nodup_children c := by
    rw [children_refilled]
    split_ifs <;> simp
  acyclic := by
    apply Acyclic.of_lt fun n => if n = ⟨3⟩ then 2 else if n = ⟨0⟩ then 0 else 1
    intro n p hp
    rw [parent_refilled] at hp
    grind
  mem_shown n c := by
    rw [shownChildList_refilled, shownParent_refilled]
    grind
  nodup_shown c := by
    rw [shownChildList_refilled]
    split_ifs <;> simp

end View

namespace Pass

/-- The new list gets a sheet when the pass looks at the container, and so does the old one when the pass
comes to it. Only the new one is marked as new, and its sheet is hung up nowhere. -/
theorem opened_once_refilled :
    let pass : Pass := ⟨View.refilled, {}, ⟨0⟩⟩
    ∃ s, pass.gather.run {} = .ok () s ∧ s.ledger.find? ⟨0⟩ = some 1 ∧
      (s.ledger.sheet 1).isNew = false ∧
      (s.ledger.find? ⟨2⟩).any (fun k => (s.ledger.sheet k).isNew) = true ∧
      ∀ line ∈ s.ledger.outline, (s.ledger.sheet line.number).isNew = false := by
  intro pass
  have hpaired : pass.view.Paired := View.paired_refilled
  obtain ⟨honce, -, -, houtline⟩ := opened_once hpaired {}
  have hdone : (match pass.gather.run {} with
      | .ok _ s => (s.ledger.find? ⟨2⟩).any fun k => (s.ledger.sheet k).isNew
      | .error .. => false) = true := by decide +kernel
  split at hdone
  · next s hrun =>
    obtain ⟨-, hfind, hnew, -⟩ := honce 512 0 ⟨0⟩ {} ([⟨1⟩], [⟨1⟩, ⟨2⟩]) .top (by decide)
    have hstop : stop pass.gather { tables := Tables.emptied {} } = s := stop_of_ok hrun
    rw [hstop] at hfind hnew
    exact ⟨s, hrun, hfind, hnew, hdone, houtline s hrun⟩
  · cases hdone

end Pass

end PageSync
