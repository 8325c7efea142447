import PageSync.Proofs.Aligning

/-!
# Walks contribute planned shares

A walk below a shown node that has not been looked at yet contributes a planned share to the sheet
that it is given, and is done with the node (`Pass.descends_walk`). It fails only if some node lies
deeper than the policy allows or if some node is recorded as the child of a shown container without
being shown there. The lemmas on the way ask of the steps further below only that they do so too.
-/

namespace PageSync

namespace Pass

variable {pass : Pass} {page t k : Node} {share share' : Share} {into number levels : Nat}
  {n c : NodeId} {s s' s'' s₁ : Progress} {shown current kept : List NodeId}
  {parts : List (Node × Share)} {inserted : List (Nat × NodeId)} {F : PassError → Prop}
  {descend : Nat → NodeId → Walk Unit}

/-! ### Contributions -/

namespace Contributes

/-- Nothing is contributed as long as nothing but entries about nodes below is made. -/
lemma refl (s : Progress) : pass.Contributes n {} into s s :=
  ⟨.refl s, [], by simp, .nil _⟩

lemma append (h : pass.Contributes n share into s s') (h' : pass.Contributes k.id share' into s' s'')
    (hk : Covers pass.view.parent n k.id) (hinto : into < s.ledger.next) :
    pass.Contributes n ⟨share.deleted ++ share'.deleted, share.altered ++ share'.altered,
      share.rest ++ share'.rest⟩ into s s'' where
  confined := h.confined.trans (h'.confined.mono fun _ hy => hk.trans hy) (.inl rfl)
  noted := by
    obtain ⟨numbers, hsheet, htold⟩ := h.noted
    obtain ⟨numbers', hsheet', htold'⟩ := h'.noted
    refine ⟨numbers ++ numbers', ?_, ?_⟩
    · rw [hsheet', hsheet]
      simp
    · have hold := (htold.congr fun n _ hhigh =>
        h'.confined.sheet_eq n hhigh (by omega)).mono (Nat.le_refl _) h'.confined.next_le
      simpa using hold.append (htold'.mono h.confined.next_le (Nat.le_refl _))

/-- The pass is done with the node itself. -/
lemma markDone {t : Node} (h : pass.Contributes t.id share into s s')
    (hplanned : pass.Planned t share) :
    pass.Completes t into s { s' with finished := s'.finished ++ [t.id] } :=
  ⟨⟨share, hplanned, h.confined.trans (.markDone (.refl _)) (.inl rfl), h.noted⟩, by simp⟩

/-- A sheet of its own is hung below the given one. -/
lemma hang {own inner innerRemovals : List Operation}
    (hconfined : Confined (Covers pass.view.parent n) into s s')
    (hinto : into < s.ledger.next) (hnext : s.ledger.next < s'.ledger.next)
    (hsheet : s'.ledger.sheet into = s.ledger.sheet into)
    (hadditions : pass.additions (s'.ledger.sheet s.ledger.next) = .ok own)
    (htold : Told pass s'.ledger s'.ledger.next (s.ledger.next + 1)
      (s'.ledger.sheet s.ledger.next).nested innerRemovals inner)
    (hdeleted : share.deleted.map .delete =
      (s'.ledger.sheet s.ledger.next).deletions ++ innerRemovals)
    (hrest : share.rest = own ++ inner) (haltered : share.altered = []) :
    pass.Contributes n share into s
      { s' with ledger := s'.ledger.update into (·.nest s.ledger.next) } where
  confined := hconfined.trans .noteOn (.inl rfl)
  noted := by
    refine ⟨[s.ledger.next], ?_, ?_⟩
    · rw [Ledger.sheet_update_self _ (Nat.lt_trans hinto hnext), hsheet, haltered]
      simp [Sheet.nest]
    · rw [Ledger.next_update, hdeleted, hrest]
      have htold := Told.cons (Nat.le_refl _) hnext htold hadditions (.nil _)
      rw [List.append_nil, List.append_nil] at htold
      exact htold.congr fun k hlow _ => Ledger.sheet_update_of_ne _ (by omega)

end Contributes

/-! ### What a sheet leads to -/

/-- A child is inserted behind those before its position, which are current children. -/
lemma insertion_eq {done rest : List NodeId}
    (hchildren : pass.view.children c = done ++ n :: rest) :
    pass.insertion c done.length n =
      .ok (.insertAfter c done.getLast? (pass.view.describe n)) := by
  cases hlength : done.length with
  | zero =>
    obtain rfl := List.length_eq_zero_iff.1 hlength
    rfl
  | succ before =>
    have hlt : before < done.length := by omega
    have hget : (pass.view.children c)[before]? = done.getLast? := by
      rw [hchildren, List.getElem?_append_left hlt, List.getLast?_eq_getElem?, hlength]
      rfl
    obtain ⟨sibling, hsibling⟩ : ∃ sibling, done.getLast? = some sibling := by
      rw [← hget, hchildren, List.getElem?_append_left hlt]
      exact ⟨_, List.getElem?_eq_getElem hlt⟩
    rw [insertion, hget, hsibling]

/-- Whether a sheet lists the insertions of those current children that stand behind the first ones and
are not kept, in ascending order of their positions. -/
structure Inserts (kept current done : List NodeId) (inserted : List (Nat × NodeId)) : Prop where
  /-- The positions ascend. -/
  sorted : inserted.Pairwise fun a b => a.1 < b.1
  /-- The children are inserted where they stand. -/
  mem_iff : ∀ e, e ∈ inserted ↔ done.length ≤ e.1 ∧ current[e.1]? = some e.2 ∧ e.2 ∉ kept

/-- Either a child is the next one, or it comes later. -/
lemma eq_or_later {done rest : List NodeId} {e : Nat × NodeId} (hcurrent : current = done ++ n :: rest)
    (hle : done.length ≤ e.1) (he : current[e.1]? = some e.2) :
    e = (done.length, n) ∨ (done ++ [n]).length ≤ e.1 := by
  obtain ⟨position, node⟩ := e
  rw [List.length_append, List.length_singleton]
  by_cases heq : position = done.length
  · subst heq
    left
    simpa [hcurrent, eq_comm] using he
  · right
    simp only at hle ⊢
    omega

namespace Inserts

lemma eq_nil {done : List NodeId} (h : Inserts kept done done inserted) : inserted = [] := by
  apply List.eq_nil_iff_forall_not_mem.2
  intro e he
  obtain ⟨hle, hget, -⟩ := (h.mem_iff e).1 he
  have hlt := (List.getElem?_eq_some_iff.1 hget).1
  omega

/-- A kept child is not inserted. -/
lemma skip {done rest : List NodeId} (h : Inserts kept current done inserted)
    (hcurrent : current = done ++ n :: rest) (hkept : n ∈ kept) :
    Inserts kept current (done ++ [n]) inserted := by
  refine ⟨h.sorted, fun e => (h.mem_iff e).trans ⟨?_, ?_⟩⟩
  · intro he
    refine ⟨(eq_or_later hcurrent he.1 he.2.1).resolve_left ?_, he.2⟩
    rintro rfl
    exact he.2.2 hkept
  · intro he
    refine ⟨?_, he.2⟩
    have hle := he.1
    rw [List.length_append] at hle
    omega

/-- A child that is not kept is the first one to be inserted. -/
lemma exists_cons {done rest : List NodeId} (h : Inserts kept current done inserted)
    (hcurrent : current = done ++ n :: rest) (hkept : n ∉ kept) :
    ∃ later, inserted = (done.length, n) :: later ∧ Inserts kept current (done ++ [n]) later := by
  have hfirst : (done.length, n) ∈ inserted :=
    (h.mem_iff _).2 ⟨Nat.le_refl _, by simp [hcurrent], hkept⟩
  cases inserted with
  | nil => cases hfirst
  | cons head later =>
    obtain ⟨hhead, hlater⟩ := List.pairwise_cons.1 h.sorted
    obtain rfl : head = (done.length, n) := by
      rcases List.mem_cons.1 hfirst with heq | hmem
      · exact heq.symm
      · have hlt : head.1 < done.length := hhead _ hmem
        have hle := ((h.mem_iff head).1 List.mem_cons_self).1
        omega
    refine ⟨later, rfl, hlater, fun e => ⟨?_, ?_⟩⟩
    · intro he
      obtain ⟨hle, hall⟩ := (h.mem_iff e).1 (List.mem_cons_of_mem _ he)
      refine ⟨(eq_or_later hcurrent hle hall.1).resolve_left ?_, hall⟩
      rintro rfl
      exact Nat.lt_irrefl _ (hhead _ he)
    · intro he
      have hlt : done.length < e.1 := by
        have hle := he.1
        rw [List.length_append, List.length_singleton] at hle
        omega
      have hmem := (h.mem_iff e).2 ⟨Nat.le_of_lt hlt, he.2⟩
      apply (List.mem_cons.1 hmem).resolve_left
      rintro rfl
      exact Nat.lt_irrefl _ hlt

/-- The insertions of a sheet are read off in the order of the current children. -/
lemma mapM_eq {done rest : List NodeId} (h : Inserts kept current done inserted)
    (hchildren : pass.view.children c = current) (hcurrent : current = done ++ rest) :
    (inserted.mapM fun (position, node) => pass.insertion c position node) =
      .ok (pass.insertions c kept done.getLast? rest) := by
  induction rest generalizing done inserted with
  | nil =>
    rw [List.append_nil] at hcurrent
    subst hcurrent
    rw [h.eq_nil]
    rfl
  | cons n rest ih =>
    have hcurrent' : current = (done ++ [n]) ++ rest := by simp [hcurrent]
    have hlast : (done ++ [n]).getLast? = some n := by simp
    rw [insertions]
    by_cases hkept : n ∈ kept
    · rw [if_pos hkept, List.nil_append, ← hlast]
      exact ih (h.skip hcurrent hkept) hcurrent'
    · obtain ⟨later, rfl, hlater⟩ := h.exists_cons hcurrent hkept
      rw [if_neg hkept, List.singleton_append, ← hlast, List.mapM_cons]
      simp only [insertion_eq (hchildren.trans hcurrent), ih hlater hcurrent']
      rfl

end Inserts

/-- The nodes that are inserted are the current children that are not kept. -/
lemma Inserts.map_snd {done rest : List NodeId} (h : Inserts kept current done inserted)
    (hcurrent : current = done ++ rest) : inserted.map (·.2) = rest.filter (· ∉ kept) := by
  induction rest generalizing done inserted with
  | nil =>
    rw [List.append_nil] at hcurrent
    subst hcurrent
    rw [h.eq_nil]
    rfl
  | cons n rest ih =>
    have hcurrent' : current = (done ++ [n]) ++ rest := by simp [hcurrent]
    by_cases hkept : n ∈ kept
    · rw [List.filter_cons_of_neg (by simpa using hkept)]
      exact ih (h.skip hcurrent hkept) hcurrent'
    · obtain ⟨later, rfl, hlater⟩ := h.exists_cons hcurrent hkept
      rw [List.filter_cons_of_pos (by simpa using hkept), List.map_cons, ih hlater hcurrent']

/-- When the children of a container have been compared, they are those that are new or moved. -/
lemma Compared.map_inserted (hcomp : pass.Compared t number shown current s₁ parts s)
    (hshown : t.childList.map Node.id = shown)
    (hinserts : Inserts (parts.map (·.1.id)) current [] inserted) :
    inserted.map (·.2) = pass.arrivals t.id shown current := by
  rw [hinserts.map_snd (List.nil_append current).symm, arrivals]
  refine List.filter_congr fun n _ => ?_
  have hkept : n ∈ parts.map (·.1.id) → n ∈ shown := by
    intro hn
    obtain ⟨p, hp, rfl⟩ := List.mem_map.1 hn
    exact hshown ▸ List.mem_map_of_mem (hcomp.shown_order.subset (List.mem_map_of_mem hp))
  simp only [hcomp.mem_removals, decide_eq_decide]
  tauto

/-- The sheet of a container whose children have been compared leads to what is planned for it. -/
lemma additions_of_sheet (pass : Pass) {sheet : Sheet} (hcontainer : sheet.container = some c)
    (hown : sheet.ownAttributes = (pass.view.entry c).attributesChanged)
    (hreplaced : sheet.isReplaced = false) (hchildren : pass.view.children c = current)
    (hsorted : sheet.inserted.Pairwise fun a b => a.1 < b.1)
    (hmem : ∀ e, e ∈ sheet.inserted ↔ current[e.1]? = some e.2 ∧ e.2 ∉ kept) :
    pass.additions sheet =
      .ok ((pass.ownAltered c ++ sheet.altered).map pass.alteration ++
        pass.insertions c kept none current) := by
  have hinserts : Inserts kept current [] sheet.inserted := ⟨hsorted, fun e => by simpa using hmem e⟩
  have hinsertions := hinserts.mapM_eq hchildren (List.nil_append current).symm
  rw [additions]
  simp only [hcontainer, hreplaced, Bool.false_eq_true, if_false, hinsertions, hown, ownAltered]
  cases (pass.view.entry c).attributesChanged <;> rfl

/-- The sheet of a container that is sent anew leads to what is planned for it. -/
lemma additions_of_replaced (pass : Pass) {sheet : Sheet} (hcontainer : sheet.container = some c)
    (hown : sheet.ownAttributes = (pass.view.entry c).attributesChanged)
    (hreplaced : sheet.isReplaced = true) :
    pass.additions sheet =
      .ok (.replaceChildren c ((pass.view.children c).map pass.view.describe) ::
        (pass.ownAltered c).map pass.alteration) := by
  rw [additions]
  simp only [hcontainer, hreplaced, if_true, hown, ownAltered]
  cases (pass.view.entry c).attributesChanged <;> rfl

/-! ### Nodes whose children did not change -/

/-- What a walk may rely on when it comes to a shown node. -/
structure Ahead (pass : Pass) (page t : Node) (levels into : Nat) (s : Progress) : Prop where
  /-- The node is shown. -/
  mem : t ∈ page.preorder
  /-- Nothing below it has been looked at. -/
  fresh : pass.Fresh s t.id
  /-- The sheet exists. -/
  into_lt : into < s.ledger.next
  /-- Changes count that are noted on it. -/
  isWhole : (s.ledger.sheet into).isWhole = false
  /-- As many levels are left as the policy allows. -/
  levels_eq : levels + pass.view.depth t.id = pass.policy.depthLimit.toNat + 1

/-- The reasons for which the walk below a shown node may fail: some node shown there is too deep, or
some node that is not shown is recorded as the child of a shown container. -/
def MayFail (pass : Pass) (page t : Node) (e : PassError) : Prop :=
  e.IsTooDeep ∧ ¬ pass.view.Within t pass.policy.depthLimit.toNat ∨ pass.view.HasStrays page

/-- Whether steps that are taken below shown nodes, with so many levels left, contribute planned
shares. -/
def Descends (pass : Pass) (page : Node) (levels : Nat) (descend : Nat → NodeId → Walk Unit) : Prop :=
  ∀ (t : Node) (into : Nat) (s : Progress), pass.Ahead page t levels into s →
    Yields (descend into t.id) s
      (fun _ s' => pass.Completes t into s s')
      (pass.MayFail page t)

section Depicts

variable (h : pass.view.Depicts page)

include h

/-- A walk may go on to a child that is where it is shown. -/
lemma Ahead.child {t c : Node} (ha : pass.Ahead page t (levels + 1) into s)
    (hc : c ∈ t.childList) (hparent : pass.view.parent c.id = some t.id) {into' : Nat}
    (hfresh : pass.Fresh s' c.id) (hinto : into' < s'.ledger.next)
    (hwhole : (s'.ledger.sheet into').isWhole = false) : pass.Ahead page c levels into' s' where
  mem := Node.mem_preorder_of_mem_childList ha.mem hc
  fresh := hfresh
  into_lt := hinto
  isWhole := hwhole
  levels_eq := by
    have := ha.levels_eq
    rw [View.depth_of_parent h.acyclic hparent]
    omega

/-- A step below a child that is where it is shown fails for reasons of its parent. -/
lemma MayFail.of_child {t c : Node} {e : PassError} (hc : c ∈ t.childList)
    (hparent : pass.view.parent c.id = some t.id) (he : pass.MayFail page c e) :
    pass.MayFail page t e :=
  he.imp_left fun ⟨hdeep, hnot⟩ => ⟨hdeep, fun ht => hnot (ht.child h.acyclic hc hparent)⟩

/-- What has been contributed when the first children of a node with unchanged children have been
looked at. -/
structure Visited (pass : Pass) (t : Node) (into : Nat) (s : Progress) (done : List NodeId)
    (parts : List (Node × Share)) (s' : Progress) : Prop where
  /-- Each of them has its share. -/
  ids_eq : parts.map (·.1.id) = done
  /-- The shares are planned ones. -/
  planned : ∀ p ∈ parts, p.1 ∈ t.childList ∧ pass.Planned p.1 p.2
  /-- The shares have been contributed, after the attributes of the node itself. -/
  contributes : pass.Contributes t.id
    { deleted := parts.flatMap (·.2.deleted)
      altered := pass.ownAltered t.id ++ parts.flatMap (·.2.altered)
      rest := parts.flatMap (·.2.rest) } into s s'
  /-- The other children have not been looked at. -/
  fresh : ∀ y, pass.view.parent y = some t.id → y ∉ done → pass.Fresh s' y

omit h in
lemma Contributes.isWhole_eq (hs : pass.Contributes n share into s s') :
    (s'.ledger.sheet into).isWhole = (s.ledger.sheet into).isWhole := by
  obtain ⟨numbers, hsheet, -⟩ := hs.noted
  rw [hsheet]
  rfl

/-- One more child is looked at. -/
lemma Visited.yields_next {done : List NodeId} (ha : pass.Ahead page t (levels + 1) into s)
    (hbelow : pass.Descends page levels descend) (hk : k ∈ t.childList)
    (hparent : pass.view.parent k.id = some t.id) (hdone : k.id ∉ done)
    (hv : pass.Visited t into s done parts s') :
    Yields (descend into k.id) s'
      (fun _ s'' => ∃ parts, pass.Visited t into s (done ++ [k.id]) parts s'')
      (pass.MayFail page t) := by
  have hnext := Nat.lt_of_lt_of_le ha.into_lt hv.contributes.confined.next_le
  have hahead := ha.child h hk hparent (hv.fresh k.id hparent hdone) hnext
    (hv.contributes.isWhole_eq.trans ha.isWhole)
  apply ((hbelow k into s' hahead).weaken fun e he => he.of_child h hk hparent).mono
  rintro _ s'' ⟨⟨share, hplanned, hshare⟩, -⟩
  refine ⟨parts ++ [(k, share)], by simp [hv.ids_eq], ?_, ?_, ?_⟩
  · intro p hp
    rcases List.mem_append.1 hp with hp | hp
    · exact hv.planned p hp
    · obtain rfl := List.mem_singleton.1 hp
      exact ⟨hk, hplanned⟩
  · have happend := hv.contributes.append hshare (.of_parent hparent) ha.into_lt
    simpa using happend
  · intro y hy hydone
    rw [List.mem_append, List.mem_singleton, not_or] at hydone
    exact (hv.fresh y hy hydone.1).confined hshare.confined fun z hyz =>
      h.acyclic.not_covers_both hy hparent hydone.2 hyz

/-- When all children have been looked at, their shares are those of the shown children. -/
lemma Visited.map_eq (ht : t ∈ page.preorder)
    (hchildren : pass.view.children t.id = t.childList.map Node.id)
    (hv : pass.Visited t into s (pass.view.children t.id) parts s') :
    parts.map (·.1) = t.childList := by
  have hids : (parts.map (·.1)).map Node.id = t.childList.map Node.id := by
    rw [List.map_map, ← hchildren]
    exact hv.ids_eq
  have hsub : (parts.map (·.1)).Sublist t.childList := by
    refine sublist_of_map (hids ▸ List.Sublist.refl _)
      (Node.nodup_map_id_childList (Node.nodup_of_mem h.nodup ht)) fun c hc => ?_
    obtain ⟨p, hp, rfl⟩ := List.mem_map.1 hc
    exact (hv.planned p hp).1
  exact hsub.eq_of_length (by simpa using congrArg List.length hids)

/-- After the attributes of a node with unchanged children have been noted, the walk goes on below it,
if something has changed there. -/
lemma yields_unchanged (ha : pass.Ahead page t (levels + 1) into s)
    (hbelow : pass.Descends page levels descend)
    (hcompared : (pass.view.entry t.id).compared = none)
    (hown : pass.Contributes t.id { altered := pass.ownAltered t.id } into s s₁)
    (hfresh : pass.Fresh s₁ t.id) :
    Yields
      (if (pass.view.entry t.id).changedBelow = true then do
        (pass.view.entry t.id).childList.forM (descend into)
        markDone t.id
      else markDone t.id) s₁
      (fun _ s' => pass.Completes t into s s')
      (pass.MayFail page t) := by
  have hchildren := h.children_of_compared_none ha.mem hcompared
  rw [yields_ite]
  constructor
  · intro hmarked
    rw [yields_bind]
    refine (yields_forM (I := fun done s' => ∃ parts, pass.Visited t into s done parts s')
      (pass.view.children t.id) ?_ ⟨[], rfl, by simp, by simpa using hown, ?_⟩).mono ?_
    · rintro done x rest s' htodo ⟨parts, hv⟩
      obtain ⟨k, hk, rfl⟩ : ∃ k ∈ t.childList, k.id = x :=
        List.mem_map.1 (hchildren ▸ htodo ▸ by simp)
      have hparent := h.parent_of_mem (hchildren ▸ List.mem_map_of_mem hk)
      have hnodup := h.nodup_children t.id
      rw [htodo] at hnodup
      exact hv.yields_next h ha hbelow hk hparent fun hmem =>
        (List.nodup_append.1 hnodup).2.2 k.id hmem k.id List.mem_cons_self rfl
    · exact fun y hy _ => hfresh.below (.of_parent hy)
    · rintro _ s' ⟨parts, hv⟩
      rw [yields_markDone]
      exact hv.contributes.markDone
        (.through hcompared (hv.map_eq h ha.mem hchildren) fun p hp => (hv.planned p hp).2)
  · intro hunmarked
    rw [yields_markDone]
    exact hown.markDone (.still hcompared (Bool.not_eq_true _ ▸ hunmarked))

/-- A walk below a node with unchanged children contributes what the children contribute. -/
lemma yields_walkSettled (ha : pass.Ahead page t (levels + 1) into s)
    (hbelow : pass.Descends page levels descend)
    (hcompared : (pass.view.entry t.id).compared = none) :
    Yields (pass.walkSettled descend into t.id) s
      (fun _ s' => pass.Completes t into s s')
      (pass.MayFail page t) := by
  rw [walkSettled]
  rw [yields_ite]
  constructor
  · intro hchanged
    rw [yields_bind, yields_noteOn]
    refine yields_unchanged h ha hbelow hcompared ⟨.noteOn, [], ?_, .nil _⟩
      (ha.fresh.confined (A := fun _ => False) .noteOn fun _ _ => id)
    rw [Ledger.sheet_update_self _ ha.into_lt, Sheet.alter, ha.isWhole, ownAltered, if_pos hchanged]
    simp
  · intro hunchanged
    refine yields_unchanged h ha hbelow hcompared ?_ ha.fresh
    rw [ownAltered, if_neg hunchanged]
    exact .refl s

/-! ### Nodes whose children changed -/

omit h in
/-- The state in which the sheet of a container has just been opened. -/
structure Opened (pass : Pass) (t : Node) (into : Nat) (s s' : Progress) : Prop where
  /-- Nothing is noted about nodes that are not below the container. -/
  confined : Confined (Covers pass.view.parent t.id) into s s'
  /-- The sheet given to the walk is as it was. -/
  into_eq : s'.ledger.sheet into = s.ledger.sheet into
  /-- The sheet of the container is a new one. -/
  next_lt : s.ledger.next < s'.ledger.next
  /-- It belongs to the container. -/
  container_eq : (s'.ledger.sheet s.ledger.next).container = some t.id
  /-- It says whether the attributes of the container are to be sent. -/
  ownAttributes_eq : (s'.ledger.sheet s.ledger.next).ownAttributes =
    (pass.view.entry t.id).attributesChanged

omit h in
lemma Opened.confined_trans (ho : pass.Opened t into s s₁) (hinto : into < s.ledger.next)
    (hs : Confined (Covers pass.view.parent t.id) s.ledger.next s₁ s')
    (hcontainer : (s'.ledger.sheet s.ledger.next).container = some t.id)
    (hown : (s'.ledger.sheet s.ledger.next).ownAttributes =
      (pass.view.entry t.id).attributesChanged) : pass.Opened t into s s' where
  confined := ho.confined.trans hs (.inr (Nat.le_refl _))
  into_eq := (hs.sheet_eq into (Nat.lt_trans hinto ho.next_lt) (Nat.ne_of_lt hinto)).trans ho.into_eq
  next_lt := Nat.lt_of_lt_of_le ho.next_lt hs.next_le
  container_eq := hcontainer
  ownAttributes_eq := hown

omit h in
/-- A sheet that leads to no operation is not hung below another one, and nothing is contributed. -/
lemma of_isBlank (pass : Pass) {sheet : Sheet} (hblank : sheet.isBlank = true)
    (hcontainer : sheet.container = some c) :
    sheet.deletions = [] ∧ pass.additions sheet = .ok [] ∧ sheet.nested = [] := by
  simp only [Sheet.isBlank, Sheet.isWhole, Bool.and_eq_true, Bool.not_eq_true', Bool.or_eq_false_iff,
    List.isEmpty_iff] at hblank
  obtain ⟨⟨⟨⟨⟨⟨hreplaced, -⟩, hown⟩, hremoved⟩, hinserted⟩, haltered⟩, hnested⟩ := hblank
  refine ⟨?_, ?_, hnested⟩
  · simp [Sheet.deletions, hreplaced, hremoved]
  · rw [additions]
    simp only [hcontainer, hreplaced, hown, hinserted, haltered]
    rfl

omit h in
/-- At last the sheet of a container is hung below the one given to the walk. -/
lemma Opened.yields_hang (share : Share) {own inner innerRemovals : List Operation}
    (ho : pass.Opened t into s s₁) (hinto : into < s.ledger.next)
    (hadditions : pass.additions (s₁.ledger.sheet s.ledger.next) = .ok own)
    (htold : Told pass s₁.ledger s₁.ledger.next (s.ledger.next + 1)
      (s₁.ledger.sheet s.ledger.next).nested innerRemovals inner)
    (hdeleted : share.deleted.map .delete =
      (s₁.ledger.sheet s.ledger.next).deletions ++ innerRemovals)
    (hrest : share.rest = own ++ inner) (haltered : share.altered = [])
    (hplanned : pass.Planned t share) (hdone : t.id ∈ s₁.finished) :
    Yields (if (s₁.ledger.sheet s.ledger.next).isBlank = true then pure ()
        else hang into s.ledger.next t.id) s₁
      (fun _ s' => pass.Completes t into s s') F := by
  rw [yields_ite]
  constructor
  · intro hblank
    obtain ⟨hdeletions, hnone, hnested⟩ := of_isBlank pass hblank ho.container_eq
    rw [hnested] at htold
    rw [hnone] at hadditions
    cases htold
    cases hadditions
    refine ⟨⟨share, hplanned, ho.confined, [], ?_, ?_⟩, hdone⟩
    · rw [ho.into_eq, haltered]
      simp
    · rw [hdeleted, hrest, hdeletions]
      exact .nil _
  · intro _
    rw [Pass.hang, if_neg (Nat.ne_of_lt hinto), yields_noteOn]
    exact ⟨⟨share, hplanned, .hang ho.confined hinto ho.next_lt ho.into_eq hadditions htold hdeleted
      hrest haltered⟩, hdone⟩

/-- A container whose children are sent anew contributes that. -/
lemma yields_replace (ha : pass.Ahead page t (levels + 1) into s)
    (hcompared : (pass.view.entry t.id).compared = some (shown, current))
    (hreason : pass.sendsAnew t.id shown current = true ∨
      pass.policy.rejectsChanges (pass.changes t.id shown current) current.length = true)
    (ho : pass.Opened t into s s₁) :
    Yields (do
        pass.replace (levels + 1) s.ledger.next t.id shown
        Pass.markDone t.id
        let own ← sheet s.ledger.next
        if own.isBlank = true then pure () else hang into s.ledger.next t.id) s₁
      (fun _ s' => pass.Completes t into s s')
      (pass.MayFail page t) := by
  obtain ⟨hcurrent, hshown⟩ := h.children_of_compared_some ha.mem hcompared
  simp only [yields_bind, replace, yields_noteOn]
  cases hevicted : pass.evicted t.id (levels + 1) t.id shown with
  | error e =>
    rw [yields_throw]
    refine .inl ⟨isTooDeep_of_evicted hevicted, fun hwithin => ?_⟩
    obtain ⟨gone, hgone⟩ := evicted_ok h t.id t.id t.childList
      (fun c hc => Node.mem_preorder_of_mem_childList ha.mem hc)
      (fun c hc n hn => hwithin.depth_le n (Node.mem_ids_iff.2 (.inr ⟨c, hc, hn⟩)))
      (Nat.succ_pos levels) fun c hc => by
        have := Node.height_lt_of_mem_childList hc
        have := ha.levels_eq
        have := hwithin.height_le
        omega
    rw [hshown, hevicted] at hgone
    cases hgone
  | ok gone =>
    simp only [yields_noteOn, yields_markDone, yields_sheet]
    set s₂ : Progress := {
      tables := s₁.tables
      ledger := (s₁.ledger.update s.ledger.next Sheet.replace).update s.ledger.next fun sheet =>
        { sheet with evicted := gone }
      finished := s₁.finished ++ [t.id] } with hs₂
    have hsheet : s₂.ledger.sheet s.ledger.next =
        { (s₁.ledger.sheet s.ledger.next).replace with evicted := gone } := by
      rw [hs₂, Ledger.sheet_update_self _ (by rw [Ledger.next_update]; exact ho.next_lt),
        Ledger.sheet_update_self _ ho.next_lt]
    have hconfined : Confined (Covers pass.view.parent t.id) s.ledger.next s₁ s₂ :=
      (Confined.noteOn.trans .noteOn (.inl rfl)).trans (.markDone (.refl _)) (.inl rfl)
    have hopened : pass.Opened t into s s₂ := ho.confined_trans ha.into_lt hconfined
      (by rw [hsheet]; exact ho.container_eq) (by rw [hsheet]; exact ho.ownAttributes_eq)
    have hadditions := additions_of_replaced pass hopened.container_eq
      hopened.ownAttributes_eq (by rw [hsheet]; rfl)
    have htold : Told pass s₂.ledger s₂.ledger.next (s.ledger.next + 1)
        (s₂.ledger.sheet s.ledger.next).nested [] [] := by
      rw [hsheet]
      exact .nil _
    have hplanned := Planned.anew hcompared hreason hevicted
    rw [← hcurrent] at hplanned
    refine hopened.yields_hang _ ha.into_lt hadditions htold ?_
      (List.append_nil _).symm rfl hplanned (by simp [hs₂])
    rw [hsheet]
    simp [Sheet.deletions, Sheet.replace]

omit h in
/-- The state after a sheet has been opened for a container. -/
def opened (pass : Pass) (c : NodeId) (s : Progress) : Progress where
  tables := s.tables
  ledger := (s.ledger.openSheet c).update s.ledger.next fun sheet =>
    { sheet with ownAttributes := (pass.view.entry c).attributesChanged }
  finished := s.finished

omit h in
lemma sheet_opened (pass : Pass) (c : NodeId) (s : Progress) :
    (pass.opened c s).ledger.sheet s.ledger.next =
      { container := some c, ownAttributes := (pass.view.entry c).attributesChanged } := by
  rw [opened, Ledger.sheet_update_self _ (by rw [Ledger.next_openSheet]; exact Nat.lt_succ_self _),
    Ledger.sheet_openSheet, if_pos rfl]

omit h in
lemma next_lt_opened (pass : Pass) (c : NodeId) (s : Progress) :
    s.ledger.next < (pass.opened c s).ledger.next := by
  rw [opened, Ledger.next_update, Ledger.next_openSheet]
  exact Nat.lt_succ_self _

omit h in
lemma find?_opened (pass : Pass) (c : NodeId) (s : Progress) :
    (pass.opened c s).ledger.find? c = some s.ledger.next := by
  rw [opened, Ledger.find?_update, Ledger.find?_openSheet, if_pos rfl]

omit h in
lemma opened_opened (hinto : into < s.ledger.next) : pass.Opened t into s (pass.opened t.id s) where
  confined := (Confined.openSheet (.refl _)).trans .noteOn (.inr (Nat.le_refl _))
  into_eq := by
    rw [opened, Ledger.sheet_update_of_ne _ (Nat.ne_of_gt hinto), Ledger.sheet_openSheet,
      if_neg (Nat.ne_of_lt hinto)]
  next_lt := pass.next_lt_opened t.id s
  container_eq := by rw [sheet_opened]
  ownAttributes_eq := by rw [sheet_opened]

omit h in
/-- Below a container, opening its sheet leaves everything ahead. -/
lemma fresh_opened (hac : Acyclic pass.view.parent) (hfresh : pass.Fresh s c) {y : NodeId}
    (hy : pass.view.parent y = some c) : pass.Fresh (pass.opened c s) y := by
  intro z hyz
  have hne : c ≠ z := fun e => hac.not_covers_parent hy (e ▸ hyz)
  have huntouched := hfresh z (.trans (.of_parent hy) hyz)
  refine ⟨?_, huntouched.moved_eq, huntouched.finished⟩
  rw [opened, Ledger.find?_update, Ledger.find?_openSheet, if_neg hne, huntouched.find?_eq]

/-- After its children have been compared, a container contributes the changes that have been noted, or
that its children are sent anew. -/
lemma yields_compared {parts : List (Node × Share)} {s₂ : Progress}
    (ha : pass.Ahead page t (levels + 1) into s)
    (hcompared : (pass.view.entry t.id).compared = some (shown, current))
    (hcomp : pass.Compared t s.ledger.next shown current (pass.opened t.id s) parts s₂) :
    Yields (do
        let changes ← sheet s.ledger.next
        if pass.policy.rejectsChanges (changes.removed.length + changes.inserted.length)
            current.length = true then
          pass.replace (levels + 1) s.ledger.next t.id shown
          Pass.markDone t.id
          let own ← sheet s.ledger.next
          if own.isBlank = true then pure () else hang into s.ledger.next t.id
        else
          Pass.markDone t.id
          let own ← sheet s.ledger.next
          if own.isBlank = true then pure () else hang into s.ledger.next t.id) s₂
      (fun _ s' => pass.Completes t into s s')
      (pass.MayFail page t) := by
  obtain ⟨hcurrent, hshown⟩ := h.children_of_compared_some ha.mem hcompared
  obtain ⟨inserted, numbers, hsheet, hsorted, hmem, htold⟩ := hcomp.sheet
  rw [sheet_opened] at hsheet
  have hchanges : (s₂.ledger.sheet s.ledger.next).removed.length +
      (s₂.ledger.sheet s.ledger.next).inserted.length = pass.changes t.id shown current := by
    rw [hsheet, changes, ← hcomp.map_inserted hshown ⟨hsorted, fun e => by simpa using hmem e⟩,
      List.length_map]
  have hopened : pass.Opened t into s s₂ := (opened_opened ha.into_lt).confined_trans ha.into_lt
    hcomp.confined (by rw [hsheet]) (by rw [hsheet])
  rw [yields_bind, yields_sheet, hchanges, yields_ite]
  refine ⟨fun hrejected => yields_replace h ha hcompared (.inr hrejected) hopened,
    fun haccepted => ?_⟩
  rw [yields_bind, yields_markDone, yields_bind, yields_sheet]
  have hdone : pass.Opened t into s { s₂ with finished := s₂.finished ++ [t.id] } :=
    ⟨hopened.confined.trans (.markDone (.refl _)) (.inl rfl), hopened.into_eq, hopened.next_lt,
      hopened.container_eq, hopened.ownAttributes_eq⟩
  have hadditions := additions_of_sheet pass hopened.container_eq hopened.ownAttributes_eq
    (by rw [hsheet]) hcurrent (by rw [hsheet]; exact hsorted) (by rw [hsheet]; exact hmem)
  have haltered : (s₂.ledger.sheet s.ledger.next).altered = parts.flatMap (·.2.altered) := by
    rw [hsheet]
  rw [haltered] at hadditions
  refine hdone.yields_hang
    { deleted := pass.removals t.id shown current ++ parts.flatMap (·.2.deleted), rest := _ }
    ha.into_lt hadditions (by rw [hsheet]; exact htold) ?_ rfl rfl
    (.mixed hcompared hcomp.nodup_removals hcomp.mem_removals hcomp.shown_order hcomp.current_order
      (Bool.not_eq_true _ ▸ haccepted) hcomp.planned) (by simp)
  rw [hsheet, List.map_append]
  rfl

/-- The children of a container are compared in the state in which its sheet has just been opened. -/
lemma yields_comparison (ha : pass.Ahead page t (levels + 1) into s)
    (hbelow : pass.Descends page levels descend)
    (hcompared : (pass.view.entry t.id).compared = some (shown, current)) (hne : shown ≠ []) :
    Yields (pass.compareChildren (descend s.ledger.next) s.ledger.next t.id shown current)
      (pass.opened t.id s)
      (fun _ s' => ∃ parts,
        pass.Compared t s.ledger.next shown current (pass.opened t.id s) parts s')
      (pass.MayFail page t) := by
  obtain ⟨hcurrent, hshown⟩ := h.children_of_compared_some ha.mem hcompared
  have hopened : pass.Opened t into s (pass.opened t.id s) := opened_opened ha.into_lt
  have hlists : pass.ChildLists t shown current := {
    acyclic := h.acyclic
    map_id_eq := hshown
    nodup_shown := hshown ▸ Node.nodup_map_id_childList (Node.nodup_of_mem h.nodup ha.mem)
    nodup_current := hcurrent ▸ h.nodup_children t.id
    mem_current := fun y => hcurrent ▸ h.mem_children y t.id
    shownParent_eq := fun y hy => by
      obtain ⟨c, hc, rfl⟩ := List.mem_map.1 (hshown ▸ hy)
      exact h.shownParent_eq t ha.mem c hc }
  refine hlists.yields_compareChildren ?_ (fun y hy => fresh_opened h.acyclic ha.fresh hy)
    hopened.next_lt (by rw [sheet_opened]) ?_
  · rintro ⟨y, -, hys, hyshown⟩ _
    refine .inr ⟨t, ha.mem, fun hnil => hne ?_, y, hys, hshown ▸ hyshown⟩
    rw [← hshown, hnil, List.map_nil]
  · intro k hk hkparent s₂ hkfresh hnumber hwhole
    apply (hbelow k _ s₂ (ha.child h hk hkparent hkfresh hnumber hwhole)).weaken
    exact fun e he => he.of_child h hk hkparent

/-- A walk below a container with changed children contributes what is planned for it. -/
lemma yields_walkChanged (ha : pass.Ahead page t (levels + 1) into s)
    (hbelow : pass.Descends page levels descend)
    (hcompared : (pass.view.entry t.id).compared = some (shown, current)) :
    Yields (pass.walkChanged descend (levels + 1) into t.id shown current) s
      (fun _ s' => pass.Completes t into s s') (pass.MayFail page t) := by
  rw [walkChanged]
  simp only [yields_bind, yields_get, ha.fresh.self.find?_eq, yields_note, yields_noteOn]
  rw [yields_ite]
  constructor
  · intro hanew
    exact yields_replace h ha hcompared (.inl hanew) (opened_opened ha.into_lt)
  · intro hmixed
    have hne : shown ≠ [] := by
      rintro rfl
      simp at hmixed
    rw [yields_bind]
    apply (yields_comparison h ha hbelow hcompared hne).mono
    rintro _ s₂ ⟨parts, hcomp⟩
    exact yields_compared h ha hcompared hcomp

/-- A walk below a shown node that is still ahead contributes a planned share. -/
theorem descends_walk (levels : Nat) : pass.Descends page levels (pass.walk levels) := by
  induction levels with
  | zero =>
    intro t into s ha
    rw [walk, yields_throw]
    refine .inl ⟨⟨_, _, rfl⟩, fun hwithin => ?_⟩
    have := ha.levels_eq
    have := hwithin.depth_le t.id t.id_mem_ids
    omega
  | succ levels ih =>
    intro t into s ha
    rw [walk]
    cases hcompared : (pass.view.entry t.id).compared with
    | none => exact yields_walkSettled h ha ih hcompared
    | some lists => exact yields_walkChanged h ha ih hcompared

end Depicts

end Pass

end PageSync
