import PageSync.Proofs.Departures
import PageSync.Proofs.Runs

/-!
# Nothing is sent twice or in vain

The operations of a pass are thrifty (`Node.Thrifty`): removals come first and none is implied by
another one, no node is sent twice, attributes are not sent for nodes that are sent as a whole, and
nothing is done to nodes that are removed or replaced with what is around them
(`Run.thrifty_of_pass`).

The proof follows the plan of a walk. What a walk contributes below one shown node keeps to the nodes
shown below it and to the nodes that stand below it now (`Pass.Tidy`), and those of different children
have nothing to do with each other.
-/

namespace PageSync

namespace Operation

/-- Whether the operation inserts a subtree. -/
def isInsertion : Operation → Bool
  | .insertAfter .. => true
  | _ => false

/-- Whether the operation puts other children into a container. -/
def isReplacement : Operation → Bool
  | .replaceChildren .. => true
  | _ => false

/-- Whether the operation sends attributes. -/
def isAlteration : Operation → Bool
  | .changeAttributes .. => true
  | _ => false

/-- The nodes that the operation carries to the client. -/
def sent (op : Operation) : List NodeId := op.content.flatMap Node.ids

end Operation

namespace Node

/-- Whether a node of a page is another one or has it below. -/
def Holds (page : Node) (a n : NodeId) : Prop := ∃ m ∈ page.preorder, m.id = a ∧ n ∈ m.ids

/-- Whether operations on a page do nothing twice and nothing in vain. -/
structure Thrifty (page : Node) (ops : List Operation) : Prop where
  /-- All removals come first. -/
  deletes_first : ops.Pairwise fun a b => b.isDelete = true → a.isDelete = true
  /-- No node is removed twice, or besides one that has it below. -/
  deletes_apart : ops.Pairwise fun a b => a.isDelete = true → b.isDelete = true →
    a.target ≠ b.target ∧ ¬ page.Holds a.target b.target ∧ ¬ page.Holds b.target a.target
  /-- No node is sent twice. -/
  nodup_sent : (ops.flatMap Operation.sent).Nodup
  /-- The attributes of a node are sent once. -/
  alterations_apart : ops.Pairwise fun a b => a.isAlteration = true → b.isAlteration = true →
    a.target ≠ b.target
  /-- They are not sent apart from the node if that is sent. -/
  alteration_notMem : ∀ a ∈ ops, a.isAlteration = true → ∀ b ∈ ops, a.target ∉ b.sent
  /-- The children of a container are replaced once. -/
  replacements_apart : ops.Pairwise fun a b => a.isReplacement = true → b.isReplacement = true →
    a.target ≠ b.target
  /-- Nothing is inserted into a container with other children. -/
  replacement_ne : ∀ a ∈ ops, a.isReplacement = true → ∀ b ∈ ops, b.isInsertion = true →
    a.target ≠ b.target
  /-- Nothing is done but to nodes of the page. -/
  target_mem : ∀ a ∈ ops, a.isDelete = false → a.target ∈ page.ids
  /-- Nothing else is done to a node that is removed, or below one. -/
  target_stays : ∀ a ∈ ops, a.isDelete = false → ∀ b ∈ ops, b.isDelete = true →
    ¬ page.Holds b.target a.target
  /-- Nothing is done below a container whose children are replaced. -/
  target_outside : ∀ a ∈ ops, a.isDelete = false → ∀ b ∈ ops, b.isReplacement = true →
    page.Holds b.target a.target → a.target = b.target

variable {page t c : Node} {a n : NodeId}

lemma holds_self (ha : a ∈ page.ids) : page.Holds a a := by
  obtain ⟨m, hm, rfl⟩ := mem_ids.1 ha
  exact ⟨m, hm, rfl, m.id_mem_ids⟩

/-- What a node of a subtree has below is in the subtree. -/
lemma Holds.mem_ids (h : page.Holds a n) (hpage : page.ids.Nodup) (ht : t ∈ page.preorder)
    (ha : a ∈ t.ids) : n ∈ t.ids := by
  obtain ⟨m, hm, rfl, hn⟩ := h
  obtain ⟨x, hx, hid⟩ := Node.mem_ids.1 ha
  obtain rfl := eq_of_id_eq hpage (preorder_subset ht hx) hm hid
  obtain ⟨y, hy, rfl⟩ := Node.mem_ids.1 hn
  exact Node.mem_ids.2 ⟨y, preorder_subset hx hy, rfl⟩

end Node

/-! ### Operations that spare each other -/

/-- Whether an operation neither repeats nor undoes anything of another one. -/
structure Operation.Spares (page : Node) (a b : Operation) : Prop where
  /-- It sends other nodes. -/
  sent : ∀ y ∈ a.sent, y ∉ b.sent
  /-- It does not send attributes of a node that is sent. -/
  altered : a.isAlteration = true → a.target ∉ b.sent
  /-- It does not send attributes once more. -/
  altered_ne : a.isAlteration = true → b.isAlteration = true → a.target ≠ b.target
  /-- If it replaces the children of a container, then the other one is about its attributes or about
  some node that is not below. -/
  replaced : a.isReplacement = true →
    b.isAlteration = true ∧ a.target = b.target ∨ ¬ page.Holds a.target b.target

namespace Operation

variable {page : Node} {a b op : Operation} {A B : NodeId → Prop}

lemma isDelete_of_isInsertion (h : op.isInsertion = true) : op.isDelete = false := by
  cases op <;> cases h
  rfl

lemma isDelete_of_isReplacement (h : op.isReplacement = true) : op.isDelete = false := by
  cases op <;> cases h
  rfl

lemma isDelete_of_isAlteration (h : op.isAlteration = true) : op.isDelete = false := by
  cases op <;> cases h
  rfl

/-- Operations that keep to different nodes spare each other, if the nodes of the second one are not
replaced. -/
lemma Spares.of_disjoint (ha : A a.target ∧ ∀ y ∈ a.sent, A y) (hb : B b.target ∧ ∀ y ∈ b.sent, B y)
    (hdisjoint : ∀ y, A y → ¬ B y)
    (hholds : a.isReplacement = true → ¬ page.Holds a.target b.target) : Spares page a b where
  sent y hya hyb := hdisjoint y (ha.2 y hya) (hb.2 y hyb)
  altered _ hmem := hdisjoint _ ha.1 (hb.2 _ hmem)
  altered_ne _ _ heq := hdisjoint _ ha.1 (heq ▸ hb.1)
  replaced h := .inr (hholds h)

end Operation

/-- The operations other than removals to which a share leads. -/
def Share.later (share : Share) (pass : Pass) : List Operation :=
  share.altered.map pass.alteration ++ share.rest

namespace Pass

open Operation (Spares isDelete_of_isInsertion isDelete_of_isReplacement isDelete_of_isAlteration)

variable {pass : Pass} {page t : Node} {share : Share} {n : NodeId} {kept nodes : List NodeId}
  {deleted : List NodeId} {own later later' : List Operation} {parts : List (Node × Share)}
  {op : Operation}

/-- Whether an operation keeps to the nodes that are shown below a node and are not removed, and to the
nodes that are below it now. -/
structure KeepsTo (pass : Pass) (page t : Node) (deleted : List NodeId) (op : Operation) : Prop where
  /-- Nothing is removed. -/
  isDelete_eq : op.isDelete = false
  /-- It is addressed to a node that is shown there. -/
  target_mem : op.target ∈ t.ids
  /-- The node is there now. -/
  target_covers : Covers pass.view.parent t.id op.target
  /-- It is not removed. -/
  target_stays : ∀ d ∈ deleted, ¬ page.Holds d op.target
  /-- Nodes are sent that are there now. -/
  sent_below : ∀ y ∈ op.sent, Covers pass.view.parent t.id y
  /-- Each of them is sent once. -/
  nodup_sent : op.sent.Nodup

/-- Whether the removals and the other operations because of one shown node keep to nodes below it, and
spare each other. -/
structure Tidy (pass : Pass) (page t : Node) (deleted : List NodeId) (later : List Operation) :
    Prop where
  /-- Nodes that are shown below the node are removed. -/
  deleted_mem : ∀ d ∈ deleted, ∃ c ∈ t.childList, d ∈ c.ids
  /-- None of them is shown below another one. -/
  deleted_apart : deleted.Pairwise fun d e => ¬ page.Holds d e ∧ ¬ page.Holds e d
  /-- Nothing else is done elsewhere or in vain. -/
  keepsTo : ∀ op ∈ later, pass.KeepsTo page t deleted op
  /-- Nothing is done twice. -/
  spares : later.Pairwise fun a b => Spares page a b ∧ Spares page b a

/-- Whether an operation is addressed to a node, and sends none but children of it that are not kept. -/
structure IsOwn (pass : Pass) (t : Node) (kept : List NodeId) (op : Operation) : Prop where
  /-- It is addressed to the node. -/
  target_eq : op.target = t.id
  /-- It does not remove it. -/
  isDelete_eq : op.isDelete = false
  /-- It sends children that are not kept. -/
  sent_below : ∀ y ∈ op.sent, ∃ n ∉ kept, pass.view.parent n = some t.id ∧
    Covers pass.view.parent n y
  /-- Each node is sent once. -/
  nodup_sent : op.sent.Nodup
  /-- No children are kept if all are replaced. -/
  kept_eq_nil : op.isReplacement = true → kept = []

/-- Whether what is done because of a node is made up of what is done because of its kept children, of
operations on the node itself, and of removals elsewhere below it. -/
structure Composed (pass : Pass) (page t : Node) (parts : List (Node × Share)) (deleted : List NodeId)
    (own : List Operation) : Prop where
  /-- The kept children are shown below the node. -/
  shown_order : (parts.map (·.1)).Sublist t.childList
  /-- They are children of it now. -/
  parent_eq : ∀ p ∈ parts, pass.view.parent p.1.id = some t.id
  /-- What is done because of them is tidy. -/
  tidy : ∀ p ∈ parts, pass.Tidy page p.1 p.2.deleted (p.2.later pass)
  /-- Other nodes are removed in other children. -/
  deleted_mem : ∀ d ∈ deleted, ∃ c ∈ t.childList, c ∉ parts.map (·.1) ∧ d ∈ c.ids
  /-- None of them is shown below another one. -/
  deleted_apart : deleted.Pairwise fun d e => ¬ page.Holds d e ∧ ¬ page.Holds e d
  /-- The operations on the node leave the kept children alone. -/
  isOwn : ∀ op ∈ own, pass.IsOwn t (parts.map (·.1.id)) op
  /-- They spare each other. -/
  own_spares : own.Pairwise fun a b => Spares page a b ∧ Spares page b a

lemma Tidy.perm (h : pass.Tidy page t deleted later) (hperm : later.Perm later') :
    pass.Tidy page t deleted later' where
  deleted_mem := h.deleted_mem
  deleted_apart := h.deleted_apart
  keepsTo op hop := h.keepsTo op (hperm.mem_iff.2 hop)
  spares := (hperm.pairwise_iff fun h => And.symm h).1 h.spares

section Depicts

variable (h : pass.view.Depicts page) (ht : t ∈ page.preorder)

include h ht

/-! ### Operations because of different nodes -/

/-- What is shown below one child is not below what is shown in another one. -/
lemma not_holds_of_ne {c c' : Node} {d e : NodeId} (hc : c ∈ t.childList) (hc' : c' ∈ t.childList)
    (hne : c ≠ c') (hd : d ∈ c.ids) (he : e ∈ c'.ids) : ¬ page.Holds d e := by
  intro hholds
  have hmem := hholds.mem_ids h.nodup (Node.mem_preorder_of_mem_childList ht hc) hd
  exact Node.notMem_ids_of_ne (Node.nodup_of_mem h.nodup ht) hc hc' hne hmem he

/-- A node is not below what is shown in a child of it. -/
lemma not_holds_self {c : Node} {d : NodeId} (hc : c ∈ t.childList) (hd : d ∈ c.ids) :
    ¬ page.Holds d t.id := fun hholds =>
  Node.notMem_ids_of_mem_childList (Node.nodup_of_mem h.nodup ht) hc
    (hholds.mem_ids h.nodup (Node.mem_preorder_of_mem_childList ht hc) hd)

/-- Operations because of different children spare each other. -/
lemma KeepsTo.spares_of_ne {k k' : Node} {deleted deleted' : List NodeId} {a b : Operation}
    (hk : k ∈ t.childList) (hk' : k' ∈ t.childList) (hne : k ≠ k')
    (hparent : pass.view.parent k.id = some t.id) (hparent' : pass.view.parent k'.id = some t.id)
    (ha : pass.KeepsTo page k deleted a) (hb : pass.KeepsTo page k' deleted' b) :
    Spares page a b := by
  have hid : k.id ≠ k'.id := fun heq => hne <| Node.eq_of_id_eq h.nodup
    (Node.mem_preorder_of_mem_childList ht hk) (Node.mem_preorder_of_mem_childList ht hk') heq
  refine .of_disjoint (A := Covers pass.view.parent k.id) (B := Covers pass.view.parent k'.id)
    ⟨ha.target_covers, ha.sent_below⟩ ⟨hb.target_covers, hb.sent_below⟩ (fun y hy => ?_) fun _ => ?_
  · exact h.acyclic.not_covers_both hparent hparent' hid hy
  · exact not_holds_of_ne h ht hk hk' hne ha.target_mem hb.target_mem

/-- Operations on a node and operations because of a kept child spare each other. -/
lemma IsOwn.spares_part {k : Node} {a b : Operation} (ha : pass.IsOwn t kept a)
    (hk : k ∈ t.childList) (hkept : k.id ∈ kept) (hparent : pass.view.parent k.id = some t.id)
    (hb : pass.KeepsTo page k deleted b) : Spares page a b ∧ Spares page b a := by
  let A (y : NodeId) : Prop := y = t.id ∨ ∃ n ∉ kept, pass.view.parent n = some t.id ∧
    Covers pass.view.parent n y
  have hA : A a.target ∧ ∀ y ∈ a.sent, A y :=
    ⟨.inl ha.target_eq, fun y hy => .inr (ha.sent_below y hy)⟩
  have hdisjoint (y : NodeId) (hy : A y) : ¬ Covers pass.view.parent k.id y := by
    rcases hy with rfl | ⟨n, hn, hnparent, hcov⟩
    · exact h.acyclic.not_covers_parent hparent
    · exact h.acyclic.not_covers_both hnparent hparent (fun e => hn (e ▸ hkept)) hcov
  constructor
  · refine .of_disjoint hA ⟨hb.target_covers, hb.sent_below⟩ hdisjoint fun hreplaced => ?_
    rw [ha.kept_eq_nil hreplaced] at hkept
    cases hkept
  · refine .of_disjoint ⟨hb.target_covers, hb.sent_below⟩ hA
      (fun y hyb hya => hdisjoint y hya hyb) fun _ => ?_
    rw [ha.target_eq]
    exact not_holds_self h ht hk hb.target_mem

omit ht in
/-- Attributes of a node may be sent besides operations of another kind. -/
lemma IsOwn.spares_alteration (hown : pass.IsOwn t kept op) (hkind : op.isAlteration = false) :
    Spares page (pass.alteration t.id) op ∧ Spares page op (pass.alteration t.id) := by
  constructor
  · refine ⟨fun y hy => absurd hy List.not_mem_nil, fun _ hmem => ?_, ?_, fun hreplaced => ?_⟩
    · obtain ⟨n, -, hn, hcov⟩ := hown.sent_below _ hmem
      exact h.acyclic.not_covers_parent hn hcov
    · simp [hkind]
    · cases hreplaced
  · refine ⟨fun y _ => List.not_mem_nil, fun _ => List.not_mem_nil, ?_, fun _ => ?_⟩
    · simp [hkind]
    · exact .inl ⟨rfl, hown.target_eq⟩

omit ht in
/-- Different children may be inserted. -/
lemma spares_insertion {m n : NodeId} {before before' : Option NodeId}
    (hm : pass.view.parent m = some t.id) (hn : pass.view.parent n = some t.id) (hne : m ≠ n) :
    Spares page (.insertAfter t.id before (pass.view.describe m))
      (.insertAfter t.id before' (pass.view.describe n)) := by
  have hsent {n y : NodeId} {after : Option NodeId}
      (hy : y ∈ (Operation.insertAfter t.id after (pass.view.describe n)).sent) :
      Covers pass.view.parent n y := by
    simpa [Operation.sent, Operation.content, h.mem_ids_describe] using hy
  refine ⟨fun y hy hy' => h.acyclic.not_covers_both hm hn hne (hsent hy) (hsent hy'), ?_, ?_, ?_⟩ <;>
  · intro hother
    cases hother

/-! ### Operations because of a node and of its children -/

namespace Composed

variable {c : Node} {d : NodeId} {p q : Node × Share} (hc : pass.Composed page t parts deleted own)

include hc

omit h ht in
lemma mem_childList (hp : p ∈ parts) : p.1 ∈ t.childList :=
  hc.shown_order.subset (List.mem_map_of_mem hp)

omit h ht in
lemma mem_ids_part (hp : p ∈ parts) (hd : d ∈ p.2.deleted) : d ∈ p.1.ids :=
  Node.mem_ids_iff.2 (.inr ((hc.tidy p hp).deleted_mem d hd))

omit h ht in
lemma mem_deleted (hd : d ∈ deleted ++ parts.flatMap (·.2.deleted)) : ∃ c ∈ t.childList, d ∈ c.ids := by
  rcases List.mem_append.1 hd with hd | hd
  · obtain ⟨c, hct, -, hd⟩ := hc.deleted_mem d hd
    exact ⟨c, hct, hd⟩
  · obtain ⟨p, hp, hd⟩ := List.mem_flatMap.1 hd
    exact ⟨p.1, hc.mem_childList hp, hc.mem_ids_part hp hd⟩

lemma nodup_parts : (parts.map (·.1)).Nodup :=
  (Node.nodup_map_id_childList (Node.nodup_of_mem h.nodup ht)).of_map.sublist hc.shown_order

/-- Nodes of a kept child are below none that is removed because of other nodes. -/
lemma not_holds_deleted (hp : p ∈ parts) (hn : n ∈ p.1.ids)
    (hd : d ∈ deleted ++ parts.flatMap (·.2.deleted)) (hself : d ∈ p.2.deleted → ¬ page.Holds d n) :
    ¬ page.Holds d n := by
  rcases List.mem_append.1 hd with hd | hd
  · obtain ⟨c, hct, hcparts, hd⟩ := hc.deleted_mem d hd
    have hne : c ≠ p.1 := fun heq => hcparts (heq ▸ List.mem_map_of_mem hp)
    exact not_holds_of_ne h ht hct (hc.mem_childList hp) hne hd hn
  · obtain ⟨q, hq, hd⟩ := List.mem_flatMap.1 hd
    by_cases hqp : q.1 = p.1
    · obtain rfl := List.inj_on_of_nodup_map (hc.nodup_parts h ht) hq hp hqp
      exact hself hd
    · exact not_holds_of_ne h ht (hc.mem_childList hq) (hc.mem_childList hp) hqp
        (hc.mem_ids_part hq hd) hn

/-- No removed node is shown below another one. -/
lemma pairwise_deleted : (deleted ++ parts.flatMap (·.2.deleted)).Pairwise fun d e =>
    ¬ page.Holds d e ∧ ¬ page.Holds e d := by
  refine List.pairwise_append.2 ⟨hc.deleted_apart, List.pairwise_flatMap.2
    ⟨fun p hp => (hc.tidy p hp).deleted_apart, ?_⟩, ?_⟩
  · refine (List.pairwise_map.1 (hc.nodup_parts h ht)).imp_of_mem fun {p q} hp hq hne d hd e he => ?_
    have hp' := hc.mem_childList hp
    have hq' := hc.mem_childList hq
    have hd := hc.mem_ids_part hp hd
    have he := hc.mem_ids_part hq he
    exact ⟨not_holds_of_ne h ht hp' hq' hne hd he, not_holds_of_ne h ht hq' hp' hne.symm he hd⟩
  · intro d hd e he
    obtain ⟨c, hct, hcparts, hd⟩ := hc.deleted_mem d hd
    obtain ⟨p, hp, he⟩ := List.mem_flatMap.1 he
    have hne : c ≠ p.1 := fun heq => hcparts (heq ▸ List.mem_map_of_mem hp)
    have hp' := hc.mem_childList hp
    have he := hc.mem_ids_part hp he
    exact ⟨not_holds_of_ne h ht hct hp' hne hd he, not_holds_of_ne h ht hp' hct hne.symm he hd⟩

lemma keepsTo_own (hop : op ∈ own) :
    pass.KeepsTo page t (deleted ++ parts.flatMap (·.2.deleted)) op := by
  have hop := hc.isOwn op hop
  refine ⟨hop.isDelete_eq, ?_, ?_, fun d hd => ?_, fun y hy => ?_, hop.nodup_sent⟩
  · rw [hop.target_eq]
    exact t.id_mem_ids
  · rw [hop.target_eq]
  · obtain ⟨c, hct, hd⟩ := hc.mem_deleted hd
    rw [hop.target_eq]
    exact not_holds_self h ht hct hd
  · obtain ⟨n, -, hn, hcov⟩ := hop.sent_below y hy
    exact .trans (.of_parent hn) hcov

lemma keepsTo_part (hp : p ∈ parts) (hop : op ∈ p.2.later pass) :
    pass.KeepsTo page t (deleted ++ parts.flatMap (·.2.deleted)) op := by
  have hop := (hc.tidy p hp).keepsTo op hop
  have hbelow := Covers.of_parent (hc.parent_eq p hp)
  refine ⟨hop.isDelete_eq, ?_, hbelow.trans hop.target_covers, fun d hd => ?_, fun y hy => ?_,
    hop.nodup_sent⟩
  · exact Node.mem_ids_iff.2 (.inr ⟨p.1, hc.mem_childList hp, hop.target_mem⟩)
  · exact hc.not_holds_deleted h ht hp hop.target_mem hd fun hd => hop.target_stays d hd
  · exact hbelow.trans (hop.sent_below y hy)

/-- All operations spare each other. -/
lemma pairwise_spares : (own ++ parts.flatMap (·.2.later pass)).Pairwise fun a b =>
    Spares page a b ∧ Spares page b a := by
  refine List.pairwise_append.2 ⟨hc.own_spares, List.pairwise_flatMap.2
    ⟨fun p hp => (hc.tidy p hp).spares, ?_⟩, ?_⟩
  · refine (List.pairwise_map.1 (hc.nodup_parts h ht)).imp_of_mem fun {p q} hp hq hne a ha b hb => ?_
    have hp' := hc.mem_childList hp
    have hq' := hc.mem_childList hq
    have ha := (hc.tidy p hp).keepsTo a ha
    have hb := (hc.tidy q hq).keepsTo b hb
    exact ⟨ha.spares_of_ne h ht hp' hq' hne (hc.parent_eq p hp) (hc.parent_eq q hq) hb,
      hb.spares_of_ne h ht hq' hp' hne.symm (hc.parent_eq q hq) (hc.parent_eq p hp) ha⟩
  · intro a ha b hb
    obtain ⟨p, hp, hb⟩ := List.mem_flatMap.1 hb
    exact (hc.isOwn a ha).spares_part h ht (hc.mem_childList hp) (List.mem_map_of_mem hp)
      (hc.parent_eq p hp) ((hc.tidy p hp).keepsTo b hb)

/-- What is done because of the node is tidy then. -/
lemma tidy_of_parts : pass.Tidy page t (deleted ++ parts.flatMap (·.2.deleted))
    (own ++ parts.flatMap (·.2.later pass)) where
  deleted_mem _ hd := hc.mem_deleted hd
  deleted_apart := hc.pairwise_deleted h ht
  keepsTo op hop := by
    rcases List.mem_append.1 hop with hop | hop
    · exact hc.keepsTo_own h ht hop
    · obtain ⟨p, hp, hop⟩ := List.mem_flatMap.1 hop
      exact hc.keepsTo_part h ht hp hop
  spares := hc.pairwise_spares h ht

end Composed

/-! ### Planned shares -/

omit h ht in
lemma eq_of_mem_ownAltered (hop : op ∈ (pass.ownAltered n).map pass.alteration) :
    op = pass.alteration n := by
  obtain ⟨m, hm, rfl⟩ := List.mem_map.1 hop
  rw [ownAltered] at hm
  split at hm
  · rw [List.mem_singleton.1 hm]
  · cases hm

omit h ht in
lemma isOwn_of_mem_ownAltered (hop : op ∈ (pass.ownAltered t.id).map pass.alteration) :
    pass.IsOwn t kept op := by
  rw [eq_of_mem_ownAltered hop]
  exact ⟨rfl, rfl, nofun, .nil, nofun⟩

omit h ht in
lemma mem_insertions {c : NodeId} {before : Option NodeId}
    (hop : op ∈ pass.insertions c kept before nodes) :
    ∃ n ∈ nodes, n ∉ kept ∧ ∃ before, op = .insertAfter c before (pass.view.describe n) := by
  induction nodes generalizing before with
  | nil => cases hop
  | cons n rest ih =>
    rw [insertions] at hop
    rcases List.mem_append.1 hop with hop | hop
    · split at hop
      · cases hop
      · next hkept => exact ⟨n, List.mem_cons_self, hkept, before, List.mem_singleton.1 hop⟩
    · obtain ⟨m, hm, hrest⟩ := ih hop
      exact ⟨m, List.mem_cons_of_mem n hm, hrest⟩

omit ht in
lemma isOwn_of_mem_insertions {before : Option NodeId}
    (hnodes : ∀ n ∈ nodes, pass.view.parent n = some t.id)
    (hop : op ∈ pass.insertions t.id kept before nodes) : pass.IsOwn t kept op := by
  obtain ⟨n, hn, hkept, before, rfl⟩ := mem_insertions hop
  refine ⟨rfl, rfl, fun y hy => ⟨n, hkept, hnodes n hn, ?_⟩, ?_, nofun⟩
  · simpa [Operation.sent, Operation.content, h.mem_ids_describe] using hy
  · simpa [Operation.sent, Operation.content] using h.nodup_ids_describe n

omit ht in
lemma pairwise_insertions {before : Option NodeId}
    (hnodes : ∀ n ∈ nodes, pass.view.parent n = some t.id) (hnodup : nodes.Nodup) :
    (pass.insertions t.id kept before nodes).Pairwise fun a b =>
      Spares page a b ∧ Spares page b a := by
  induction nodes generalizing before with
  | nil => exact .nil
  | cons n rest ih =>
    obtain ⟨hn, hrest⟩ := List.nodup_cons.1 hnodup
    have hparent := hnodes n List.mem_cons_self
    have hnodes (m : NodeId) (hm : m ∈ rest) := hnodes m (List.mem_cons_of_mem n hm)
    rw [insertions]
    refine List.pairwise_append.2 ⟨by split <;> simp, ih hnodes hrest, fun a ha b hb => ?_⟩
    obtain ⟨m, hm, -, before', rfl⟩ := mem_insertions hb
    have hne : n ≠ m := fun heq => hn (heq ▸ hm)
    split at ha
    · cases ha
    · obtain rfl := List.mem_singleton.1 ha
      exact ⟨spares_insertion h hparent (hnodes m hm) hne,
        spares_insertion h (hnodes m hm) hparent hne.symm⟩

omit ht in
lemma isOwn_replacement : pass.IsOwn t []
    (.replaceChildren t.id ((pass.view.children t.id).map pass.view.describe)) := by
  have hnodup := h.nodup_ids_describe t.id
  rw [Node.ids_eq_cons, h.childList_describe] at hnodup
  refine ⟨rfl, rfl, fun y hy => ?_, (List.nodup_cons.1 hnodup).2, fun _ => rfl⟩
  obtain ⟨c, hc, hy⟩ := List.mem_flatMap.1 hy
  obtain ⟨n, hn, rfl⟩ := List.mem_map.1 hc
  exact ⟨n, List.not_mem_nil, h.parent_of_mem hn, h.mem_ids_describe.1 hy⟩

omit h ht in
/-- What the children contribute may be taken child by child or stage by stage. -/
lemma perm_later : (parts.flatMap (·.2.later pass)).Perm
    ((parts.flatMap (·.2.altered)).map pass.alteration ++ parts.flatMap (·.2.rest)) := by
  rw [List.map_flatMap]
  exact (List.flatMap_append_perm parts _ _).symm

omit h ht in
lemma pairwise_ownAltered : ((pass.ownAltered t.id).map pass.alteration).Pairwise fun a b =>
    Spares page a b ∧ Spares page b a := by
  rw [ownAltered]
  split <;> simp

/-- The contribution of a node whose children are the ones that are shown is tidy if theirs are. -/
lemma tidy_through (parts : List (Node × Share))
    (hcompared : (pass.view.entry t.id).compared = none)
    (hshown : (parts.map (·.1)).Sublist t.childList)
    (hparts : ∀ p ∈ parts, pass.Tidy page p.1 p.2.deleted (p.2.later pass)) :
    pass.Tidy page t (parts.flatMap (·.2.deleted))
      (Share.later { altered := pass.ownAltered t.id ++ parts.flatMap (·.2.altered)
                     rest := parts.flatMap (·.2.rest) } pass) := by
  have hparent : ∀ p ∈ parts, pass.view.parent p.1.id = some t.id := by
    intro p hp
    apply h.parent_of_mem
    rw [h.children_of_compared_none ht hcompared]
    exact List.mem_map_of_mem (hshown.subset (List.mem_map_of_mem hp))
  have hcomposed : pass.Composed page t parts [] ((pass.ownAltered t.id).map pass.alteration) :=
    ⟨hshown, hparent, hparts, by simp, .nil, fun _ => isOwn_of_mem_ownAltered, pairwise_ownAltered⟩
  apply (hcomposed.tidy_of_parts h ht).perm
  rw [Share.later, List.map_append, List.append_assoc]
  exact perm_later.append_left _

/-- The contribution of a node with some new children is tidy if those of the others are. -/
lemma tidy_mixed {shown current gone : List NodeId}
    (hcompared : (pass.view.entry t.id).compared = some (shown, current)) (hgone : gone.Nodup)
    (hmem : ∀ n, n ∈ gone ↔ n ∈ shown ∧ n ∉ parts.map (·.1.id))
    (hshown : (parts.map (·.1)).Sublist t.childList)
    (hcurrent : (parts.map (·.1.id)).Sublist current)
    (hparts : ∀ p ∈ parts, pass.Tidy page p.1 p.2.deleted (p.2.later pass)) :
    pass.Tidy page t (gone ++ parts.flatMap (·.2.deleted))
      ((pass.ownAltered t.id ++ parts.flatMap (·.2.altered)).map pass.alteration ++
        pass.insertions t.id (parts.map (·.1.id)) none current ++ parts.flatMap (·.2.rest)) := by
  obtain ⟨rfl, rfl⟩ := h.children_of_compared_some ht hcompared
  have hnodes : ∀ n ∈ pass.view.children t.id, pass.view.parent n = some t.id :=
    fun n hn => h.parent_of_mem hn
  have hchild {d : NodeId} (hd : d ∈ gone) :
      ∃ c ∈ t.childList, c ∉ parts.map (·.1) ∧ c.id = d := by
    obtain ⟨hshown, hkept⟩ := (hmem d).1 hd
    obtain ⟨c, hc, rfl⟩ := List.mem_map.1 hshown
    refine ⟨c, hc, fun hcparts => hkept ?_, rfl⟩
    obtain ⟨p, hp, rfl⟩ := List.mem_map.1 hcparts
    exact List.mem_map.2 ⟨p, hp, rfl⟩
  have hapart : gone.Pairwise fun d e => ¬ page.Holds d e ∧ ¬ page.Holds e d := by
    refine List.Pairwise.imp_of_mem (fun {d e} hd he hne => ?_) hgone
    obtain ⟨c, hc, -, rfl⟩ := hchild hd
    obtain ⟨c', hc', -, rfl⟩ := hchild he
    have hne : c ≠ c' := fun heq => hne (heq ▸ rfl)
    exact ⟨not_holds_of_ne h ht hc hc' hne c.id_mem_ids c'.id_mem_ids,
      not_holds_of_ne h ht hc' hc hne.symm c'.id_mem_ids c.id_mem_ids⟩
  have hspares : ((pass.ownAltered t.id).map pass.alteration ++
      pass.insertions t.id (parts.map (·.1.id)) none (pass.view.children t.id)).Pairwise fun a b =>
        Spares page a b ∧ Spares page b a := by
    refine List.pairwise_append.2 ⟨pairwise_ownAltered,
      pairwise_insertions h hnodes (h.nodup_children t.id), fun a ha b hb => ?_⟩
    rw [eq_of_mem_ownAltered ha]
    apply (isOwn_of_mem_insertions h hnodes hb).spares_alteration h
    obtain ⟨n, -, -, before, rfl⟩ := mem_insertions hb
    rfl
  have hcomposed : pass.Composed page t parts gone ((pass.ownAltered t.id).map pass.alteration ++
      pass.insertions t.id (parts.map (·.1.id)) none (pass.view.children t.id)) := by
    refine ⟨hshown, fun p hp => ?_, hparts, fun d hd => ?_, hapart, fun op hop => ?_, hspares⟩
    · exact hnodes _ (hcurrent.subset (List.mem_map_of_mem hp))
    · obtain ⟨c, hc, hcparts, rfl⟩ := hchild hd
      exact ⟨c, hc, hcparts, c.id_mem_ids⟩
    · rcases List.mem_append.1 hop with hop | hop
      · exact isOwn_of_mem_ownAltered hop
      · exact isOwn_of_mem_insertions h hnodes hop
  apply (hcomposed.tidy_of_parts h ht).perm
  rw [List.map_append, List.append_assoc, List.append_assoc, List.append_assoc]
  refine List.Perm.append_left _ ((perm_later.append_left _).trans ?_)
  rw [← List.append_assoc, ← List.append_assoc]
  exact List.perm_append_comm.append_right _

/-- The contribution of a node whose children are sent anew is tidy. -/
lemma tidy_anew {shown current gone : List NodeId} {levels : Nat} (hroot : pass.root = page.id)
    (hcompared : (pass.view.entry t.id).compared = some (shown, current))
    (hevicted : pass.evicted t.id levels t.id shown = .ok gone) :
    pass.Tidy page t gone (.replaceChildren t.id (current.map pass.view.describe) ::
      (pass.ownAltered t.id).map pass.alteration) := by
  obtain ⟨rfl, rfl⟩ := h.children_of_compared_some ht hcompared
  obtain ⟨hsub, hmem⟩ := mem_evicted_iff h hroot ht hevicted
  have hnodup := Node.nodup_of_mem h.nodup ht
  have hgone : gone.Nodup := by
    rw [Node.ids_eq_cons] at hnodup
    exact (List.nodup_cons.1 hnodup).2.sublist hsub
  have hapart {d e : NodeId} (hd : d ∈ gone) (he : e ∈ gone) (hne : d ≠ e) : ¬ page.Holds d e := by
    rintro ⟨m, hm, rfl, hme⟩
    obtain ⟨x, hx, hid⟩ := Node.mem_ids.1 ((hmem m.id).1 hd).mem
    obtain rfl := Node.eq_of_id_eq h.nodup (Node.preorder_subset ht hx) hm hid
    exact hne (((hmem e).1 he).eq_of_mem x hx ((hmem x.id).1 hd).of_kind hme)
  have hspares : (.replaceChildren t.id ((pass.view.children t.id).map pass.view.describe) ::
      (pass.ownAltered t.id).map pass.alteration).Pairwise fun a b =>
        Spares page a b ∧ Spares page b a := by
    refine List.pairwise_cons.2 ⟨fun a ha => ?_, pairwise_ownAltered⟩
    rw [eq_of_mem_ownAltered ha]
    exact ((isOwn_replacement h).spares_alteration h rfl).symm
  have hcomposed : pass.Composed page t [] gone
      (.replaceChildren t.id ((pass.view.children t.id).map pass.view.describe) ::
        (pass.ownAltered t.id).map pass.alteration) := by
    refine ⟨List.nil_sublist _, by simp, by simp, fun d hd => ?_, ?_, fun op hop => ?_, hspares⟩
    · simpa using List.mem_flatMap.1 (hsub.subset hd)
    · exact hgone.imp_of_mem fun hd he hne => ⟨hapart hd he hne, hapart he hd hne.symm⟩
    · rcases List.mem_cons.1 hop with rfl | hop
      · exact isOwn_replacement h
      · exact isOwn_of_mem_ownAltered hop
  simpa using hcomposed.tidy_of_parts h ht

omit ht in
/-- Every planned contribution is tidy. -/
theorem Planned.tidy (hroot : pass.root = page.id) (hplan : pass.Planned t share)
    (ht : t ∈ page.preorder) : pass.Tidy page t share.deleted (share.later pass) := by
  induction hplan with
  | still compared unmarked =>
    simpa using tidy_through h ht [] compared (List.nil_sublist _) (by simp)
  | @through t parts compared children planned ih =>
    have hshown : (parts.map (·.1)).Sublist t.childList := children ▸ List.Sublist.refl _
    refine tidy_through h ht parts compared hshown fun p hp => ih p hp ?_
    exact Node.mem_preorder_of_mem_childList ht (hshown.subset (List.mem_map_of_mem hp))
  | @mixed t shown current parts compared nodup_removals mem_removals shown_order current_order _
      planned ih =>
    refine tidy_mixed h ht compared nodup_removals mem_removals shown_order current_order
      fun p hp => ih p hp ?_
    exact Node.mem_preorder_of_mem_childList ht (shown_order.subset (List.mem_map_of_mem hp))
  | anew compared _ evicted => exact tidy_anew h ht hroot compared evicted

end Depicts

/-! ### All operations of a pass -/

/-- What holds between operations that spare each other holds between all, if it holds between each and
itself. -/
lemma Tidy.forall_of_spares {R : Operation → Operation → Prop} (h : pass.Tidy page t deleted later)
    (hself : ∀ a ∈ later, R a a)
    (hR : ∀ a ∈ later, ∀ b ∈ later, Spares page a b → Spares page b a → R a b) :
    ∀ a ∈ later, ∀ b ∈ later, R a b := by
  have hboth : later.Pairwise fun a b => R a b ∧ R b a :=
    h.spares.imp_of_mem fun {a b} ha hb hab => ⟨hR a ha b hb hab.1 hab.2, hR b hb a ha hab.2 hab.1⟩
  have hsymm : Std.Symm fun a b => R a b ∧ R b a := ⟨fun _ _ h => h.symm⟩
  intro a ha b hb
  exact (hboth.forall_of_forall (fun x hx => ⟨hself x hx, hself x hx⟩) ha hb).1

/-- Attributes are not sent apart from a node that is sent. -/
lemma Tidy.alteration_notMem (h : pass.Tidy page t deleted later) :
    ∀ a ∈ later, ∀ b ∈ later, a.isAlteration = true → a.target ∉ b.sent := by
  refine h.forall_of_spares (fun a _ halters => ?_) fun a _ b _ hab _ => hab.altered
  cases a <;> cases halters
  exact List.not_mem_nil

/-- Nothing is inserted into a container whose children are replaced, and nothing is done below. -/
lemma Tidy.replaced (h : pass.Tidy page t deleted later) : ∀ a ∈ later, ∀ b ∈ later,
    a.isReplacement = true → page.Holds a.target b.target →
      b.isInsertion = false ∧ b.target = a.target := by
  refine h.forall_of_spares (fun a _ hreplaces _ => ?_) fun a _ b _ hab _ hreplaces hholds => ?_
  · cases a <;> cases hreplaces
    exact ⟨rfl, rfl⟩
  · obtain ⟨halters, htarget⟩ | hnot := hab.replaced hreplaces
    · cases b <;> cases halters
      exact ⟨rfl, htarget.symm⟩
    · exact absurd hholds hnot

section Page

variable {a b : Operation} (h : pass.Tidy page page deleted later)

include h

lemma Tidy.mem_deleted (ha : a ∈ deleted.map .delete ++ later) (hdelete : a.isDelete = true) :
    a.target ∈ deleted := by
  rcases List.mem_append.1 ha with ha | ha
  · obtain ⟨d, hd, rfl⟩ := List.mem_map.1 ha
    exact hd
  · rw [(h.keepsTo a ha).isDelete_eq] at hdelete
    cases hdelete

omit h in
lemma mem_later (ha : a ∈ deleted.map .delete ++ later) (hstays : a.isDelete = false) : a ∈ later := by
  rcases List.mem_append.1 ha with ha | ha
  · obtain ⟨d, -, rfl⟩ := List.mem_map.1 ha
    cases hstays
  · exact ha

lemma Tidy.holds_target (ha : a ∈ later) : page.Holds a.target a.target :=
  Node.holds_self (h.keepsTo a ha).target_mem

/-- Removals neither send nor alter nor replace anything, so only what is done later matters. -/
lemma Tidy.pairwise {R : Operation → Operation → Prop} (hdelete : ∀ d b, R (.delete d) b)
    (hspares : ∀ a ∈ later, ∀ b ∈ later, Spares page a b → R a b) :
    (deleted.map Operation.delete ++ later).Pairwise R := by
  refine List.pairwise_append.2 ⟨List.pairwise_map.2 ?_, ?_, ?_⟩
  · exact List.pairwise_of_forall fun d e => hdelete d _
  · exact h.spares.imp_of_mem fun ha hb hab => hspares _ ha _ hb hab.1
  · intro a ha b _
    obtain ⟨d, -, rfl⟩ := List.mem_map.1 ha
    exact hdelete d b

lemma Tidy.deletes_apart : (deleted.map Operation.delete ++ later).Pairwise fun a b =>
    a.isDelete = true → b.isDelete = true →
      a.target ≠ b.target ∧ ¬ page.Holds a.target b.target ∧ ¬ page.Holds b.target a.target := by
  refine List.pairwise_append.2 ⟨List.pairwise_map.2 ?_, ?_, ?_⟩
  · refine h.deleted_apart.imp_of_mem fun {d e} hd _ hde _ _ => ⟨?_, hde⟩
    rintro (rfl : d = e)
    obtain ⟨c, hc, hdc⟩ := h.deleted_mem d hd
    exact hde.1 (Node.holds_self (Node.mem_ids_iff.2 (.inr ⟨c, hc, hdc⟩)))
  · refine h.spares.imp_of_mem fun ha _ _ hdelete => ?_
    rw [(h.keepsTo _ ha).isDelete_eq] at hdelete
    cases hdelete
  · intro a _ b hb _ hdelete
    rw [(h.keepsTo b hb).isDelete_eq] at hdelete
    cases hdelete

/-- If what is done because of a page is tidy, then the operations are thrifty. -/
lemma Tidy.thrifty : page.Thrifty (deleted.map .delete ++ later) where
  deletes_first := by
    refine h.pairwise (fun d b _ => rfl) fun a _ b hb _ hdelete => ?_
    rw [(h.keepsTo b hb).isDelete_eq] at hdelete
    cases hdelete
  deletes_apart := h.deletes_apart
  nodup_sent := by
    refine List.nodup_flatMap.2 ⟨fun a ha => ?_, ?_⟩
    · rcases List.mem_append.1 ha with ha | ha
      · obtain ⟨d, -, rfl⟩ := List.mem_map.1 ha
        exact .nil
      · exact (h.keepsTo a ha).nodup_sent
    · exact h.pairwise (fun d b y hy => nomatch hy) fun a _ b _ hab y hya hyb => hab.sent y hya hyb
  alterations_apart := h.pairwise nofun fun a _ b _ hab => hab.altered_ne
  alteration_notMem a ha halters b hb := by
    rcases List.mem_append.1 hb with hb | hb
    · obtain ⟨d, -, rfl⟩ := List.mem_map.1 hb
      exact List.not_mem_nil
    · exact h.alteration_notMem a (mem_later ha (isDelete_of_isAlteration halters)) b hb halters
  replacements_apart := by
    refine h.pairwise nofun fun a ha b _ hab hreplaces hreplaces' heq => ?_
    obtain ⟨halters, -⟩ | hnot := hab.replaced hreplaces
    · cases b <;> cases hreplaces'
      cases halters
    · exact hnot (heq ▸ h.holds_target ha)
  replacement_ne a ha hreplaces b hb hinserts heq := by
    have ha := mem_later ha (isDelete_of_isReplacement hreplaces)
    have hb := mem_later hb (isDelete_of_isInsertion hinserts)
    have hnot := (h.replaced a ha b hb hreplaces (heq ▸ h.holds_target ha)).1
    rw [hinserts] at hnot
    cases hnot
  target_mem a ha hstays := (h.keepsTo a (mem_later ha hstays)).target_mem
  target_stays a ha hstays b hb hdelete :=
    (h.keepsTo a (mem_later ha hstays)).target_stays b.target (h.mem_deleted hb hdelete)
  target_outside a ha hstays b hb hreplaces hbelow := by
    have hb := mem_later hb (isDelete_of_isReplacement hreplaces)
    exact (h.replaced b hb a (mem_later ha hstays) hreplaces hbelow).2

end Page

end Pass

open Forest

variable {f g : Forest} {page shown : Node} {differ : Differ} {delta : Delta}

/-- The operations of a pass over a page that is shown are thrifty. -/
lemma Differ.thrifty {view : View} (h : view.Depicts page)
    (hpass : (differ.pass view page.id).1 = .ok delta) : page.Thrifty delta.operations := by
  obtain ⟨share, hplanned, hops⟩ := planned_of_pass h hpass
  rw [hops]
  exact (hplanned.tidy h rfl page.self_mem_preorder).thrifty

/-- Whatever the edits and the passes over the page before, each pass over the page that succeeds sends
nothing twice and nothing in vain. -/
theorem Run.thrifty_of_pass (hbegins : f.Begins page) (hrun : Run f.root f page g shown)
    (hpass : (Session.pass ⟨g, differ⟩ g.root).1 = .ok delta) : shown.Thrifty delta.operations := by
  obtain ⟨hfollows, -⟩ := hrun.follows_root hbegins
  rw [fst_pass, ← hfollows.id_eq] at hpass
  exact Differ.thrifty hfollows.remembers.toDepicts hpass

/-- A page with a list. -/
def Node.itemized : Node :=
  .container ⟨0⟩ "body" .empty
    [.container ⟨1⟩ "ul" .empty [.leaf ⟨2⟩ "li" .empty, .leaf ⟨3⟩ "li" .empty, .leaf ⟨4⟩ "li" .empty]]

/-- The page, loaded. -/
def Forest.itemized : Forest := (ofPage Node.itemized).toOption.getD (new "body")

lemma begins_itemized : itemized.Begins Node.itemized := by
  obtain ⟨f, hf⟩ : ∃ f, ofPage Node.itemized = .ok f := exists_eq_ok (by decide +kernel)
  refine .load ?_
  rw [itemized, hf]
  rfl

/-- An item leaves the list, another one gets an attribute, and a third one is new. -/
theorem Run.thrifty_of_pass_itemized :
    let g := itemized.edits [.append ⟨0⟩ ⟨2⟩, .setAttribute ⟨3⟩ "class" "first", .addLeaf "li",
      .append ⟨1⟩ ⟨5⟩]
    ∃ delta, (Session.pass ⟨g, {}⟩ g.root).1 = .ok delta ∧ delta.operations.length = 4 ∧
      Node.itemized.Thrifty delta.operations := by
  intro g
  have hallows : itemized.Allows itemized.root [.append ⟨0⟩ ⟨2⟩, .setAttribute ⟨3⟩ "class" "first",
      .addLeaf "li", .append ⟨1⟩ ⟨5⟩] := by decide +kernel
  obtain ⟨delta, hdelta⟩ : ∃ delta, (Session.pass ⟨g, {}⟩ g.root).1 = .ok delta :=
    exists_eq_ok (by decide +kernel)
  have hlength : (Session.pass ⟨g, {}⟩ g.root).1.toOption.map (·.operations.length) = some 4 := by
    decide +kernel
  rw [hdelta] at hlength
  exact ⟨delta, hdelta, Option.some.inj hlength,
    Run.thrifty_of_pass begins_itemized (Run.start.edits hallows) hdelta⟩

end PageSync
