import PageSync.Proofs.Client

/-!
# Operations on one part of a page

The operations that a pass sends for one part of a page change this part alone, and what the client
accepts there it accepts on the whole page: `Runs outside t ops t'` says that a client takes `t` to
`t'`, if none of the nodes `outside` may be among the ones sent. `Runs.inside` lifts that from one
child to its container, and `Runs.each` does so for all children in turn, provided that each keeps
to nodes of its own.
-/

namespace PageSync

namespace Node

variable {id : NodeId} {tag : String} {attributes : Attributes} {pre post : List Node}
  {t t' t'' : Node} {op : Operation} {ops ops' : List Operation} {outside X : NodeId → Prop}
  {y : NodeId}

/-- Whether a client accepts the operations one after the other and comes from one page to another
by them, while none of the nodes `outside` of the page is sent. -/
inductive Runs (outside : NodeId → Prop) : Node → List Operation → Node → Prop
  | nil (t : Node) : Runs outside t [] t
  | cons {t t' : Node} {op : Operation} {ops : List Operation} (admits : t.Admits op)
      (apart : ∀ y ∈ op.content.flatMap ids, ¬ outside y)
      (rest : Runs outside (t.perform op) ops t') : Runs outside t (op :: ops) t'

namespace Runs

lemma append (h : Runs outside t ops t') (h' : Runs outside t' ops' t'') :
    Runs outside t (ops ++ ops') t'' := by
  induction h with
  | nil => exact h'
  | cons admits apart _ ih => exact .cons admits apart (ih h')

lemma single (admits : t.Admits op) (apart : ∀ y ∈ op.content.flatMap ids, ¬ outside y) :
    Runs outside t [op] (t.perform op) := .cons admits apart (.nil _)

lemma mono (h : Runs outside t ops t') (hX : ∀ y, X y → outside y) : Runs X t ops t' := by
  induction h with
  | nil => exact .nil _
  | cons admits apart _ ih => exact .cons admits (fun y hy hXy => apart y hy (hX y hXy)) ih

lemma applyAll?_eq (h : Runs outside t ops t') : t.applyAll? ops = some t' := by
  induction h with
  | nil => rfl
  | cons admits _ _ ih => simpa [applyAll?, applyOne?, admits] using ih

lemma id_eq (h : Runs outside t ops t') : t'.id = t.id := by
  induction h with
  | nil => rfl
  | cons _ _ _ ih => rw [ih, id_perform]

end Runs

/-! ### From one child to its container -/

lemma target_mem_ids (h : t.Admits op) : op.target ∈ t.ids := by
  cases op with
  | delete gone => exact h.1
  | insertAfter parent after content =>
    obtain ⟨m, hm, hid, -⟩ := h.1
    exact mem_ids.2 ⟨m, hm, hid⟩
  | replaceChildren host content =>
    obtain ⟨m, hm, hid, -⟩ := h.1
    exact mem_ids.2 ⟨m, hm, hid⟩
  | changeAttributes node new => exact h

/-- What is done to one child of a container leaves its siblings as they are. -/
lemma perform_inside (h : t.Admits op) (hid : id ∉ t.ids)
    (hsib : ∀ s ∈ pre ++ post, ∀ y ∈ s.ids, y ∉ t.ids) :
    (container id tag attributes (pre ++ t :: post)).perform op =
      container id tag attributes (pre ++ t.perform op :: post) := by
  have htarget := target_mem_ids h
  have hsib (s) (hs : s ∈ pre ++ post) : op.target ∉ s.ids := fun hy => hsib s hs _ hy htarget
  have hstay (l : List Node) (hl : ∀ s ∈ l, s ∈ pre ++ post) : l.map (perform · op) = l := by
    rw [List.map_congr_left fun s hs => perform_of_notMem op (hsib s (hl s hs)), List.map_id']
  have hdel : op.isDelete → op.target ∉ (pre ++ t :: post).map Node.id := by
    intro hop hmem
    obtain ⟨s, hs, hids⟩ := List.mem_map.1 hmem
    rcases (by simpa [or_left_comm] using hs : s = t ∨ s ∈ pre ++ post) with rfl | hs
    · cases op with
      | delete gone => exact h.2 hids.symm
      | _ => cases hop
    · exact hsib s hs (hids ▸ s.id_mem_ids)
  have hne : id ≠ op.target := fun e => hid (e ▸ htarget)
  rw [perform_container hne hdel, List.map_append, List.map_cons,
    hstay pre fun s hs => List.mem_append_left _ hs,
    hstay post fun s hs => List.mem_append_right _ hs]

lemma mem_ids_inside : y ∈ (container id tag attributes (pre ++ t :: post)).ids ↔
    y ∈ t.ids ∨ y = id ∨ ∃ s ∈ pre ++ post, y ∈ s.ids := by
  rw [mem_ids_iff]
  simp only [childList, List.mem_append, List.mem_cons, id_container]
  constructor
  · rintro (rfl | ⟨s, hs | rfl | hs, hy⟩)
    · exact .inr (.inl rfl)
    · exact .inr (.inr ⟨s, .inl hs, hy⟩)
    · exact .inl hy
    · exact .inr (.inr ⟨s, .inr hs, hy⟩)
  · rintro (hy | rfl | ⟨s, hs, hy⟩)
    · exact .inr ⟨t, .inr (.inl rfl), hy⟩
    · exact .inl rfl
    · exact .inr ⟨s, hs.imp_right .inr, hy⟩

lemma HasRoomFor.inside {content : List Node} (h : t.HasRoomFor content)
    (hapart : ∀ y ∈ content.flatMap ids, y ≠ id ∧ ∀ s ∈ pre ++ post, y ∉ s.ids) :
    (container id tag attributes (pre ++ t :: post)).HasRoomFor content := by
  refine ⟨h.1, fun y hy hmem => ?_⟩
  rcases mem_ids_inside.1 hmem with ht | rfl | ⟨s, hs, hys⟩
  · exact h.2 y hy ht
  · exact (hapart _ hy).1 rfl
  · exact (hapart y hy).2 s hs hys

/-- What a client accepts on one child it accepts on the whole container. -/
lemma Admits.inside (h : t.Admits op) (hid : id ∉ t.ids)
    (hsib : ∀ s ∈ pre ++ post, ∀ y ∈ s.ids, y ∉ t.ids)
    (hapart : ∀ y ∈ op.content.flatMap ids, y ≠ id ∧ ∀ s ∈ pre ++ post, y ∉ s.ids) :
    (container id tag attributes (pre ++ t :: post)).Admits op := by
  have hchild : ∀ m ∈ t.preorder,
      m ∈ (container id tag attributes (pre ++ t :: post)).preorder :=
    fun m hm => preorder_subset (child_mem_preorder (by simp)) hm
  cases op with
  | delete gone =>
    refine ⟨mem_ids_inside.2 (.inl h.1), ?_⟩
    rintro rfl
    exact hid h.1
  | insertAfter parent after content =>
    obtain ⟨⟨m, hm, hm'⟩, hroom⟩ := h
    exact ⟨⟨m, hchild m hm, hm'⟩, hroom.inside hapart⟩
  | replaceChildren host content =>
    obtain ⟨⟨m, hm, hm'⟩, hroom⟩ := h
    refine ⟨⟨m, hchild m hm, hm'⟩, ?_⟩
    have hempty : t.Admits (.replaceChildren host []) :=
      ⟨⟨m, hm, hm'⟩, by simp [HasRoomFor]⟩
    have heq : (container id tag attributes (pre ++ t :: post)).perform (.replaceChildren host []) =
        container id tag attributes (pre ++ t.perform (.replaceChildren host []) :: post) :=
      perform_inside hempty hid hsib
    simp only [perform] at heq
    rw [heq]
    exact hroom.inside hapart
  | changeAttributes node new => exact mem_ids_inside.2 (.inl h)

/-- What a client does to one child of a container it does to the whole container. -/
lemma Runs.inside (h : Runs outside t ops t') (hid : id ∉ t.ids)
    (hsib : ∀ s ∈ pre ++ post, ∀ y ∈ s.ids, y ∉ t.ids)
    (hX : ∀ y, X y → outside y) (hido : outside id)
    (hsibo : ∀ s ∈ pre ++ post, ∀ y ∈ s.ids, outside y) :
    Runs X (container id tag attributes (pre ++ t :: post)) ops
      (container id tag attributes (pre ++ t' :: post)) := by
  induction h with
  | nil => exact .nil _
  | @cons t t' op ops admits apart _ ih =>
    have hapart : ∀ y ∈ op.content.flatMap ids, y ≠ id ∧ ∀ s ∈ pre ++ post, y ∉ s.ids := by
      refine fun y hy => ⟨?_, fun s hs hys => apart y hy (hsibo s hs y hys)⟩
      rintro rfl
      exact apart _ hy hido
    refine .cons (admits.inside hid hsib hapart) (fun y hy hXy => apart y hy (hX y hXy)) ?_
    rw [perform_inside admits hid hsib]
    apply ih
    · intro hmem
      rcases mem_ids_perform hmem with hmem | hmem
      · exact hid hmem
      · exact (hapart _ hmem).1 rfl
    · intro s hs y hys hmem
      rcases mem_ids_perform hmem with hmem | hmem
      · exact hsib s hs y hys hmem
      · exact (hapart y hmem).2 s hs hys

/-! ### All children in turn -/

/-- If each of several children changes among nodes of its own, then the container changes by all
their operations one after the other. -/
lemma Runs.each {α : Type*} {l : List α} {f g : α → Node} {ops : α → List Operation}
    (pre : List Node) (own : α → NodeId → Prop)
    (hrun : ∀ a ∈ l, Runs (fun y => X y ∨ ¬ own a y) (f a) (ops a) (g a))
    (hf : ∀ a ∈ l, ∀ y ∈ (f a).ids, own a y) (hg : ∀ a ∈ l, ∀ y ∈ (g a).ids, own a y)
    (hdisjoint : l.Pairwise fun a b => ∀ y, own a y → ¬ own b y) (hid : ∀ a ∈ l, ¬ own a id)
    (hpre : ∀ a ∈ l, ∀ s ∈ pre, ∀ y ∈ s.ids, ¬ own a y) :
    Runs X (container id tag attributes (pre ++ l.map f)) (l.flatMap ops)
      (container id tag attributes (pre ++ l.map g)) := by
  induction l generalizing pre with
  | nil => simpa using Runs.nil _
  | cons a l ih =>
    obtain ⟨hal, hl⟩ := List.pairwise_cons.1 hdisjoint
    have hothers : ∀ s ∈ pre ++ l.map f, ∀ y ∈ s.ids, ¬ own a y := by
      intro s hs y hy ha
      rcases List.mem_append.1 hs with hs | hs
      · exact hpre a List.mem_cons_self s hs y hy ha
      · obtain ⟨b, hb, rfl⟩ := List.mem_map.1 hs
        exact hal b hb y ha (hf b (List.mem_cons_of_mem _ hb) y hy)
    have hfirst : Runs X (container id tag attributes (pre ++ f a :: l.map f)) (ops a)
        (container id tag attributes (pre ++ g a :: l.map f)) :=
      (hrun a List.mem_cons_self).inside
        (fun hy => hid a List.mem_cons_self (hf a List.mem_cons_self _ hy))
        (fun s hs y hy ht => hothers s hs y hy (hf a List.mem_cons_self y ht))
        (fun y hXy => .inl hXy) (.inr (hid a List.mem_cons_self))
        (fun s hs y hy => .inr (hothers s hs y hy))
    rw [List.flatMap_cons, List.map_cons, List.map_cons]
    apply hfirst.append
    have hrest := ih (pre ++ [g a])
      (fun b hb => hrun b (List.mem_cons_of_mem _ hb))
      (fun b hb => hf b (List.mem_cons_of_mem _ hb))
      (fun b hb => hg b (List.mem_cons_of_mem _ hb)) hl
      (fun b hb => hid b (List.mem_cons_of_mem _ hb)) ?_
    · simpa using hrest
    · intro b hb s hs y hy hby
      rcases List.mem_append.1 hs with hs | hs
      · exact hpre b (List.mem_cons_of_mem _ hb) s hs y hy hby
      · obtain rfl := List.mem_singleton.1 hs
        exact hal b hb y (hg a List.mem_cons_self y hy) hby

end Node

end PageSync
