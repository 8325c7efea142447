import PageSync.Proofs.Cleaning

/-!
# Loading loses nothing

A page can be loaded if it is a container and no identifier occurs in it twice, and is refused with the
reason otherwise. The forest that it is loaded to has exactly its nodes, is described as the page again,
and remembers nothing, so that there is nothing to send. New nodes get the numbers behind the largest
one of the page (`Forest.lossless_ofPage`).
-/

namespace PageSync

namespace Forest

variable {f g : Forest} {page t : Node} {n : NodeId} {ids more : List NodeId} {e : EditError}
  {parent : Option NodeId} {nodes : List Node} {item : Item}

/-! ### Identifiers that occur twice -/

/-- Whether an error reports one of the given identifiers that is in use already or is given twice. -/
def Repeats (f : Forest) (ids : List NodeId) (e : EditError) : Prop :=
  ∃ n ∈ ids, (f.contains n ∨ 2 ≤ ids.count n) ∧ e = .duplicateId n

lemma Repeats.append_right (h : f.Repeats ids e) (more : List NodeId) :
    f.Repeats (ids ++ more) e := by
  obtain ⟨n, hn, hcause, rfl⟩ := h
  refine ⟨n, List.mem_append_left _ hn, hcause.imp_right fun hcount => ?_, rfl⟩
  rw [List.count_append]
  omega

lemma Repeats.perm (h : f.Repeats ids e) (hperm : ids.Perm more) : f.Repeats more e := by
  obtain ⟨n, hn, hcause, rfl⟩ := h
  exact ⟨n, hperm.subset hn, by rwa [← hperm.count_eq], rfl⟩

/-- What is in use after subtrees have been loaded was so before, or belongs to them. -/
lemma Loaded.repeats_append (hfg : f.Loaded parent nodes g) (h : g.Repeats more e) :
    f.Repeats (nodes.flatMap Node.ids ++ more) e := by
  obtain ⟨n, hn, hcause, rfl⟩ := h
  refine ⟨n, List.mem_append_right _ hn, ?_, rfl⟩
  have hmore : 1 ≤ more.count n := List.one_le_count_iff.2 hn
  rw [List.count_append]
  by_cases hloaded : n ∈ nodes.flatMap Node.ids
  · have := List.one_le_count_iff.2 hloaded
    exact .inr (by omega)
  · rcases hcause with hcause | hcause
    · left
      rwa [Forest.contains, ← hfg.other n hloaded]
    · exact .inr (by omega)

lemma repeats_of_addShown (he : f.addShown n item = .error e) : f.Repeats [n] e := by
  rw [addShown] at he
  split at he
  · next hn =>
    cases he
    exact ⟨n, List.mem_singleton_self n, .inl hn, rfl⟩
  · cases he

mutual

theorem repeats_of_loadShown (t : Node) {parent : Option NodeId} {f : Forest}
    (he : loadShown t parent f = .error e) : f.Repeats t.ids e := by
  match t with
  | .leaf id tag attributes => exact repeats_of_addShown he
  | .container id tag attributes children =>
    rw [loadShown] at he
    rw [Node.ids_container]
    cases hf : loadShown.loadAll id children f with
    | error =>
      rw [hf] at he
      cases he
      exact ((repeats_of_loadAll children hf).append_right [id]).perm List.perm_append_comm
    | ok f' =>
      rw [hf] at he
      exact ((loaded_of_loadAll children hf).repeats_append (repeats_of_addShown he)).perm
        List.perm_append_comm

theorem repeats_of_loadAll (nodes : List Node) {parent : NodeId} {f : Forest}
    (he : loadShown.loadAll parent nodes f = .error e) : f.Repeats (nodes.flatMap Node.ids) e := by
  match nodes with
  | [] => cases he
  | child :: rest =>
    rw [loadShown.loadAll] at he
    rw [List.flatMap_cons]
    cases hf : loadShown child (some parent) f with
    | error =>
      rw [hf] at he
      cases he
      exact (repeats_of_loadShown child hf).append_right _
    | ok f' =>
      rw [hf] at he
      simpa using (loaded_of_loadShown child hf).repeats_append (repeats_of_loadAll rest he)

end

lemma contains_empty (top n : NodeId) : (empty top).contains n = false := by
  simp [contains, get?, empty]

/-- A container is refused only for an identifier that occurs twice. -/
lemma duplicate_of_ofPage (hkind : page.isContainer = true) (he : ofPage page = .error e) :
    ∃ n, 2 ≤ page.ids.count n ∧ e = .duplicateId n := by
  cases page with
  | leaf => cases hkind
  | container id =>
    obtain ⟨n, -, hcause, rfl⟩ := repeats_of_loadShown _ he
    rw [contains_empty] at hcause
    exact ⟨n, hcause.resolve_left (by simp), rfl⟩

/-! ### What is known about the forest of a page -/

/-- Each node of a page makes sure that the next number is larger, and no other node does. -/
lemma nextNumber_of_loadShown (hg : loadShown t parent f = .ok g) :
    g.nextNumber = f.nextNumber ∨ ∃ n ∈ t.ids, g.nextNumber = n.number + 1 := by
  apply loadShown_induct (motive := fun g => g.nextNumber = f.nextNumber ∨
    ∃ n ∈ t.ids, g.nextNumber = n.number + 1) t (.inl rfl) hg
  intro h g n item hn hh hg
  rw [addShown] at hg
  split at hg
  · cases hg
  · obtain rfl := Except.ok.inj hg
    change (if h.nextNumber ≤ n.number + 1 then n.number + 1 else h.nextNumber) = _ ∨
      ∃ m ∈ t.ids, (if h.nextNumber ≤ n.number + 1 then n.number + 1 else h.nextNumber) = _
    split
    · exact .inr ⟨n, hn, rfl⟩
    · exact hh

/-- The next number is the one behind the largest number of the page. -/
lemma exists_largest (hids : ∀ n ∈ page.ids, n.number.toNat + 1 < NodeId.count)
    (hf : ofPage page = .ok f) :
    ∃ largest ∈ page.ids, (∀ n ∈ page.ids, n.number.toNat ≤ largest.number.toNat) ∧
      f.nextNumber.toNat = largest.number.toNat + 1 := by
  have hsound := (Begins.load hf).sound hids
  have hpresents := presents_of_ofPage hf
  obtain ⟨largest, hlargest, hnext⟩ : ∃ n ∈ page.ids, f.nextNumber = n.number + 1 := by
    cases page with
    | leaf => cases hf
    | container id =>
      rcases nextNumber_of_loadShown hf with hnext | hnext
      · exact ⟨id, Node.id_mem_ids _, hnext⟩
      · exact hnext
  have hnext : f.nextNumber.toNat = largest.number.toNat + 1 := by
    rw [hnext, UInt32.toNat_add]
    exact Nat.mod_eq_of_lt (hids largest hlargest)
  refine ⟨largest, hlargest, fun n hn => ?_, hnext⟩
  have hlt := UInt32.lt_iff_toNat_lt.1 (hsound.numbered n (hpresents.contains hn))
  omega

/-- Whether a forest has the nodes of a page and no others, each of them as described, and remembers
nothing. -/
structure IsCopy (f : Forest) (page : Node) : Prop where
  /-- The page has the same top. -/
  root_eq : f.root = page.id
  /-- It has no parent. -/
  parent_root : f.view.parent f.root = none
  /-- The description of the page is the page. -/
  describe_eq : f.describe f.root = .ok page
  /-- There are no other nodes. -/
  contains_iff : ∀ n, f.contains n ↔ n ∈ page.ids
  /-- The children of a node are those that have it as their parent. -/
  mem_children : ∀ n p, n ∈ f.view.children p ↔ f.view.parent n = some p
  /-- No node is the child of another one twice. -/
  nodup_children : ∀ p, (f.view.children p).Nodup
  /-- Nothing is remembered about any node. -/
  record_eq : ∀ n i, f.get? n = some i → i.record = {}

lemma Presents.isCopy (h : f.Presents page) : f.IsCopy page where
  root_eq := h.root_eq
  parent_root := h.root_eq ▸ h.parent_top
  describe_eq := by
    obtain ⟨i, hi, -⟩ := h.item page.self_mem_preorder
    rw [describe, Forest.item, h.root_eq, hi]
    exact congrArg Except.ok h.describe_eq
  contains_iff n := by
    refine ⟨fun hn => ?_, h.contains⟩
    obtain ⟨i, hi⟩ := contains_iff.1 hn
    exact h.mem_ids_of_get? hi
  mem_children n p := h.isForest.mem_children n p
  nodup_children := h.isForest.nodup_children
  record_eq n i hi := by
    obtain ⟨m, hm, rfl⟩ := Node.mem_ids.1 (h.mem_ids_of_get? hi)
    obtain ⟨j, hj, hshows⟩ := h.item hm
    obtain rfl := Option.some.inj (hj.symm.trans hi)
    exact hshows.record_eq

/-- There is nothing to send of a page that has just been loaded. -/
lemma IsCopy.pass_ok {differ : Differ} (h : f.IsCopy page) (hpolicy : differ.policy.check = .ok ()) :
    ∃ delta, (Session.pass ⟨f, differ⟩ f.root).1 = .ok delta ∧ delta.operations = [] := by
  rw [fst_pass]
  apply Differ.pass_of_isClean hpolicy
  · exact (h.contains_iff f.root).2 (h.root_eq ▸ page.id_mem_ids)
  · exact h.parent_root
  · exact isClean_of_record (h.record_eq f.root)

/-- A description whose identifiers are all below the last one can be loaded if and only if it is a
container and no identifier occurs in it twice. A leaf is refused as such, a container with a repeated
identifier for one that occurs twice. The forest that a page is loaded to is a copy of it, a first pass
over the page sends nothing, under any policy that can be followed, and the first node that is created
afterwards gets the number behind the largest one of the page. -/
theorem lossless_ofPage {page : Node}
    (hids : ∀ n ∈ page.ids, n.number.toNat + 1 < NodeId.count) :
    ((∃ f, ofPage page = .ok f) ↔ page.isContainer = true ∧ page.ids.Nodup) ∧
      (page.isContainer = false → ofPage page = .error (.notAContainer page.id)) ∧
      (page.isContainer = true → ¬ page.ids.Nodup →
        ∃ n, 2 ≤ page.ids.count n ∧ ofPage page = .error (.duplicateId n)) ∧
      ∀ f, ofPage page = .ok f →
        f.IsCopy page ∧
        (∀ differ : Differ, differ.policy.check = .ok () →
          ∃ delta, (Session.pass ⟨f, differ⟩ f.root).1 = .ok delta ∧ delta.operations = []) ∧
        ∃ largest ∈ page.ids, (∀ n ∈ page.ids, n.number.toNat ≤ largest.number.toNat) ∧
          ∀ tag, (f.addLeaf tag).1.number.toNat = largest.number.toNat + 1 ∧
            (f.addContainer tag).1.number.toNat = largest.number.toNat + 1 := by
  have hleaf (h : page.isContainer = false) : ofPage page = .error (.notAContainer page.id) := by
    rw [Node.eq_leaf h]
    rfl
  constructor
  · constructor
    · rintro ⟨f, hf⟩
      constructor
      · cases hkind : page.isContainer with
        | false => simp [hleaf hkind] at hf
        | true => rfl
      · exact (presents_of_ofPage hf).nodup
    · rintro ⟨hkind, hnodup⟩
      cases hf : ofPage page with
      | ok f => exact ⟨f, rfl⟩
      | error e =>
        obtain ⟨n, hcount, -⟩ := duplicate_of_ofPage hkind hf
        have hle := List.nodup_iff_count_le_one.1 hnodup n
        omega
  constructor
  · exact hleaf
  constructor
  · intro hkind hnodup
    cases hf : ofPage page with
    | ok f => exact absurd (presents_of_ofPage hf).nodup hnodup
    | error e =>
      obtain ⟨n, hcount, rfl⟩ := duplicate_of_ofPage hkind hf
      exact ⟨n, hcount, rfl⟩
  · intro f hf
    have hcopy := (presents_of_ofPage hf).isCopy
    obtain ⟨largest, hlargest, hle, hnext⟩ := exists_largest hids hf
    exact ⟨hcopy, fun differ hpolicy => hcopy.pass_ok hpolicy, largest, hlargest, hle,
      fun tag => ⟨hnext, hnext⟩⟩

/-- The numbers of a page need not follow one another, and the largest need not come last. -/
theorem lossless_ofPage_nested :
    let page := Node.container ⟨1⟩ "body" .empty
      [.container ⟨9⟩ "ul" .empty [.leaf ⟨7⟩ "li" (.ofList [("class", "wide")]), .leaf ⟨5⟩ "li" .empty],
        .leaf ⟨6⟩ "p" .empty]
    (∀ n ∈ page.ids, n.number.toNat + 1 < NodeId.count) ∧
      ∃ f, ofPage page = .ok f ∧ f.IsCopy page ∧ (f.addLeaf "li").1.number.toNat = 10 := by
  intro page
  have hids : ∀ n ∈ page.ids, n.number.toNat + 1 < NodeId.count := by decide
  obtain ⟨hiff, -, -, hloaded⟩ := lossless_ofPage hids
  obtain ⟨f, hf⟩ := hiff.2 (by decide)
  obtain ⟨hcopy, -, largest, hlargest, hle, hnext⟩ := hloaded f hf
  refine ⟨hids, f, hf, hcopy, ?_⟩
  have h9 : 9 ≤ largest.number.toNat := hle ⟨9⟩ (by decide)
  have hbound : ∀ n ∈ page.ids, n.number.toNat ≤ 9 := by decide
  rw [(hnext "li").1]
  have := hbound largest hlargest
  omega

end Forest

end PageSync
