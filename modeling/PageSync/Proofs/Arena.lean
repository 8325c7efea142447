import PageSync.Proofs.Grafts
import PageSync.Proofs.Runs

/-!
# What every call keeps

A forest is changed by edits, by passes over any of its nodes, and by requests to forget the records of
a node or of a tree, in whatever order. Through all of these calls its nodes form trees, every link and
every record refers to nodes that are there, and the next number is larger than those in use
(`Forest.Sound`). No node is ever lost (`Forest.sound_of_calls`).
-/

namespace PageSync

/-- All nodes that a node and its record refer to. -/
def Item.links (i : Item) : List NodeId :=
  i.children.getD [] ++ i.parent.toList ++ (i.record.children.getD [] ++ i.record.parent.join.toList)

lemma Item.mem_links {i : Item} {x : NodeId} : x ∈ i.links ↔
    (x ∈ i.children.getD [] ∨ i.parent = some x) ∨
      (x ∈ i.record.children.getD [] ∨ i.record.parent = some (some x)) := by
  simp [links, Option.join_eq_some_iff, or_assoc]

namespace View

variable {view : View} {n : NodeId}

/-! ### Chains of parents -/

lemma head?_climb_succ (k : Nat) (n : NodeId) : (view.climb (k + 1) n).head? = some n := rfl

/-- Each node of a chain is followed by its parent. -/
lemma isChain_climb (k : Nat) (n : NodeId) :
    List.IsChain (fun x y => view.parent x = some y) (view.climb k n) := by
  induction k generalizing n with
  | zero => exact .nil
  | succ k ih =>
    rw [climb_succ]
    cases hp : view.parent n with
    | none => exact .singleton n
    | some p =>
      cases k with
      | zero => exact .singleton n
      | succ k => exact .cons_cons hp (ih p)

/-- A chain of parents ends at the top of a tree. -/
lemma exists_top (hac : Acyclic view.parent) (n : NodeId) :
    ∃ top, (view.climb NodeId.count n).getLast? = some top ∧ view.parent top = none := by
  induction hdepth : view.depth n generalizing n with
  | zero =>
    cases hp : view.parent n with
    | none => exact ⟨n, by rw [climb_count hac, hp]; rfl, hp⟩
    | some p =>
      rw [depth_of_parent hac hp] at hdepth
      cases hdepth
  | succ k ih =>
    cases hp : view.parent n with
    | none =>
      rw [depth_of_top hac hp] at hdepth
      cases hdepth
    | some p =>
      rw [depth_of_parent hac hp, Nat.add_right_cancel_iff] at hdepth
      obtain ⟨top, hlast, htop⟩ := ih p hdepth
      refine ⟨top, ?_, htop⟩
      rw [climb_count hac, hp, List.getLast?_cons, hlast]
      rfl

end View

namespace Forest

variable {f g h : Forest} {n x : NodeId} {i : Item} {e : Edit} {k : Nat} {page t : Node}

/-! ### Forgetting records -/

/-- Whether a forest is another one with the records of some nodes forgotten. -/
structure Forgets (f g : Forest) : Prop where
  /-- The page has the same top. -/
  root_eq : g.root = f.root
  /-- The next new node gets the same number. -/
  nextNumber_eq : g.nextNumber = f.nextNumber
  /-- Each node is as it was, or its record is forgotten. -/
  get?_eq : ∀ n, g.get? n = f.get? n ∨ g.get? n = (f.get? n).map Item.settle

lemma forgets_settle (f : Forest) (n : NodeId) : f.Forgets (f.settle n) where
  root_eq := rfl
  nextNumber_eq := rfl
  get?_eq x := by
    rw [get?_settle]
    split
    · next hx => exact .inr (hx ▸ rfl)
    · exact .inl rfl

lemma forgets_finish (f : Forest) (top : NodeId) : f.Forgets (f.finish top) where
  root_eq := rfl
  nextNumber_eq := rfl
  get?_eq x := by
    rw [get?_finish]
    split
    · exact .inr rfl
    · exact .inl Option.map_id'

lemma forgets_heed (f : Forest) (notice : Notice) : f.Forgets (f.heed notice) := by
  cases notice with
  | settled node => exact forgets_settle f node
  | finished top => exact forgets_finish f top

lemma Forgets.now_eq (hfg : f.Forgets g) : g.now = f.now := by
  funext n
  rcases hfg.get?_eq n with hn | hn
  · rw [now, now, hn]
  · rw [now, now, hn, Option.map_map]
    rfl

/-- A pass does nothing to a forest but to forget records. -/
lemma pass_induct {motive : Forest → Prop} (differ : Differ) (top : NodeId) (hf : motive f)
    (forget : ∀ g g', g.Forgets g' → motive g → motive g') :
    motive (Session.pass ⟨f, differ⟩ top).2.forest := by
  have hheed (notices : List Notice) (g : Forest) (hg : motive g) :
      motive (notices.foldl heed g) := by
    induction notices generalizing g with
    | nil => exact hg
    | cons notice rest ih => exact ih _ (forget g _ (forgets_heed g notice) hg)
  rw [Session.pass]
  split
  · exact hf
  · exact hheed _ f hf

/-- Forgetting records leaves the page where it is. -/
lemma Rooted.forget (h : f.Rooted) (hfg : f.Forgets g) : g.Rooted where
  toIsForest := isForest_congr hfg.now_eq h.toIsForest
  contains_root := by
    rw [hfg.root_eq, contains_congr hfg.now_eq]
    exact h.contains_root
  parent_root := by
    rw [hfg.root_eq, parent_congr hfg.now_eq]
    exact h.parent_root

/-! ### Numbers in use -/

/-- Whether the next number is larger than those of all nodes. -/
def Numbered (f : Forest) : Prop := ∀ n, f.contains n → n.number < f.nextNumber

/-- All numbers from the next one on are free. -/
lemma Numbered.hasRoom (h : f.Numbered) (hk : f.nextNumber.toNat + k ≤ NodeId.count) :
    f.HasRoom k := by
  refine ⟨by omega, fun i hi => Bool.eq_false_iff.2 fun hn => ?_⟩
  have hlt : (f.nextNumber + UInt32.ofNat i).toNat < f.nextNumber.toNat :=
    UInt32.lt_iff_toNat_lt.1 (h _ hn)
  have hsum : (f.nextNumber + UInt32.ofNat i).toNat = f.nextNumber.toNat + i := by
    rw [UInt32.toNat_add, UInt32.toNat_ofNat', Nat.add_mod_mod]
    exact Nat.mod_eq_of_lt (Nat.lt_of_lt_of_le (Nat.add_lt_add_left hi _) hk)
  omega

lemma HasRoom.numbered (hroom : f.HasRoom k) (hk : NodeId.count ≤ f.nextNumber.toNat + k) :
    f.Numbered := by
  intro n hn
  by_contra hlt
  have hle : f.nextNumber.toNat ≤ n.number.toNat :=
    Nat.not_lt.1 fun hnlt => hlt (UInt32.lt_iff_toNat_lt.2 hnlt)
  have hcount : n.number.toNat < NodeId.count := n.number.toNat_lt
  -- the node has one of the numbers that are free
  have hfree := hroom.2 (n.number.toNat - f.nextNumber.toNat) (by omega)
  have hself : f.nextNumber + UInt32.ofNat (n.number.toNat - f.nextNumber.toNat) = n.number := by
    apply UInt32.toNat_inj.1
    rw [UInt32.toNat_add, UInt32.toNat_ofNat', Nat.add_mod_mod, Nat.add_sub_cancel' hle]
    exact Nat.mod_eq_of_lt hcount
  rw [hself, hn] at hfree
  cases hfree

lemma Numbered.edit (h : f.Numbered) (hrooted : f.Rooted)
    (hroom : f.nextNumber.toNat + e.size < NodeId.count) : (f.edit e).Numbered := by
  have hall : f.HasRoom (e.size + (NodeId.count - (f.nextNumber.toNat + e.size))) :=
    h.hasRoom (by omega)
  have hnext : (f.edit e).nextNumber.toNat = f.nextNumber.toNat + e.size := by
    rw [hrooted.nextNumber_edit (h.hasRoom hroom.le), UInt32.toNat_add, UInt32.toNat_ofNat',
      Nat.add_mod_mod]
    exact Nat.mod_eq_of_lt hroom
  exact (hrooted.hasRoom_edit hall).numbered (by omega)

lemma lt_max_number {a b c : UInt32} (h : c < a ∨ c < b) : c < max a b := by
  change c < if a ≤ b then b else a
  rw [UInt32.lt_iff_toNat_lt, UInt32.lt_iff_toNat_lt] at h
  rw [UInt32.lt_iff_toNat_lt]
  split
  · next hab =>
    rw [UInt32.le_iff_toNat_le] at hab
    omega
  · next hab =>
    rw [UInt32.le_iff_toNat_le] at hab
    omega

lemma Numbered.addShown {item : Item} (h : f.Numbered) (hn : n.number.toNat + 1 < NodeId.count)
    (hg : f.addShown n item = .ok g) : g.Numbered := by
  rw [Forest.addShown] at hg
  split at hg
  · cases hg
  · obtain rfl := Except.ok.inj hg
    intro x hx
    change x.number < max f.nextNumber (n.number + 1)
    have hx : ((f.put n item).get? x).isSome := hx
    rw [get?_put] at hx
    split at hx
    · next heq =>
      subst heq
      refine lt_max_number (.inr (UInt32.lt_iff_toNat_lt.2 ?_))
      rw [UInt32.toNat_add]
      exact (Nat.lt_succ_self _).trans_eq (Nat.mod_eq_of_lt hn).symm
    · exact lt_max_number (.inl (h x hx))

lemma numbered_of_loadShown {parent : Option NodeId} (h : f.Numbered)
    (hids : ∀ n ∈ t.ids, n.number.toNat + 1 < NodeId.count) (hg : loadShown t parent f = .ok g) :
    g.Numbered :=
  loadShown_induct t h hg fun _ _ n _ hn hf => hf.addShown (hids n hn)

/-! ### Sound forests -/

/-- Whether the links of a forest form trees, the page is one of them, all nodes that are referred to
are there, and the next number is free. -/
structure Sound (f : Forest) : Prop extends f.Rooted where
  /-- No link or record refers to a node that is not there. -/
  contains_link : ∀ n i, f.get? n = some i → ∀ x ∈ i.links, f.contains x
  /-- The next number is larger than all in use. -/
  numbered : f.Numbered

lemma contains_of_mem_children (h : f.view.IsForest) (hx : x ∈ f.view.children n) :
    f.contains x :=
  contains_of_parent_eq_some (h.parent_of_mem hx)

/-- Children and parents are there in any case. -/
lemma Rooted.contains_link (h : f.Rooted) (hi : f.get? n = some i)
    (hx : x ∈ i.children.getD [] ∨ i.parent = some x) : f.contains x := by
  have hentry := entry_of_get? hi
  rcases hx with hx | hx
  · apply contains_of_mem_children h.toIsForest (n := n)
    rw [View.children, hentry]
    exact hx
  · apply contains_of_parent h.toIsForest (n := n)
    rw [View.parent, hentry]
    exact hx

lemma Begins.sound (h : f.Begins page) (hids : ∀ n ∈ page.ids, n.number.toNat + 1 < NodeId.count) :
    f.Sound := by
  have hpresents := h.presents
  have hrooted := hpresents.wellFormed.rooted
  refine ⟨hrooted, fun n i hi x hx => ?_, ?_⟩
  · obtain ⟨m, hm, rfl⟩ := Node.mem_ids.1 (hpresents.mem_ids_of_get? hi)
    obtain ⟨j, hj, hshows⟩ := hpresents.item hm
    obtain rfl := Option.some.inj (hj.symm.trans hi)
    rcases Item.mem_links.1 hx with hx | hx
    · exact hrooted.contains_link hi hx
    · simp [hshows.record_eq] at hx
  · have hempty (id : NodeId) : (empty id).Numbered := by
      intro n hn
      simp [contains, get?, empty] at hn
    cases h with
    | new tag => exact numbered_of_loadShown (hempty ⟨0⟩) hids (ofPage_empty tag)
    | load hload =>
      cases page with
      | leaf => cases hload
      | container id => exact numbered_of_loadShown (hempty id) hids hload

/-- Forgetting records keeps a forest sound. -/
lemma Sound.forget (h : f.Sound) (hfg : f.Forgets g) : g.Sound where
  toRooted := h.toRooted.forget hfg
  contains_link n j hj x hx := by
    rw [contains_congr hfg.now_eq]
    rcases hfg.get?_eq n with hn | hn
    · exact h.contains_link n j (hn.symm.trans hj) x hx
    · obtain ⟨i, hi, rfl⟩ := Option.map_eq_some_iff.1 (hn.symm.trans hj)
      apply h.contains_link n i hi x
      rw [Item.mem_links] at hx ⊢
      simpa [Item.settle] using hx.imp_right fun hrecord => by simp [Item.settle] at hrecord
  numbered n hn := by
    rw [contains_congr hfg.now_eq] at hn
    rw [hfg.nextNumber_eq]
    exact h.numbered n hn

/-- What a record refers to is what the node is shown with. -/
lemma shown_of_record (hi : f.get? n = some i)
    (hx : x ∈ i.record.children.getD [] ∨ i.record.parent = some (some x)) :
    x ∈ (f.view.entry n).shownChildList ∨ f.view.shownParent n = some x := by
  rw [View.shownParent, entry_of_get? hi]
  refine hx.imp (fun hx => ?_) fun hx => ?_
  · cases hs : i.record.children with
    | none => simp [hs] at hx
    | some shown => simpa [Item.entry, Entry.shownChildList, hs] using hx
  · simp [Item.entry, Item.shownParent, hx]

/-- The nodes that a node is shown with are there. -/
lemma Sound.contains_shown (h : f.Sound)
    (hx : x ∈ (f.view.entry n).shownChildList ∨ f.view.shownParent n = some x) : f.contains x := by
  cases hi : f.get? n with
  | none => simp [View.shownParent, entry_of_get?_none hi, Entry.shownChildList, Entry.childList] at hx
  | some i =>
    apply h.contains_link n i hi x
    rw [View.shownParent, entry_of_get? hi] at hx
    rw [Item.mem_links]
    rcases hx with hx | hx
    · cases hs : i.record.children with
      | none => simp_all [Item.entry, Entry.shownChildList, Entry.childList]
      | some shown => simp_all [Item.entry, Entry.shownChildList]
    · cases hs : i.record.parent with
      | none => simp_all [Item.entry, Item.shownParent]
      | some p => simp_all [Item.entry, Item.shownParent]

/-- An edit keeps a forest sound as long as there are numbers for its nodes and the next one. -/
lemma Sound.edit (h : f.Sound) (hroom : f.nextNumber.toNat + e.size < NodeId.count) :
    (f.edit e).Sound := by
  have hsteps := h.toRooted.steps_edit (h.numbered.hasRoom hroom.le)
  have hrooted := hsteps.rooted h.toRooted
  refine ⟨hrooted, fun n j hj x hx => ?_, h.numbered.edit h.toRooted hroom⟩
  rcases Item.mem_links.1 hx with hx | hx
  · exact hrooted.contains_link hj hx
  · apply hsteps.keeps.contains
    apply h.contains_shown (n := n)
    rw [← hsteps.keeps.shownChildList_eq, ← hsteps.keeps.shownParent_eq]
    exact shown_of_record hj hx

/-! ### All calls -/

/-- A call that may be made on a forest at any time. -/
inductive Call (f : Forest) : Forest → Prop
  /-- An edit, accepted or not. There are numbers left for its nodes and the next one. -/
  | edit (e : Edit) (hroom : f.nextNumber.toNat + e.size < NodeId.count) : Call f (f.edit e)
  /-- A pass over any node, successful or not. -/
  | pass (differ : Differ) (top : NodeId) : Call f (Session.pass ⟨f, differ⟩ top).2.forest
  /-- A request to forget what is remembered of a node. -/
  | settle (n : NodeId) : Call f (f.settle n)
  /-- A request to forget what is remembered of a tree. -/
  | finish (top : NodeId) : Call f (f.finish top)

/-- Several calls, one after the other. -/
def Calls : Forest → Forest → Prop := Relation.ReflTransGen Call

/-- A call keeps a forest sound, and no node is lost. -/
lemma Call.sound (h : f.Sound) (hcall : f.Call g) :
    g.Sound ∧ ∀ n, f.contains n → g.contains n := by
  cases hcall with
  | edit e hroom =>
    have hsteps := h.toRooted.steps_edit (h.numbered.hasRoom hroom.le)
    exact ⟨h.edit hroom, fun n => hsteps.keeps.contains⟩
  | pass differ top =>
    apply pass_induct (motive := fun g => g.Sound ∧ ∀ n, f.contains n → g.contains n) differ top
      ⟨h, fun _ => id⟩
    rintro g g' hforgets ⟨hsound, hkept⟩
    refine ⟨hsound.forget hforgets, fun n hn => ?_⟩
    rw [contains_congr hforgets.now_eq]
    exact hkept n hn
  | settle n =>
    refine ⟨h.forget (forgets_settle f n), fun x hx => ?_⟩
    rwa [contains_congr (forgets_settle f n).now_eq]
  | finish top =>
    refine ⟨h.forget (forgets_finish f top), fun x hx => ?_⟩
    rwa [contains_congr (forgets_finish f top).now_eq]

lemma Calls.keeps_sound (h : f.Sound) (hcalls : f.Calls g) :
    g.Sound ∧ ∀ n, f.contains n → g.contains n := by
  induction hcalls with
  | refl => exact ⟨h, fun _ => id⟩
  | tail _ hcall ih =>
    obtain ⟨hsound, hkept⟩ := hcall.sound ih.1
    exact ⟨hsound, fun n hn => hkept n (ih.2 n hn)⟩

/-- Whatever calls are made on a forest that starts with a page, as long as there are numbers for new
nodes: its links form trees that contain the page, only containers have children, every chain of parents
comes to a top without passing a node twice, no link or record refers to a node that is not there, no
node is lost, and the next number is larger than all in use. -/
theorem sound_of_calls {f g h : Forest} {page : Node} (hbegins : f.Begins page)
    (hids : ∀ n ∈ page.ids, n.number.toNat + 1 < NodeId.count) (hcalls : f.Calls g)
    (hcalls' : g.Calls h) :
    h.Sound ∧ (∀ n c, h.view.parent n = some c → h.view.isContainer c) ∧
      (∀ n, h.contains n → (h.ancestors n).head? = some n ∧
        List.IsChain (fun x y => h.view.parent x = some y) (h.ancestors n) ∧
          (h.ancestors n).Nodup ∧ ∃ top, h.top? n = some top ∧ h.view.parent top = none) ∧
        ∀ n, g.contains n → h.contains n := by
  obtain ⟨hg, -⟩ := hcalls.keeps_sound (hbegins.sound hids)
  obtain ⟨hsound, hkept⟩ := hcalls'.keeps_sound hg
  refine ⟨hsound, fun n c hn => ?_, fun n hn => ?_, hkept⟩
  · exact View.isContainer_of_mem_children ((hsound.mem_children n c).2 hn)
  · have hac := hsound.acyclic
    rw [top?, ancestors, if_pos hn]
    exact ⟨View.head?_climb_succ _ n, View.isChain_climb _ n, View.nodup_climb hac _ n,
      View.exists_top hac n⟩

/-- A page gets a first child, which is sent, taken out again and forgotten. -/
theorem sound_of_appended :
    let g := (Forest.new "body").edits [.addLeaf "p", .append ⟨0⟩ ⟨1⟩]
    let h := ((Session.pass ⟨g, {}⟩ ⟨0⟩).2.forest.edit (.remove ⟨1⟩)).settle ⟨1⟩
    h.Sound ∧ h.ancestors ⟨1⟩ = [⟨1⟩] ∧ ∀ n, g.contains n → h.contains n := by
  intro g h
  have hcalls : (Forest.new "body").Calls g :=
    (Relation.ReflTransGen.single (.edit (.addLeaf "p") (by decide))).tail
      (.edit (.append ⟨0⟩ ⟨1⟩) (by decide))
  have hcalls' : g.Calls h :=
    ((Relation.ReflTransGen.single (.pass {} ⟨0⟩)).tail
      (.edit (.remove ⟨1⟩) (by decide +kernel))).tail (.settle ⟨1⟩)
  obtain ⟨hsound, -, -, hkept⟩ := sound_of_calls (.new "body") (by decide) hcalls hcalls'
  exact ⟨hsound, by decide +kernel, hkept⟩

end Forest

end PageSync
