import Mathlib.Tactic.Common
import PageSync.Pass.Walk

/-!
# Steps of a pass

`Yields m s Q F` says how a step ends that is taken in a state: it goes on as `Q` says, or fails as
`F` says. There is one lemma for each of the elementary steps, so that a compound one is followed by
rewriting with them.
-/

namespace PageSync

namespace Pass

/-- Whether the children of a container are sent anew without being compared. -/
def sendsAnew (pass : Pass) (container : NodeId) (shown current : List NodeId) : Bool :=
  shown.isEmpty || pass.policy.prefersReplacement shown.length current.length ||
    (pass.view.entry container).replacesChildren

/-- Whether a step taken in a state goes on with a result and a state as `Q` says, or else fails
as `F` says. -/
def Yields {α : Type} (m : Walk α) (s : Progress) (Q : α → Progress → Prop)
    (F : PassError → Prop) : Prop :=
  match m.run s with
  | .ok a s' => Q a s'
  | .error e _ => F e

variable {α β : Type} {m : Walk α} {f : α → Walk β} {s s' : Progress} {Q Q' : α → Progress → Prop}
  {R : β → Progress → Prop} {F : PassError → Prop} {P : Unit → Progress → Prop} {a : α}
  {e : PassError} {n : NodeId} {number : Nat}

/-- A step that goes on as one condition says goes on as any weaker one says. -/
lemma Yields.mono (h : Yields m s Q F) (hQ : ∀ a s', Q a s' → Q' a s') : Yields m s Q' F := by
  unfold Yields at h ⊢
  cases hm : m.run s with
  | ok a s' =>
    rw [hm] at h
    exact hQ a s' h
  | error e s' =>
    rw [hm] at h
    exact h

/-- A step that fails as one condition says fails as any weaker one says. -/
lemma Yields.weaken {F' : PassError → Prop} (h : Yields m s Q F) (hF : ∀ e, F e → F' e) :
    Yields m s Q F' := by
  unfold Yields at h ⊢
  cases hm : m.run s with
  | ok a s' =>
    rw [hm] at h
    exact h
  | error e s' =>
    rw [hm] at h
    exact hF e h

/-- What a step goes on with is what it says. -/
lemma Yields.of_run (h : Yields m s Q F) (hm : m.run s = .ok a s') : Q a s' := by
  simpa [Yields, hm] using h

lemma Yields.of_run_error (h : Yields m s Q F) (hm : m.run s = .error e s') : F e := by
  simpa [Yields, hm] using h

/-- A step that fails goes on in whatever way. -/
lemma Yields.of_fails (h : Yields m s (fun _ _ => False) F) : Yields m s Q F :=
  h.mono fun _ _ h => h.elim

/-! ### Elementary steps -/

@[simp] lemma yields_pure : Yields (pure a) s Q F ↔ Q a s := Iff.rfl

@[simp] lemma yields_throw : Yields (throw e : Walk α) s Q F ↔ F e := Iff.rfl

/-- A step after another one is taken in the state that the first one leaves. -/
lemma run_bind : (m >>= f).run s = match m.run s with
    | .ok a s' => (f a).run s'
    | .error e s' => .error e s' := by
  simp only [bind, EStateM.bind, EStateM.run]
  cases m s <;> rfl

@[simp] lemma yields_bind :
    Yields (m >>= f) s R F ↔ Yields m s (fun a s' => Yields (f a) s' R F) F := by
  rw [Yields, Yields, run_bind]
  cases m.run s <;> rfl

@[simp] lemma yields_get {Q : Progress → Progress → Prop} : Yields get s Q F ↔ Q s s := Iff.rfl

@[simp] lemma yields_note {change : Ledger → Ledger} :
    Yields (note change) s P F ↔ P () { s with ledger := change s.ledger } := Iff.rfl

@[simp] lemma yields_noteOn {change : Sheet → Sheet} : Yields (noteOn number change) s P F ↔
    P () { s with ledger := s.ledger.update number change } := Iff.rfl

@[simp] lemma yields_sheet {Q : Sheet → Progress → Prop} :
    Yields (sheet number) s Q F ↔ Q (s.ledger.sheet number) s := Iff.rfl

@[simp] lemma yields_markDone : Yields (markDone n) s P F ↔
    P () { s with finished := s.finished ++ [n] } := Iff.rfl

@[simp] lemma yields_setPlace {place : Place} : Yields (setPlace n place) s P F ↔
    P () { s with
      tables := { s.tables with places := s.tables.places.insert n place } } := Iff.rfl

@[simp] lemma yields_place? {Q : Option Place → Progress → Prop} :
    Yields (place? n) s Q F ↔ Q s.tables.places[n]? s := Iff.rfl

@[simp] lemma yields_setMoved : Yields (setMoved n) s P F ↔
    P () { s with tables := { s.tables with moved := s.tables.moved.insert n } } := Iff.rfl

@[simp] lemma yields_isMoved {Q : Bool → Progress → Prop} :
    Yields (isMoved n) s Q F ↔ Q (s.tables.moved.contains n) s := Iff.rfl

lemma yields_placeOf {place : Place} (h : s.tables.places[n]? = some place)
    {Q : Place → Progress → Prop} : Yields (placeOf n) s Q F ↔ Q place s := by
  simp [placeOf, h]

@[simp] lemma yields_contradict {pass : Pass} {reason : Inconsistency} :
    Yields (pass.contradict n reason : Walk α) s Q F ↔
      F (.inconsistent n reason (pass.path n)) := Iff.rfl

lemma yields_ite {c : Prop} [Decidable c] {m' : Walk α} :
    Yields (if c then m else m') s Q F ↔ (c → Yields m s Q F) ∧ (¬ c → Yields m' s Q F) := by
  by_cases h : c <;> simp [h]

/-! ### Lists of steps -/

/-- Several steps one after the other keep what each of them keeps. -/
lemma yields_forM {γ : Type} {step : γ → Walk Unit} {I : List γ → Progress → Prop}
    (todo : List γ) (hstep : ∀ done x rest s, todo = done ++ x :: rest → I done s →
      Yields (step x) s (fun _ s' => I (done ++ [x]) s') F) (hs : I [] s) :
    Yields (todo.forM step) s (fun _ s' => I todo s') F := by
  suffices ∀ rest done s, todo = done ++ rest → I done s →
      Yields (rest.forM step) s (fun _ s' => I todo s') F from this todo [] s rfl hs
  intro rest
  induction rest with
  | nil =>
    rintro done s rfl hI
    simpa using hI
  | cons x rest ih =>
    intro done s htodo hI
    rw [List.forM_eq_forM, List.forM_cons, yields_bind]
    apply (hstep done x rest s htodo hI).mono
    intro _ s' hI'
    exact ih (done ++ [x]) s' (by simp [htodo]) hI'

end Pass

end PageSync
