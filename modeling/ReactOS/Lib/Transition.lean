/-! # Transition systems with faults

    A system takes an operation, returns a value and moves to a new state;
    `none` is a fault, which a correct system never reaches.  A client issues
    operations that are `legal`, and `Reachable S C` are the states of the
    runs in which every operation also meets the condition `C`.  `Runs` keeps
    the labels of a run, for properties of a whole trace. -/

namespace Transition

open Option

variable {σ α ρ : Type}

/-! ## Section 1: Reachable states -/

variable {s : σ}

/-- Initial states, operations a client may issue, and what they do. -/
structure System (σ α ρ : Type) where
  init : σ → Prop
  legal : σ → α → Prop
  step : σ → α → Option (σ × ρ)

/-- States reached by runs whose operations all meet `C`. -/
inductive Reachable (S : System σ α ρ) (C : σ → α → Prop) : σ → Prop where
  | init {s : σ} : S.init s → Reachable S C s
  | step {s s' : σ} {a : α} {r : ρ} :
      Reachable S C s → S.legal s a → C s a → S.step s a = some (s', r) → Reachable S C s'

variable {S : System σ α ρ}

/-- What holds initially and is preserved by every step holds in every
    reachable state. -/
theorem Reachable.invariant {C : σ → α → Prop} {I : σ → Prop} (hinit : ∀ s, S.init s → I s)
    (hstep : ∀ s a s' r, I s → S.legal s a → C s a → S.step s a = some (s', r) → I s')
    (hs : Reachable S C s) : I s := by
  induction hs with
  | init h => exact hinit _ h
  | step _ hl hc hst ih => exact hstep _ _ _ _ ih hl hc hst

/-- It is enough that every step has a result that keeps the property. -/
theorem Reachable.invariant_of_steps {C : σ → α → Prop} {I : σ → Prop} (hinit : ∀ s, S.init s → I s)
    (hstep : ∀ s a, I s → S.legal s a → C s a → ∃ s' r, S.step s a = some (s', r) ∧ I s')
    (hs : Reachable S C s) : I s := by
  refine hs.invariant hinit fun s a s' r h hlegal hc hst => ?_
  obtain ⟨s1, r1, hst1, h1⟩ := hstep s a h hlegal hc
  cases hst.symm.trans hst1
  exact h1

/-- Replay of a list of operations, each of which has to be legal. -/
def System.run (S : System σ α ρ) [∀ s a, Decidable (S.legal s a)] : σ → List α → Option σ
  | s, [] => some s
  | s, a :: as =>
    if S.legal s a then (S.step s a).bind (fun p => System.run S p.1 as) else none

/-- A state reached by a replay is reachable. -/
theorem Reachable.of_run [∀ s a, Decidable (S.legal s a)] {s' : σ}
    {as : List α} (hs : Reachable S (fun _ _ => True) s) (hrun : S.run s as = some s') :
    Reachable S (fun _ _ => True) s' := by
  induction as generalizing s with
  | nil =>
    cases hrun
    exact hs
  | cons a as ih =>
    rw [System.run] at hrun
    split at hrun
    · rename_i hlegal
      obtain ⟨p, hp, hrest⟩ := bind_eq_some_iff.mp hrun
      exact ih (.step hs hlegal trivial hp) hrest
    · cases hrun

/-- A replay that ends in a state with a property reaches such a state. -/
theorem Reachable.exists_of_run [∀ s a, Decidable (S.legal s a)]
    (as : List α) (p : σ → Bool) (hs : Reachable S (fun _ _ => True) s)
    (hrun : (S.run s as).any p = true) : ∃ s', Reachable S (fun _ _ => True) s' ∧ p s' = true := by
  obtain ⟨hsome, hp⟩ := (any_eq_true_iff_get _ _).1 hrun
  exact ⟨_, hs.of_run (some_get hsome).symm, hp⟩

/-- The system whose clients also see to the condition. -/
def System.restrict (S : System σ α ρ) (C : σ → α → Prop) : System σ α ρ where
  init := S.init
  legal := fun s a => S.legal s a ∧ C s a
  step := S.step

instance (S : System σ α ρ) (C : σ → α → Prop) [∀ s a, Decidable (S.legal s a)]
    [∀ s a, Decidable (C s a)] (s : σ) (a : α) : Decidable ((S.restrict C).legal s a) :=
  inferInstanceAs (Decidable (S.legal s a ∧ C s a))

theorem Reachable.of_restrict {C : σ → α → Prop}
    (hs : Reachable (S.restrict C) (fun _ _ => True) s) : Reachable S C s := by
  induction hs with
  | init h => exact .init h
  | step _ hlegal _ hst ih => exact .step ih hlegal.1 hlegal.2 hst

/-! ## Section 2: Labelled runs -/

section Runs

variable {τ ε : Type}
variable {s₀ : σ}

/-- Runs of a labelled relation, with their labels in order. -/
inductive Runs (step : σ → ε → σ → Prop) (s₀ : σ) : List ε → σ → Prop where
  | nil : Runs step s₀ [] s₀
  | snoc {es : List ε} {e : ε} {s s' : σ} :
      Runs step s₀ es s → step s e s' → Runs step s₀ (es ++ [e]) s'

/-- The last label of a run that begins with `e₁` is that of the step into its last state. -/
theorem Runs.exists_last {step : σ → ε → σ → Prop} {s1 : σ} {e1 e : ε} {es : List ε}
    (h1 : step s₀ e1 s1) (h : Runs step s1 es s) (he : (e1 :: es).getLast? = some e) :
    ∃ s', step s' e s := by
  cases h with
  | nil =>
    obtain rfl : e1 = e := by simpa using he
    exact ⟨s₀, h1⟩
  | @snoc es e' s' _ _ hst =>
    obtain rfl : e' = e := by
      rw [← List.cons_append, List.getLast?_concat] at he
      exact some.inj he
    exact ⟨s', hst⟩

/-- A relation that every step keeps carries a run over to the other system. -/
theorem Runs.simulate {step : σ → ε → σ → Prop} {step' : τ → ε → τ → Prop} {R : σ → τ → Prop}
    (hstep : ∀ s e s' t, R s t → step s e s' → ∃ t', step' t e t' ∧ R s' t') {t0 : τ}
    {es : List ε} (h0 : R s₀ t0) (h : Runs step s₀ es s) : ∃ t, Runs step' t0 es t ∧ R s t := by
  induction h with
  | nil => exact ⟨t0, .nil, h0⟩
  | snoc _ hst ih =>
    obtain ⟨t, hrun, hR⟩ := ih
    obtain ⟨t', ht', hR'⟩ := hstep _ _ _ _ hR hst
    exact ⟨t', .snoc hrun ht', hR'⟩

/-- A system seen from its client, who reads off what the operations return. -/
def System.labelled (S : System σ α ρ) (s : σ) (r : ρ) (s' : σ) : Prop :=
  ∃ a, S.legal s a ∧ S.step s a = some (s', r)

/-- Replay of a list of operations that keeps what they return. -/
def System.replay (S : System σ α ρ) [∀ s a, Decidable (S.legal s a)] :
    σ → List α → Option (σ × List ρ)
  | s, [] => some (s, [])
  | s, a :: as =>
    if S.legal s a then
      (S.step s a).bind fun p => (System.replay S p.1 as).map fun q => (q.1, p.2 :: q.2)
    else none

theorem Runs.of_replay [∀ s a, Decidable (S.legal s a)] {s' : σ}
    {as : List α} {es rs : List ρ} (hs : Runs S.labelled s₀ es s)
    (hrun : S.replay s as = some (s', rs)) : Runs S.labelled s₀ (es ++ rs) s' := by
  induction as generalizing s es rs with
  | nil =>
    obtain ⟨rfl, rfl⟩ := hrun
    simpa using hs
  | cons a as ih =>
    rw [System.replay] at hrun
    split at hrun
    · rename_i hlegal
      obtain ⟨⟨s1, r⟩, hp, hrest⟩ := bind_eq_some_iff.mp hrun
      obtain ⟨⟨s2, rs'⟩, hq, heq⟩ := map_eq_some_iff.mp hrest
      obtain ⟨rfl, rfl⟩ := heq
      have h := ih (.snoc hs ⟨a, hlegal, hp⟩) hq
      simpa using h
    · cases hrun

end Runs

end Transition
