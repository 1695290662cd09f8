import Mathlib.Data.List.Infix

/-!
# Runs of a step function

A run folds a step over a list of inputs; its states are those after each prefix of the
list. `good_iff` is for a property that an invariant state keeps at a step just when the
step is not bad: then a run is good throughout just when none of its steps is bad.
`good_iff_while` asks for the invariant only as long as the run is good. `refines` is for a
second step function on abstractions of the states.
-/

namespace Run

variable {σ α : Type} {step : σ → α → σ}

theorem foldl_snoc (p : List α) (a : α) (s : σ) :
    (p ++ [a]).foldl step s = step (p.foldl step s) a := by simp

theorem invariant (Inv : σ → Prop) {s : σ} (hinv : Inv s) (keeps : ∀ s a, Inv s → Inv (step s a))
    (as : List α) : Inv (as.foldl step s) := by
  induction as using List.reverseRecOn with
  | nil => exact hinv
  | append_singleton as a ih =>
    rw [foldl_snoc]
    exact keeps _ a ih

/-- Where each step does to the state what `spec` does to its abstraction, so does a run. -/
theorem refines {τ : Type} {spec : τ → α → τ} (abs : σ → τ) (Inv : σ → Prop) {Fair : α → Prop}
    {s : σ} (hinv : Inv s) (keeps : ∀ s a, Inv s → Inv (step s a))
    (hstep : ∀ s a, Inv s → Fair a → abs (step s a) = spec (abs s) a) {as : List α}
    (fair : ∀ a ∈ as, Fair a) : abs (as.foldl step s) = as.foldl spec (abs s) := by
  induction as using List.reverseRecOn with
  | nil => rfl
  | append_singleton as a ih =>
    obtain ⟨before, last⟩ := List.forall_mem_append.mp fair
    rw [foldl_snoc, foldl_snoc,
      hstep _ a (invariant Inv hinv keeps as) (last a List.mem_cons_self), ih before]

theorem good_iff_while (Inv : σ → Prop) {Good : σ → Prop} {Bad : σ → α → Prop} {s : σ}
    (hinv : Inv s) (hgood : Good s)
    (keeps : ∀ s a, Inv s → Good s → Good (step s a) → Inv (step s a))
    (hstep : ∀ s a, Inv s → Good s → (Good (step s a) ↔ ¬ Bad s a)) (as : List α) :
    (∀ p, p <+: as → Good (p.foldl step s)) ↔
      ∀ p a, p ++ [a] <+: as → ¬ Bad (p.foldl step s) a := by
  have shorter {p : List α} {a : α} (hp : p ++ [a] <+: as) : p <+: as :=
    (List.prefix_append p [a]).trans hp
  constructor
  · intro good
    have inv : ∀ p, p <+: as → Inv (p.foldl step s) := by
      intro p
      induction p using List.reverseRecOn with
      | nil => exact fun _ => hinv
      | append_singleton p a ih =>
        intro hp
        have after := good (p ++ [a]) hp
        rw [foldl_snoc] at after ⊢
        exact keeps _ a (ih (shorter hp)) (good p (shorter hp)) after
    intro p a hp
    have after := good (p ++ [a]) hp
    rw [foldl_snoc] at after
    exact (hstep _ a (inv p (shorter hp)) (good p (shorter hp))).mp after
  · intro clean
    have both : ∀ p, p <+: as → Inv (p.foldl step s) ∧ Good (p.foldl step s) := by
      intro p
      induction p using List.reverseRecOn with
      | nil => exact fun _ => ⟨hinv, hgood⟩
      | append_singleton p a ih =>
        intro hp
        obtain ⟨inv, good⟩ := ih (shorter hp)
        rw [foldl_snoc]
        have after := (hstep _ a inv good).mpr (clean p a hp)
        exact ⟨keeps _ a inv good after, after⟩
    exact fun p hp => (both p hp).2

theorem good_iff (Inv : σ → Prop) {Good : σ → Prop} {Bad : σ → α → Prop} {s : σ} (hinv : Inv s)
    (hgood : Good s) (keeps : ∀ s a, Inv s → Inv (step s a))
    (hstep : ∀ s a, Inv s → Good s → (Good (step s a) ↔ ¬ Bad s a)) (as : List α) :
    (∀ p, p <+: as → Good (p.foldl step s)) ↔
      ∀ p a, p ++ [a] <+: as → ¬ Bad (p.foldl step s) a :=
  good_iff_while Inv hinv hgood (fun s a inv _ _ => keeps s a inv) hstep as

end Run
