import Mathlib.Data.List.Infix

/-!
# Reading a list one symbol at a time

A scanner is a step function that either goes on in a new state or halts with a
result. `run` feeds it a list. A scanner that has halted never looks at what
follows, so a run on a list decides the run on every longer list
(`run_append_halt`), and a run that is still going has halted on no shorter one.
`run_halt_invariant` is the induction over a run that halts, `run_more_induction` the one
over a run that goes on; `run_halt_split` finds the symbol a run halts at, and `run_front`
says what a run on the front of the list comes to. `run_congr` and `run_or_halt` compare two
scanners over the same states.
-/

namespace Scan

/-- What one symbol does: go on in a state, or halt with a result. -/
inductive Step (σ ρ : Type) where
  | more (s : σ)
  | halt (r : ρ)
  deriving DecidableEq, Repr

variable {σ ρ α : Type} (step : σ → α → Step σ ρ)

/-- A step in the terms of another scanner. -/
def Step.map {τ ρ' : Type} (inj : σ → τ) (g : ρ → ρ') : Step σ ρ → Step τ ρ'
  | .more s => .more (inj s)
  | .halt r => .halt (g r)

/-- Feed a list to the scanner. `more` means that it wants more input. -/
def run : σ → List α → Step σ ρ
  | s, [] => .more s
  | s, a :: as =>
    match step s a with
    | .more s' => run s' as
    | .halt r => .halt r

/-- The symbols left unread when the scanner halts, if it does. -/
def rest : σ → List α → Option (List α)
  | _, [] => none
  | s, a :: as =>
    match step s a with
    | .more s' => rest s' as
    | .halt _ => some as

theorem run_cons_more {s s' : σ} {a : α} (as : List α) (h : step s a = .more s') :
    run step s (a :: as) = run step s' as := by
  simp [run, h]

theorem run_cons_halt {s : σ} {a : α} {r : ρ} (as : List α) (h : step s a = .halt r) :
    run step s (a :: as) = .halt r := by
  simp [run, h]

theorem run_append (s : σ) (xs ys : List α) :
    run step s (xs ++ ys) =
      match run step s xs with
      | .more s' => run step s' ys
      | .halt r => .halt r := by
  induction xs generalizing s with
  | nil => rfl
  | cons a as ih =>
    simp only [List.cons_append, run]
    cases step s a with
    | more s' => exact ih s'
    | halt r => rfl

/-- What has halted does not read on. -/
theorem run_append_halt {s : σ} {xs : List α} {r : ρ} (ys : List α)
    (h : run step s xs = .halt r) : run step s (xs ++ ys) = .halt r := by
  rw [run_append, h]

theorem run_snoc {s s' : σ} {xs : List α} (a : α) (h : run step s xs = .more s') :
    run step s (xs ++ [a]) = step s' a := by
  rw [run_append, h]
  cases hs : step s' a with
  | more t => exact run_cons_more step [] hs
  | halt r => exact run_cons_halt step [] hs

/-- The rule for a scanner that goes on: `I` ties its state to the symbols read so far. -/
theorem run_more_induction {I : σ → List α → Prop} {s : σ} (start : I s [])
    (more : ∀ xs s' a t, run step s xs = .more s' → I s' xs → step s' a = .more t →
      I t (xs ++ [a])) {xs : List α} {t : σ} (h : run step s xs = .more t) : I t xs := by
  induction xs using List.reverseRecOn generalizing t with
  | nil => cases h; exact start
  | append_singleton xs a ih =>
    cases hxs : run step s xs with
    | halt r =>
      rw [run_append_halt step [a] hxs] at h
      cases h
    | more s' =>
      rw [run_snoc step a hxs] at h
      exact more xs s' a t hxs (ih hxs) h

/-- A run that halts does so at one symbol, and is still going before it. -/
theorem run_halt_split {s : σ} {as : List α} {r : ρ} (h : run step s as = .halt r) :
    ∃ xs a ys s', as = xs ++ a :: ys ∧ run step s xs = .more s' ∧ step s' a = .halt r := by
  induction as generalizing s with
  | nil => cases h
  | cons a as ih =>
    cases hs : step s a with
    | halt r' =>
      rw [run_cons_halt step as hs] at h
      cases h
      exact ⟨[], a, as, s, rfl, rfl, hs⟩
    | more s' =>
      rw [run_cons_more step as hs] at h
      obtain ⟨xs, b, ys, t, rfl, hxs, hb⟩ := ih h
      exact ⟨a :: xs, b, ys, t, rfl, by rw [run_cons_more step xs hs, hxs], hb⟩

/-- To halt, a scanner reads at least one symbol. -/
theorem rest_length {s : σ} {as left : List α} (h : rest step s as = some left) :
    left.length < as.length := by
  induction as generalizing s with
  | nil => cases h
  | cons a as ih =>
    rw [List.length_cons]
    cases hs : step s a with
    | more s' =>
      simp only [rest, hs] at h
      have := ih h
      omega
    | halt r =>
      simp only [rest, hs, Option.some.injEq] at h
      rw [h]
      omega

/-- A run on the front of a list that halts: it halts in the same way as soon as it has all
that the scanner reads, and not before. -/
theorem run_front {s : σ} {as left xs : List α} (h : rest step s as = some left) (front : xs <+: as) :
    (xs.length + left.length < as.length ∧ ∃ s', run step s xs = .more s') ∨
      (as.length ≤ xs.length + left.length ∧ run step s xs = run step s as) := by
  induction as generalizing s xs with
  | nil => cases h
  | cons a as ih =>
    cases xs with
    | nil =>
      have shorter := rest_length step h
      exact .inl ⟨by simpa using shorter, s, rfl⟩
    | cons b xs =>
      obtain ⟨rfl, begins⟩ := List.cons_prefix_cons.mp front
      simp only [List.length_cons]
      cases hs : step s b with
      | more s' =>
        rw [run_cons_more step xs hs, run_cons_more step as hs]
        simp only [rest, hs] at h
        rcases ih h begins with ⟨before, goes⟩ | ⟨behind, same⟩
        · exact .inl ⟨by omega, goes⟩
        · exact .inr ⟨by omega, same⟩
      | halt r =>
        rw [run_cons_halt step xs hs, run_cons_halt step as hs]
        simp only [rest, hs, Option.some.injEq] at h
        rw [h]
        exact .inr ⟨by omega, rfl⟩

/-! ## Two scanners over the same states -/

section
variable {step} {step' : σ → α → Step σ ρ}

/-- A scanner that takes each symbol as another one does, or gives up, runs as that one
does, or gives up. -/
theorem run_or_halt {e : ρ} (each : ∀ s a, step' s a = step s a ∨ step' s a = .halt e) (s : σ)
    (as : List α) : run step' s as = run step s as ∧ rest step' s as = rest step s as ∨
      run step' s as = .halt e := by
  induction as generalizing s with
  | nil => exact .inl ⟨rfl, rfl⟩
  | cons a as ih =>
    rcases each s a with same | gives
    · simp only [run, rest, same]
      cases step s a with
      | more s' => exact ih s'
      | halt r => exact .inl ⟨rfl, rfl⟩
    · exact .inr (run_cons_halt step' as gives)

/-- `P` ties a state to the symbols still unread, and where it holds the two scanners take
the next one alike. -/
theorem run_congr {P : σ → List α → Prop}
    (alike : ∀ s a as, P s (a :: as) → step' s a = step s a)
    (keeps : ∀ s a as s', P s (a :: as) → step s a = .more s' → P s' as) {s : σ} {as : List α}
    (h : P s as) : run step' s as = run step s as ∧ rest step' s as = rest step s as := by
  induction as generalizing s with
  | nil => exact ⟨rfl, rfl⟩
  | cons a as ih =>
    simp only [run, rest, alike s a as h]
    cases hs : step s a with
    | more s' => exact ih (keeps s a as s' h hs)
    | halt r => exact ⟨rfl, rfl⟩

end

/-- Every symbol read, in the state it is read in, has the property. -/
def Throughout (P : σ → α → Prop) : σ → List α → Prop
  | _, [] => True
  | s, a :: as =>
    P s a ∧ match step s a with
      | .more s' => Throughout P s' as
      | .halt _ => True

instance decidableThroughout {P : σ → α → Prop} [∀ s a, Decidable (P s a)] :
    (s : σ) → (as : List α) → Decidable (Throughout step P s as)
  | _, [] => isTrue trivial
  | s, a :: as =>
    have : Decidable (match step s a with
        | .more s' => Throughout step P s' as
        | .halt _ => True) :=
      match step s a with
      | .more s' => decidableThroughout s' as
      | .halt _ => isTrue trivial
    inferInstanceAs (Decidable (_ ∧ _))

/-- The rule for a scanner that halts: `I` ties its state to the symbols read so far, and
what halts it gives `Q` of its result and these symbols. -/
theorem run_halt_invariant {P : σ → α → Prop} {I : σ → List α → Prop} {Q : ρ → List α → Prop}
    (more : ∀ s s' x a, I s x → P s a → step s a = .more s' → I s' (x ++ [a]))
    (halt : ∀ s r x a, I s x → P s a → step s a = .halt r → Q r (x ++ [a]))
    {s : σ} {x as : List α} {r : ρ} (hI : I s x) (hP : Throughout step P s as)
    (h : run step s as = .halt r) : ∃ read left, as = read ++ left ∧ rest step s as = some left ∧
      Q r (x ++ read) := by
  induction as generalizing s x with
  | nil => cases h
  | cons a as ih =>
    obtain ⟨hPa, hPas⟩ := hP
    cases hstep : step s a with
    | more s' =>
      rw [hstep] at hPas
      rw [run_cons_more step as hstep] at h
      obtain ⟨read, left, rfl, hrest, hQ⟩ := ih (more s s' x a hI hPa hstep) hPas h
      refine ⟨a :: read, left, rfl, ?_, by simpa using hQ⟩
      simpa only [rest, hstep] using hrest
    | halt r' =>
      rw [run_cons_halt step as hstep] at h
      cases h
      refine ⟨[a], as, rfl, ?_, halt s r x a hI hPa hstep⟩
      simp only [rest, hstep]

/-! ## What a scanner reads to the end -/

/-- The scanner halts with this result at the last symbol of the list. -/
def Exactly (s : σ) (as : List α) (r : ρ) : Prop := run step s as = .halt r ∧ rest step s as = some []

section
variable {step} {s s' : σ} {a : α} {as : List α} {r r' : ρ}

theorem not_exactly_nil : ¬ Exactly step s [] r := fun h => by cases h.1

theorem exactly_more (h : step s a = .more s') : Exactly step s (a :: as) r ↔ Exactly step s' as r := by
  simp only [Exactly, run, rest, h]

theorem exactly_halt (h : step s a = .halt r') : Exactly step s (a :: as) r ↔ r' = r ∧ as = [] := by
  simp [Exactly, run, rest, h]

/-- A state that reads one symbol only. -/
theorem exactly_expected [DecidableEq α] {k : α} {e : ρ} (other : e ≠ r)
    (expects : ∀ a, step s a = if a = k then .more s' else .halt e) :
    Exactly step s as r ↔ ∃ rest, as = k :: rest ∧ Exactly step s' rest r := by
  cases as with
  | nil => simp [not_exactly_nil]
  | cons a as =>
    have ha := expects a
    by_cases hk : a = k
    · rw [if_pos hk] at ha
      rw [exactly_more ha, hk]
      simp
    · rw [if_neg hk] at ha
      rw [exactly_halt ha]
      simp [other, hk]

/-- In a state that a scanner stays in while the symbols have `p`, it reads them all, up to
the first one without. -/
theorem exactly_span {β : Type} {f : β → σ} {upd : β → α → β} {p : α → Bool}
    (more : ∀ b a, p a = true → step (f b) a = .more (f (upd b a))) (b : β) (as : List α) (r : ρ) :
    Exactly step (f b) as r ↔ ∃ v a rest, as = v ++ a :: rest ∧ (∀ x ∈ v, p x = true) ∧
      p a = false ∧ Exactly step (f (v.foldl upd b)) (a :: rest) r := by
  induction as generalizing b with
  | nil =>
    constructor
    · exact fun h => absurd h not_exactly_nil
    · rintro ⟨v, a, rest, e, _⟩
      simp at e
  | cons c as ih =>
    cases hc : p c with
    | false =>
      constructor
      · exact fun h => ⟨[], c, as, rfl, by simp, hc, h⟩
      · rintro ⟨v, a, rest, e, all, _, h⟩
        cases v with
        | nil => exact e ▸ h
        | cons x v =>
          obtain ⟨rfl, _⟩ := List.cons.inj e
          rw [all c List.mem_cons_self] at hc
          cases hc
    | true =>
      rw [exactly_more (more b c hc), ih]
      constructor
      · rintro ⟨v, a, rest, rfl, all, ha, h⟩
        exact ⟨c :: v, a, rest, rfl, List.forall_mem_cons.mpr ⟨hc, all⟩, ha, h⟩
      · rintro ⟨v, a, rest, e, all, ha, h⟩
        cases v with
        | nil =>
          obtain ⟨rfl, _⟩ := List.cons.inj e
          rw [hc] at ha
          cases ha
        | cons x v =>
          obtain ⟨rfl, rfl⟩ := List.cons.inj e
          exact ⟨v, a, rest, rfl, (List.forall_mem_cons.mp all).2, ha, h⟩

/-- A state that collects the symbols with `p`. -/
theorem exactly_collect {f : List α → σ} {p : α → Bool}
    (more : ∀ s a, p a = true → step (f s) a = .more (f (s ++ [a]))) (s : List α) :
    Exactly step (f s) as r ↔ ∃ t a rest, as = t ++ a :: rest ∧ (∀ x ∈ t, p x = true) ∧
      p a = false ∧ Exactly step (f (s ++ t)) (a :: rest) r := by
  have folded (s t : List α) : t.foldl (fun s a => s ++ [a]) s = s ++ t := by
    induction t generalizing s with
    | nil => simp
    | cons a t ih => rw [List.foldl_cons, ih]; simp
  have span := exactly_span more s as r
  simp only [folded] at span
  exact span

/-- A state that takes one symbol, of those with `q`, in front of the ones with `p`. -/
theorem exactly_collected {start : σ} {f : List α → σ} {p q : α → Bool} {e : ρ} (other : e ≠ r)
    (first : ∀ a, step start a = if q a then .more (f [a]) else .halt e)
    (more : ∀ s a, p a = true → step (f s) a = .more (f (s ++ [a]))) :
    Exactly step start as r ↔ ∃ a t b rest, q a = true ∧ (∀ x ∈ t, p x = true) ∧ p b = false ∧
      as = a :: t ++ b :: rest ∧ Exactly step (f (a :: t)) (b :: rest) r := by
  constructor
  · intro h
    cases as with
    | nil => exact absurd h not_exactly_nil
    | cons a as =>
      have ha := first a
      cases hq : q a with
      | false =>
        rw [hq, if_neg (by decide)] at ha
        exact absurd ((exactly_halt ha).mp h).1 other
      | true =>
        rw [hq, if_pos rfl] at ha
        rw [exactly_more ha, exactly_collect more] at h
        obtain ⟨t, b, rest, rfl, all, hb, h⟩ := h
        exact ⟨a, t, b, rest, hq, all, hb, rfl, h⟩
  · rintro ⟨a, t, b, rest, hq, all, hb, rfl, h⟩
    have ha := first a
    rw [hq, if_pos rfl] at ha
    rw [List.cons_append, exactly_more ha, exactly_collect more]
    exact ⟨t, b, rest, rfl, all, hb, h⟩

/-- A scanner that runs inside another one reads the same. -/
theorem exactly_within {τ ρ' : Type} {outer : τ → α → Step τ ρ'} (inj : σ → τ) (g : ρ → ρ')
    (within : ∀ s a, outer (inj s) a = (step s a).map inj g) (s : σ) (as : List α) (r' : ρ') :
    Exactly outer (inj s) as r' ↔ ∃ r, Exactly step s as r ∧ g r = r' := by
  induction as generalizing s with
  | nil =>
    constructor
    · exact fun h => absurd h not_exactly_nil
    · rintro ⟨_, h, _⟩
      exact absurd h not_exactly_nil
  | cons a as ih =>
    have ha := within s a
    cases hs : step s a with
    | more s' =>
      rw [hs] at ha
      rw [exactly_more ha, ih]
      simp only [exactly_more hs]
    | halt r =>
      rw [hs] at ha
      rw [exactly_halt ha]
      simp only [exactly_halt hs]
      constructor
      · rintro ⟨h, e⟩
        exact ⟨r, ⟨rfl, e⟩, h⟩
      · rintro ⟨_, ⟨rfl, e⟩, h⟩
        exact ⟨h, e⟩

/-- A scanner that halts has read something to the end. -/
theorem run_halt_iff_exactly : run step s as = .halt r ↔
    ∃ read left, as = read ++ left ∧ Exactly step s read r := by
  constructor
  · intro h
    induction as generalizing s with
    | nil => cases h
    | cons a as ih =>
      cases hs : step s a with
      | more s' =>
        rw [run_cons_more step as hs] at h
        obtain ⟨read, left, rfl, whole⟩ := ih h
        exact ⟨a :: read, left, rfl, (exactly_more hs).mpr whole⟩
      | halt r' =>
        rw [run_cons_halt step as hs] at h
        cases h
        exact ⟨[a], as, rfl, (exactly_halt hs).mpr ⟨rfl, rfl⟩⟩
  · rintro ⟨read, left, rfl, whole⟩
    exact run_append_halt step left whole.1

/-- Nothing a scanner reads to the end begins something else that it reads to the end. -/
theorem Exactly.eq_of_begins {xs ys : List α} (h : Exactly step s xs r) (h' : Exactly step s ys r')
    (begins : xs <+: ys) : xs = ys ∧ r = r' := by
  have same : xs = ys := by
    rcases run_front step h'.2 begins with ⟨_, s', goes⟩ | ⟨behind, _⟩
    · rw [h.1] at goes
      cases goes
    · exact begins.eq_of_length_le (by simpa using behind)
  subst same
  cases h.1.symm.trans h'.1
  exact ⟨rfl, rfl⟩

/-- A list is cut in one way only into what a scanner reads to the end. -/
theorem Exactly.cut {xs ys : List (List α × ρ)} (hx : ∀ p ∈ xs, Exactly step s p.1 p.2)
    (hy : ∀ p ∈ ys, Exactly step s p.1 p.2) (begins : xs.flatMap Prod.fst <+: ys.flatMap Prod.fst) :
    xs <+: ys := by
  induction xs generalizing ys with
  | nil => exact List.nil_prefix
  | cons p xs ih =>
    obtain ⟨hp, hx⟩ := List.forall_mem_cons.mp hx
    rw [List.flatMap_cons] at begins
    cases ys with
    | nil =>
      have none : p.1 = [] := (List.append_eq_nil_iff.mp (List.prefix_nil.mp begins)).1
      rw [none] at hp
      exact absurd hp not_exactly_nil
    | cons q ys =>
      obtain ⟨hq, hys⟩ := List.forall_mem_cons.mp hy
      rw [List.flatMap_cons] at begins
      have same : p = q := by
        rcases List.prefix_or_prefix_of_prefix ((List.prefix_append _ _).trans begins)
          (List.prefix_append q.1 _) with front | front
        · exact Prod.ext_iff.mpr (hp.eq_of_begins hq front)
        · obtain ⟨text, result⟩ := hq.eq_of_begins hp front
          exact Prod.ext_iff.mpr ⟨text.symm, result.symm⟩
      subst same
      exact (List.prefix_cons_inj p).mpr (ih hx hys ((List.prefix_append_right_inj _).mp begins))

end

end Scan
