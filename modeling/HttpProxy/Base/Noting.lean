import Mathlib.Logic.Basic

/-!
# Programs that take notes

A program over a state, and a copy of it that also writes down what it does. `Notes x y s ks`
says that the copy `y` runs from `s` as `x` does and notes `ks`, behind whatever was noted
before. The rules follow the way a program is put together; `Meets` keeps of the notes only
when they are all good.
-/

namespace Noting

variable {ε σ κ α β : Type}

structure Noted (σ κ : Type) where
  st : σ
  notes : List κ

/-- How a program ends, with these notes. -/
def withNotes (ks : List κ) : EStateM.Result ε σ α → EStateM.Result ε (Noted σ κ) α
  | .ok a s => .ok a ⟨s, ks⟩
  | .error e s => .error e ⟨s, ks⟩

/-- A step that notes nothing. -/
def lift (x : EStateM ε σ α) : EStateM ε (Noted σ κ) α := fun s => withNotes s.notes (x s.st)

def note (k : κ) : EStateM ε (Noted σ κ) Unit := fun s => .ok () { s with notes := s.notes ++ [k] }

/-- The notes of a run from `s`. -/
def taken (y : EStateM ε (Noted σ κ) α) (s : σ) : List κ :=
  match y ⟨s, []⟩ with
  | .ok _ t => t.notes
  | .error _ t => t.notes

def Notes (x : EStateM ε σ α) (y : EStateM ε (Noted σ κ) α) (s : σ) (ks : List κ) : Prop :=
  ∀ before, y ⟨s, before⟩ = withNotes (before ++ ks) (x s)

section
variable {x : EStateM ε σ α} {y : EStateM ε (Noted σ κ) α} {f : α → EStateM ε σ β}
  {g : α → EStateM ε (Noted σ κ) β} {s t : σ} {a : α} {e : ε} {ks ks' : List κ}

theorem Notes.taken (h : Notes x y s ks) : taken y s = ks := by
  rw [Noting.taken, h []]
  cases x s with
  | ok a t => rfl
  | error e t => rfl

theorem notes_lift (x : EStateM ε σ α) (s : σ) : Notes x (lift x) s ([] : List κ) := by
  intro before
  rw [List.append_nil]
  rfl

theorem notes_pure (a : α) (s : σ) :
    Notes (pure a : EStateM ε σ α) (pure a) s ([] : List κ) := notes_lift (pure a) s

theorem notes_throw (e : ε) (s : σ) :
    Notes (throw e : EStateM ε σ α) (throw e) s ([] : List κ) := notes_lift (throw e) s

theorem Notes.note (h : Notes x y s ks) (k : κ) :
    Notes x (Noting.note k >>= fun _ => y) s (k :: ks) := by
  intro before
  change y ⟨s, before ++ [k]⟩ = _
  rw [h, List.append_assoc, List.singleton_append]

theorem Notes.bind (h : Notes x y s ks) (run : x s = .ok a t) (h' : Notes (f a) (g a) t ks') :
    Notes (x >>= f) (y >>= g) s (ks ++ ks') := by
  intro before
  have first := h before
  rw [run] at first
  have second := h' (before ++ ks)
  rw [List.append_assoc] at second
  simp only [Bind.bind, EStateM.bind, first, withNotes, run, second]

/-- A first step that notes nothing. -/
theorem Notes.lift_bind (run : x s = .ok a t) (h : Notes (f a) (g a) t ks) :
    Notes (x >>= f) (lift x >>= g) s ks := (notes_lift x s).bind run h

theorem Notes.get_bind {f : σ → EStateM ε σ β} {g : σ → EStateM ε (Noted σ κ) β}
    (h : Notes (f s) (g s) s ks) :
    Notes ((get : EStateM ε σ σ) >>= f) (lift (get : EStateM ε σ σ) >>= g) s ks :=
  Notes.lift_bind (a := s) (t := s) rfl h

theorem Notes.bind_error (h : Notes x y s ks) (run : x s = .error e t) :
    Notes (x >>= f) (y >>= g) s ks := by
  intro before
  have first := h before
  rw [run] at first
  simp only [Bind.bind, EStateM.bind, first, withNotes, run]

/-- A second step that notes nothing. -/
theorem Notes.bind_silent (h : Notes x y s ks) (silent : ∀ a t, Notes (f a) (g a) t []) :
    Notes (x >>= f) (y >>= g) s ks := by
  cases run : x s with
  | error e t => exact h.bind_error run
  | ok a t =>
    have both := h.bind run (silent a t)
    rwa [List.append_nil] at both

/-- What is caught of an exception takes no note back. -/
theorem Notes.catch {x : EStateM ε σ Unit} {y : EStateM ε (Noted σ κ) Unit} (h : Notes x y s ks) :
    Notes (try x catch _ => pure ()) (try y catch _ => pure ()) s ks := by
  intro before
  change EStateM.tryCatch y _ _ = withNotes _ (EStateM.tryCatch x _ _)
  unfold EStateM.tryCatch
  rw [h before]
  cases x s with
  | ok a t => rfl
  | error e t => rfl

/-! ## Good notes -/

/-- The copy runs as `x` does, and all that it notes is good just when `p` holds. -/
def Meets (good : κ → Prop) (x : EStateM ε σ α) (y : EStateM ε (Noted σ κ) α) (s : σ) (p : Prop) :
    Prop :=
  ∃ ks, Notes x y s ks ∧ ((∀ k ∈ ks, good k) ↔ p)

variable {good : κ → Prop} {p q : Prop}

theorem Meets.taken (h : Meets good x y s p) : (∀ k ∈ Noting.taken y s, good k) ↔ p := by
  obtain ⟨ks, notes, all⟩ := h
  rwa [notes.taken]

/-- The copy runs as the original does. -/
theorem Meets.runs (h : Meets good x y s p) : y ⟨s, []⟩ = withNotes (Noting.taken y s) (x s) := by
  obtain ⟨ks, notes, _⟩ := h
  rw [notes.taken]
  exact notes []

theorem Meets.congr (h : Meets good x y s p) (same : p ↔ q) : Meets good x y s q := by
  obtain ⟨ks, notes, all⟩ := h
  exact ⟨ks, notes, all.trans same⟩

theorem Notes.meets (h : Notes x y s []) : Meets good x y s True := ⟨[], h, by simp⟩

theorem Meets.note (h : Meets good x y s p) (k : κ) :
    Meets good x (Noting.note k >>= fun _ => y) s (good k ∧ p) := by
  obtain ⟨ks, notes, all⟩ := h
  exact ⟨k :: ks, notes.note k, by rw [List.forall_mem_cons, all]⟩

theorem Meets.bind (h : Meets good x y s p) (run : x s = .ok a t)
    (h' : Meets good (f a) (g a) t q) : Meets good (x >>= f) (y >>= g) s (p ∧ q) := by
  obtain ⟨ks, notes, all⟩ := h
  obtain ⟨ks', notes', all'⟩ := h'
  exact ⟨ks ++ ks', notes.bind run notes', by rw [List.forall_mem_append, all, all']⟩

theorem Meets.lift_bind (run : x s = .ok a t) (h : Meets good (f a) (g a) t p) :
    Meets good (x >>= f) (lift x >>= g) s p := by
  obtain ⟨ks, notes, all⟩ := h
  exact ⟨ks, notes.lift_bind run, all⟩

theorem Meets.get_bind {f : σ → EStateM ε σ β} {g : σ → EStateM ε (Noted σ κ) β}
    (h : Meets good (f s) (g s) s p) :
    Meets good ((get : EStateM ε σ σ) >>= f) (lift (get : EStateM ε σ σ) >>= g) s p :=
  Meets.lift_bind (a := s) (t := s) rfl h

theorem Meets.bind_error (h : Meets good x y s p) (run : x s = .error e t) :
    Meets good (x >>= f) (y >>= g) s p := by
  obtain ⟨ks, notes, all⟩ := h
  exact ⟨ks, notes.bind_error run, all⟩

theorem Meets.bind_silent (h : Meets good x y s p)
    (silent : ∀ a t, Notes (f a) (g a) t []) : Meets good (x >>= f) (y >>= g) s p := by
  obtain ⟨ks, notes, all⟩ := h
  exact ⟨ks, notes.bind_silent silent, all⟩

theorem Meets.catch {x : EStateM ε σ Unit} {y : EStateM ε (Noted σ κ) Unit}
    (h : Meets good x y s p) :
    Meets good (try x catch _ => pure ()) (try y catch _ => pure ()) s p := by
  obtain ⟨ks, notes, all⟩ := h
  exact ⟨ks, notes.catch, all⟩

end

end Noting
