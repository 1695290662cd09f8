import Mathlib.Data.List.Forall2

/-!
# Steps that can fail

`bind_ok` and `map_ok` take a step that succeeds apart, `exists_bind_ok` says when it does.
Rules for a loop `l.foldlM f s` in `Except`: an invariant that every step keeps holds at the
end, a flag that a step raises for some symbols and otherwise leaves alone is up at the end
when it was up before or some symbol raised it, a field that some symbols write holds what
the last of them wrote, and a loop none of whose steps fails on account of the state does not
fail on account of the state it starts in. `foldlM_alike_iff` is for symbols that can be
written in several ways, one of which the loop passes over.
-/

namespace Fold

variable {σ α β ε : Type} {f : σ → α → Except ε σ}

theorem bind_ok {x : Except ε α} {g : α → Except ε β} {b : β} (h : x >>= g = .ok b) :
    ∃ a, x = .ok a ∧ g a = .ok b := by
  cases x with
  | error e => cases h
  | ok a => exact ⟨a, rfl, h⟩

theorem exists_bind_ok {x : Except ε α} {g : α → Except ε β} :
    (∃ b, x >>= g = .ok b) ↔ ∃ a, x = .ok a ∧ ∃ b, g a = .ok b := by
  constructor
  · rintro ⟨b, h⟩
    obtain ⟨a, ha, hb⟩ := bind_ok h
    exact ⟨a, ha, b, hb⟩
  · rintro ⟨a, rfl, b, hb⟩
    exact ⟨b, hb⟩

theorem map_ok {x : Except ε α} {g : α → β} {b : β} (h : g <$> x = .ok b) :
    ∃ a, x = .ok a ∧ g a = b := by
  cases x with
  | error e => cases h
  | ok a => exact ⟨a, rfl, Except.ok.inj h⟩

theorem foldlM_cons_ok {a : α} {l : List α} {s t : σ} (h : (a :: l).foldlM f s = .ok t) :
    ∃ u, f s a = .ok u ∧ l.foldlM f u = .ok t := by
  rw [List.foldlM_cons] at h
  exact bind_ok h

theorem foldlM_keeps_of (P : σ → Prop) (Q : α → Prop)
    (step : ∀ s a t, P s → Q a → f s a = .ok t → P t) {l : List α} {s t : σ} (hs : P s)
    (all : ∀ a ∈ l, Q a) (h : l.foldlM f s = .ok t) : P t := by
  induction l generalizing s with
  | nil => cases h; exact hs
  | cons a l ih =>
    obtain ⟨ha, hl⟩ := List.forall_mem_cons.mp all
    obtain ⟨u, hu, hrest⟩ := foldlM_cons_ok h
    exact ih (step s a u hs ha hu) hl hrest

theorem foldlM_keeps (P : σ → Prop) (step : ∀ s a t, P s → f s a = .ok t → P t) {l : List α}
    {s t : σ} (hs : P s) (h : l.foldlM f s = .ok t) : P t :=
  foldlM_keeps_of P (fun _ => True) (fun s a t hs _ h => step s a t hs h) hs (fun _ _ => trivial) h

theorem foldlM_flag (flag : σ → Prop) (raises : α → Prop)
    (step : ∀ s a t, f s a = .ok t → (flag t ↔ flag s ∨ raises a)) {l : List α} {s t : σ}
    (h : l.foldlM f s = .ok t) : flag t ↔ flag s ∨ ∃ a ∈ l, raises a := by
  induction l generalizing s with
  | nil => cases h; simp
  | cons a l ih =>
    obtain ⟨u, hu, hl⟩ := foldlM_cons_ok h
    rw [ih hl, step s a u hu]
    simp [or_assoc]

theorem foldlM_last {γ δ : Type} (field : σ → δ) (writes : α → Option γ) (put : γ → δ)
    (step : ∀ s a t, f s a = .ok t → field t = ((writes a).map put).getD (field s))
    {l : List α} {s t : σ} (h : l.foldlM f s = .ok t) :
    field t = ((l.filterMap writes).getLast?.map put).getD (field s) := by
  induction l generalizing s with
  | nil => cases h; rfl
  | cons a l ih =>
    obtain ⟨u, hu, hl⟩ := foldlM_cons_ok h
    rw [ih hl, step s a u hu]
    cases hw : writes a with
    | none => simp [hw]
    | some c => cases hlast : (l.filterMap writes).getLast? <;> simp [hw, List.getLast?_cons, hlast]

/-- When no step's success depends on the state, neither does the loop's. -/
theorem foldlM_regardless (step : ∀ s s' a t, f s a = .ok t → ∃ t', f s' a = .ok t') {l : List α}
    {s t : σ} (s' : σ) (h : l.foldlM f s = .ok t) : ∃ t', l.foldlM f s' = .ok t' := by
  induction l generalizing s s' with
  | nil => exact ⟨s', rfl⟩
  | cons a l ih =>
    obtain ⟨u, hu, hl⟩ := foldlM_cons_ok h
    obtain ⟨u', hu'⟩ := step s s' a u hu
    obtain ⟨t', ht'⟩ := ih u' hl
    exact ⟨t', by rw [List.foldlM_cons, hu']; exact ht'⟩

/-- When no step's success depends on the state, the loop succeeds if every symbol's does. -/
theorem foldlM_ok_iff (accepts : α → Prop) (step : ∀ s a, (∃ t, f s a = .ok t) ↔ accepts a)
    {l : List α} {s : σ} : (∃ t, l.foldlM f s = .ok t) ↔ ∀ a ∈ l, accepts a := by
  induction l generalizing s with
  | nil => simp [pure, Except.pure]
  | cons a l ih =>
    rw [List.forall_mem_cons]
    constructor
    · rintro ⟨t, ht⟩
      obtain ⟨u, hu, hl⟩ := foldlM_cons_ok ht
      exact ⟨(step s a).mp ⟨u, hu⟩, ih.mp ⟨t, hl⟩⟩
    · rintro ⟨ha, hl⟩
      obtain ⟨u, hu⟩ := (step s a).mpr ha
      obtain ⟨t, ht⟩ := ih.mpr hl
      exact ⟨t, by rw [List.foldlM_cons, hu]; exact ht⟩

/-! ## Symbols that may be written in several ways -/

section
variable {δ : Type} {view : σ → δ} {alike : α → α → Prop}

/-- A symbol that does nothing to the view of the state `s`. -/
def Idle (view : σ → δ) (f : σ → α → Except ε σ) (s : σ) (a : α) : Prop :=
  ∃ t, f s a = .ok t ∧ view t = view s

/-- A loop over symbols that do nothing to the view ends with the view it began with. -/
theorem foldlM_idle {s : σ} (keeps : ∀ u a, view u = view s → Idle view f s a →
    ∃ t, f u a = .ok t ∧ view t = view s) {l : List α} (idle : ∀ a ∈ l, Idle view f s a) :
    ∃ t, l.foldlM f s = .ok t ∧ view t = view s := by
  suffices from_any : ∀ u, view u = view s → ∃ t, l.foldlM f u = .ok t ∧ view t = view s from
    from_any s rfl
  induction l with
  | nil => exact fun u hu => ⟨u, rfl, hu⟩
  | cons a l ih =>
    intro u hu
    obtain ⟨ha, hl⟩ := List.forall_mem_cons.mp idle
    obtain ⟨v, hv, same⟩ := keeps u a hu ha
    obtain ⟨t, ht, same'⟩ := ih hl v same
    exact ⟨t, by rw [List.foldlM_cons, hv]; exact ht, same'⟩

theorem foldlM_mute {mute : α → α} (silent : ∀ u a, f u (mute a) = .ok u) (l : List α) (s : σ) :
    (l.map mute).foldlM f s = .ok s := by
  induction l with
  | nil => rfl
  | cons a l ih =>
    rw [List.map_cons, List.foldlM_cons, silent]
    exact ih

/-- When every symbol can be written so that it does nothing, a loop sees the same in all
writings of a list just when no symbol does anything, in whatever writing. -/
theorem foldlM_alike_iff {s : σ} {mute : α → α} (muted : ∀ a, alike a (mute a))
    (silent : ∀ u a, f u (mute a) = .ok u) (refl : ∀ a, alike a a)
    (keeps : ∀ u a, view u = view s → Idle view f s a → ∃ t, f u a = .ok t ∧ view t = view s)
    {l : List α} :
    (∀ l', List.Forall₂ alike l l' → (l.foldlM f s).map view = (l'.foldlM f s).map view) ↔
      ∀ a ∈ l, ∀ b, alike a b → Idle view f s b := by
  have silence (l : List α) : List.Forall₂ alike l (l.map mute) := by
    rw [List.forall₂_map_right_iff]
    exact List.forall₂_same.mpr fun a _ => muted a
  constructor
  · intro same a ha b hb
    obtain ⟨p, q, rfl⟩ := List.append_of_mem ha
    -- all symbols mute, and all but `b`
    have all := same _ (silence (p ++ a :: q))
    have one := same (p.map mute ++ b :: q.map mute)
      (List.rel_append (silence p) (.cons hb (silence q)))
    rw [foldlM_mute silent] at all
    rw [all, List.foldlM_append, foldlM_mute silent] at one
    change Except.map view (.ok s) = Except.map view ((b :: q.map mute).foldlM f s) at one
    rw [List.foldlM_cons] at one
    cases hb : f s b with
    | error e =>
      rw [hb] at one
      cases one
    | ok t =>
      rw [hb] at one
      change Except.map view (.ok s) = Except.map view ((q.map mute).foldlM f t) at one
      rw [foldlM_mute silent] at one
      exact ⟨t, hb, (Except.ok.inj one).symm⟩
  · intro idle l' h
    obtain ⟨t, ht, view_t⟩ := foldlM_idle keeps fun a ha => idle a ha a (refl a)
    have idle' : ∀ b ∈ l', Idle view f s b := by
      clear ht
      induction h with
      | nil => simp
      | cons hab _ ih =>
        obtain ⟨ha, hl⟩ := List.forall_mem_cons.mp idle
        exact List.forall_mem_cons.mpr ⟨ha _ hab, ih hl⟩
    obtain ⟨t', ht', view_t'⟩ := foldlM_idle keeps idle'
    rw [ht, ht']
    exact congrArg Except.ok (view_t.trans view_t'.symm)

end

end Fold
