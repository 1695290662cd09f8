import Mathlib.Data.List.Count
import Mathlib.Logic.Function.Basic

/-!
# Handles whose numbers are used again

A table says which opening a number designates now; a number may designate another one
after it was closed. Each opening has an owner, and the closes are kept with who made
them. In a valid table an opening has been closed just once or it is still in its slot.
-/

namespace Handles

variable {ν ω : Type}

/-- One opening. No two have the same serial number. -/
structure Opening (ω : Type) where
  serial : Nat
  owner : ω
  deriving DecidableEq, Repr

structure Table (ν ω : Type) where
  slot : ν → Option (Opening ω)
  openings : List (Opening ω)
  closes : List (ω × Opening ω)

namespace Table

def empty : Table ν ω := ⟨fun _ => none, [], []⟩

/-- Who is the owner of what this number designates. -/
def Owns (t : Table ν ω) (w : ω) (n : ν) : Prop := ∃ o, t.slot n = some o ∧ o.owner = w

/-- Whoever closed an opening was its owner. -/
def Proper (t : Table ν ω) : Prop := ∀ w o, (w, o) ∈ t.closes → o.owner = w

theorem Owns.unique {t : Table ν ω} {v w : ω} {n : ν} (h : t.Owns v n) (h' : t.Owns w n) :
    v = w := by
  obtain ⟨o, ho, rfl⟩ := h
  obtain ⟨o', ho', rfl⟩ := h'
  cases ho.symm.trans ho'
  rfl

theorem ne_of_free {t : Table ν ω} {n m : ν} {o : Opening ω} (held : t.slot n = some o)
    (free : t.slot m = none) : n ≠ m := by
  rintro rfl
  cases free.symm.trans held

variable [DecidableEq ν]

def opens (t : Table ν ω) (n : ν) (w : ω) : Table ν ω where
  slot := Function.update t.slot n (some ⟨t.openings.length, w⟩)
  openings := t.openings ++ [⟨t.openings.length, w⟩]
  closes := t.closes

/-- A close of a number that designates nothing does nothing. -/
def shuts (t : Table ν ω) (n : ν) (w : ω) : Table ν ω :=
  match t.slot n with
  | none => t
  | some o => { t with slot := Function.update t.slot n none, closes := t.closes ++ [(w, o)] }

section
variable {t : Table ν ω} {n : ν} {w : ω}

theorem shuts_none (h : t.slot n = none) : t.shuts n w = t := by rw [shuts, h]

theorem shuts_some {o : Opening ω} (h : t.slot n = some o) : t.shuts n w =
    { t with slot := Function.update t.slot n none, closes := t.closes ++ [(w, o)] } := by
  rw [shuts, h]

theorem slot_opens_self (t : Table ν ω) (n : ν) (w : ω) :
    (t.opens n w).slot n = some ⟨t.openings.length, w⟩ := Function.update_self ..

theorem slot_opens_of_ne {m : ν} (h : m ≠ n) (w : ω) : (t.opens n w).slot m = t.slot m :=
  Function.update_of_ne h ..

theorem slot_shuts_of_ne {m : ν} (h : m ≠ n) (w : ω) : (t.shuts n w).slot m = t.slot m := by
  unfold shuts
  split
  · rfl
  · exact Function.update_of_ne h ..

theorem slot_of_shuts {m : ν} {o : Opening ω} (h : (t.shuts n w).slot m = some o) :
    t.slot m = some o := by
  cases hn : t.slot n with
  | none => rwa [shuts_none hn] at h
  | some p =>
    rw [shuts_some hn] at h
    by_cases same : m = n
    · simp [same] at h
    · simpa [same] using h

@[simp] theorem openings_shuts : (t.shuts n w).openings = t.openings := by
  unfold shuts
  split <;> rfl

theorem owns_opens (free : t.slot n = none) (v : ω) (m : ν) :
    (t.opens n w).Owns v m ↔ t.Owns v m ∨ m = n ∧ v = w := by
  by_cases same : m = n
  · subst same
    have slot : (t.opens m w).slot m = some ⟨t.openings.length, w⟩ := Function.update_self ..
    constructor
    · rintro ⟨o, ho, hv⟩
      cases slot.symm.trans ho
      exact .inr ⟨rfl, hv.symm⟩
    · rintro (⟨o, ho, _⟩ | ⟨_, rfl⟩)
      · cases free.symm.trans ho
      · exact ⟨_, slot, rfl⟩
  · simp [Owns, opens, same]

theorem owns_shuts (v : ω) (m : ν) : (t.shuts n w).Owns v m ↔ m ≠ n ∧ t.Owns v m := by
  cases h : t.slot n with
  | none =>
    rw [shuts_none h]
    constructor
    · rintro ⟨o, ho, hv⟩
      refine ⟨?_, o, ho, hv⟩
      rintro rfl
      cases h.symm.trans ho
    · exact And.right
  | some o =>
    rw [shuts_some h]
    by_cases same : m = n
    · simp [Owns, same]
    · simp [Owns, same]

theorem proper_opens : (t.opens n w).Proper ↔ t.Proper := .rfl

/-- A close is proper if it closes nothing, or something of its own. -/
theorem proper_shuts : (t.shuts n w).Proper ↔ t.Proper ∧ ∀ v, t.Owns v n → v = w := by
  cases h : t.slot n with
  | none =>
    rw [shuts_none h]
    refine (and_iff_left ?_).symm
    rintro v ⟨o, ho, _⟩
    cases h.symm.trans ho
  | some o =>
    rw [shuts_some h]
    constructor
    · intro proper
      constructor
      · intro v p hp
        exact proper v p (List.mem_append_left _ hp)
      · rintro v ⟨p, hp, rfl⟩
        cases h.symm.trans hp
        exact proper w o (by simp)
    · rintro ⟨proper, own⟩ v p hp
      rcases List.mem_append.mp hp with hp | hp
      · exact proper v p hp
      · cases List.mem_singleton.mp hp
        exact own o.owner ⟨o, h, rfl⟩

end

/-- What one call can do to a table. -/
inductive Change (t : Table ν ω) : Table ν ω → Prop
  | none : Change t t
  | opens {n : ν} (free : t.slot n = none) (w : ω) : Change t (t.opens n w)
  | shuts (n : ν) (w : ω) : Change t (t.shuts n w)

/-- The opening has been, and this number does not designate it. -/
def Past (t : Table ν ω) (n : ν) (o : Opening ω) : Prop :=
  o.serial < t.openings.length ∧ t.slot n ≠ some o

section
variable {t t' : Table ν ω} {n : ν} {o : Opening ω}

theorem Change.given (h : t.Change t') {serial : Nat} (given : serial < t.openings.length) :
    serial < t'.openings.length := by
  cases h with
  | none => exact given
  | opens free w =>
    rw [Table.opens, List.length_append]
    exact Nat.lt_add_right _ given
  | shuts m w => rwa [openings_shuts]

/-- No serial number is given twice, so what is past does not come back. -/
theorem Change.past (h : t.Change t') (past : t.Past n o) : t'.Past n o := by
  refine ⟨h.given past.1, ?_⟩
  cases h with
  | none => exact past.2
  | @opens m free w =>
    by_cases same : n = m
    · subst same
      rw [slot_opens_self]
      rintro ⟨⟩
      exact Nat.lt_irrefl _ past.1
    · rw [slot_opens_of_ne same]
      exact past.2
  | shuts m w => exact fun held => past.2 (slot_of_shuts held)

end

end Table

namespace Table

variable [DecidableEq ω]

/-- How many times an opening has been closed. -/
def closings (t : Table ν ω) (o : Opening ω) : Nat := (t.closes.map Prod.snd).count o

/-- All that was opened for `w` has been closed, and once. -/
def ClosedOnce (t : Table ν ω) (w : ω) : Prop := ∀ o ∈ t.openings, o.owner = w → t.closings o = 1

/-- An opening is in its slot and not closed, or closed once and in no slot. -/
structure Valid (t : Table ν ω) : Prop where
  serials : ∀ o ∈ t.openings, o.serial < t.openings.length
  known : ∀ n o, t.slot n = some o → o ∈ t.openings
  apart : ∀ n m o, t.slot n = some o → t.slot m = some o → n = m
  unclosed : ∀ n o, t.slot n = some o → t.closings o = 0
  closed : ∀ o ∈ t.openings, (∀ n, t.slot n ≠ some o) → t.closings o = 1
  past : ∀ o, o ∉ t.openings → t.closings o = 0

theorem valid_empty : (empty : Table ν ω).Valid := by
  constructor <;> simp [empty, closings]

theorem Valid.closedOnce_iff {t : Table ν ω} (h : t.Valid) (w : ω) :
    t.ClosedOnce w ↔ ∀ n, ¬ t.Owns w n := by
  constructor
  · rintro once n ⟨o, ho, hw⟩
    have := h.unclosed n o ho
    have := once o (h.known n o ho) hw
    omega
  · intro none o ho hw
    exact h.closed o ho fun n hn => none n ⟨o, hn, hw⟩

variable [DecidableEq ν]

theorem Valid.opens {t : Table ν ω} (h : t.Valid) {n : ν} (free : t.slot n = none) (w : ω) :
    (t.opens n w).Valid := by
  let new : Opening ω := ⟨t.openings.length, w⟩
  have unknown : new ∉ t.openings := fun hm => Nat.lt_irrefl _ (h.serials _ hm)
  have self : (t.opens n w).slot n = some new := Function.update_self ..
  have other {m : ν} (hm : m ≠ n) : (t.opens n w).slot m = t.slot m := Function.update_of_ne hm ..
  have mem (o : Opening ω) : o ∈ (t.opens n w).openings ↔ o ∈ t.openings ∨ o = new := by
    simp [Table.opens, new]
  have slots {m : ν} {o : Opening ω} (hm : (t.opens n w).slot m = some o) :
      m = n ∧ o = new ∨ m ≠ n ∧ t.slot m = some o := by
    by_cases same : m = n
    · subst same
      cases self.symm.trans hm
      exact .inl ⟨rfl, rfl⟩
    · exact .inr ⟨same, other same ▸ hm⟩
  constructor
  · intro o ho
    change o.serial < (t.openings ++ [new]).length
    rw [List.length_append, List.length_singleton]
    rcases (mem o).mp ho with ho | rfl
    · exact Nat.lt_succ_of_lt (h.serials o ho)
    · exact Nat.lt_succ_self _
  · intro m o hm
    rcases slots hm with ⟨_, rfl⟩ | ⟨_, hm⟩
    · exact (mem _).mpr (.inr rfl)
    · exact (mem _).mpr (.inl (h.known m o hm))
  · intro m m' o hm hm'
    rcases slots hm with ⟨rfl, rfl⟩ | ⟨_, old⟩
    · rcases slots hm' with ⟨rfl, _⟩ | ⟨_, old'⟩
      · rfl
      · exact absurd (h.known m' _ old') unknown
    · rcases slots hm' with ⟨rfl, rfl⟩ | ⟨_, old'⟩
      · exact absurd (h.known m _ old) unknown
      · exact h.apart m m' o old old'
  · intro m o hm
    rcases slots hm with ⟨_, rfl⟩ | ⟨_, hm⟩
    · exact h.past new unknown
    · exact h.unclosed m o hm
  · intro o ho gone
    rcases (mem o).mp ho with ho | rfl
    · apply h.closed o ho
      intro m hm
      by_cases same : m = n
      · subst same
        cases free.symm.trans hm
      · exact gone m ((other same).trans hm)
    · exact absurd self (gone n)
  · intro o ho
    exact h.past o fun hm => ho ((mem o).mpr (.inl hm))

theorem Valid.shuts {t : Table ν ω} (h : t.Valid) (n : ν) (w : ω) : (t.shuts n w).Valid := by
  cases hn : t.slot n with
  | none =>
    rw [shuts_none hn]
    exact h
  | some o =>
    have slots {m : ν} {p : Opening ω} (hm : (t.shuts n w).slot m = some p) :
        m ≠ n ∧ t.slot m = some p := by
      rw [shuts_some hn] at hm
      by_cases same : m = n
      · simp [same] at hm
      · exact ⟨same, by simpa [same] using hm⟩
    have unchanged {p : Opening ω} (hp : p ≠ o) : (t.shuts n w).closings p = t.closings p := by
      simp [closings, shuts_some hn, Ne.symm hp]
    have counted : (t.shuts n w).closings o = t.closings o + 1 := by
      simp [closings, shuts_some hn]
    constructor
    · simpa using h.serials
    · intro m p hm
      rw [openings_shuts]
      exact h.known m p (slots hm).2
    · intro m m' p hm hm'
      exact h.apart m m' p (slots hm).2 (slots hm').2
    · intro m p hm
      have hp : p ≠ o := fun e => (slots hm).1 (h.apart m n p (slots hm).2 (e ▸ hn))
      rw [unchanged hp]
      exact h.unclosed m p (slots hm).2
    · intro p hp gone
      rw [openings_shuts] at hp
      by_cases same : p = o
      · rw [same, counted, h.unclosed n o hn]
      · rw [unchanged same]
        apply h.closed p hp
        intro m hm
        have hmn : m ≠ n := fun e => same (Option.some.inj (hm.symm.trans (e ▸ hn)))
        apply gone m
        simpa [shuts_some hn, hmn] using hm
    · intro p hp
      rw [openings_shuts] at hp
      have hpo : p ≠ o := fun e => hp (e ▸ h.known n o hn)
      rw [unchanged hpo]
      exact h.past p hp

theorem Change.valid {t t' : Table ν ω} (h : t.Change t') (valid : t.Valid) : t'.Valid := by
  cases h with
  | none => exact valid
  | opens free w => exact valid.opens free w
  | shuts m w => exact valid.shuts m w

end Table

end Handles
