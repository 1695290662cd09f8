import Mathlib.Data.List.Infix

/-!
# Searching a text for a pattern

`find pat s` is the position of the first occurrence of `pat` in `s`. An
occurrence lies wholly inside the text, so `find_append` says that a text which
grows at its end keeps its first occurrence. `find_sep` searches a text part by part, where
the parts stand between separators that the pattern does not have.
-/

namespace Search

variable {α : Type} [DecidableEq α]

/-- The position of the first occurrence of `pat`, if there is one. -/
def find (pat : List α) : List α → Option Nat
  | [] => if pat = [] then some 0 else none
  | a :: s => if pat <+: a :: s then some 0 else (find pat s).map (· + 1)

/-- Does `pat` occur somewhere? -/
def contains (pat s : List α) : Bool := (find pat s).isSome

theorem find_some_prefix {pat s : List α} {i : Nat} (h : find pat s = some i) :
    pat <+: s.drop i := by
  induction s generalizing i with
  | nil =>
    simp only [find] at h
    split at h
    · next e => simp [e]
    · cases h
  | cons a s ih =>
    simp only [find] at h
    split at h
    · next hp => cases h; exact hp
    · obtain ⟨j, hj, rfl⟩ := Option.map_eq_some_iff.mp h
      exact ih hj

theorem find_isSome_iff {pat s : List α} : (find pat s).isSome ↔ pat <:+: s := by
  induction s with
  | nil => simp [find]
  | cons a s ih =>
    simp only [find, List.infix_cons_iff]
    split
    · next hp => simp [hp]
    · next hp => simp [hp, ih]

theorem contains_iff {pat s : List α} : contains pat s = true ↔ pat <:+: s := find_isSome_iff

theorem contains_append {pat s : List α} (t : List α) (h : contains pat s = true) :
    contains pat (s ++ t) = true :=
  contains_iff.mpr ((contains_iff.mp h).trans (List.prefix_append s t).isInfix)

omit [DecidableEq α] in
theorem prefix_append_iff {pat s : List α} (t : List α) (h : pat.length ≤ s.length) :
    pat <+: s ++ t ↔ pat <+: s :=
  ⟨fun hp => List.prefix_of_prefix_length_le hp (List.prefix_append s t) h,
    fun hp => hp.trans (List.prefix_append s t)⟩

theorem find_bound {pat s : List α} {i : Nat} (h : find pat s = some i) :
    i + pat.length ≤ s.length := by
  induction s generalizing i with
  | nil =>
    simp only [find] at h
    split at h
    · next e => cases h; simp [e]
    · cases h
  | cons a s ih =>
    simp only [find] at h
    split at h
    · next hp => cases h; simpa using hp.length_le
    · obtain ⟨j, hj, rfl⟩ := Option.map_eq_some_iff.mp h
      have := ih hj
      simp only [List.length_cons]
      omega

/-- A first occurrence stays the first one when the text grows at its end. -/
theorem find_append {pat s : List α} {i : Nat} (t : List α) (h : find pat s = some i) :
    find pat (s ++ t) = some i := by
  induction s generalizing i with
  | nil =>
    simp only [find] at h
    split at h
    · next e => cases h; subst e; cases t <;> simp [find]
    · cases h
  | cons a s ih =>
    have hb := find_bound h
    simp only [find] at h
    simp only [List.cons_append, find]
    split at h
    · next hp =>
      cases h
      exact if_pos (hp.trans (List.prefix_append (a :: s) t))
    · next hp =>
      obtain ⟨j, hj, rfl⟩ := Option.map_eq_some_iff.mp h
      rw [if_neg, ih hj, Option.map_some]
      rw [← List.cons_append, prefix_append_iff t (by omega)]
      exact hp

/-- A first occurrence that a text gains by growing reaches into what was added. -/
theorem find_append_none {pat s t : List α} {i : Nat} (h : find pat s = none)
    (h' : find pat (s ++ t) = some i) : s.length < i + pat.length := by
  by_contra hge
  have hp := find_some_prefix h'
  rw [List.drop_append_of_le_length (by omega)] at hp
  have inside : pat <+: s.drop i :=
    (prefix_append_iff t (by rw [List.length_drop]; omega)).mp hp
  have found : (find pat s).isSome :=
    find_isSome_iff.mpr (inside.isInfix.trans (List.drop_suffix ..).isInfix)
  rw [h] at found
  cases found

/-- The first occurrence, with the text around it. -/
theorem find_eq_some_iff {pat s : List α} (ne : pat ≠ []) {i : Nat} : find pat s = some i ↔
    ∃ before rest, s = before ++ pat ++ rest ∧ ¬ pat <:+: before ++ pat.dropLast ∧
      before.length = i := by
  have pos := List.length_pos_of_ne_nil ne
  constructor
  · intro h
    obtain ⟨rest, hrest⟩ := find_some_prefix h
    have bound := find_bound h
    have length : (s.take i).length = i := by
      rw [List.length_take]
      omega
    have whole : s = s.take i ++ pat ++ rest := by
      rw [List.append_assoc, hrest, List.take_append_drop]
    refine ⟨s.take i, rest, whole, fun earlier => ?_, length⟩
    obtain ⟨j, hj⟩ := Option.isSome_iff_exists.mp (find_isSome_iff.mpr earlier)
    have within := find_bound hj
    have first := find_append ([pat.getLast ne] ++ rest) hj
    rw [List.append_assoc, ← List.append_assoc pat.dropLast, List.dropLast_concat_getLast ne,
      ← List.append_assoc, ← whole, h, Option.some.injEq] at first
    rw [List.length_append, List.length_dropLast] at within
    omega
  · rintro ⟨before, rest, rfl, first, rfl⟩
    have here : pat <:+: before ++ pat := (List.suffix_append before pat).isInfix
    obtain ⟨j, hj⟩ := Option.isSome_iff_exists.mp (find_isSome_iff.mpr here)
    have within := find_bound hj
    have none : find pat (before ++ pat.dropLast) = none := by
      rw [← Option.not_isSome_iff_eq_none, find_isSome_iff]
      exact first
    have reach : (before ++ pat.dropLast).length < j + pat.length := by
      apply find_append_none (t := [pat.getLast ne]) none
      rw [List.append_assoc, List.dropLast_concat_getLast ne, hj]
    rw [List.length_append] at within
    rw [List.length_append, List.length_dropLast] at reach
    rw [find_append rest hj]
    exact congrArg some (by omega)

/-! ## Texts with a separator -/

theorem find_nil {pat : List α} (ne : pat ≠ []) : find pat [] = none := if_neg ne

omit [DecidableEq α] in
theorem prefix_sep_iff {pat : List α} {c : α} (hc : c ∉ pat) (s t : List α) :
    pat <+: s ++ c :: t ↔ pat <+: s := by
  by_cases h : pat.length ≤ s.length
  · exact prefix_append_iff (c :: t) h
  · refine ⟨fun hp => absurd ?_ hc, fun hp => absurd hp.length_le h⟩
    -- the occurrence reaches beyond the separator
    have covered : s ++ [c] <+: pat := by
      apply List.prefix_of_prefix_length_le _ hp
      · simp only [List.length_append, List.length_singleton]
        omega
      · exact ⟨t, by simp⟩
    exact covered.subset (by simp)

/-- A separator that the pattern does not have parts the text in two. -/
theorem find_sep {pat : List α} {c : α} (ne : pat ≠ []) (hc : c ∉ pat) (s t : List α) :
    find pat (s ++ c :: t) = (find pat s).or ((find pat t).map (· + (s.length + 1))) := by
  induction s with
  | nil =>
    have apart : ¬ pat <+: c :: t := fun hp => ne (List.prefix_nil.mp ((prefix_sep_iff hc [] t).mp hp))
    rw [find_nil ne, List.nil_append, find, if_neg apart]
    rfl
  | cons a s ih =>
    have starts : pat <+: a :: (s ++ c :: t) ↔ pat <+: a :: s := prefix_sep_iff hc (a :: s) t
    rw [List.cons_append, find, find, ih]
    by_cases hp : pat <+: a :: s
    · rw [if_pos hp, if_pos (starts.mpr hp)]
      rfl
    · rw [if_neg hp, if_neg fun h => hp (starts.mp h)]
      cases find pat s with
      | some i => rfl
      | none => simp [Function.comp_def, Nat.add_assoc]

theorem contains_sep {pat : List α} {c : α} (ne : pat ≠ []) (hc : c ∉ pat) (s t : List α) :
    contains pat (s ++ c :: t) = (contains pat s || contains pat t) := by
  rw [contains, find_sep ne hc, Option.isSome_or, Option.isSome_map]
  rfl

theorem find_eq_none {pat s : List α} {c : α} (hc : c ∈ pat) (h : c ∉ s) : find pat s = none := by
  cases hf : find pat s with
  | none => rfl
  | some i =>
    have inside := find_some_prefix hf
    exact absurd (List.mem_of_mem_drop (inside.subset hc)) h

/-- The first place of a symbol. -/
theorem find_symbol {c : α} {s : List α} (h : c ∉ s) (t : List α) :
    find [c] (s ++ c :: t) = some s.length := by
  induction s with
  | nil => exact if_pos ⟨t, rfl⟩
  | cons a s ih =>
    obtain ⟨ne, hs⟩ := not_or.mp (List.mem_cons.not.mp h)
    have apart : ¬ [c] <+: a :: (s ++ c :: t) := by simpa [List.cons_prefix_cons] using ne
    rw [List.cons_append, find, if_neg apart, ih hs]
    rfl

/-- An occurrence that a text gains by growing ends in what was added. -/
theorem find_append_eq_none {p s t : List α} {x : α} (h : find (p ++ [x]) s = none) (hx : x ∉ t) :
    find (p ++ [x]) (s ++ t) = none := by
  cases h' : find (p ++ [x]) (s ++ t) with
  | none => rfl
  | some i =>
    exfalso
    have reach := find_append_none h h'
    obtain ⟨r, hr⟩ := find_some_prefix h'
    rw [List.length_append, List.length_singleton] at reach
    by_cases hi : i ≤ s.length
    · rw [List.drop_append_of_le_length hi, List.append_assoc] at hr
      rcases List.append_eq_append_iff.mp hr with ⟨u, hu, hv⟩ | ⟨u, rfl, ht⟩
      · -- the pattern but for its last symbol ends before `t`
        have short : u = [] := by
          have := congrArg List.length hu
          simp only [List.length_drop, List.length_append] at this
          exact List.eq_nil_of_length_eq_zero (by omega)
        rw [short, List.nil_append, List.singleton_append] at hv
        exact hx (hv ▸ List.mem_cons_self)
      · exact hx (ht ▸ by simp)
    · rw [List.drop_append, List.drop_of_length_le (by omega), List.nil_append] at hr
      have inside : x ∈ t.drop (i - s.length) := by
        rw [← hr]
        simp
      exact hx (List.mem_of_mem_drop inside)

end Search
