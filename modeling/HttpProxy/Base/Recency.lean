import Mathlib.Data.List.Nodup
import Mathlib.Data.Finset.Card
import Mathlib.Data.List.Infix
import Mathlib.Data.List.Basic

/-!
# Least-recently-used lists

A cache of bounded size over arbitrary keys and values, as a list of entries
with the most recently used one in front, and the history it stands for. An
access history is a list of keys, newest first. `recent h` lists its distinct
keys by their last access; a cache of capacity `n` holds the first `n` of them,
`held n h`. `touch` and `insert` keep a list of entries in that order.
-/

namespace Recency

variable {κ ν : Type} [DecidableEq κ]

/-! ## Histories -/

/-- The distinct keys of a history, by last access, the newest first. -/
def recent : List κ → List κ
  | [] => []
  | k :: h => k :: (recent h).filter (· ≠ k)

/-- What a cache of capacity `n` holds after a history. -/
def held (n : Nat) (h : List κ) : List κ := (recent h).take n

theorem nodup_recent (h : List κ) : (recent h).Nodup := by
  induction h with
  | nil => exact List.nodup_nil
  | cons k h ih =>
    refine List.nodup_cons.mpr ⟨?_, ih.filter _⟩
    simp

/-- `recent` is sorted by the position of the last access. -/
theorem pairwise_recent [BEq κ] [LawfulBEq κ] (h : List κ) :
    (recent h).Pairwise (fun a b => h.idxOf a < h.idxOf b) := by
  induction h with
  | nil => exact List.Pairwise.nil
  | cons k h ih =>
    have idx (a : κ) (ha : a ≠ k) : (k :: h).idxOf a = h.idxOf a + 1 :=
      List.idxOf_cons_ne h (Ne.symm ha)
    refine List.pairwise_cons.mpr ⟨?_, ?_⟩
    · intro a ha
      have hne : a ≠ k := by simpa using (List.mem_filter.mp ha).2
      rw [List.idxOf_cons_self, idx a hne]
      omega
    · refine (ih.filter _).imp_of_mem ?_
      intro a b ha hb hab
      have hae : a ≠ k := by simpa using (List.mem_filter.mp ha).2
      have hbe : b ≠ k := by simpa using (List.mem_filter.mp hb).2
      rw [idx a hae, idx b hbe]
      omega

theorem take_filter_of_mem {k : κ} {l : List κ} (hl : l.Nodup) {m : Nat}
    (hk : k ∈ l.take (m + 1)) :
    (l.filter (· ≠ k)).take m = (l.take (m + 1)).filter (· ≠ k) := by
  induction l generalizing m with
  | nil => simp at hk
  | cons a l ih =>
    obtain ⟨ha, hl⟩ := List.nodup_cons.mp hl
    by_cases e : a = k
    · subst e
      have keep (s : List κ) (hs : s.Sublist l) : s.filter (· ≠ a) = s := by
        apply List.filter_eq_self.mpr
        intro b hb
        have : b ≠ a := fun e => ha (e ▸ hs.subset hb)
        simpa using this
      have drop (s : List κ) : (a :: s).filter (· ≠ a) = s.filter (· ≠ a) := by simp
      rw [List.take_succ_cons, drop, drop, keep l (List.Sublist.refl l),
        keep _ (List.take_sublist m l)]
    · cases m with
      | zero => simp at hk; exact absurd hk.symm e
      | succ m =>
        have hk' : k ∈ l.take (m + 1) := by
          have : k = a ∨ k ∈ l.take (m + 1) := by simpa using hk
          exact this.resolve_left (Ne.symm e)
        simp only [List.take_succ_cons, List.filter_cons, e, ne_eq, not_false_eq_true,
          decide_true, if_true]
        rw [ih hl hk']

theorem take_filter_of_not_mem {k : κ} {l : List κ} {m : Nat} (hk : k ∉ l.take m) :
    (l.filter (· ≠ k)).take m = l.take m := by
  induction l generalizing m with
  | nil => simp
  | cons a l ih =>
    cases m with
    | zero => simp
    | succ m =>
      obtain ⟨hne, hk⟩ : k ≠ a ∧ k ∉ l.take m := by simpa using hk
      simp only [List.filter_cons, Ne.symm hne, ne_eq, not_false_eq_true, decide_true, if_true,
        List.take_succ_cons]
      rw [ih hk]

theorem nodup_held (n : Nat) (h : List κ) : (held n h).Nodup :=
  (nodup_recent h).sublist (List.take_sublist n _)

theorem length_held_le (n : Nat) (h : List κ) : (held n h).length ≤ n := List.length_take_le n _

theorem held_cons (n : Nat) (k : κ) (h : List κ) :
    held (n + 1) (k :: h) = k :: ((recent h).filter (· ≠ k)).take n := rfl

/-- An access to a key that is held brings it to the front. -/
theorem held_cons_of_mem {n : Nat} {k : κ} {h : List κ} (hk : k ∈ held n h) :
    held n (k :: h) = k :: (held n h).filter (· ≠ k) := by
  cases n with
  | zero => simp [held] at hk
  | succ n => rw [held_cons, take_filter_of_mem (nodup_recent h) hk]; rfl

/-- An access to a new key while there is room adds it. -/
theorem held_cons_of_room {n : Nat} {k : κ} {h : List κ} (hk : k ∉ held n h)
    (room : (held n h).length < n) : held n (k :: h) = k :: held n h := by
  cases n with
  | zero => simp at room
  | succ n =>
    have all : (recent h).length ≤ n := by
      simp only [held, List.length_take] at room
      omega
    have eq : held (n + 1) h = recent h := List.take_of_length_le (by omega)
    rw [eq] at hk ⊢
    have same : (recent h).filter (· ≠ k) = recent h := by
      apply List.filter_eq_self.mpr
      intro b hb
      have : b ≠ k := fun e => hk (e ▸ hb)
      simpa using this
    rw [held_cons, same, List.take_of_length_le all]

/-- An access to a new key in a full cache drops the oldest one. -/
theorem held_cons_of_full {n : Nat} {k : κ} {h : List κ} (pos : 0 < n) (hk : k ∉ held n h)
    (full : (held n h).length = n) : held n (k :: h) = k :: (held n h).dropLast := by
  cases n with
  | zero => omega
  | succ n =>
    have short : (recent h).take n = (held (n + 1) h).dropLast := by
      rw [List.dropLast_eq_take, full, held, List.take_take]
      simp
    have hk' : k ∉ (recent h).take n :=
      fun hm => hk ((List.take_subset_take_left _ (Nat.le_succ n)) hm)
    rw [held_cons, take_filter_of_not_mem hk', short]

theorem mem_recent {k : κ} {h : List κ} : k ∈ recent h ↔ k ∈ h := by
  induction h with
  | nil => simp [recent]
  | cons a h ih =>
    by_cases e : k = a
    · simp [recent, e]
    · simp [recent, e, ih]

/-- The number of distinct keys. -/
theorem length_recent (h : List κ) : (recent h).length = h.toFinset.card := by
  have same : (recent h).toFinset = h.toFinset := by
    ext k
    simp [mem_recent]
  rw [← same, List.toFinset_card_of_nodup (nodup_recent h)]

/-- A key is held as long as the other keys accessed since are few. -/
theorem mem_held_of_few {n : Nat} {k : κ} {since before : List κ} {others : Finset κ}
    (among : ∀ a ∈ since, a ≠ k → a ∈ others) (few : others.card < n) :
    k ∈ held n (since ++ k :: before) := by
  have mem : k ∈ recent (since ++ k :: before) := mem_recent.mpr (by simp)
  obtain ⟨newer, older, split⟩ := List.append_of_mem mem
  have nodup := nodup_recent (since ++ k :: before)
  have sorted := pairwise_recent (since ++ k :: before)
  rw [split] at nodup sorted
  have place : (since ++ k :: before).idxOf k ≤ since.length := by
    by_cases hk : k ∈ since
    · rw [List.idxOf_append_of_mem hk]
      exact List.idxOf_le_length
    · rw [List.idxOf_append_of_notMem hk, List.idxOf_cons_self, Nat.add_zero]
  -- what is more recent than `k` has been accessed since
  have sub : newer.toFinset ⊆ others := by
    intro a ha
    have ha := List.mem_toFinset.mp ha
    have lt := (List.pairwise_append.mp sorted).2.2 a ha k List.mem_cons_self
    have ne : a ≠ k := (List.nodup_append.mp nodup).2.2 a ha k List.mem_cons_self
    have hs : a ∈ since := by
      by_contra out
      rw [List.idxOf_append_of_notMem out] at lt
      omega
    exact among a hs ne
  have le := Finset.card_le_card sub
  rw [List.toFinset_card_of_nodup (List.nodup_append.mp nodup).1] at le
  rw [held, split, List.take_append, List.mem_append]
  refine .inr ?_
  obtain ⟨m, hm⟩ : ∃ m, n - newer.length = m + 1 := ⟨n - newer.length - 1, by omega⟩
  rw [hm, List.take_succ_cons]
  exact List.mem_cons_self

theorem recent_append_of_notMem {k : κ} {since : List κ} (before : List κ) (hk : k ∉ since) :
    ∃ older, recent (since ++ k :: before) = recent since ++ k :: older := by
  induction since with
  | nil => exact ⟨_, rfl⟩
  | cons a since ih =>
    obtain ⟨ne, hk⟩ := List.ne_and_not_mem_of_not_mem_cons hk
    obtain ⟨older, h⟩ := ih hk
    refine ⟨older.filter (· ≠ a), ?_⟩
    simp [recent, h, ne]

/-- A key that has not been accessed since is held just as long as the distinct keys that
have are fewer than the capacity. -/
theorem mem_held_iff {n : Nat} {k : κ} {since before : List κ} (hk : k ∉ since) :
    k ∈ held n (since ++ k :: before) ↔ since.toFinset.card < n := by
  rw [← length_recent]
  constructor
  · intro h
    obtain ⟨older, split⟩ := recent_append_of_notMem before hk
    rw [held, split, List.take_append, List.mem_append] at h
    rcases h with h | h
    · exact absurd (mem_recent.mp (List.mem_of_mem_take h)) hk
    · by_contra few
      have none : n - (recent since).length = 0 := by omega
      rw [none, List.take_zero] at h
      cases h
  · intro few
    rw [length_recent] at few
    exact mem_held_of_few (fun a ha _ => List.mem_toFinset.mpr ha) few

/-! ## Entries -/

/-- The keys of a list of entries. -/
def keys (l : List (κ × ν)) : List κ := l.map Prod.fst

/-- Bring the entry of `k` to the front. -/
def touch (k : κ) (l : List (κ × ν)) : List (κ × ν) :=
  match l.find? (·.1 = k) with
  | some e => e :: l.filter (·.1 ≠ k)
  | none => l

/-- Bind `k` to `v` in front; a new key pushes the last entry out of a full list. -/
def insert (n : Nat) (k : κ) (v : ν) (l : List (κ × ν)) : List (κ × ν) :=
  (k, v) ::
    (if k ∈ keys l then l.filter (·.1 ≠ k) else if l.length = n then l.dropLast else l)

theorem keys_filter (k : κ) (l : List (κ × ν)) :
    keys (l.filter (·.1 ≠ k)) = (keys l).filter (· ≠ k) := by
  simp only [keys, List.filter_map]
  rfl

theorem find_key {k : κ} {l : List (κ × ν)} {e : κ × ν} (h : l.find? (·.1 = k) = some e) :
    e.1 = k := by
  simpa using List.find?_some h

theorem mem_keys_iff {k : κ} {l : List (κ × ν)} :
    k ∈ keys l ↔ ∃ e, l.find? (·.1 = k) = some e := by
  rw [← Option.isSome_iff_exists, List.find?_isSome]
  simp [keys]

theorem keys_touch {k : κ} {l : List (κ × ν)} (hk : k ∈ keys l) :
    keys (touch k l) = k :: (keys l).filter (· ≠ k) := by
  obtain ⟨e, he⟩ := mem_keys_iff.mp hk
  simp only [touch, he]
  rw [← keys_filter]
  simp [keys, find_key he]

theorem keys_insert (n : Nat) (k : κ) (v : ν) (l : List (κ × ν)) :
    keys (insert n k v l) = k ::
      (if k ∈ keys l then (keys l).filter (· ≠ k)
        else if l.length = n then (keys l).dropLast else keys l) := by
  simp only [insert]
  split_ifs
  · rw [← keys_filter]; rfl
  · simp [keys, List.map_dropLast]
  · rfl

/-- `touch` follows the history. -/
theorem keys_touch_held {n : Nat} {k : κ} {h : List κ} {l : List (κ × ν)}
    (hl : keys l = held n h) (hk : k ∈ keys l) : keys (touch k l) = held n (k :: h) := by
  rw [keys_touch hk, hl, held_cons_of_mem (hl ▸ hk)]

/-- `insert` follows the history. -/
theorem keys_insert_held {n : Nat} (pos : 0 < n) {k : κ} {h : List κ} {l : List (κ × ν)}
    (v : ν) (hl : keys l = held n h) : keys (insert n k v l) = held n (k :: h) := by
  have len : l.length = (held n h).length := by rw [← hl, keys, List.length_map]
  rw [keys_insert, len, hl]
  split_ifs with hk full
  · rw [held_cons_of_mem hk]
  · rw [held_cons_of_full pos hk full]
  · rw [held_cons_of_room hk (lt_of_le_of_ne (length_held_le n h) full)]

theorem perm_cons_filter {l : List (κ × ν)} (hn : (keys l).Nodup) {e : κ × ν} (he : e ∈ l) :
    l.Perm (e :: l.filter (·.1 ≠ e.1)) := by
  have nodup : l.Nodup := hn.of_map
  refine (List.perm_ext_iff_of_nodup nodup (List.nodup_cons.mpr ⟨by simp, nodup.filter _⟩)).mpr ?_
  intro x
  simp only [List.mem_cons, List.mem_filter, ne_eq, decide_not, Bool.not_eq_true',
    decide_eq_false_iff_not]
  constructor
  · intro hx
    by_cases same : x.1 = e.1
    · exact .inl (List.inj_on_of_nodup_map hn hx he same)
    · exact .inr ⟨hx, same⟩
  · rintro (rfl | ⟨hx, _⟩)
    · exact he
    · exact hx

/-- `touch` moves entries only. -/
theorem touch_perm {l : List (κ × ν)} (hn : (keys l).Nodup) (k : κ) : (touch k l).Perm l := by
  unfold touch
  split
  · next e he =>
    have hk := find_key he
    subst hk
    exact (perm_cons_filter hn (List.mem_of_find?_eq_some he)).symm
  · exact .refl _

/-! ## What lookups see -/

/-- The value bound to a key. -/
def lookup (k : κ) (l : List (κ × ν)) : Option ν := (l.find? (·.1 = k)).map Prod.snd

theorem lookup_cons_self (k : κ) (v : ν) (l : List (κ × ν)) : lookup k ((k, v) :: l) = some v := by
  simp [lookup]

theorem lookup_cons_ne {j k : κ} (v : ν) (l : List (κ × ν)) (h : j ≠ k) :
    lookup j ((k, v) :: l) = lookup j l := by
  simp [lookup, Ne.symm h]

theorem lookup_isSome {k : κ} {l : List (κ × ν)} : (lookup k l).isSome ↔ k ∈ keys l := by
  rw [lookup, Option.isSome_map, mem_keys_iff, Option.isSome_iff_exists]

theorem mem_of_lookup {k : κ} {v : ν} {l : List (κ × ν)} (h : lookup k l = some v) : (k, v) ∈ l := by
  obtain ⟨e, he, rfl⟩ := Option.map_eq_some_iff.mp h
  have hk := find_key he
  subst hk
  exact List.mem_of_find?_eq_some he

theorem lookup_eq_none {k : κ} {l : List (κ × ν)} : lookup k l = none ↔ k ∉ keys l := by
  rw [← lookup_isSome, Option.not_isSome_iff_eq_none]

theorem lookup_filter_ne {j k : κ} (l : List (κ × ν)) (h : j ≠ k) :
    lookup j (l.filter (·.1 ≠ k)) = lookup j l := by
  rw [lookup, lookup, List.find?_filter]
  congr 2
  funext e
  by_cases he : e.1 = j
  · simp [he, h]
  · simp [he]

/-- `touch` changes no binding. -/
theorem lookup_touch (j k : κ) (l : List (κ × ν)) : lookup j (touch k l) = lookup j l := by
  unfold touch
  split
  · next e he =>
    obtain ⟨a, b⟩ := e
    have ha : a = k := find_key he
    subst ha
    by_cases h : j = a
    · subst h
      rw [lookup_cons_self, lookup, he, Option.map_some]
    · rw [lookup_cons_ne b _ h, lookup_filter_ne l h]
  · rfl

theorem lookup_insert_self (n : Nat) (k : κ) (v : ν) (l : List (κ × ν)) :
    lookup k (insert n k v l) = some v := lookup_cons_self k v _

/-- What `insert` pushes out: the oldest key, when the list is full and `k` new. -/
def evicted (n : Nat) (k : κ) (l : List (κ × ν)) : Option κ :=
  if k ∈ keys l then none else if l.length = n then (keys l).getLast? else none

theorem lookup_dropLast {j : κ} {l : List (κ × ν)} (h : (keys l).getLast? ≠ some j) :
    lookup j l.dropLast = lookup j l := by
  rcases l.eq_nil_or_concat with rfl | ⟨s, e, rfl⟩
  · rfl
  · have hj : e.1 ≠ j := by simpa [keys] using h
    simp [lookup, List.find?_append, hj]

/-- Every other binding survives `insert`, unless its key is the one pushed out. -/
theorem lookup_insert_ne {n : Nat} {j k : κ} {v : ν} {l : List (κ × ν)}
    (hj : j ≠ k) (he : evicted n k l ≠ some j) : lookup j (insert n k v l) = lookup j l := by
  rw [insert, lookup_cons_ne v _ hj]
  unfold evicted at he
  split_ifs at he ⊢ with hk full
  · exact lookup_filter_ne l hj
  · exact lookup_dropLast he
  · rfl

theorem lookup_insert_evicted {n : Nat} {j k : κ} {v : ν} {l : List (κ × ν)}
    (hn : (keys l).Nodup) (he : evicted n k l = some j) : lookup j (insert n k v l) = none := by
  unfold evicted at he
  split_ifs at he with hk full
  rw [lookup_eq_none, keys_insert, if_neg hk, if_pos full]
  have hl : keys l ≠ [] := by
    intro e; simp [e] at he
  have split : keys l = (keys l).dropLast ++ [j] := by
    have := List.dropLast_append_getLast hl
    rw [List.getLast?_eq_some_getLast hl, Option.some.injEq] at he
    rw [← he, this]
  have hjk : j ≠ k := by
    intro e
    exact hk (e ▸ List.mem_of_getLast? he)
  have hd : j ∉ (keys l).dropLast := by
    have : ((keys l).dropLast ++ [j]).Nodup := split ▸ hn
    intro hm
    exact (List.nodup_append.mp this).2.2 j hm j (by simp) rfl
  simp [hjk, hd]

theorem mem_keys_insert {n : Nat} {j k : κ} {v : ν} {l : List (κ × ν)}
    (h : j ∈ keys (insert n k v l)) : j = k ∨ j ∈ keys l := by
  rw [keys_insert] at h
  refine (List.mem_cons.mp h).imp id fun older => ?_
  split_ifs at older
  · exact (List.mem_filter.mp older).1
  · exact List.mem_of_mem_dropLast older
  · exact older

theorem mem_keys_evicted {n : Nat} {j k : κ} {l : List (κ × ν)} (h : evicted n k l = some j) :
    j ∈ keys l := by
  unfold evicted at h
  split_ifs at h
  exact List.mem_of_getLast? h

/-- What is found after an `insert` is the new value or was there before. -/
theorem lookup_insert_cases {n : Nat} {j k : κ} {v w : ν} {l : List (κ × ν)}
    (h : lookup j (insert n k v l) = some w) : j = k ∧ w = v ∨ j ≠ k ∧ lookup j l = some w := by
  by_cases e : j = k
  · rw [e, lookup_insert_self, Option.some.injEq] at h
    exact .inl ⟨e, h.symm⟩
  · rw [insert, lookup_cons_ne v _ e] at h
    split_ifs at h
    · exact .inr ⟨e, lookup_filter_ne l e ▸ h⟩
    · obtain ⟨b, found, rfl⟩ := Option.map_eq_some_iff.mp h
      exact .inr ⟨e, Option.map_eq_some_iff.mpr
        ⟨b, (List.dropLast_prefix l).find?_eq_some found, rfl⟩⟩
    · exact .inr ⟨e, h⟩

/-! ## Entries with other values -/

variable {μ : Type}

/-- The entries with a function of their values. -/
def mapValues (f : ν → μ) (l : List (κ × ν)) : List (κ × μ) := l.map fun e => (e.1, f e.2)

section
variable (f : ν → μ) (k : κ) (l : List (κ × ν))

omit [DecidableEq κ] in
theorem keys_mapValues : keys (mapValues f l) = keys l := by
  simp [keys, mapValues, Function.comp_def]

theorem find_mapValues : (mapValues f l).find? (·.1 = k) =
    (l.find? (·.1 = k)).map fun e => (e.1, f e.2) := by
  rw [mapValues, List.find?_map]
  rfl

theorem filter_mapValues : (mapValues f l).filter (·.1 ≠ k) = mapValues f (l.filter (·.1 ≠ k)) := by
  rw [mapValues, List.filter_map]
  rfl

theorem lookup_mapValues : lookup k (mapValues f l) = (lookup k l).map f := by
  rw [lookup, find_mapValues, lookup, Option.map_map, Option.map_map]
  rfl

theorem touch_mapValues : touch k (mapValues f l) = mapValues f (touch k l) := by
  rw [touch, touch, find_mapValues, filter_mapValues]
  cases l.find? (·.1 = k) with
  | none => rfl
  | some e => rfl

theorem insert_mapValues (n : Nat) (v : ν) :
    insert n k (f v) (mapValues f l) = mapValues f (insert n k v l) := by
  have length : (mapValues f l).length = l.length := List.length_map ..
  have last : (mapValues f l).dropLast = mapValues f l.dropLast := List.map_dropLast.symm
  rw [insert, insert, keys_mapValues, filter_mapValues, length, last]
  split_ifs <;> rfl

end

end Recency
