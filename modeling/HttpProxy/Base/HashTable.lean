import Mathlib.Data.List.Nodup
import Mathlib.Logic.Function.Basic

/-!
# Hash tables and the iterators into them

A hash table as an iterator sees it: an element keeps its identity for as long as it is in
the table, and an iterator to it can be used until it is erased or the table puts its
elements into other buckets. Whether an insertion makes the table do that is up to a policy
with a state of its own, which is a parameter.
-/

namespace HashTable

structure Element (K A : Type) where
  id : Nat
  key : K
  second : A

/-- An iterator to an element; `rehashes` is how often the elements had been moved by then. -/
structure Iterator where
  element : Nat
  rehashes : Nat
  deriving DecidableEq, Repr

/-- No two elements that were ever made have the same identity. -/
structure Table (β K A : Type) where
  elements : List (Element K A)
  made : Nat
  buckets : β
  rehashes : Nat

/-- What an insertion to so many elements makes of the buckets: other ones, or it keeps them. -/
abbrev Growth (β : Type) := β → Nat → Option β

namespace Table

variable {β K A : Type}

def empty (b : β) : Table β K A := ⟨[], 0, b, 0⟩

/-- The elements have been moved since the iterator was made. -/
def Rehashed (t : Table β K A) (it : Iterator) : Prop := it.rehashes < t.rehashes

/-- What an iterator leads to while it can be used. -/
def second (t : Table β K A) (it : Iterator) : Option A :=
  if it.rehashes = t.rehashes then
    (t.elements.find? (·.id = it.element)).map Element.second
  else none

/-- No key and no identity is there twice, and the next identity is new. -/
structure Valid (t : Table β K A) : Prop where
  keysNodup : (t.elements.map Element.key).Nodup
  idsNodup : (t.elements.map Element.id).Nodup
  idsFresh : ∀ e ∈ t.elements, e.id < t.made

/-- The key is in the element with this identity. -/
def Holds (t : Table β K A) (k : K) (id : Nat) : Prop := ∃ e ∈ t.elements, e.key = k ∧ e.id = id

/-- The identity has been given away, to an element of this key. -/
structure Names (t : Table β K A) (k : K) (id : Nat) : Prop where
  made : id < t.made
  key : ∀ e ∈ t.elements, e.id = id → e.key = k

/-- An element is made for a key that has none. -/
def insert (grow : Growth β) (t : Table β K A) (k : K) (a : A) : Table β K A :=
  let more := { t with elements := ⟨t.made, k, a⟩ :: t.elements, made := t.made + 1 }
  match grow t.buckets t.elements.length with
  | none => more
  | some b => { more with buckets := b, rehashes := t.rehashes + 1 }

variable {t : Table β K A} {grow : Growth β} {k j : K} {a : A} {it : Iterator} {id : Nat}

@[simp] theorem insert_elements :
    (t.insert grow k a).elements = ⟨t.made, k, a⟩ :: t.elements := by
  unfold insert
  split <;> rfl

@[simp] theorem insert_made : (t.insert grow k a).made = t.made + 1 := by
  unfold insert
  split <;> rfl

theorem le_rehashes_insert : t.rehashes ≤ (t.insert grow k a).rehashes := by
  unfold insert
  split
  · exact Nat.le_refl _
  · exact Nat.le_succ _

theorem empty_valid (b : β) : (empty b : Table β K A).Valid :=
  ⟨List.nodup_nil, List.nodup_nil, by simp [empty]⟩

theorem eq_of_key (hv : t.Valid) {e f : Element K A} (he : e ∈ t.elements) (hf : f ∈ t.elements)
    (h : e.key = f.key) : e = f := List.inj_on_of_nodup_map hv.keysNodup he hf h

theorem eq_of_id (hv : t.Valid) {e f : Element K A} (he : e ∈ t.elements) (hf : f ∈ t.elements)
    (h : e.id = f.id) : e = f := List.inj_on_of_nodup_map hv.idsNodup he hf h

theorem Holds.names (hv : t.Valid) (h : t.Holds k id) : t.Names k id := by
  obtain ⟨e, he, rfl, rfl⟩ := h
  exact ⟨hv.idsFresh e he, fun f hf same => by rw [eq_of_id hv hf he same]⟩

variable [DecidableEq K]

def entry (t : Table β K A) (k : K) : Option (Element K A) := t.elements.find? (·.key = k)

def find (t : Table β K A) (k : K) : Option Iterator :=
  (t.entry k).map fun e => ⟨e.id, t.rehashes⟩

/-- The function from keys to values that the table is. -/
def lookup (t : Table β K A) (k : K) : Option A := (t.entry k).map Element.second

def erase (t : Table β K A) (k : K) : Table β K A :=
  { t with elements := t.elements.filter (·.key ≠ k) }

/-- The value of a key is replaced in its element, if it has one. -/
def assign (grow : Growth β) (t : Table β K A) (k : K) (a : A) : Table β K A :=
  match t.entry k with
  | none => t.insert grow k a
  | some _ => { t with
      elements := t.elements.map fun e => if e.key = k then { e with second := a } else e }

/-! ## What the operations leave -/

theorem le_rehashes_assign : t.rehashes ≤ (t.assign grow k a).rehashes := by
  unfold assign
  split
  · exact le_rehashes_insert
  · exact Nat.le_refl _

theorem lookup_erase (t : Table β K A) (k : K) :
    (t.erase k).lookup = Function.update t.lookup k none := by
  funext j
  rw [lookup, entry, erase, List.find?_filter]
  by_cases e : j = k
  · subst e
    rw [Function.update_self, Option.map_eq_none_iff, List.find?_eq_none]
    simp
  · rw [Function.update_of_ne e, lookup, entry]
    congr 2
    funext x
    by_cases h : x.key = j
    · simp [h, e]
    · simp [h]

theorem lookup_assign (grow : Growth β) (t : Table β K A) (k : K) (a : A) :
    (t.assign grow k a).lookup = Function.update t.lookup k (some a) := by
  funext j
  unfold assign
  cases found : t.entry k with
  | none =>
    rw [lookup, entry, insert_elements]
    by_cases e : j = k
    · subst e
      simp
    · rw [List.find?_cons_of_neg (by simpa using Ne.symm e), Function.update_of_ne e]
      rfl
  | some el =>
    have keyed : (fun x : Element K A => decide (x.key = j)) ∘
        (fun x => if x.key = k then { x with second := a } else x) =
          fun x => decide (x.key = j) := by
      funext x
      by_cases h : x.key = k <;> simp [h]
    dsimp only
    rw [lookup, entry, List.find?_map, keyed]
    by_cases e : j = k
    · subst e
      have key : el.key = j := by simpa using List.find?_some found
      rw [entry] at found
      simp [found, key]
    · rw [Function.update_of_ne e, lookup, entry, Option.map_map]
      cases other : t.elements.find? (fun x => decide (x.key = j)) with
      | none => rfl
      | some x =>
        have key : x.key = j := by simpa using List.find?_some other
        simp [key, e]

theorem find_eq_none_iff : t.find k = none ↔ t.lookup k = none := by
  simp [find, lookup]

/-! ## The operations keep the invariant -/

theorem Valid.erase (hv : t.Valid) (k : K) : (t.erase k).Valid := by
  have sub : (t.erase k).elements.Sublist t.elements := List.filter_sublist
  exact ⟨hv.keysNodup.sublist (sub.map _), hv.idsNodup.sublist (sub.map _),
    fun e he => hv.idsFresh e (sub.subset he)⟩

theorem Valid.assign (hv : t.Valid) (grow : Growth β) (k : K) (a : A) :
    (t.assign grow k a).Valid := by
  unfold Table.assign
  cases found : t.entry k with
  | none =>
    have absent : ∀ e ∈ t.elements, e.key ≠ k := by simpa [entry] using found
    refine ⟨?_, ?_, ?_⟩
    · rw [insert_elements]
      exact List.nodup_cons.mpr ⟨by simpa using absent, hv.keysNodup⟩
    · rw [insert_elements]
      refine List.nodup_cons.mpr ⟨fun hm => ?_, hv.idsNodup⟩
      obtain ⟨e, he, same⟩ := List.mem_map.mp hm
      exact Nat.ne_of_lt (hv.idsFresh e he) same
    · rw [insert_elements, insert_made]
      intro e he
      rcases List.mem_cons.mp he with rfl | he
      · exact Nat.lt_succ_self _
      · exact Nat.lt_succ_of_lt (hv.idsFresh e he)
  | some el =>
    have keys : (t.elements.map fun e => if e.key = k then { e with second := a } else e).map
        Element.key = t.elements.map Element.key := by
      rw [List.map_map]
      refine List.map_congr_left fun e _ => ?_
      by_cases h : e.key = k <;> simp [h]
    have ids : (t.elements.map fun e => if e.key = k then { e with second := a } else e).map
        Element.id = t.elements.map Element.id := by
      rw [List.map_map]
      refine List.map_congr_left fun e _ => ?_
      by_cases h : e.key = k <;> simp [h]
    refine ⟨keys ▸ hv.keysNodup, ids ▸ hv.idsNodup, fun e he => ?_⟩
    obtain ⟨f, hf, rfl⟩ := List.mem_map.mp he
    have fresh := hv.idsFresh f hf
    split_ifs <;> exact fresh

/-! ## Reading through an iterator -/

/-- `find` gives the iterator to the element of the key that is made now. -/
theorem find_iff (hv : t.Valid) :
    t.find k = some it ↔ t.Holds k it.element ∧ it.rehashes = t.rehashes := by
  constructor
  · intro h
    obtain ⟨e, he, rfl⟩ := Option.map_eq_some_iff.mp h
    exact ⟨⟨e, List.mem_of_find?_eq_some he, by simpa using List.find?_some he, rfl⟩, rfl⟩
  · rintro ⟨⟨e, he, hk, hid⟩, now⟩
    have found : t.entry k ≠ none := by
      rw [entry, ne_eq, List.find?_eq_none]
      exact fun none => none e he (by simpa using hk)
    obtain ⟨f, hf⟩ := Option.ne_none_iff_exists'.mp found
    have key : f.key = k := by simpa using List.find?_some hf
    cases eq_of_key hv (List.mem_of_find?_eq_some hf) he (key.trans hk.symm)
    rw [find, hf, Option.map_some, ← now, hid]

/-- The iterator that `find` gives leads to the value of the key. -/
theorem second_find (hv : t.Valid) (h : t.find k = some it) : t.second it = t.lookup k := by
  obtain ⟨e, he, rfl⟩ := Option.map_eq_some_iff.mp h
  have found : t.elements.find? (·.id = e.id) ≠ none := by
    rw [ne_eq, List.find?_eq_none]
    exact fun none => none e (List.mem_of_find?_eq_some he) (by simp)
  obtain ⟨f, hf⟩ := Option.ne_none_iff_exists'.mp found
  have same : f.id = e.id := by simpa using List.find?_some hf
  cases eq_of_id hv (List.mem_of_find?_eq_some hf) (List.mem_of_find?_eq_some he) same
  rw [second, if_pos rfl, hf, lookup, he]

/-- The element of a key stays while other keys are erased and any are assigned. -/
theorem Holds.erase (h : t.Holds k id) (ne : j ≠ k) : (t.erase j).Holds k id := by
  obtain ⟨e, he, hk, hid⟩ := h
  exact ⟨e, List.mem_filter.mpr ⟨he, by simpa [hk] using Ne.symm ne⟩, hk, hid⟩

theorem Holds.assign (h : t.Holds k id) (grow : Growth β) (j : K) (a : A) :
    (t.assign grow j a).Holds k id := by
  obtain ⟨e, he, hk, hid⟩ := h
  unfold Table.assign
  split
  · exact ⟨e, by rw [insert_elements]; exact List.mem_cons_of_mem _ he, hk, hid⟩
  · refine ⟨_, List.mem_map_of_mem he, ?_, ?_⟩
    · split_ifs <;> exact hk
    · split_ifs <;> exact hid

theorem Names.erase (h : t.Names k id) (j : K) : (t.erase j).Names k id :=
  ⟨h.made, fun e he => h.key e (List.mem_filter.mp he).1⟩

/-- An identity is not given away again. -/
theorem Names.assign (h : t.Names k id) (grow : Growth β) (j : K) (a : A) :
    (t.assign grow j a).Names k id := by
  unfold Table.assign
  split
  · refine ⟨by rw [insert_made]; exact Nat.lt_succ_of_lt h.made, fun e he same => ?_⟩
    rw [insert_elements] at he
    rcases List.mem_cons.mp he with rfl | he
    · exact absurd same (Nat.ne_of_gt h.made)
    · exact h.key e he same
  · refine ⟨h.made, fun e he same => ?_⟩
    obtain ⟨f, hf, rfl⟩ := List.mem_map.mp he
    have key := h.key f hf
    split_ifs at same ⊢ <;> exact key same

/-- An iterator to the element of a key that is gone cannot be used. -/
theorem second_eq_none (h : t.Names k it.element) (gone : t.lookup k = none) :
    t.second it = none := by
  have absent : ∀ e ∈ t.elements, e.key ≠ k := by simpa [lookup, entry] using gone
  rw [second]
  split_ifs
  · rw [Option.map_eq_none_iff, List.find?_eq_none]
    intro e he same
    exact absent e he (h.key e he (by simpa using same))
  · rfl

end Table

end HashTable
