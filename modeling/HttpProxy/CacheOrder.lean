import HttpProxy.Cache

/-!
# What a sequence of calls leaves in the cache

A `History` is a cache next to the log of the accesses that led to it, the newest
first: every `put`, and every `get` that hit. `lru_refines` reads the cache off the
log and the calls alone. `calls_represent` is about the lists and the map that carry it.
-/

namespace HttpProxy

variable {V : Type}

inductive CacheOp (V : Type) where
  | get (url : Bytes)
  | put (url : Bytes) (value : V)

structure History (V : Type) where
  cache : LruCache V
  log : List Bytes

namespace History

/-- One call. A `get` is an access when it returns something. -/
def step (h : History V) : CacheOp V → History V
  | .get url =>
    ⟨(h.cache.get url).2, if (h.cache.get url).1.isSome then url :: h.log else h.log⟩
  | .put url value => ⟨(h.cache.put url value).2.2, url :: h.log⟩

/-- The history of a sequence of calls on a new cache. -/
def of (size : Capacity) (ops : List (CacheOp V)) : History V := ops.foldl step ⟨.new size, []⟩

@[simp] theorem of_snoc (size : Capacity) (ops : List (CacheOp V)) (op : CacheOp V) :
    of size (ops ++ [op]) = (of size ops).step op := by simp [of]

end History

/-- The value a call puts under a key, if it does. -/
def CacheOp.puts (url : Bytes) : CacheOp V → Option V
  | .put url' value => if url' = url then some value else none
  | .get _ => none

/-- The value of the latest `put` to a key. -/
def latestPut (ops : List (CacheOp V)) (url : Bytes) : Option V :=
  ops.reverse.findSome? (CacheOp.puts url)

theorem latestPut_snoc (ops : List (CacheOp V)) (op : CacheOp V) (url : Bytes) :
    latestPut (ops ++ [op]) url = (op.puts url).or (latestPut ops url) := by
  simp only [latestPut, List.reverse_append, List.reverse_singleton, List.singleton_append,
    List.findSome?_cons]
  cases op.puts url <;> rfl

theorem LruCache.mem_keys_iff {c : LruCache V} {url : Bytes} :
    url ∈ c.keys ↔ (c.lookup url).isSome = true := by
  rw [Cache.keys_eq, LruCache.lookup, Recency.lookup_isSome]

/-- What ties a history to the calls it comes from. -/
structure History.Tracks (h : History V) (size : Capacity) (ops : List (CacheOp V)) : Prop where
  capacity : h.cache.capacity = size.1
  keys : h.cache.keys = Recency.held size.1 h.log
  values : ∀ url ∈ h.cache.keys, h.cache.lookup url = latestPut ops url

theorem History.Tracks.get {h : History V} {size : Capacity} {ops : List (CacheOp V)}
    (ht : h.Tracks size ops) (url : Bytes) : (h.step (.get url)).Tracks size (ops ++ [.get url]) := by
  obtain ⟨_, hcap, hent⟩ := h.cache.get_spec url
  have keys : (h.cache.get url).2.keys = Recency.keys (Recency.touch url h.cache.entries) := by
    rw [Cache.keys_eq, hent]
  have same : ∀ u, (h.cache.get url).2.lookup u = h.cache.lookup u := h.cache.lookup_get url
  have held := ht.keys
  rw [Cache.keys_eq] at held
  refine ⟨hcap.trans ht.capacity, ?_, fun u hu => ?_⟩
  · by_cases hit : (h.cache.lookup url).isSome = true
    · have hk : url ∈ Recency.keys h.cache.entries := by
        rw [← Cache.keys_eq]
        exact LruCache.mem_keys_iff.mpr hit
      simp only [step, LruCache.get_fst, hit, if_true]
      rw [keys, Recency.keys_touch_held held hk]
    · have miss : h.cache.entries.find? (·.1 = url) = none := by
        have hk : url ∉ Recency.keys h.cache.entries := by
          rwa [← Recency.lookup_isSome]
        cases hf : h.cache.entries.find? (·.1 = url) with
        | none => rfl
        | some e => exact absurd (Recency.mem_keys_iff.mpr ⟨e, hf⟩) hk
      simp only [step, LruCache.get_fst, hit]
      rw [keys, Recency.touch, miss]
      simpa using held
  · have hmem : u ∈ h.cache.keys := by
      rw [LruCache.mem_keys_iff, ← same]
      exact LruCache.mem_keys_iff.mp hu
    rw [latestPut_snoc]
    exact (same u).trans (ht.values u hmem)

theorem History.Tracks.put {h : History V} {size : Capacity} {ops : List (CacheOp V)}
    (ht : h.Tracks size ops) (url : Bytes) (value : V) :
    (h.step (.put url value)).Tracks size (ops ++ [.put url value]) := by
  obtain ⟨_, _, hcap, hent⟩ := h.cache.put_spec url value
  have held := ht.keys
  rw [Cache.keys_eq] at held
  refine ⟨hcap.trans ht.capacity, ?_, fun u hu => ?_⟩
  · simp only [step]
    rw [Cache.keys_eq, hent, ht.capacity, Recency.keys_insert_held size.2 value held]
  · obtain ⟨v, hv⟩ := Option.isSome_iff_exists.mp (LruCache.mem_keys_iff.mp hu)
    rw [latestPut_snoc]
    rcases LruCache.lookup_put_cases hv with ⟨rfl, rfl⟩ | ⟨hne, hold⟩
    · simpa [CacheOp.puts] using hv
    · have hmem : u ∈ h.cache.keys := LruCache.mem_keys_iff.mpr (by rw [hold]; rfl)
      simp only [CacheOp.puts, Ne.symm hne, if_false, Option.none_or]
      rw [← ht.values u hmem, hold]
      exact hv

theorem tracks_of (size : Capacity) (ops : List (CacheOp V)) :
    (History.of size ops).Tracks size ops := by
  induction ops using List.reverseRecOn with
  | nil =>
    have none : (LruCache.new size : LruCache V).keys = [] := rfl
    refine ⟨rfl, ?_, ?_⟩ <;> simp [History.of, none, Recency.held, Recency.recent]
  | append_singleton ops op ih =>
    rw [History.of_snoc]
    cases op with
    | get url => exact ih.get url
    | put url value => exact ih.put url value

/-! ## Eviction -/

/-- The last key held is the one whose last access is oldest. -/
theorem oldest_held {n : Nat} {log : List Bytes} {old : Bytes}
    (h : (Recency.held n log).getLast? = some old) :
    ∀ k ∈ Recency.held n log, k ≠ old → log.idxOf k < log.idxOf old := by
  obtain ⟨front, hfront⟩ := List.getLast?_eq_some_iff.mp h
  have sorted := (Recency.pairwise_recent log).sublist (List.take_sublist n _)
  change (Recency.held n log).Pairwise _ at sorted
  rw [hfront] at sorted ⊢
  intro k hk hne
  have hk : k ∈ front := by simpa [hne] using hk
  exact (List.pairwise_append.mp sorted).2.2 k hk old (by simp)

theorem put_evicts {h : History V} {size : Capacity} {ops : List (CacheOp V)}
    (ht : h.Tracks size ops) {url : Bytes} (value : V) (hk : url ∉ Recency.held size.1 h.log)
    (full : (Recency.held size.1 h.log).length = size.1) :
    ∃ old ∈ Recency.held size.1 h.log, (h.cache.put url value).1 = old ∧
      (∀ k ∈ Recency.held size.1 h.log, k ≠ old → h.log.idxOf k < h.log.idxOf old) ∧
      ∀ k, k ∈ (h.cache.put url value).2.2.keys ↔
        k = url ∨ k ∈ Recency.held size.1 h.log ∧ k ≠ old := by
  obtain ⟨hans, _, _, hent⟩ := h.cache.put_spec url value
  have held := ht.keys
  have len : h.cache.entries.length = size.1 := by
    rw [Cache.entries_length, ← full, ← held, Cache.keys, List.length_map]
  rw [Cache.keys_eq] at held
  have pos := size.2
  obtain ⟨old, hold⟩ : ∃ old, (Recency.held size.1 h.log).getLast? = some old := by
    rw [← Option.isSome_iff_exists, List.getLast?_isSome]
    intro hnil
    rw [hnil] at full
    simp at full
    omega
  have nodup := Recency.nodup_held size.1 h.log
  obtain ⟨front, hfront⟩ := List.getLast?_eq_some_iff.mp hold
  refine ⟨old, List.mem_of_getLast? hold, ?_, oldest_held hold, fun k => ?_⟩
  · rw [hans, Recency.evicted, held, if_neg hk, ht.capacity, if_pos len, hold]
    rfl
  · rw [Cache.keys_eq, hent, Recency.keys_insert, held, if_neg hk, ht.capacity, if_pos len]
    rw [hfront] at nodup ⊢
    have apart := List.nodup_append.mp nodup
    rw [List.dropLast_concat]
    constructor
    · rintro hm
      rcases List.mem_cons.mp hm with rfl | hm
      · exact .inl rfl
      · exact .inr ⟨List.mem_append_left _ hm, apart.2.2 k hm old (by simp)⟩
    · rintro (rfl | ⟨hm, hne⟩)
      · exact List.mem_cons_self
      · exact List.mem_cons_of_mem _ (by simpa [hne] using hm)

theorem put_keeps {h : History V} {size : Capacity} {ops : List (CacheOp V)}
    (ht : h.Tracks size ops) {url : Bytes} (value : V)
    (hroom : ¬ (url ∉ Recency.held size.1 h.log ∧ (Recency.held size.1 h.log).length = size.1)) :
    (h.cache.put url value).1 = [] ∧
      ∀ k, k ∈ (h.cache.put url value).2.2.keys ↔ k = url ∨ k ∈ Recency.held size.1 h.log := by
  obtain ⟨hans, _, _, hent⟩ := h.cache.put_spec url value
  have held := ht.keys
  have len : h.cache.entries.length = (Recency.held size.1 h.log).length := by
    rw [Cache.entries_length, ← held, Cache.keys, List.length_map]
  rw [Cache.keys_eq] at held
  rw [hans, Cache.keys_eq, hent, Recency.keys_insert, Recency.evicted, held, ht.capacity, len]
  by_cases hk : url ∈ Recency.held size.1 h.log
  · refine ⟨by rw [if_pos hk]; rfl, fun k => ?_⟩
    rw [if_pos hk]
    simp only [List.mem_cons, List.mem_filter, decide_eq_true_eq]
    tauto
  · have room : (Recency.held size.1 h.log).length ≠ size.1 := fun full => hroom ⟨hk, full⟩
    refine ⟨by rw [if_neg hk, if_neg room]; rfl, fun k => ?_⟩
    rw [if_neg hk, if_neg room, List.mem_cons]

/-- After any calls on a new cache: it holds the `size` keys with the latest accesses, by
last access; `get` returns the latest value put under a key that is held; and `put` evicts
and returns the key whose last access is oldest when its own key is new and the cache
full, and nothing otherwise. -/
theorem lru_refines (size : Capacity) (ops : List (CacheOp V)) :
    let h := History.of size ops
    let held := Recency.held size.1 h.log
    (h.cache.keys = held ∧ held.Pairwise (fun a b => h.log.idxOf a < h.log.idxOf b)) ∧
    (∀ url, (h.cache.get url).1 = if url ∈ held then latestPut ops url else none) ∧
    (∀ url value, url ∉ held ∧ held.length = size.1 →
      ∃ old ∈ held, (h.cache.put url value).1 = old ∧
        (∀ k ∈ held, k ≠ old → h.log.idxOf k < h.log.idxOf old) ∧
        ∀ k, k ∈ (h.cache.put url value).2.2.keys ↔ k = url ∨ k ∈ held ∧ k ≠ old) ∧
    ∀ url value, ¬ (url ∉ held ∧ held.length = size.1) →
      (h.cache.put url value).1 = [] ∧
        ∀ k, k ∈ (h.cache.put url value).2.2.keys ↔ k = url ∨ k ∈ held := by
  intro h held
  have ht : h.Tracks size ops := tracks_of size ops
  refine ⟨⟨ht.keys, (Recency.pairwise_recent h.log).sublist (List.take_sublist _ _)⟩, ?_, ?_, ?_⟩
  · intro url
    rw [LruCache.get_fst]
    split_ifs with hk
    · exact ht.values url (by rw [ht.keys]; exact hk)
    · have absent : ¬ (h.cache.lookup url).isSome = true := by
        rw [← LruCache.mem_keys_iff, ht.keys]
        exact hk
      simpa using absent
  · intro url value hfull
    exact put_evicts ht value hfull.1 hfull.2
  · intro url value hroom
    exact put_keeps ht value hroom

/-! ## The two structures -/

namespace Cache

/-- One call on the bare structure. There is none where the call would read through the
iterator of an erased node or take `back()` of an empty list. -/
def call (c : Cache V) : CacheOp V → Option (Cache V)
  | .get url => (c.get url).map (·.2)
  | .put url value => (c.put url value).map (·.cache)

def calls (c : Cache V) (ops : List (CacheOp V)) : Option (Cache V) := ops.foldlM call c

theorem call_valid {c : Cache V} (hv : c.Valid) (op : CacheOp V) :
    ∃ c', c.call op = some c' ∧ c'.Valid ∧ c'.capacity = c.capacity := by
  cases op with
  | get url =>
    obtain ⟨c', hget, hv', hcap, _⟩ := get_spec hv url
    exact ⟨c', by rw [call, hget, Option.map_some], hv', hcap⟩
  | put url value =>
    obtain ⟨c', hput, hv', hcap, _⟩ := put_spec hv url value
    exact ⟨c', by rw [call, hput, Option.map_some], hv', hcap⟩

theorem calls_valid {c : Cache V} (hv : c.Valid) (ops : List (CacheOp V)) :
    ∃ c', c.calls ops = some c' ∧ c'.Valid ∧ c'.capacity = c.capacity := by
  induction ops generalizing c with
  | nil => exact ⟨c, rfl, hv, rfl⟩
  | cons op ops ih =>
    obtain ⟨c₁, hcall, hv₁, hcap₁⟩ := call_valid hv op
    obtain ⟨c₂, hcalls, hv₂, hcap₂⟩ := ih hv₁
    refine ⟨c₂, ?_, hv₂, hcap₂.trans hcap₁⟩
    rw [calls, List.foldlM_cons, hcall]
    exact hcalls

theorem map_isSome_iff {c : Cache V} (hv : c.Valid) (k : Bytes) :
    (c.map k).isSome = true ↔ k ∈ c.keys := by
  rw [← not_iff_not, Bool.not_eq_true, Option.isSome_eq_false_iff, Option.isNone_iff_eq_none]
  exact map_none_iff hv

/-- Any calls on a new cache are defined. Afterwards no key is twice in the list, the list
holds at most `size` nodes, the map has the keys of the list, and what it holds for a key
designates one node of the list, the one with that key. -/
theorem calls_represent (size : Capacity) (ops : List (CacheOp V)) :
    ∃ c, (new size.1).calls ops = some c ∧ c.keys.Nodup ∧ c.respList.length ≤ size.1 ∧
      (∀ k, (c.map k).isSome = true ↔ k ∈ c.keys) ∧
      ∀ k it, c.map k = some it → ∃ n ∈ c.respList, n.key = k ∧ c.deref it = some n ∧
        ∀ m ∈ c.respList, m.id = it ↔ m = n := by
  obtain ⟨c, hcalls, hv, hcap⟩ := calls_valid (new_valid (V := V) size.2) ops
  refine ⟨c, hcalls, hv.keysNodup, ?_, map_isSome_iff hv, ?_⟩
  · have bounded := hv.bounded
    rwa [hcap] at bounded
  · intro k it hm
    obtain ⟨n, hn, hkey, hid, hd⟩ := deref_mapped hv hm
    refine ⟨n, hn, hkey, hd, fun m hmem => ?_⟩
    constructor
    · intro hm'
      exact eq_of_id hv hmem hn (hm'.trans hid.symm)
    · rintro rfl
      exact hid

end Cache

end HttpProxy
