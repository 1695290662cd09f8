import HttpProxy.Locking
import Mathlib.Data.Finset.Card

/-!
# How long an iterator lives

`get` reads the value after its unlock, through an iterator of the map. By then another
thread may have evicted the key, and with it the element and the node, or an insertion may
have put the elements of the map into other buckets. `iterator_lives` says that an eviction
needs accesses to as many other keys as the cache holds: with fewer, and the buckets as they
were, the iterator still leads to the node of its key, also where another thread is in the
middle of a body. `iterator_dangles_iff` says that it needs no more.
-/

namespace HttpProxy

open HashTable (Table Growth)
open Locked (Code Call State)

variable {β V : Type}

/-! ## The node -/

/-- The map leads from the key through the iterator of the list to the node. -/
structure Cache.Leads (c : Cache V) (url : Bytes) (p : Nat) (n : Node V) : Prop where
  map : c.map url = some p
  node : c.deref p = some n
  key : n.key = url

namespace Cache

section
variable {t : Cache V} {url : Bytes} {p : Nat} {n : Node V}

theorem leads_of_map (hv : t.Valid) (h : t.map url = some p) : ∃ n, t.Leads url p n := by
  obtain ⟨n, _, hk, _, node⟩ := deref_mapped hv h
  exact ⟨n, h, node, hk⟩

theorem Leads.mem (h : t.Leads url p n) : n ∈ t.respList ∧ n.id = p :=
  ⟨List.mem_of_find?_eq_some h.node, by simpa using List.find?_some h.node⟩

theorem Leads.lookup (hv : t.Valid) (h : t.Leads url p n) :
    Recency.lookup url t.entries = some n.val := by
  rw [← h.key, Recency.lookup, entries_find hv h.mem.1]
  rfl

end

end Cache

namespace SharedCache

section
variable {t : SharedCache β V} {url : Bytes} {p : Nat} {n : Node V}

/-- A splice of any node keeps what leads to a node; the new contents are in the one that is
spliced. -/
theorem leads_splice (h : t.toCache.Leads url p n) {m : Node V}
    (node : t.toCache.deref m.id = some m) (value : V) :
    ∃ n', (t.splice { m with val := value }).toCache.Leads url p n' ∧
      (n' = n ∨ m.id = p ∧ n'.val = value) := by
  by_cases e : m.id = p
  · subst e
    cases node.symm.trans h.node
    exact ⟨{ n with val := value }, ⟨h.map, by simp [Cache.deref, toCache, splice], h.key⟩,
      .inr ⟨rfl, rfl⟩⟩
  · refine ⟨n, ⟨h.map, ?_, h.key⟩, .inl rfl⟩
    have found := h.node
    rw [Cache.deref] at found
    rw [Cache.deref, toCache, splice, List.find?_cons_of_neg (by simpa using e),
      List.find?_filter, ← found]
    congr 1
    funext x
    by_cases hx : x.id = p
    · simp [hx, Ne.symm e]
    · simp [hx]

theorem leads_assign (h : t.toCache.Leads url p n) (m : Node V) (value : V) :
    ∃ n', (t.assign m value).toCache.Leads url p n' ∧ (n' = n ∨ m.id = p ∧ n'.val = value) := by
  have moved := deref_assign t m value p
  rw [h.node, Option.map_some] at moved
  by_cases e : n.id = m.id
  · rw [if_pos e] at moved
    exact ⟨_, ⟨h.map, moved, h.key⟩, .inr ⟨e.symm.trans h.mem.2, rfl⟩⟩
  · rw [if_neg e] at moved
    exact ⟨n, ⟨h.map, moved, h.key⟩, .inl rfl⟩

theorem leads_eraseKey (h : t.toCache.Leads url p n) {key : Bytes} (ne : key ≠ url) :
    (t.eraseKey key).toCache.Leads url p n := by
  rw [toCache_eraseKey]
  exact ⟨(Function.update_of_ne (Ne.symm ne) ..).trans h.map, h.node, h.key⟩

/-- The eviction of another key. -/
theorem leads_roomy (hv : t.Valid) (h : t.toCache.Leads url p n) {ans : Bytes}
    {c : SharedCache β V} (room : t.Roomy ans c) (spared : t.respList.length = t.capacity →
      ∀ m, t.respList.getLast? = some m → m.key ≠ url) :
    c.toCache.Leads url p n ∧ p < c.nextId := by
  obtain ⟨hmem, hid⟩ := h.mem
  have fresh : p < t.nextId := hid ▸ hv.cache.idsFresh n hmem
  cases room with
  | room => exact ⟨h, fresh⟩
  | @evicted m full last =>
    have ne := spared full m last
    have erased := leads_eraseKey h ne
    refine ⟨⟨erased.map, ?_, h.key⟩, fresh⟩
    obtain ⟨s, hs⟩ := List.getLast?_eq_some_iff.mp last
    have apart : m.id ≠ p := by
      intro e
      have same := Cache.eq_of_id hv.cache (List.mem_of_getLast? last) hmem (e.trans hid.symm)
      exact ne (same ▸ h.key)
    have found := h.node
    rw [Cache.deref, toCache, hs, List.find?_append, List.find?_singleton,
      if_neg (by simpa using apart), Option.or_none] at found
    rw [Cache.deref, toCache, popLast, eraseKey]
    simpa [hs] using found

theorem leads_pushFront (h : t.toCache.Leads url p n) (older : p < t.nextId) (u : Bytes)
    (value : V) : (t.pushFront u value).toCache.Leads url p n := by
  refine ⟨h.map, ?_, h.key⟩
  have found := h.node
  rw [Cache.deref] at found
  rw [Cache.deref, toCache, pushFront, List.find?_cons_of_neg (by simp; omega)]
  exact found

end

/-- A body of `op` that is entered in `t` does not evict the key. -/
def Spares (t : SharedCache β V) (op : CacheOp V) (url : Bytes) : Prop :=
  ∀ u v, op = .put u v → t.map.find u = none → t.respList.length = t.capacity →
    ∀ m, t.respList.getLast? = some m → m.key ≠ url

variable {grow : Growth β}

/-- Throughout a body that spares a key, its iterator leads to its node. What changes there is
at most the value, and only by a `put` to the key. -/
theorem Midway.leads {t c : SharedCache β V} (hv : t.Valid) {op : CacheOp V} {l : CacheStmt V}
    (h : t.Midway grow op l c) {url : Bytes} {p : Nat} {n : Node V}
    (hl : t.toCache.Leads url p n) (spared : t.Spares op url) :
    ∃ n', c.toCache.Leads url p n' ∧ (n'.val = n.val ∨ ∃ v, op = .put url v ∧ n'.val = v) := by
  have own {u : Bytes} {it : HashTable.Iterator} {m : Node V} (found : t.map.find u = some it)
      (node : t.node it = some m) : t.toCache.deref m.id = some m ∧ (m.id = p → u = url) := by
    obtain ⟨m', node', map, deref⟩ := node_found hv found
    cases node.symm.trans node'
    refine ⟨deref, fun e => ?_⟩
    obtain ⟨k, _, hk, _, at_⟩ := Cache.deref_mapped hv.cache map
    cases (e ▸ at_).symm.trans hl.node
    exact hk.symm.trans hl.key
  cases h with
  | getFind | getSplice | putFind | putDelete | putAssign | putSize | putBack | putErase =>
    exact ⟨n, hl, .inl rfl⟩
  | @getUnlock u v c runs =>
    cases hm : t.map.find u with
    | none =>
      rw [Cache.get, find_none_iff.mp hm, Option.some.injEq, Prod.mk.injEq] at runs
      exact ⟨n, runs.2 ▸ hl, .inl rfl⟩
    | some it =>
      obtain ⟨m, _, map, deref⟩ := node_found hv hm
      rw [Cache.get, map] at runs
      simp only [deref] at runs
      have same : (t.splice { m with val := m.val }).toCache = c.toCache :=
        (Prod.mk.inj (Option.some.inj runs)).2
      obtain ⟨n', hl', kept | ⟨rfl, hval⟩⟩ := leads_splice hl deref m.val
      · exact ⟨n', same ▸ hl', .inl (by rw [kept])⟩
      · cases deref.symm.trans hl.node
        exact ⟨n', same ▸ hl', .inl hval⟩
  | @putSplice u value it m found node =>
    obtain ⟨n', hl', kept | ⟨e, hval⟩⟩ := leads_assign hl m value
    · exact ⟨n', hl', .inl (by rw [kept])⟩
    · exact ⟨n', hl', .inr ⟨value, by rw [(own found node).2 e], hval⟩⟩
  | @putPop u value m absent full last =>
    exact ⟨n, leads_eraseKey hl (spared u value rfl absent full m last), .inl rfl⟩
  | @putEmplace u value ans c absent room =>
    exact ⟨n, (leads_roomy hv hl room (spared u value rfl absent)).1, .inl rfl⟩
  | @putMap u value ans c absent room =>
    obtain ⟨hl', older⟩ := leads_roomy hv hl room (spared u value rfl absent)
    exact ⟨n, leads_pushFront hl' older u value, .inl rfl⟩
  | @putUnlock u value ans deleted c runs filed =>
    generalize c.map = m at filed
    cases filed with
    | kept present =>
      obtain ⟨it, found⟩ := Option.ne_none_iff_exists'.mp present
      obtain ⟨m, node, _⟩ := node_found hv found
      have same := (PutResult.mk.inj (Option.some.inj
        ((put_kept hv found node value).symm.trans runs))).2.2
      obtain ⟨n', hl', kept | ⟨e, hval⟩⟩ := leads_splice hl (own found node).1 value
      · exact ⟨n', same ▸ hl', .inl (by rw [kept])⟩
      · exact ⟨n', same ▸ hl', .inr ⟨value, by rw [(own found node).2 e], hval⟩⟩
    | @added ans' c' absent room =>
      have same := (PutResult.mk.inj (Option.some.inj
        ((put_added absent room value).symm.trans runs))).2.2
      obtain ⟨hl', older⟩ := leads_roomy hv hl room (spared u value rfl absent)
      have hl'' := leads_pushFront hl' older u value
      have ne : url ≠ u := by
        rintro rfl
        cases (find_none_iff.mp absent).symm.trans hl.map
      exact ⟨n, same ▸ ⟨(Function.update_of_ne ne ..).trans hl''.map, hl''.node, hl.key⟩, .inl rfl⟩

theorem Whole.midway {t c : SharedCache β V} {op : CacheOp V} {r : CacheRet V}
    (h : t.Whole grow op r c) : ∃ l, t.Midway grow op l c := by
  cases h with
  | get runs same => exact ⟨_, .getUnlock runs same⟩
  | put runs filed => exact ⟨_, .putUnlock runs filed⟩

/-! ## The element -/

/-- What a body makes of the map on its way: it erases the key of the node that it evicts, and
it files its own key. -/
theorem Midway.map_keeps {t c : SharedCache β V} {op : CacheOp V} {l : CacheStmt V}
    (h : t.Midway grow op l c) {P : Table β Bytes Nat → Prop} (start : P t.map)
    (erase : ∀ u v n, op = .put u v → t.map.find u = none → t.respList.length = t.capacity →
      t.respList.getLast? = some n → P (t.map.erase n.key))
    (assign : ∀ m u p, P m → P (m.assign grow u p)) : P c.map := by
  have roomy {u : Bytes} {v : V} {ans : Bytes} {c : SharedCache β V} (hop : op = .put u v)
      (absent : t.map.find u = none) (room : t.Roomy ans c) : P c.map := by
    cases room with
    | room => exact start
    | evicted full last => exact erase u v _ hop absent full last
  cases h with
  | getFind | getSplice | putFind | putDelete | putAssign | putSplice | putSize | putBack
  | putErase => exact start
  | getUnlock _ same => exact same ▸ start
  | putPop absent full last => exact erase _ _ _ rfl absent full last
  | putEmplace absent room => exact roomy rfl absent room
  | putMap absent room =>
    exact (roomy rfl absent room :)
  | putUnlock _ filed =>
    generalize hm : c.map = m at filed ⊢
    cases filed with
    | kept => exact start
    | added absent room => exact assign _ _ _ (roomy rfl absent room)

section
variable {t c : SharedCache β V} {op : CacheOp V} {l : CacheStmt V} {url : Bytes} {id : Nat}

theorem Midway.map_valid (hv : t.Valid) (h : t.Midway grow op l c) : c.map.Valid :=
  h.map_keeps hv.map (fun _ _ n _ _ _ _ => hv.map.erase n.key) fun _ u p hm => hm.assign grow u p

/-- A body that spares a key leaves its element in the map. -/
theorem Midway.map_holds (h : t.Midway grow op l c) (holds : t.map.Holds url id)
    (spared : t.Spares op url) : c.map.Holds url id :=
  h.map_keeps (P := fun m => m.Holds url id) holds
    (fun u v n hop absent full last => holds.erase (spared u v hop absent full n last))
    fun _ u p hm => hm.assign grow u p

theorem Midway.map_names (h : t.Midway grow op l c) (names : t.map.Names url id) :
    c.map.Names url id :=
  h.map_keeps (P := fun m => m.Names url id) names
    (fun _ _ n _ _ _ _ => names.erase n.key) fun _ u p hm => hm.assign grow u p

theorem Midway.le_rehashes (h : t.Midway grow op l c) : t.map.rehashes ≤ c.map.rehashes :=
  h.map_keeps (P := fun m => t.map.rehashes ≤ m.rehashes) (Nat.le_refl _)
    (fun _ _ _ _ _ _ _ => Nat.le_refl _)
    fun _ _ _ hm => Nat.le_trans hm HashTable.Table.le_rehashes_assign

end

end SharedCache

/-! ## Runs -/

section
variable {grow : Growth β} {b : β} {size : Capacity} {url : Bytes} {it : HashTable.Iterator}

/-- A call that leaves a key among those held does not evict it. -/
theorem spares_of_held {h : History V} {ops : List (CacheOp V)} (ht : h.Tracks size ops)
    {t : SharedCache β V} (same : t.toCache = h.cache.toCache) {op : CacheOp V}
    (bound : url ∈ Recency.held size.1 h.log)
    (kept : ∀ u v, op = .put u v → url ∈ Recency.held size.1 (u :: h.log)) :
    t.Spares op url := by
  rintro u v rfl absent full n last rfl
  have list : t.respList = h.cache.respList := congrArg Cache.respList same
  have hu : u ∉ Recency.held size.1 h.log := by
    rw [← ht.keys]
    refine (Cache.map_none_iff h.cache.valid).mp ?_
    rw [← same]
    exact SharedCache.find_none_iff.mp absent
  have len : (Recency.held size.1 h.log).length = size.1 := by
    rw [← ht.keys, Cache.keys, List.length_map, ← list, full]
    exact (congrArg Cache.capacity same).trans ht.capacity
  have held := kept u v rfl
  rw [Recency.held_cons_of_full size.2 hu len] at held
  rw [list] at last
  obtain ⟨s, hs⟩ := List.getLast?_eq_some_iff.mp last
  have keys : h.cache.keys = s.map Node.key ++ [n.key] := by simp [Cache.keys, hs]
  rcases List.mem_cons.mp held with e | held
  · exact hu (e ▸ bound)
  · rw [← ht.keys, keys, List.dropLast_concat] at held
    have nodup := h.cache.valid.keysNodup
    rw [keys] at nodup
    exact (List.nodup_append.mp nodup).2.2 n.key held n.key (by simp) rfl

variable {before after : List (Call (CacheOp V) (CacheRet V))} {c : Call (CacheOp V) (CacheRet V)}

/-- The accesses of some calls with a hit of `get` among them. -/
theorem log_of_hit {t : SharedCache β V}
    (h : (cacheCode grow).Serial (.new size.1 b) (before ++ c :: after) t)
    (hit : accessed c = some url) :
    (History.of size ((before ++ c :: after).map Call.op)).log =
      (after.filterMap accessed).reverse ++ url :: (before.filterMap accessed).reverse := by
  rw [(serial_history h).2]
  simp [hit]

/-- A body that is entered while the other keys accessed since a hit are few, its own
included, spares the key of the hit. -/
theorem spares_of_few {t : SharedCache β V}
    (h : (cacheCode grow).Serial (.new size.1 b) (before ++ c :: after) t)
    (hit : accessed c = some url) (others : Finset Bytes)
    (since : ∀ d ∈ after, ∀ k, accessed d = some k → k ≠ url → k ∈ others)
    (few : others.card < size.1) (op : CacheOp V)
    (now : ∀ k v, op = .put k v → k ≠ url → k ∈ others) : t.Spares op url := by
  have log := log_of_hit h hit
  have recent {a : Bytes} (ha : a ∈ (after.filterMap accessed).reverse) (ne : a ≠ url) :
      a ∈ others := by
    obtain ⟨d, hd, hacc⟩ := List.mem_filterMap.mp (List.mem_reverse.mp ha)
    exact since d hd a hacc ne
  refine spares_of_held (tracks_of size _) (serial_history h).1 ?_ fun u v hop => ?_
  · rw [log]
    exact Recency.mem_held_of_few (fun a ha ne => recent ha ne) few
  · rw [log, ← List.cons_append]
    refine Recency.mem_held_of_few (fun a ha ne => ?_) few
    rcases List.mem_cons.mp ha with rfl | ha
    · exact now a v hop ne
    · exact recent ha ne

/-- The state in which a call of `get` was entered that has found its key. -/
theorem serial_hit {t : SharedCache β V}
    (h : (cacheCode grow).Serial (.new size.1 b) (before ++ [c]) t) (op : c.op = .get url)
    (result : c.result = .got (some it)) : ∃ s,
      (cacheCode grow).Serial (.new size.1 b) before s ∧ s.map.find url = some it ∧
        ∃ l, s.Midway grow (.get url) l t := by
  obtain ⟨s, first, body⟩ := h.last
  have whole := SharedCache.whole_of_body (serial_valid first) body
  rw [op, result] at whole
  refine ⟨s, first, ?_, whole.midway⟩
  generalize hgot : some it = found at whole
  cases whole with
  | get => rfl

/-- The iterator of the list that the key had when `get` found it. -/
theorem bound_of_hit {t : SharedCache β V}
    (h : (cacheCode grow).Serial (.new size.1 b) (before ++ c :: after) t) (op : c.op = .get url)
    (result : c.result = .got (some it)) :
    ∃ p, (History.of size (before.map Call.op)).cache.map url = some p := by
  rw [List.append_cons] at h
  obtain ⟨_, front⟩ := h.front
  obtain ⟨s, first, found, _⟩ := serial_hit front op result
  rw [← (serial_history first).1]
  apply Option.ne_none_iff_exists'.mp
  intro none
  rw [SharedCache.find_none_iff.mpr none] at found
  cases found

/-- While the other keys accessed since a hit are few, its element and its node are there. -/
theorem serial_leads {t : SharedCache β V}
    (h : (cacheCode grow).Serial (.new size.1 b) (before ++ c :: after) t) (op : c.op = .get url)
    (result : c.result = .got (some it)) {p : Nat}
    (bound : (History.of size (before.map Call.op)).cache.map url = some p)
    (others : Finset Bytes) (since : ∀ d ∈ after, ∀ k, accessed d = some k → k ≠ url → k ∈ others)
    (few : others.card < size.1) :
    t.map.Holds url it.element ∧ ∃ n, t.toCache.Leads url p n := by
  have hit : accessed c = some url := by rw [accessed, op, result]
  refine h.since (P := fun after t =>
    (∀ d ∈ after, ∀ k, accessed d = some k → k ≠ url → k ∈ others) →
      t.map.Holds url it.element ∧ ∃ n, t.toCache.Leads url p n) ?_ ?_ since
  · intro t h _
    obtain ⟨s, first, found, l, mid⟩ := serial_hit h op result
    have hv := serial_valid first
    have spared : s.Spares (.get url) url := fun u v hop => by cases hop
    rw [← (serial_history first).1] at bound
    obtain ⟨n, hl⟩ := Cache.leads_of_map hv.cache bound
    obtain ⟨n', hl', _⟩ := mid.leads hv hl spared
    exact ⟨mid.map_holds ((HashTable.Table.find_iff hv.map).mp found).1 spared, n', hl'⟩
  · intro after d s t first body ih since
    have earlier : ∀ e ∈ after, ∀ k, accessed e = some k → k ≠ url → k ∈ others :=
      fun e he => since e (List.mem_append_left _ he)
    obtain ⟨holds, n, hl⟩ := ih earlier
    have spared := spares_of_few first hit others earlier few d.op fun k v hd =>
      since d (by simp) k (by rw [accessed, hd])
    have hv := serial_valid first
    obtain ⟨l, mid⟩ := (SharedCache.whole_of_body hv body).midway
    obtain ⟨n', hl', _⟩ := mid.leads hv hl spared
    exact ⟨mid.map_holds holds spared, n', hl'⟩

/-- The element of a hit is never that of another key, and new buckets are counted. -/
theorem serial_names {t : SharedCache β V}
    (h : (cacheCode grow).Serial (.new size.1 b) (before ++ c :: after) t) (op : c.op = .get url)
    (result : c.result = .got (some it)) :
    t.map.Names url it.element ∧ it.rehashes ≤ t.map.rehashes := by
  refine h.since (P := fun _ t => t.map.Names url it.element ∧ it.rehashes ≤ t.map.rehashes) ?_ ?_
  · intro t h
    obtain ⟨s, first, found, l, mid⟩ := serial_hit h op result
    have hv := serial_valid first
    obtain ⟨holds, now⟩ := (HashTable.Table.find_iff hv.map).mp found
    exact ⟨mid.map_names (holds.names hv.map), now ▸ mid.le_rehashes⟩
  · rintro after d s t first body ⟨names, older⟩
    obtain ⟨l, mid⟩ := (SharedCache.whole_of_body (serial_valid first) body).midway
    exact ⟨mid.map_names names, Nat.le_trans older mid.le_rehashes⟩

end

namespace Cache

/-- A call makes at most one node, with a new iterator; the others keep their keys. -/
theorem call_nodes {t c : Cache V} (hv : t.Valid) {op : CacheOp V} (h : t.call op = some c) :
    t.nextId ≤ c.nextId ∧
      ∀ n ∈ c.respList, (∃ m ∈ t.respList, m.id = n.id ∧ m.key = n.key) ∨ t.nextId ≤ n.id := by
  have spliced {m : Node V} (hm : m ∈ t.respList) (value : V) (n : Node V)
      (hn : n ∈ (t.splice { m with val := value }).respList) :
      (∃ m ∈ t.respList, m.id = n.id ∧ m.key = n.key) ∨ t.nextId ≤ n.id := by
    rcases List.mem_cons.mp hn with rfl | hn
    · exact .inl ⟨m, hm, rfl, rfl⟩
    · exact .inl ⟨n, (List.mem_filter.mp hn).1, rfl, rfl⟩
  cases op with
  | get u =>
    obtain ⟨⟨v, _⟩, runs, rfl⟩ := Option.map_eq_some_iff.mp h
    cases hm : t.map u with
    | none =>
      rw [Cache.get, hm] at runs
      cases runs
      exact ⟨Nat.le_refl _, fun n hn => .inl ⟨n, hn, rfl, rfl⟩⟩
    | some p =>
      obtain ⟨m, hmem, _, _, node⟩ := deref_mapped hv hm
      rw [Cache.get, hm] at runs
      simp only [node] at runs
      cases runs
      exact ⟨Nat.le_refl _, spliced hmem m.val⟩
  | put u value =>
    obtain ⟨⟨ans, deleted, _⟩, runs, rfl⟩ := Option.map_eq_some_iff.mp h
    cases hm : t.map u with
    | some p =>
      obtain ⟨m, hmem, _, _, node⟩ := deref_mapped hv hm
      rw [Cache.put, hm] at runs
      simp only [node] at runs
      cases runs
      exact ⟨Nat.le_refl _, spliced hmem value⟩
    | none =>
      have added {c' : Cache V} (next : c'.nextId = t.nextId)
          (fewer : ∀ n ∈ c'.respList, n ∈ t.respList) :
          t.nextId ≤ (c'.emplaceFront u value).nextId ∧
            ∀ n ∈ (c'.emplaceFront u value).respList,
              (∃ m ∈ t.respList, m.id = n.id ∧ m.key = n.key) ∨ t.nextId ≤ n.id := by
        refine ⟨by simp [emplaceFront, next], fun n hn => ?_⟩
        rcases List.mem_cons.mp hn with rfl | hn
        · exact .inr (Nat.le_of_eq next.symm)
        · exact .inl ⟨n, fewer n hn, rfl, rfl⟩
      rw [Cache.put, hm] at runs
      dsimp only at runs
      split_ifs at runs with full
      · obtain ⟨⟨_, c'⟩, pops, runs⟩ := Option.bind_eq_some_iff.mp runs
        cases runs
        obtain ⟨_, _, pops⟩ := Option.bind_eq_some_iff.mp pops
        cases pops
        exact added rfl fun n hn => List.dropLast_subset _ hn
      · cases runs
        exact added rfl fun n hn => hn

end Cache

theorem SharedCache.Whole.call {grow : Growth β} {t c : SharedCache β V} {op : CacheOp V}
    {r : CacheRet V} (h : t.Whole grow op r c) : t.toCache.call op = some c.toCache := by
  cases h with
  | get runs => rw [Cache.call, runs, Option.map_some]
  | put runs => rw [Cache.call, runs, Option.map_some]

section
variable {grow : Growth β} {b : β} {size : Capacity} {url : Bytes} {it : HashTable.Iterator}
variable {before after : List (Call (CacheOp V) (CacheRet V))} {c : Call (CacheOp V) (CacheRet V)}

/-- An iterator of the list is never given to a node of another key. -/
theorem serial_key {t : SharedCache β V}
    (h : (cacheCode grow).Serial (.new size.1 b) (before ++ c :: after) t) (op : c.op = .get url)
    (result : c.result = .got (some it)) {p : Nat}
    (bound : (History.of size (before.map Call.op)).cache.map url = some p) :
    p < t.nextId ∧ ∀ n ∈ t.respList, n.id = p → n.key = url := by
  refine h.since
    (P := fun _ t => p < t.nextId ∧ ∀ n ∈ t.respList, n.id = p → n.key = url) ?_ ?_
  · intro t h
    have hv := (serial_valid h).cache
    obtain ⟨_, n, hl⟩ := serial_leads h op result bound ∅ (by simp) size.2
    obtain ⟨hmem, hid⟩ := hl.mem
    refine ⟨hid ▸ hv.idsFresh n hmem, fun m hm e => ?_⟩
    rw [Cache.eq_of_id hv hm hmem (e.trans hid.symm), hl.key]
  · rintro after d s t first body ⟨older, keyed⟩
    have hv := serial_valid first
    obtain ⟨le, nodes⟩ := Cache.call_nodes hv.cache (SharedCache.whole_of_body hv body).call
    refine ⟨Nat.lt_of_lt_of_le older le, fun n hn e => ?_⟩
    rcases nodes n hn with ⟨m, hm, hid, hk⟩ | newer
    · exact hk ▸ keyed m hm (hid.trans e)
    · have : s.nextId ≤ n.id := newer
      omega

end

/-- The iterator of an element that is there, in the buckets as they were, leads to the node. -/
theorem SharedCache.node_of_holds {t : SharedCache β V} (hm : t.map.Valid) {url : Bytes}
    {it : HashTable.Iterator} (holds : t.map.Holds url it.element)
    (older : it.rehashes ≤ t.map.rehashes) (still : ¬ t.map.Rehashed it) {p : Nat} {n : Node V}
    (hl : t.toCache.Leads url p n) : t.map.find url = some it ∧ t.node it = some n := by
  have now : it.rehashes = t.map.rehashes := Nat.le_antisymm older (Nat.not_lt.mp still)
  have found := (HashTable.Table.find_iff hm).mpr ⟨holds, now⟩
  refine ⟨found, ?_⟩
  rw [node, (HashTable.Table.second_find hm found).trans hl.map]
  exact hl.node

/-- A thread has left `get` with an iterator, and has called nothing since. In every
interleaving, as long as the other keys accessed since, with that of a `put` in progress, are
fewer than the cache holds and the map keeps its buckets, this iterator is the one of its key,
and the late read is defined. It finds the value of the latest completed `put` to the key, or
the one of a `put` in progress. -/
theorem iterator_lives (grow : Growth β) (b : β) (size : Capacity)
    {s : State (SharedCache β V) (CacheOp V) (CacheStmt V) (CacheRet V)}
    (h : (cacheCode grow).Reaches (.start (.new size.1 b)) s) {i : Nat} {url : Bytes}
    {it : HashTable.Iterator} (left : s.threads i = .left (.get url) (.got (some it))) :
    ∃ before after, s.calls = before ++ ⟨i, .get url, .got (some it)⟩ :: after ∧
      (∀ d ∈ after, d.thread ≠ i) ∧
      ∀ others : Finset Bytes,
        (∀ d ∈ after, ∀ k, accessed d = some k → k ≠ url → k ∈ others) →
        (∀ j k v l, s.threads j = .inside (.put k v) l → k ≠ url → k ∈ others) →
        others.card < size.1 → ¬ s.shared.map.Rehashed it →
        ∃ v, s.shared.map.find url = some it ∧ lateRead s.shared (some it) = some (some v) ∧
          (latestPut (s.calls.map Call.op) url = some v ∨
            ∃ j l, s.threads j = .inside (.put url v) l) := by
  obtain ⟨before, after, hcalls, last⟩ := Code.left_of_reaches h left
  refine ⟨before, after, hcalls, last, fun others since now few still => ?_⟩
  have reads {t : SharedCache β V} {n : Node V} (node : t.node it = some n) :
      lateRead t (some it) = some (some n.val) := by
    rw [lateRead, node, Option.map_some]
  have latest {t : SharedCache β V}
      (serial : (cacheCode grow).Serial (.new size.1 b) s.calls t) {p : Nat} {n : Node V}
      (hl : t.toCache.Leads url p n) : latestPut (s.calls.map Call.op) url = some n.val := by
    have tracks := tracks_of size (s.calls.map Call.op)
    have bound := hl.lookup (serial_valid serial).cache
    rw [(serial_history serial).1] at bound
    have mem := LruCache.mem_keys_iff.mpr (Option.isSome_of_eq_some bound)
    exact (tracks.values url mem).symm.trans bound
  cases Code.consistent_of_reaches h with
  | free _ serial _ =>
    have whole := hcalls ▸ serial
    obtain ⟨p, bound⟩ := bound_of_hit whole rfl rfl
    obtain ⟨holds, n, hl⟩ := serial_leads whole rfl rfl bound others since few
    obtain ⟨found, node⟩ := SharedCache.node_of_holds (serial_valid serial).map holds
      (serial_names whole rfl rfl).2 still hl
    exact ⟨n.val, found, reads node, .inl (latest serial hl)⟩
  | @held j op l t _ serial at_ part _ =>
    have first := hcalls ▸ serial
    have hv := serial_valid serial
    obtain ⟨p, bound⟩ := bound_of_hit first rfl rfl
    obtain ⟨holds, n, hl⟩ := serial_leads first rfl rfl bound others since few
    have spared := spares_of_few first rfl others since few op
      fun k v hop => now j k v l (hop ▸ at_)
    have mid := SharedCache.midway_of_part hv part
    obtain ⟨n', hl', change⟩ := mid.leads hv hl spared
    obtain ⟨found, node⟩ := SharedCache.node_of_holds (mid.map_valid hv)
      (mid.map_holds holds spared)
      (Nat.le_trans (serial_names first rfl rfl).2 mid.le_rehashes) still hl'
    refine ⟨n'.val, found, reads node, ?_⟩
    rcases change with same | ⟨v, hop, hval⟩
    · exact .inl (same ▸ latest serial hl)
    · refine .inr ⟨j, l, ?_⟩
      rw [hval, ← hop]
      exact at_

theorem hitState_left : hitState.threads 1 = .left (.get (str "a")) (.got (some ⟨0, 0⟩)) := rfl

theorem iterator_lives_hit : ∃ v, lateRead hitState.shared (some ⟨0, 0⟩) = some (some v) := by
  obtain ⟨before, after, hcalls, _, lives⟩ := iterator_lives doubling 1 ⟨1, Nat.le_refl 1⟩
    hitState_reaches hitState_left
  have idle : ∀ j op l, hitState.threads j ≠ .inside op l := by
    cases Code.consistent_of_reaches hitState_reaches with
    | free _ _ none => exact none
    | held locked => cases locked
  have own : ∀ d ∈ hitState.calls, accessed d = some (str "a") := by
    rw [hitState_calls]
    decide +kernel
  obtain ⟨v, _, read, _⟩ := lives ∅
    (fun d hd k hk ne => by
      have := own d (hcalls ▸ by simp [hd])
      exact absurd (Option.some.inj (hk.symm.trans this)) ne)
    (fun j k v l hj => absurd hj (idle j _ l)) (by decide)
    (show ¬ hitState.shared.map.Rehashed ⟨0, 0⟩ from Nat.lt_irrefl 0)
  exact ⟨v, read⟩

/-- The bound is sharp. While the lock is free, a hit of a key that was not accessed since:
the node it was at, which the iterator `p` of the list designates, is gone just when as many
distinct other keys have been accessed since as the cache holds, and the late read through
the iterator of the map is undefined just then and when the map has made new buckets. -/
theorem iterator_dangles_iff (grow : Growth β) (b : β) (size : Capacity)
    {s : State (SharedCache β V) (CacheOp V) (CacheStmt V) (CacheRet V)}
    (h : (cacheCode grow).Reaches (.start (.new size.1 b)) s) (unlocked : s.locked = false)
    {i : Nat} {url : Bytes} {it : HashTable.Iterator}
    {before after : List (Call (CacheOp V) (CacheRet V))}
    (calls : s.calls = before ++ ⟨i, .get url, .got (some it)⟩ :: after)
    (alone : ∀ d ∈ after, accessed d ≠ some url) :
    (∃ p, (History.of size (before.map Call.op)).cache.map url = some p ∧
      (s.shared.toCache.deref p = none ↔ size.1 ≤ (after.filterMap accessed).toFinset.card)) ∧
    (lateRead s.shared (some it) = none ↔
      size.1 ≤ (after.filterMap accessed).toFinset.card ∨ s.shared.map.Rehashed it) := by
  cases Code.consistent_of_reaches h with
  | held locked =>
    rw [unlocked] at locked
    cases locked
  | free _ serial _ =>
    rw [calls] at serial
    have hv := serial_valid serial
    obtain ⟨p, bound⟩ := bound_of_hit serial rfl rfl
    have out : url ∉ (after.filterMap accessed).reverse := by
      intro hm
      obtain ⟨d, hd, hacc⟩ := List.mem_filterMap.mp (List.mem_reverse.mp hm)
      exact alone d hd hacc
    have held : url ∈ s.shared.toCache.keys ↔
        (after.filterMap accessed).toFinset.card < size.1 := by
      rw [(serial_history serial).1, (tracks_of size _).keys, log_of_hit serial rfl,
        Recency.mem_held_iff out, List.toFinset_reverse]
    have there (few : (after.filterMap accessed).toFinset.card < size.1) :=
      serial_leads serial rfl rfl bound (after.filterMap accessed).toFinset
        (fun d hd k hacc _ => List.mem_toFinset.mpr (List.mem_filterMap.mpr ⟨d, hd, hacc⟩)) few
    obtain ⟨names, older⟩ := serial_names serial rfl rfl
    refine ⟨⟨p, bound, ?_⟩, ?_⟩
    · rw [← not_lt, ← held]
      constructor
      · intro dangles hk
        obtain ⟨_, n, hl⟩ := there (held.mp hk)
        cases dangles.symm.trans hl.node
      · intro gone
        rw [Cache.deref, List.find?_eq_none]
        intro n hn hid
        have hk := (serial_key serial rfl rfl bound).2 n hn (by simpa using hid)
        exact gone (hk ▸ List.mem_map_of_mem hn)
    · constructor
      · intro dangles
        by_contra none
        obtain ⟨few, still⟩ := not_or.mp none
        obtain ⟨holds, n, hl⟩ := there (Nat.lt_of_not_le few)
        obtain ⟨_, node⟩ := SharedCache.node_of_holds hv.map holds older still hl
        rw [lateRead, node] at dangles
        cases dangles
      · rintro (many | moved)
        · have gone := (Cache.map_none_iff hv.cache).mpr
            fun hk => Nat.not_lt.mpr many (held.mp hk)
          rw [lateRead, SharedCache.node, HashTable.Table.second_eq_none names gone]
          rfl
        · rw [lateRead, SharedCache.node, HashTable.Table.second, if_neg (Nat.ne_of_lt moved)]
          rfl

/-- A third thread puts another key before the second one has read. -/
def evictedState : State (SharedCache Nat Nat) (CacheOp Nat) (CacheStmt Nat) (CacheRet Nat) :=
  ((cacheCode doubling).moves (.start (.new 1 1))
    (whole 0 (.put (str "a") 7) 7 ++ whole 1 (.get (str "a")) 5 ++
      whole 2 (.put (str "b") 8) 10)).get (by decide +kernel)

theorem evictedState_reaches : (cacheCode doubling).Reaches (.start (.new 1 1)) evictedState :=
  Code.reaches_of_moves (cacheCode doubling) (Option.some_get _).symm

theorem evictedState_calls : evictedState.calls =
    [⟨0, .put (str "a") 7, .put [] none⟩] ++ ⟨1, .get (str "a"), .got (some ⟨0, 0⟩)⟩ ::
      [⟨2, .put (str "b") 8, .put (str "a") none⟩] := rfl

theorem iterator_dangles_evicted : lateRead evictedState.shared (some ⟨0, 0⟩) = none :=
  (iterator_dangles_iff doubling 1 ⟨1, Nat.le_refl 1⟩ evictedState_reaches rfl
    evictedState_calls (by decide +kernel)).2.mpr (.inl (by decide +kernel))

/-- There is room for both keys, but only one bucket. -/
example : ((cacheCode doubling).moves (.start (.new 2 1))
    (whole 0 (.put (str "a") 7) 7 ++ whole 1 (.get (str "a")) 5 ++
      whole 2 (.put (str "b") 8) 7)).map (fun s => lateRead s.shared (some ⟨0, 0⟩)) =
        some none := by decide +kernel

end HttpProxy
