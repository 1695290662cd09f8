import HttpProxy.Base.Recency
import HttpProxy.Bytes
import Mathlib.Logic.Function.Basic

/-!
# `Cache`

A doubly linked list of key/value nodes and a map from keys to iterators. An
iterator designates a node, wherever the list has moved it, so nodes carry an
identity and the map holds identities. Reading through an iterator whose node is
gone, and `back()` of an empty list, are undefined behaviour: the operations
return `none` there. `Valid` is the invariant under which they never do, and
`entries` the list of bindings that a valid cache is, an LRU list.
-/

namespace HttpProxy

variable {V : Type}

structure Node (V : Type) where
  id : Nat
  key : Bytes
  val : V
  deriving Repr

structure Cache (V : Type) where
  capacity : Nat
  respList : List (Node V)
  map : Bytes → Option Nat
  nextId : Nat

/-- `put`: the string it returns, the object it deletes, the cache it leaves. -/
structure PutResult (V : Type) where
  ans : Bytes
  deleted : Option V
  cache : Cache V

namespace Cache

/-- The constructor. -/
def new (size : Nat) : Cache V := ⟨size, [], fun _ => none, 0⟩

/-- The node an iterator designates, if it is still in the list. -/
def deref (c : Cache V) (it : Nat) : Option (Node V) := c.respList.find? (·.id = it)

/-- `respList.splice(respList.begin(), respList, it)`, with the node's new contents. -/
def splice (c : Cache V) (node : Node V) : Cache V :=
  { c with respList := node :: c.respList.filter (·.id ≠ node.id) }

/-- `get`. The pointer is read after the unlock, through the same iterator. -/
def get (c : Cache V) (url : Bytes) : Option (Option V × Cache V) :=
  match c.map url with
  | none => some (none, c)
  | some it => do
    let node ← c.deref it
    return (some node.val, c.splice node)

/-- The eviction in `put`: the key it returns, and the cache without its last node. -/
def popBack (c : Cache V) : Option (Bytes × Cache V) := do
  let node ← c.respList.getLast?
  return (node.key,
    { c with map := Function.update c.map node.key none, respList := c.respList.dropLast })

/-- `emplace_front` and the map entry for the new node. -/
def emplaceFront (c : Cache V) (url : Bytes) (value : V) : Cache V :=
  { c with
    respList := ⟨c.nextId, url, value⟩ :: c.respList
    map := Function.update c.map url (some c.nextId)
    nextId := c.nextId + 1 }

/-- `put`. -/
def put (c : Cache V) (url : Bytes) (value : V) : Option (PutResult V) :=
  match c.map url with
  | some it => do
    let node ← c.deref it
    return { ans := [], deleted := some node.val, cache := c.splice { node with val := value } }
  | none => do
    let (ans, c) ← if c.respList.length = c.capacity then c.popBack else some ([], c)
    return { ans := ans, deleted := none, cache := c.emplaceFront url value }

/-- The look-up that `checkExpire` makes, which leaves the list as it is. -/
def find (c : Cache V) (url : Bytes) : Option (Option V) :=
  match c.map url with
  | none => some none
  | some it => do
    let node ← c.deref it
    return some node.val

/-- The bindings, front to back. -/
def entries (c : Cache V) : List (Bytes × V) := c.respList.map (fun n => (n.key, n.val))

/-- The keys in `respList`, front to back. -/
def keys (c : Cache V) : List Bytes := c.respList.map Node.key

/-- The representation invariant: no key twice, no node twice, at most `capacity`
nodes, and the map leads from every key in the list to its node and from no other. -/
structure Valid (c : Cache V) : Prop where
  pos : 1 ≤ c.capacity
  bounded : c.respList.length ≤ c.capacity
  keysNodup : c.keys.Nodup
  idsNodup : (c.respList.map Node.id).Nodup
  idsFresh : ∀ n ∈ c.respList, n.id < c.nextId
  mapped : ∀ k it, c.map k = some it ↔ ∃ n ∈ c.respList, n.key = k ∧ n.id = it

theorem keys_eq (c : Cache V) : c.keys = Recency.keys c.entries := by
  simp [keys, entries, Recency.keys, List.map_map, Function.comp_def]

theorem entries_length (c : Cache V) : c.entries.length = c.respList.length := by simp [entries]

theorem new_valid {size : Nat} (h : 1 ≤ size) : (new size : Cache V).Valid where
  pos := h
  bounded := Nat.zero_le _
  keysNodup := List.nodup_nil
  idsNodup := List.nodup_nil
  idsFresh := by simp [new]
  mapped := by simp [new]

/-! ## Reading through the map -/

theorem eq_of_key {c : Cache V} (hv : c.Valid) {n m : Node V} (hn : n ∈ c.respList)
    (hm : m ∈ c.respList) (h : n.key = m.key) : n = m :=
  List.inj_on_of_nodup_map hv.keysNodup hn hm h

theorem eq_of_id {c : Cache V} (hv : c.Valid) {n m : Node V} (hn : n ∈ c.respList)
    (hm : m ∈ c.respList) (h : n.id = m.id) : n = m :=
  List.inj_on_of_nodup_map hv.idsNodup hn hm h

/-- Every iterator in the map designates a node, the one with that key. -/
theorem deref_mapped {c : Cache V} (hv : c.Valid) {k : Bytes} {it : Nat}
    (h : c.map k = some it) : ∃ n ∈ c.respList, n.key = k ∧ n.id = it ∧ c.deref it = some n := by
  obtain ⟨n, hn, hk, hid⟩ := (hv.mapped k it).mp h
  refine ⟨n, hn, hk, hid, ?_⟩
  have found : (c.respList.find? (·.id = it)).isSome := by
    rw [List.find?_isSome]
    exact ⟨n, hn, by simpa using hid⟩
  obtain ⟨m, hm⟩ := Option.isSome_iff_exists.mp found
  have hmid : m.id = it := by simpa using List.find?_some hm
  have same : m = n := eq_of_id hv (List.mem_of_find?_eq_some hm) hn (hmid.trans hid.symm)
  rw [deref, hm, same]

theorem map_none_iff {c : Cache V} (hv : c.Valid) {k : Bytes} : c.map k = none ↔ k ∉ c.keys := by
  constructor
  · intro h hk
    obtain ⟨n, hn, rfl⟩ := List.mem_map.mp hk
    have := (hv.mapped n.key n.id).mpr ⟨n, hn, rfl, rfl⟩
    rw [h] at this
    cases this
  · intro h
    cases hm : c.map k with
    | none => rfl
    | some it =>
      obtain ⟨n, hn, hk, _⟩ := (hv.mapped k it).mp hm
      exact absurd (List.mem_map.mpr ⟨n, hn, hk⟩) h

theorem entries_find {c : Cache V} (hv : c.Valid) {n : Node V} (hn : n ∈ c.respList) :
    c.entries.find? (·.1 = n.key) = some (n.key, n.val) := by
  obtain ⟨m, hm⟩ : ∃ m, c.respList.find? (·.key = n.key) = some m := by
    rw [← Option.isSome_iff_exists, List.find?_isSome]
    exact ⟨n, hn, by simp⟩
  have hk : m.key = n.key := by simpa using List.find?_some hm
  have same : m = n := eq_of_key hv (List.mem_of_find?_eq_some hm) hn hk
  rw [entries, List.find?_map]
  simp only [Function.comp_def, hm, same, Option.map_some]

theorem filter_id_eq {c : Cache V} (hv : c.Valid) {n : Node V} (hn : n ∈ c.respList) :
    c.respList.filter (·.id ≠ n.id) = c.respList.filter (·.key ≠ n.key) := by
  apply List.filter_congr
  intro m hm
  have : m.id = n.id ↔ m.key = n.key :=
    ⟨fun h => by rw [eq_of_id hv hm hn h], fun h => by rw [eq_of_key hv hm hn h]⟩
  simp [this]

theorem entries_splice {c : Cache V} (hv : c.Valid) {n : Node V} (hn : n ∈ c.respList) (v : V) :
    (c.splice { n with val := v }).entries =
      (n.key, v) :: c.entries.filter (·.1 ≠ n.key) := by
  simp only [splice, entries, List.map_cons, filter_id_eq hv hn, List.filter_map]
  rfl

/-! ## The operations keep the invariant -/

theorem splice_valid {c : Cache V} (hv : c.Valid) {n : Node V} (hn : n ∈ c.respList) (v : V) :
    (c.splice { n with val := v }).Valid := by
  have sub := List.filter_sublist (p := fun m : Node V => decide (m.id ≠ n.id)) (l := c.respList)
  have out (m : Node V) (hm : m ∈ c.respList.filter (·.id ≠ n.id)) :
      m ∈ c.respList ∧ m.id ≠ n.id := by simpa using hm
  refine ⟨hv.pos, ?_, ?_, ?_, ?_, ?_⟩
  · have lt : (c.respList.filter (·.id ≠ n.id)).length < c.respList.length := by
      refine lt_of_le_of_ne sub.length_le fun e => ?_
      have back : n ∈ c.respList.filter (·.id ≠ n.id) := by rw [sub.eq_of_length e]; exact hn
      exact (out n back).2 rfl
    have := hv.bounded
    simp only [splice, List.length_cons]
    omega
  · refine List.nodup_cons.mpr ⟨?_, hv.keysNodup.sublist (sub.map _)⟩
    rintro hm
    obtain ⟨m, hm, hk⟩ := List.mem_map.mp hm
    obtain ⟨hmc, hne⟩ := out m hm
    exact hne (by rw [eq_of_key hv hmc hn hk])
  · refine List.nodup_cons.mpr ⟨?_, hv.idsNodup.sublist (sub.map _)⟩
    rintro hm
    obtain ⟨m, hm, hid⟩ := List.mem_map.mp hm
    exact (out m hm).2 hid
  · intro m hm
    rcases List.mem_cons.mp hm with rfl | hm
    · exact hv.idsFresh n hn
    · exact hv.idsFresh m (out m hm).1
  · intro k it
    simp only [splice, List.mem_cons, exists_eq_or_imp]
    rw [hv.mapped k it]
    constructor
    · rintro ⟨m, hm, hk, hid⟩
      by_cases e : m.id = n.id
      · have same := eq_of_id hv hm hn e
        subst same
        exact .inl ⟨hk, hid⟩
      · exact .inr ⟨m, by simp [hm, e], hk, hid⟩
    · rintro (⟨hk, hid⟩ | ⟨m, hm, hk, hid⟩)
      · exact ⟨n, hn, hk, hid⟩
      · exact ⟨m, (out m hm).1, hk, hid⟩

/-- After `pop_back` there is room, and the map has lost the key with the node. -/
theorem popBack_spec {c : Cache V} (hv : c.Valid) (full : c.respList.length = c.capacity) :
    ∃ k c', c.popBack = some (k, c') ∧ c.keys.getLast? = some k ∧ c'.Valid ∧
      c'.entries = c.entries.dropLast ∧ c'.capacity = c.capacity ∧
      c'.respList.length < c'.capacity := by
  have hpos := hv.pos
  rcases c.respList.eq_nil_or_concat with hnil | ⟨s, n, hs⟩
  · rw [hnil] at full; simp at full; omega
  rw [List.concat_eq_append] at hs
  have last : c.respList.getLast? = some n := by rw [hs]; simp
  have drop : c.respList.dropLast = s := by rw [hs]; simp
  have keysEq : c.keys = s.map Node.key ++ [n.key] := by simp [keys, hs]
  have idsEq : c.respList.map Node.id = s.map Node.id ++ [n.id] := by simp [hs]
  have mem (m : Node V) : m ∈ c.respList ↔ m ∈ s ∨ m = n := by simp [hs]
  refine ⟨n.key,
    { c with map := Function.update c.map n.key none, respList := c.respList.dropLast },
    by simp [popBack, last], by simp [keysEq], ?_, ?_, rfl, ?_⟩
  · rw [drop]
    refine ⟨hv.pos, ?_, ?_, ?_, ?_, ?_⟩
    · have := hv.bounded
      rw [hs, List.length_append] at this
      dsimp only
      omega
    · have := hv.keysNodup
      rw [keysEq] at this
      exact (List.nodup_append.mp this).1
    · have := hv.idsNodup
      rw [idsEq] at this
      exact (List.nodup_append.mp this).1
    · intro m hm
      exact hv.idsFresh m ((mem m).mpr (.inl hm))
    · intro k it
      have notIn (m : Node V) (hm : m ∈ s) : m.key ≠ n.key := by
        have := hv.keysNodup
        rw [keysEq] at this
        exact fun e => (List.nodup_append.mp this).2.2 m.key (List.mem_map_of_mem hm) n.key
          (by simp) e
      by_cases hk : k = n.key
      · subst hk
        simp only [Function.update_self, reduceCtorEq, false_iff]
        rintro ⟨m, hm, e, _⟩
        exact notIn m hm e
      · dsimp only
        rw [Function.update_of_ne hk, hv.mapped k it]
        constructor
        · rintro ⟨m, hm, rfl, hid⟩
          rcases (mem m).mp hm with hm | rfl
          · exact ⟨m, hm, rfl, hid⟩
          · exact absurd rfl hk
        · rintro ⟨m, hm, e, hid⟩
          exact ⟨m, (mem m).mpr (.inl hm), e, hid⟩
  · simp [entries, List.map_dropLast]
  · rw [drop]
    rw [hs, List.length_append] at full
    simp only [List.length_singleton] at full
    dsimp only
    omega

theorem emplaceFront_valid {c : Cache V} (hv : c.Valid) {url : Bytes} (value : V)
    (room : c.respList.length < c.capacity) (hk : url ∉ c.keys) :
    (c.emplaceFront url value).Valid := by
  refine ⟨hv.pos, ?_, ?_, ?_, ?_, ?_⟩
  · exact room
  · exact List.nodup_cons.mpr ⟨hk, hv.keysNodup⟩
  · refine List.nodup_cons.mpr ⟨?_, hv.idsNodup⟩
    rintro hm
    obtain ⟨m, hm, hid⟩ := List.mem_map.mp hm
    have hlt := hv.idsFresh m hm
    dsimp only at hid
    omega
  · intro m hm
    rcases List.mem_cons.mp hm with rfl | hm
    · exact Nat.lt_succ_self _
    · exact Nat.lt_succ_of_lt (hv.idsFresh m hm)
  · intro k it
    simp only [emplaceFront, List.mem_cons, exists_eq_or_imp]
    by_cases e : k = url
    · subst e
      rw [Function.update_self]
      constructor
      · rintro h
        exact .inl ⟨rfl, Option.some.inj h⟩
      · rintro (⟨_, rfl⟩ | ⟨m, hm, e, _⟩)
        · rfl
        · exact absurd (List.mem_map.mpr ⟨m, hm, e⟩) hk
    · rw [Function.update_of_ne e, hv.mapped k it]
      simp [Ne.symm e]

/-! ## One specification for each operation -/

/-- `get` is defined, touches the entry and returns what was bound. -/
theorem get_spec {c : Cache V} (hv : c.Valid) (url : Bytes) :
    ∃ c', c.get url = some (Recency.lookup url c.entries, c') ∧ c'.Valid ∧ c'.capacity = c.capacity ∧
      c'.entries = Recency.touch url c.entries := by
  cases hm : c.map url with
  | none =>
    have hk := (map_none_iff hv).mp hm
    have miss : c.entries.find? (·.1 = url) = none := by
      cases hf : c.entries.find? (·.1 = url) with
      | none => rfl
      | some e => exact absurd (keys_eq c ▸ Recency.mem_keys_iff.mpr ⟨e, hf⟩) hk
    refine ⟨c, ?_, hv, rfl, ?_⟩
    · rw [get, hm, Recency.lookup, miss]; rfl
    · simp [Recency.touch, miss]
  | some it =>
    obtain ⟨n, hn, rfl, rfl, hd⟩ := deref_mapped hv hm
    have hit := entries_find hv hn
    refine ⟨c.splice n, ?_, splice_valid hv hn n.val, rfl, ?_⟩
    · simp [get, hm, hd, Recency.lookup, hit]
    · rw [Recency.touch, hit]
      exact entries_splice hv hn n.val

/-- `put` is defined, inserts the binding, returns the key it pushes out (or the
empty string) and deletes the object that was bound before. -/
theorem put_spec {c : Cache V} (hv : c.Valid) (url : Bytes) (value : V) :
    ∃ c', c.put url value = some
        ⟨(Recency.evicted c.capacity url c.entries).getD [], Recency.lookup url c.entries, c'⟩ ∧
      c'.Valid ∧ c'.capacity = c.capacity ∧
      c'.entries = Recency.insert c.capacity url value c.entries := by
  cases hm : c.map url with
  | some it =>
    obtain ⟨n, hn, rfl, rfl, hd⟩ := deref_mapped hv hm
    have hit := entries_find hv hn
    have hk : n.key ∈ Recency.keys c.entries := Recency.mem_keys_iff.mpr ⟨_, hit⟩
    refine ⟨c.splice { n with val := value }, ?_, splice_valid hv hn value, rfl, ?_⟩
    · simp [put, hm, hd, Recency.evicted, hk, Recency.lookup, hit]
    · rw [entries_splice hv hn value, Recency.insert, if_pos hk]
  | none =>
    have hk := (map_none_iff hv).mp hm
    have hk' : url ∉ Recency.keys c.entries := keys_eq c ▸ hk
    have unbound : Recency.lookup url c.entries = none := Recency.lookup_eq_none.mpr hk'
    by_cases full : c.respList.length = c.capacity
    · obtain ⟨k, c₁, hp, hlast, hv₁, he, hcap, room⟩ := popBack_spec hv full
      have hk₁ : url ∉ c₁.keys := by
        rw [keys_eq, he, Recency.keys, List.map_dropLast]
        intro h
        exact hk' (List.dropLast_subset _ h)
      refine ⟨c₁.emplaceFront url value, ?_, emplaceFront_valid hv₁ value room hk₁, hcap, ?_⟩
      · rw [keys_eq] at hlast
        simp [put, hm, full, hp, Recency.evicted, hk', unbound, entries_length, hlast]
      · rw [Recency.insert, if_neg hk', entries_length, if_pos full, ← he]
        rfl
    · have room : c.respList.length < c.capacity := lt_of_le_of_ne hv.bounded full
      refine ⟨c.emplaceFront url value, ?_, emplaceFront_valid hv value room hk, rfl, ?_⟩
      · simp [put, hm, full, Recency.evicted, hk', unbound, entries_length]
      · rw [Recency.insert, if_neg hk', entries_length, if_neg full]
        rfl

theorem find_spec {c : Cache V} (hv : c.Valid) (url : Bytes) :
    c.find url = some (Recency.lookup url c.entries) := by
  cases hm : c.map url with
  | none =>
    have hk : url ∉ Recency.keys c.entries := keys_eq c ▸ (map_none_iff hv).mp hm
    rw [Recency.lookup_eq_none.mpr hk, find, hm]
  | some it =>
    obtain ⟨n, hn, rfl, rfl, hd⟩ := deref_mapped hv hm
    simp [find, hm, hd, Recency.lookup, entries_find hv hn]

end Cache

/-! ## Valid caches -/

/-- A size a cache can be made with. -/
abbrev Capacity := { n : Nat // 1 ≤ n }

/-- A cache with its representation invariant; its operations are total. -/
structure LruCache (V : Type) extends Cache V where
  valid : toCache.Valid

namespace LruCache

def new (size : Capacity) : LruCache V := ⟨.new size, Cache.new_valid size.2⟩

theorem get_valid {c : LruCache V} {url : Bytes} {r : Option V} {c' : Cache V}
    (h : c.toCache.get url = some (r, c')) : c'.Valid := by
  obtain ⟨_, hg, hv, _, _⟩ := Cache.get_spec c.valid url
  rw [hg] at h
  cases h
  exact hv

theorem get_defined (c : LruCache V) (url : Bytes) : c.toCache.get url ≠ none := by
  obtain ⟨_, hg, _⟩ := Cache.get_spec c.valid url
  simp [hg]

theorem put_valid {c : LruCache V} {url : Bytes} {value : V} {r : PutResult V}
    (h : c.toCache.put url value = some r) : r.cache.Valid := by
  obtain ⟨_, hp, hv, _, _⟩ := Cache.put_spec c.valid url value
  rw [hp] at h
  cases h
  exact hv

theorem put_defined (c : LruCache V) (url : Bytes) (value : V) : c.toCache.put url value ≠ none := by
  obtain ⟨_, hp, _⟩ := Cache.put_spec c.valid url value
  simp [hp]

def get (c : LruCache V) (url : Bytes) : Option V × LruCache V :=
  match h : c.toCache.get url with
  | some (r, c') => (r, ⟨c', get_valid h⟩)
  | none => absurd h (c.get_defined url)

/-- The returned string, the deleted object and the new cache. -/
def put (c : LruCache V) (url : Bytes) (value : V) : Bytes × Option V × LruCache V :=
  match h : c.toCache.put url value with
  | some r => (r.ans, r.deleted, ⟨r.cache, put_valid h⟩)
  | none => absurd h (c.put_defined url value)

/-- What a key is bound to. -/
def lookup (c : LruCache V) (url : Bytes) : Option V := Recency.lookup url c.entries

theorem get_spec (c : LruCache V) (url : Bytes) :
    (c.get url).1 = c.lookup url ∧ (c.get url).2.capacity = c.capacity ∧
      (c.get url).2.entries = Recency.touch url c.entries := by
  obtain ⟨c', hg, _, hcap, he⟩ := Cache.get_spec c.valid url
  unfold get
  split
  · next r c'' h =>
    rw [hg] at h
    cases h
    exact ⟨rfl, hcap, he⟩
  · next h => exact absurd h (c.get_defined url)

theorem put_spec (c : LruCache V) (url : Bytes) (value : V) :
    (c.put url value).1 = (Recency.evicted c.capacity url c.entries).getD [] ∧
      (c.put url value).2.1 = c.lookup url ∧
      (c.put url value).2.2.capacity = c.capacity ∧
      (c.put url value).2.2.entries = Recency.insert c.capacity url value c.entries := by
  obtain ⟨c', hp, _, hcap, he⟩ := Cache.put_spec c.valid url value
  unfold put
  split
  · next r h =>
    rw [hp] at h
    cases h
    exact ⟨rfl, rfl, hcap, he⟩
  · next h => exact absurd h (c.put_defined url value)

theorem find_eq (c : LruCache V) (url : Bytes) : c.find url = some (c.lookup url) :=
  Cache.find_spec c.valid url

theorem nodup (c : LruCache V) : (Recency.keys c.entries).Nodup :=
  c.toCache.keys_eq ▸ c.valid.keysNodup

@[simp] theorem lookup_new (size : Capacity) (url : Bytes) :
    (new size : LruCache V).lookup url = none := rfl

@[simp] theorem get_fst (c : LruCache V) (url : Bytes) : (c.get url).1 = c.lookup url :=
  (c.get_spec url).1

/-- `get` changes no binding. -/
@[simp] theorem lookup_get (c : LruCache V) (url j : Bytes) :
    (c.get url).2.lookup j = c.lookup j := by
  rw [lookup, (c.get_spec url).2.2, Recency.lookup_touch, lookup]

@[simp] theorem put_deleted (c : LruCache V) (url : Bytes) (value : V) :
    (c.put url value).2.1 = c.lookup url := (c.put_spec url value).2.1

@[simp] theorem lookup_put_self (c : LruCache V) (url : Bytes) (value : V) :
    (c.put url value).2.2.lookup url = some value := by
  rw [lookup, (c.put_spec url value).2.2.2, Recency.lookup_insert_self]

/-- A binding for another key is the old one, or gone with the evicted key. -/
theorem lookup_put_ne (c : LruCache V) {url j : Bytes} (value : V) (h : j ≠ url) :
    (c.put url value).2.2.lookup j =
      if Recency.evicted c.capacity url c.entries = some j then none else c.lookup j := by
  rw [lookup, (c.put_spec url value).2.2.2]
  split_ifs with he
  · exact Recency.lookup_insert_evicted c.nodup he
  · exact Recency.lookup_insert_ne h he

/-- What `put` leaves bound was bound before or is the new binding. -/
theorem lookup_put_cases {c : LruCache V} {url j : Bytes} {value v : V}
    (h : (c.put url value).2.2.lookup j = some v) :
    j = url ∧ v = value ∨ j ≠ url ∧ c.lookup j = some v := by
  by_cases e : j = url
  · subst e
    rw [lookup_put_self] at h
    exact .inl ⟨rfl, (Option.some.inj h).symm⟩
  · rw [lookup_put_ne c value e] at h
    split_ifs at h
    exact .inr ⟨e, h⟩

end LruCache

end HttpProxy
