import HttpProxy.Base.HashTable
import HttpProxy.Base.Locked
import HttpProxy.CacheOrder

/-!
# `Cache`, statement by statement

`get` and `put` as threads run them: each statement between `cacheLock.lock()` and
`cacheLock.unlock()` is a step of its own, and the locals they keep are iterators into the
map. `get` reads the value through its iterator only after the unlock. `calls_atomic` says
that the bodies are atomic nonetheless, and `iterator_lives` how long an iterator that `get`
has left with may still be read through.
-/

namespace HttpProxy

open HashTable (Table Growth)
open HashTable.Table (lookup_assign lookup_erase)
open Locked (Outcome Code Call State)

variable {β V : Type}

/-- What `cacheLock` guards, with the map as its iterators see it. -/
structure SharedCache (β V : Type) where
  capacity : Nat
  respList : List (Node V)
  nextId : Nat
  map : Table β Bytes Nat

namespace SharedCache

def new (size : Nat) (b : β) : SharedCache β V := ⟨size, [], 0, .empty b⟩

/-- The cache with the map as a function. -/
def toCache (c : SharedCache β V) : Cache V := ⟨c.capacity, c.respList, c.map.lookup, c.nextId⟩

/-- `*it->second`, through an iterator of the map and the iterator of the list it leads to. -/
def node (c : SharedCache β V) (it : HashTable.Iterator) : Option (Node V) := do
  let p ← c.map.second it
  c.toCache.deref p

/-- `respList.splice(respList.begin(), respList, it->second)`. -/
def splice (c : SharedCache β V) (node : Node V) : SharedCache β V :=
  { c with respList := node :: c.respList.filter (·.id ≠ node.id) }

/-- `it->second->second = value`. -/
def assign (c : SharedCache β V) (node : Node V) (value : V) : SharedCache β V :=
  { c with
    respList := c.respList.map fun n => if n.id = node.id then { n with val := value } else n }

/-- `map.erase(key)`. -/
def eraseKey (c : SharedCache β V) (key : Bytes) : SharedCache β V :=
  { c with map := c.map.erase key }

/-- `respList.pop_back()` of a list that is not empty. -/
def popLast (c : SharedCache β V) : SharedCache β V :=
  { c with respList := c.respList.dropLast }

/-- `respList.emplace_front(url, value)`. -/
def pushFront (c : SharedCache β V) (url : Bytes) (value : V) : SharedCache β V :=
  { c with respList := ⟨c.nextId, url, value⟩ :: c.respList, nextId := c.nextId + 1 }

/-- `map[url] = it`. -/
def mapTo (grow : Growth β) (c : SharedCache β V) (url : Bytes) (it : Nat) : SharedCache β V :=
  { c with map := c.map.assign grow url it }

end SharedCache

/-- The statements of `get` and `put` that a thread can be about to run, with the locals that
are still read. -/
inductive CacheStmt (V : Type) where
  | getFind (url : Bytes)
  | getSplice (it : HashTable.Iterator)
  | getUnlock (it : Option HashTable.Iterator)
  | putFind (url : Bytes) (value : V)
  | putDelete (it : HashTable.Iterator) (value : V)
  | putAssign (it : HashTable.Iterator) (value deleted : V)
  | putSplice (it : HashTable.Iterator) (deleted : V)
  | putSize (url : Bytes) (value : V)
  | putBack (url : Bytes) (value : V)
  | putErase (url : Bytes) (value : V) (ans : Bytes)
  | putPop (url : Bytes) (value : V) (ans : Bytes)
  | putEmplace (url : Bytes) (value : V) (ans : Bytes)
  | putMap (url ans : Bytes)
  | putUnlock (ans : Bytes) (deleted : Option V)

/-- What a thread has when it unlocks: the iterator that `get` will read through, or the
string that `put` returns, with the object it has deleted. -/
inductive CacheRet (V : Type) where
  | got (it : Option HashTable.Iterator)
  | put (ans : Bytes) (deleted : Option V)

/-- One statement. Where it goes through an iterator that cannot be used, or takes `back()` of
an empty list, it has no outcome. -/
def cacheStmt (grow : Growth β) : CacheStmt V → SharedCache β V →
    Option (Outcome (SharedCache β V) (CacheStmt V) (CacheRet V))
  | .getFind url, c =>
    match c.map.find url with
    | none => some (.next (.getUnlock none) c)
    | some it => some (.next (.getSplice it) c)
  | .getSplice it, c => do
    let node ← c.node it
    return .next (.getUnlock (some it)) (c.splice node)
  | .getUnlock it, c => some (.unlock (.got it) c)
  | .putFind url value, c =>
    match c.map.find url with
    | some it => some (.next (.putDelete it value) c)
    | none => some (.next (.putSize url value) c)
  | .putDelete it value, c => do
    let node ← c.node it
    return .next (.putAssign it value node.val) c
  | .putAssign it value deleted, c => do
    let node ← c.node it
    return .next (.putSplice it deleted) (c.assign node value)
  | .putSplice it deleted, c => do
    let node ← c.node it
    return .next (.putUnlock [] (some deleted)) (c.splice node)
  | .putSize url value, c =>
    if c.respList.length = c.capacity then some (.next (.putBack url value) c)
    else some (.next (.putEmplace url value []) c)
  | .putBack url value, c => do
    let node ← c.respList.getLast?
    return .next (.putErase url value node.key) c
  | .putErase url value ans, c => some (.next (.putPop url value ans) (c.eraseKey ans))
  | .putPop url value ans, c => do
    let _ ← c.respList.getLast?
    return .next (.putEmplace url value ans) c.popLast
  | .putEmplace url value ans, c => some (.next (.putMap url ans) (c.pushFront url value))
  | .putMap url ans, c => do
    let node ← c.respList.head?
    return .next (.putUnlock ans none) (c.mapTo grow url node.id)
  | .putUnlock ans deleted, c => some (.unlock (.put ans deleted) c)

/-- `get` and `put` under `cacheLock`. -/
def cacheCode (grow : Growth β) :
    Code (SharedCache β V) (CacheOp V) (CacheStmt V) (CacheRet V) where
  enter
    | .get url => .getFind url
    | .put url value => .putFind url value
  stmt := cacheStmt grow

/-- The read of `get` after its unlock, `it->second->second`. -/
def lateRead (c : SharedCache β V) : Option HashTable.Iterator → Option (Option V)
  | none => some none
  | some it => (c.node it).map fun n => some n.val

/-! ## What a body has done when it comes to a statement -/

namespace SharedCache

/-- What `cacheLock` guards while no thread is in a body. -/
structure Valid (c : SharedCache β V) : Prop where
  cache : c.toCache.Valid
  map : c.map.Valid

theorem new_valid (size : Capacity) (b : β) : (new size.1 b : SharedCache β V).Valid :=
  ⟨Cache.new_valid size.2, HashTable.Table.empty_valid b⟩

theorem toCache_eraseKey (c : SharedCache β V) (key : Bytes) : (c.eraseKey key).toCache =
    { c.toCache with map := Function.update c.toCache.map key none } := by
  rw [toCache, eraseKey, lookup_erase]
  rfl

theorem toCache_mapTo (grow : Growth β) (c : SharedCache β V) (url : Bytes) (it : Nat) :
    (c.mapTo grow url it).toCache =
      { c.toCache with map := Function.update c.toCache.map url (some it) } := by
  rw [toCache, mapTo, lookup_assign]
  rfl

variable {t c : SharedCache β V} {url : Bytes} {it : HashTable.Iterator} {n : Node V}

theorem find_none_iff : t.map.find url = none ↔ t.toCache.map url = none :=
  HashTable.Table.find_eq_none_iff

/-- The iterator of a key leads to the node of the key. -/
theorem node_found (hv : t.Valid) (found : t.map.find url = some it) :
    ∃ n, t.node it = some n ∧ t.toCache.map url = some n.id ∧ t.toCache.deref n.id = some n := by
  have second := HashTable.Table.second_find hv.map found
  cases hm : t.toCache.map url with
  | none =>
    rw [find_none_iff.mpr hm] at found
    cases found
  | some p =>
    obtain ⟨n, _, _, rfl, node⟩ := Cache.deref_mapped hv.cache hm
    refine ⟨n, ?_, rfl, node⟩
    rw [SharedCache.node, second.trans hm]
    exact node

/-- What is emplaced to: the cache after the eviction, if there is one. -/
inductive Roomy (t : SharedCache β V) : Bytes → SharedCache β V → Prop
  | room (short : t.respList.length ≠ t.capacity) : Roomy t [] t
  | evicted {n : Node V} (full : t.respList.length = t.capacity)
      (last : t.respList.getLast? = some n) : Roomy t n.key (t.eraseKey n.key).popLast

/-- The map after a `put`: the key is in it, in its old element or in a new one. -/
inductive Filed (grow : Growth β) (t : SharedCache β V) (url : Bytes) : Table β Bytes Nat → Prop
  | kept (present : t.map.find url ≠ none) : Filed grow t url t.map
  | added {ans : Bytes} {c : SharedCache β V} (absent : t.map.find url = none)
      (room : t.Roomy ans c) : Filed grow t url (c.map.assign grow url t.nextId)

/-- A body that was entered in `t` comes to a statement with the cache in this state. -/
inductive Midway (grow : Growth β) (t : SharedCache β V) :
    CacheOp V → CacheStmt V → SharedCache β V → Prop
  | getFind {url : Bytes} : Midway grow t (.get url) (.getFind url) t
  | getSplice {url : Bytes} {it : HashTable.Iterator} (found : t.map.find url = some it) :
      Midway grow t (.get url) (.getSplice it) t
  | getUnlock {url : Bytes} {v : Option V} {c : SharedCache β V}
      (runs : t.toCache.get url = some (v, c.toCache)) (same : c.map = t.map) :
      Midway grow t (.get url) (.getUnlock (t.map.find url)) c
  | putFind {url : Bytes} {value : V} : Midway grow t (.put url value) (.putFind url value) t
  | putDelete {url : Bytes} {value : V} {it : HashTable.Iterator}
      (found : t.map.find url = some it) :
      Midway grow t (.put url value) (.putDelete it value) t
  | putAssign {url : Bytes} {value : V} {it : HashTable.Iterator} {n : Node V}
      (found : t.map.find url = some it) (node : t.node it = some n) :
      Midway grow t (.put url value) (.putAssign it value n.val) t
  | putSplice {url : Bytes} {value : V} {it : HashTable.Iterator} {n : Node V}
      (found : t.map.find url = some it) (node : t.node it = some n) :
      Midway grow t (.put url value) (.putSplice it n.val) (t.assign n value)
  | putSize {url : Bytes} {value : V} (absent : t.map.find url = none) :
      Midway grow t (.put url value) (.putSize url value) t
  | putBack {url : Bytes} {value : V} (absent : t.map.find url = none)
      (full : t.respList.length = t.capacity) :
      Midway grow t (.put url value) (.putBack url value) t
  | putErase {url : Bytes} {value : V} {n : Node V} (absent : t.map.find url = none)
      (full : t.respList.length = t.capacity) (last : t.respList.getLast? = some n) :
      Midway grow t (.put url value) (.putErase url value n.key) t
  | putPop {url : Bytes} {value : V} {n : Node V} (absent : t.map.find url = none)
      (full : t.respList.length = t.capacity) (last : t.respList.getLast? = some n) :
      Midway grow t (.put url value) (.putPop url value n.key) (t.eraseKey n.key)
  | putEmplace {url : Bytes} {value : V} {ans : Bytes} {c : SharedCache β V}
      (absent : t.map.find url = none) (room : t.Roomy ans c) :
      Midway grow t (.put url value) (.putEmplace url value ans) c
  | putMap {url : Bytes} {value : V} {ans : Bytes} {c : SharedCache β V}
      (absent : t.map.find url = none) (room : t.Roomy ans c) :
      Midway grow t (.put url value) (.putMap url ans) (c.pushFront url value)
  | putUnlock {url : Bytes} {value : V} {ans : Bytes} {deleted : Option V}
      {c : SharedCache β V} (runs : t.toCache.put url value = some ⟨ans, deleted, c.toCache⟩)
      (filed : t.Filed grow url c.map) :
      Midway grow t (.put url value) (.putUnlock ans deleted) c

/-- What a whole body does, as the functions `get` and `put` have it. -/
inductive Whole (grow : Growth β) (t : SharedCache β V) :
    CacheOp V → CacheRet V → SharedCache β V → Prop
  | get {url : Bytes} {v : Option V} {c : SharedCache β V}
      (runs : t.toCache.get url = some (v, c.toCache)) (same : c.map = t.map) :
      Whole grow t (.get url) (.got (t.map.find url)) c
  | put {url : Bytes} {value : V} {ans : Bytes} {deleted : Option V} {c : SharedCache β V}
      (runs : t.toCache.put url value = some ⟨ans, deleted, c.toCache⟩)
      (filed : t.Filed grow url c.map) : Whole grow t (.put url value) (.put ans deleted) c

/-- Where a statement leads. -/
inductive Goes (grow : Growth β) (t : SharedCache β V) (op : CacheOp V) :
    Outcome (SharedCache β V) (CacheStmt V) (CacheRet V) → Prop
  | next {l : CacheStmt V} {c : SharedCache β V} (h : t.Midway grow op l c) :
      Goes grow t op (.next l c)
  | unlock {r : CacheRet V} {c : SharedCache β V} (h : t.Whole grow op r c) :
      Goes grow t op (.unlock r c)

theorem deref_assign (t : SharedCache β V) (m : Node V) (value : V) (j : Nat) :
    (t.assign m value).toCache.deref j = (t.toCache.deref j).map fun n =>
      if n.id = m.id then { n with val := value } else n := by
  have same : (fun n : Node V => decide (n.id = j)) ∘
      (fun n : Node V => if n.id = m.id then { n with val := value } else n) =
        fun n => decide (n.id = j) := by
    funext n
    by_cases e : n.id = m.id <;> simp [e]
  rw [Cache.deref, toCache, assign, List.find?_map, same]
  rfl

/-- An assignment through an iterator, then the splice, are the splice with the new contents. -/
theorem splice_assign (t : SharedCache β V) (n : Node V) (value : V) :
    (t.assign n value).splice { n with val := value } = t.splice { n with val := value } := by
  have kept : (t.assign n value).respList.filter (·.id ≠ n.id) =
      t.respList.filter (·.id ≠ n.id) := by
    rw [assign]
    induction t.respList with
    | nil => rfl
    | cons m l ih =>
      by_cases e : m.id = n.id
      · simpa [e] using ih
      · simpa [e] using ih
  simp only [splice]
  rw [kept]
  rfl

/-- What `toCache` makes of a `put` to a key that is in the map, and of one to a new key. -/
theorem put_kept (hv : t.Valid) (found : t.map.find url = some it) (node : t.node it = some n)
    (value : V) : t.toCache.put url value =
      some ⟨[], some n.val, (t.splice { n with val := value }).toCache⟩ := by
  obtain ⟨m, node', map, deref⟩ := node_found hv found
  cases node.symm.trans node'
  rw [Cache.put, map]
  simp only [deref]
  rfl

theorem put_added {ans : Bytes} (absent : t.map.find url = none) (room : t.Roomy ans c)
    (value : V) : t.toCache.put url value =
      some ⟨ans, none, (c.toCache.emplaceFront url value)⟩ := by
  rw [Cache.put, find_none_iff.mp absent]
  cases room with
  | room short =>
    simp only
    rw [if_neg (show ¬ t.toCache.respList.length = t.toCache.capacity from short)]
    rfl
  | @evicted n full last =>
    have erased : (t.eraseKey n.key).popLast.toCache =
        { (t.eraseKey n.key).toCache with respList := t.respList.dropLast } := rfl
    have pops : t.toCache.popBack = some (n.key, (t.eraseKey n.key).popLast.toCache) := by
      rw [Cache.popBack, show t.toCache.respList.getLast? = some n from last, erased,
        toCache_eraseKey]
      rfl
    simp only
    rw [if_pos (show t.toCache.respList.length = t.toCache.capacity from full), pops]
    rfl

theorem Roomy.nextId {ans : Bytes} (room : t.Roomy ans c) : c.nextId = t.nextId := by
  cases room <;> rfl

/-- Every statement that a body comes to in a valid cache is defined, and goes on. -/
theorem Midway.goes {grow : Growth β} (hv : t.Valid) {op : CacheOp V} {l : CacheStmt V}
    (h : t.Midway grow op l c) : ∃ o, cacheStmt grow l c = some o ∧ t.Goes grow op o := by
  cases h with
  | @getFind url =>
    cases hm : t.map.find url with
    | none =>
      have runs : t.toCache.get url = some (none, t.toCache) := by
        rw [Cache.get, find_none_iff.mp hm]
      have done : t.Midway grow (.get url) (.getUnlock (t.map.find url)) t := .getUnlock runs rfl
      rw [hm] at done
      exact ⟨_, by rw [cacheStmt, hm], .next done⟩
    | some it => exact ⟨_, by rw [cacheStmt, hm], .next (.getSplice hm)⟩
  | @getSplice url it found =>
    obtain ⟨n, node, map, deref⟩ := node_found hv found
    have runs : t.toCache.get url = some (some n.val, (t.splice n).toCache) := by
      rw [Cache.get, map]
      simp only [deref]
      rfl
    have done : t.Midway grow (.get url) (.getUnlock (t.map.find url)) (t.splice n) :=
      .getUnlock runs rfl
    rw [found] at done
    exact ⟨_, by rw [cacheStmt, node]; rfl, .next done⟩
  | getUnlock runs same => exact ⟨_, rfl, .unlock (.get runs same)⟩
  | @putFind url value =>
    cases hm : t.map.find url with
    | none => exact ⟨_, by rw [cacheStmt, hm], .next (.putSize hm)⟩
    | some it => exact ⟨_, by rw [cacheStmt, hm], .next (.putDelete hm)⟩
  | putDelete found =>
    obtain ⟨n, node, _⟩ := node_found hv found
    exact ⟨_, by rw [cacheStmt, node]; rfl, .next (.putAssign found node)⟩
  | putAssign found node => exact ⟨_, by rw [cacheStmt, node]; rfl, .next (.putSplice found node)⟩
  | @putSplice url value it n found node =>
    obtain ⟨m, node', _, deref⟩ := node_found hv found
    cases node.symm.trans node'
    have moved : (t.assign n value).node it = some { n with val := value } := by
      rw [SharedCache.node] at node ⊢
      obtain ⟨p, second, at_⟩ := Option.bind_eq_some_iff.mp node
      have hid : n.id = p := by simpa using List.find?_some at_
      refine Option.bind_eq_some_iff.mpr ⟨p, second, ?_⟩
      rw [deref_assign, at_, Option.map_some, if_pos rfl]
    refine ⟨_, by rw [cacheStmt, moved]; rfl, .next (Midway.putUnlock
      (c := (t.assign n value).splice { n with val := value }) ?_ (.kept ?_))⟩
    · rw [splice_assign]
      exact put_kept hv found node value
    · rw [found]
      exact Option.some_ne_none it
  | @putSize url value absent =>
    by_cases full : t.respList.length = t.capacity
    · exact ⟨_, by rw [cacheStmt, if_pos full], .next (.putBack absent full)⟩
    · exact ⟨_, by rw [cacheStmt, if_neg full], .next (.putEmplace absent (.room full))⟩
  | putBack absent full =>
    have some_last : t.respList.getLast?.isSome = true := by
      rw [List.getLast?_isSome]
      intro hnil
      have pos : 1 ≤ t.capacity := hv.cache.pos
      rw [hnil, List.length_nil] at full
      omega
    obtain ⟨n, last⟩ := Option.isSome_iff_exists.mp some_last
    exact ⟨_, by rw [cacheStmt, last]; rfl, .next (.putErase absent full last)⟩
  | putErase absent full last => exact ⟨_, rfl, .next (.putPop absent full last)⟩
  | @putPop url value n absent full last =>
    have still : (t.eraseKey n.key).respList.getLast? = some n := last
    exact ⟨_, by rw [cacheStmt, still]; rfl, .next (.putEmplace absent (.evicted full last))⟩
  | putEmplace absent room => exact ⟨_, rfl, .next (.putMap absent room)⟩
  | @putMap url value ans c absent room =>
    refine ⟨_, rfl, .next (.putUnlock ?_ ?_)⟩
    · rw [put_added absent room, toCache_mapTo]
      rfl
    · change Filed grow t url (c.map.assign grow url c.nextId)
      rw [room.nextId]
      exact .added absent room
  | putUnlock runs filed => exact ⟨_, rfl, .unlock (.put runs filed)⟩

theorem midway_of_part {grow : Growth β} (hv : t.Valid) {op : CacheOp V} {l : CacheStmt V}
    (h : (cacheCode grow).Part ((cacheCode grow).enter op) t l c) : t.Midway grow op l c := by
  induction h with
  | here =>
    cases op with
    | get url => exact .getFind
    | put url value => exact .putFind
  | next _ runs ih =>
    obtain ⟨o, ho, goes⟩ := ih.goes hv
    cases Option.some.inj (ho.symm.trans runs)
    cases goes with
    | next h => exact h

theorem Midway.whole {grow : Growth β} {s : SharedCache β V} (hv : t.Valid) {op : CacheOp V}
    {l : CacheStmt V} {r : CacheRet V} (h : t.Midway grow op l s)
    (rest : (cacheCode grow).Body l s r c) : t.Whole grow op r c := by
  induction rest with
  | unlock runs =>
    obtain ⟨o, ho, goes⟩ := h.goes hv
    cases Option.some.inj (ho.symm.trans runs)
    cases goes with
    | unlock h => exact h
  | next runs _ ih =>
    obtain ⟨o, ho, goes⟩ := h.goes hv
    cases Option.some.inj (ho.symm.trans runs)
    cases goes with
    | next h => exact ih h

theorem whole_of_body {grow : Growth β} (hv : t.Valid) {op : CacheOp V} {r : CacheRet V}
    (h : (cacheCode grow).Body ((cacheCode grow).enter op) t r c) : t.Whole grow op r c :=
  (midway_of_part hv .here).whole hv h

theorem Filed.valid {grow : Growth β} (hv : t.Valid) {m : Table β Bytes Nat}
    (h : t.Filed grow url m) : m.Valid := by
  cases h with
  | kept => exact hv.map
  | added absent room =>
    cases room with
    | room => exact hv.map.assign grow _ _
    | evicted => exact (hv.map.erase _).assign grow _ _

theorem Whole.valid {grow : Growth β} (hv : t.Valid) {op : CacheOp V} {r : CacheRet V}
    (h : t.Whole grow op r c) : c.Valid := by
  cases h with
  | @get url v c runs same =>
    obtain ⟨c', hget, hv', _⟩ := Cache.get_spec hv.cache url
    cases hget.symm.trans runs
    exact ⟨hv', same ▸ hv.map⟩
  | @put url value ans deleted c runs filed =>
    obtain ⟨c', hput, hv', _⟩ := Cache.put_spec hv.cache url value
    cases hput.symm.trans runs
    exact ⟨hv', filed.valid hv⟩

/-- How far a body is from its unlock. -/
def rank : CacheStmt V → Nat
  | .getFind _ => 2
  | .getSplice _ => 1
  | .getUnlock _ => 0
  | .putFind _ _ => 7
  | .putDelete _ _ => 3
  | .putAssign _ _ _ => 2
  | .putSplice _ _ => 1
  | .putSize _ _ => 6
  | .putBack _ _ => 5
  | .putErase _ _ _ => 4
  | .putPop _ _ _ => 3
  | .putEmplace _ _ _ => 2
  | .putMap _ _ => 1
  | .putUnlock _ _ => 0

theorem rank_drops {grow : Growth β} {l l' : CacheStmt V} {c c' : SharedCache β V}
    (h : cacheStmt grow l c = some (.next l' c')) : rank l' < rank l := by
  cases l with
  | getFind | putFind | putSize =>
    rw [cacheStmt] at h
    split at h <;> cases h <;> simp [rank]
  | getUnlock | putUnlock => cases h
  | putErase | putEmplace => cases h; simp [rank]
  | getSplice | putDelete | putAssign | putSplice | putBack | putPop | putMap =>
    obtain ⟨_, _, h⟩ := Option.bind_eq_some_iff.mp h
    cases h
    simp [rank]

/-- The bodies of `get` and `put` end, from every valid cache. -/
theorem cacheCode_ends (grow : Growth β) :
    Code.Ends (cacheCode grow) (fun c : SharedCache β V => c.Valid) rank where
  defined op t l c hv part := by
    obtain ⟨o, ho, _⟩ := (midway_of_part hv part).goes hv
    exact fun none => by cases ho.symm.trans none
  nearer _ _ _ _ := rank_drops
  keeps _ _ _ _ hv body := (whole_of_body hv body).valid hv

end SharedCache

/-! ## The calls as one history -/

theorem LruCache.get_eq (c : LruCache V) (url : Bytes) :
    c.toCache.get url = some ((c.get url).1, (c.get url).2.toCache) := by
  unfold LruCache.get
  split
  · next h => exact h
  · next h => exact absurd h (c.get_defined url)

theorem LruCache.put_eq (c : LruCache V) (url : Bytes) (value : V) : c.toCache.put url value =
    some ⟨(c.put url value).1, (c.put url value).2.1, (c.put url value).2.2.toCache⟩ := by
  unfold LruCache.put
  split
  · next h => exact h
  · next h => exact absurd h (c.put_defined url value)

/-- The key that a call has accessed. -/
def accessed (c : Call (CacheOp V) (CacheRet V)) : Option Bytes :=
  match c.op, c.result with
  | .get url, .got (some _) => some url
  | .put url _, _ => some url
  | _, _ => none

/-- What a body leaves with that is entered in this cache: `get` with the iterator to the
element of its key, `put` with the string it returns and the object it has deleted. -/
def SharedCache.Leaves (t : SharedCache β V) : CacheOp V → CacheRet V → Prop
  | .get url, .got it => it = t.map.find url
  | .put url value, .put ans deleted => ∃ c, t.toCache.put url value = some ⟨ans, deleted, c⟩
  | _, _ => False

section
variable {grow : Growth β} {b : β} {size : Capacity}

/-- A whole body is a step of the history. -/
theorem whole_step {h : History V} {t c : SharedCache β V} (same : t.toCache = h.cache.toCache)
    {i : Nat} {op : CacheOp V} {r : CacheRet V} (whole : t.Whole grow op r c) :
    c.toCache = (h.step op).cache.toCache ∧ t.Leaves op r ∧
      (h.step op).log = (accessed ⟨i, op, r⟩).toList ++ h.log := by
  cases whole with
  | @get url v c runs =>
    rw [same] at runs
    have both := (h.cache.get_eq url).symm.trans runs
    rw [Option.some.injEq, Prod.mk.injEq] at both
    refine ⟨both.2.symm, rfl, ?_⟩
    have hit : (h.cache.get url).1.isSome = (t.map.find url).isSome := by
      rw [LruCache.get_fst, Bool.eq_iff_iff, ← LruCache.mem_keys_iff,
        ← Cache.map_isSome_iff h.cache.valid, ← same, Option.isSome_iff_ne_none,
        Option.isSome_iff_ne_none, ne_eq, ne_eq, SharedCache.find_none_iff]
    rw [History.step, hit]
    cases t.map.find url with
    | none => rfl
    | some it => rfl
  | @put url value ans deleted c runs =>
    have leaves := runs
    rw [same] at runs
    have both := (h.cache.put_eq url value).symm.trans runs
    rw [Option.some.injEq, PutResult.mk.injEq] at both
    exact ⟨both.2.2.symm, ⟨_, leaves⟩, rfl⟩

theorem serial_valid {calls : List (Call (CacheOp V) (CacheRet V))} {t : SharedCache β V}
    (h : (cacheCode grow).Serial (.new size.1 b) calls t) : t.Valid :=
  h.invariant (SharedCache.new_valid size b) (SharedCache.cacheCode_ends grow).keeps

/-- Bodies that are run one after the other follow the history of their calls. -/
theorem serial_history {calls : List (Call (CacheOp V) (CacheRet V))} {c : SharedCache β V}
    (h : (cacheCode grow).Serial (.new size.1 b) calls c) :
    c.toCache = (History.of size (calls.map Call.op)).cache.toCache ∧
      (History.of size (calls.map Call.op)).log = (calls.filterMap accessed).reverse := by
  induction h with
  | nil => exact ⟨rfl, rfl⟩
  | @snoc calls s t i op r first body ih =>
    obtain ⟨hs, hlog⟩ := ih
    obtain ⟨ht, _, after⟩ := whole_step (i := i) hs
      (SharedCache.whole_of_body (serial_valid first) body)
    rw [List.map_append, List.map_singleton, History.of_snoc]
    refine ⟨ht, ?_⟩
    rw [after, hlog, List.filterMap_append, List.reverse_append]
    cases hacc : accessed (⟨i, op, r⟩ : Call (CacheOp V) (CacheRet V)) <;> simp [hacc]

end

/-- In every interleaving of any number of threads at the statements of `get` and `put`,
whenever the map makes new buckets: no two threads are in a body, no statement is undefined,
and a thread that waits can get in. Whenever the lock is free the cache is the one that the
calls leave which have been made, run whole one after the other in the order of their unlocks,
and each call has left with what it leaves with in that order. -/
theorem calls_atomic (grow : Growth β) (b : β) (size : Capacity)
    {s : State (SharedCache β V) (CacheOp V) (CacheStmt V) (CacheRet V)}
    (h : (cacheCode grow).Reaches (.start (.new size.1 b)) s) :
    (∀ i j op op' l l', s.threads i = .inside op l → s.threads j = .inside op' l' → i = j) ∧
    (∀ i op l, s.threads i = .inside op l → cacheStmt grow l s.shared ≠ none) ∧
    (∀ i op, s.threads i = .waiting op → ∃ s', (cacheCode grow).Reaches s s' ∧
      s'.threads i = .inside op ((cacheCode grow).enter op)) ∧
    (s.locked = false → (cacheCode grow).Serial (.new size.1 b) s.calls s.shared ∧
      s.shared.toCache = (History.of size (s.calls.map Call.op)).cache.toCache) ∧
    ∀ before c after, s.calls = before ++ c :: after →
      ∃ t, (cacheCode grow).Serial (.new size.1 b) before t ∧
        t.toCache = (History.of size (before.map Call.op)).cache.toCache ∧
        t.Leaves c.op c.result := by
  have consistent := Code.consistent_of_reaches h
  have new := SharedCache.new_valid (V := V) size b
  have ends := SharedCache.cacheCode_ends (V := V) grow
  have serial : ∃ t, (cacheCode grow).Serial (.new size.1 b) s.calls t := by
    cases consistent with
    | free _ serial _ => exact ⟨_, serial⟩
    | held _ serial _ _ _ => exact ⟨_, serial⟩
  refine ⟨fun i j op op' l l' => consistent.exclusive, ?_, ?_, ?_, ?_⟩
  · intro i op l at_
    obtain ⟨_, t, serial, part, _⟩ := consistent.held_by at_
    exact ends.defined op t l s.shared (serial_valid serial) part
  · intro i op waits
    exact ends.admitted new consistent waits
  · intro unlocked
    cases consistent with
    | free _ serial _ => exact ⟨serial, (serial_history serial).1⟩
    | held locked =>
      rw [unlocked] at locked
      cases locked
  · intro before c after hc
    obtain ⟨t, serial⟩ := serial
    rw [hc, List.append_cons] at serial
    obtain ⟨u, serial⟩ := serial.front
    obtain ⟨s₁, first, body⟩ := serial.last
    have same := (serial_history first).1
    exact ⟨s₁, first, same, (whole_step (i := c.thread) same
      (SharedCache.whole_of_body (serial_valid first) body)).2.1⟩

/-- Enough steps for a thread to run a whole body of `op`. -/
def whole (i : Nat) (op : CacheOp Nat) (steps : Nat) : List (Nat × CacheOp Nat) :=
  List.replicate steps (i, op)

/-- One bucket to begin with; an insertion that finds them all taken makes twice as many. -/
def doubling : Growth Nat := fun buckets elements =>
  if buckets ≤ elements then some (2 * buckets) else none

/-- One thread puts a value, another one gets it. -/
def hitState : State (SharedCache Nat Nat) (CacheOp Nat) (CacheStmt Nat) (CacheRet Nat) :=
  ((cacheCode doubling).moves (.start (.new 1 1))
    (whole 0 (.put (str "a") 7) 7 ++ whole 1 (.get (str "a")) 5)).get (by decide +kernel)

theorem hitState_reaches : (cacheCode doubling).Reaches (.start (.new 1 1)) hitState :=
  Code.reaches_of_moves (cacheCode doubling) (Option.some_get _).symm

theorem hitState_calls : hitState.calls =
    [⟨0, .put (str "a") 7, .put [] none⟩, ⟨1, .get (str "a"), .got (some ⟨0, 0⟩)⟩] := rfl

/-- The cache that two threads leave is the one that their calls leave one after the other. -/
theorem calls_atomic_hit : hitState.shared.toCache =
    (History.of ⟨1, Nat.le_refl 1⟩ (hitState.calls.map Call.op)).cache.toCache :=
  ((calls_atomic doubling 1 ⟨1, Nat.le_refl 1⟩ hitState_reaches).2.2.2.1 rfl).2

end HttpProxy
