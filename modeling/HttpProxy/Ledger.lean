import HttpProxy.Base.Holding
import HttpProxy.Base.Run
import HttpProxy.Objects

/-!
# The ledger of response objects

`made` reads off a run's inputs the bytes it makes an object from, and `Settles` says
whether the run deletes that object or stores it without an eviction. Where it does not,
the run `Leaks`: it leaves an object that no entry of the cache refers to.
-/

namespace HttpProxy

/-! ## Runs -/

inductive Method where
  | get
  | post

/-- One accepted request of either method, with the world its run meets. -/
structure Turn where
  method : Method
  req : AcceptedRequest
  world : World

def Turn.run (j : Turn) : M Unit :=
  match j.method with
  | .get => proxyGET j.req.toHttpRequest
  | .post => proxyPOST j.req.toHttpRequest

/-- The state after the run of one turn, normal or by exception. -/
def St.turn (s : St) (j : Turn) : St := finalSt (j.run (s.enter j.world))

/-- The objects that the list refers to, front to back. -/
def LruCache.addresses (c : LruCache Ref) : List Nat := c.entries.map fun e => e.2.addr

/-- The ledger holds the objects in the list, each under one key. -/
def St.Accounted (s : St) : Prop := Holding.Balanced s.ledger s.cache.addresses

/-- The bytes a run makes its first object from, if it makes one. -/
def made (s : St) (j : Turn) : Option Bytes :=
  if j.world.connect = .connected then
    match j.method, s.cache.lookup j.req.uri with
    | .get, some resp =>
      if revalidates j.req.toHttpRequest resp.obj j.world.now then
        match (takeRecv 65536 j.world.server).1 with
        | .data reply => some reply
        | .fail => none
      else none
    | _, _ => fetchMakes j.req.toHttpRequest j.world
  else none

/-- Where the run deletes an object like this, or stores it with nothing evicted. -/
def Settles (s : St) (j : Turn) (r : HttpResponse) : Prop :=
  match j.method, s.cache.lookup j.req.uri with
  | .post, _ => True
  | .get, some _ => r.statusCode = 200
  | .get, none =>
    r.statusCode = 200 ∧ r.noStore = false ∧ s.cache.entries.length ≠ s.cache.capacity

/-- The run makes an object that does not parse or that it does not settle. -/
def Leaks (s : St) (j : Turn) : Prop :=
  ∃ bytes, made s j = some bytes ∧
    ∀ r, parseResponse j.world.libc bytes = .ok (some r) → ¬ Settles s j r

section
variable {s : St} {j : Turn} {bytes : Bytes}

theorem not_leaks_of_none (h : made s j = none) : ¬ Leaks s j := by
  rintro ⟨bytes, hm, _⟩
  cases h.symm.trans hm

theorem leaks_iff {r : HttpResponse} (h : made s j = some bytes)
    (parsed : parseResponse j.world.libc bytes = .ok (some r)) : Leaks s j ↔ ¬ Settles s j r := by
  constructor
  · rintro ⟨bytes', hm, unsettled⟩
    cases h.symm.trans hm
    exact unsettled r parsed
  · intro unsettled
    refine ⟨bytes, h, fun r' hp => ?_⟩
    cases parsed.symm.trans hp
    exact unsettled

theorem leaks_of_unparsed (h : made s j = some bytes)
    (unparsed : ∀ r, parseResponse j.world.libc bytes ≠ .ok (some r)) : Leaks s j :=
  ⟨bytes, h, fun r hp => absurd hp (unparsed r)⟩

end

/-! ## What the list refers to -/

namespace LruCache

variable {c : LruCache Ref} {url : Bytes}

theorem addresses_get (c : LruCache Ref) (url : Bytes) :
    (c.get url).2.addresses.Perm c.addresses := by
  unfold addresses
  rw [(c.get_spec url).2.2]
  exact (Recency.touch_perm c.nodup url).map _

theorem length_get (c : LruCache Ref) (url : Bytes) :
    (c.get url).2.entries.length = c.entries.length := by
  rw [(c.get_spec url).2.2]
  exact (Recency.touch_perm c.nodup url).length_eq

theorem addresses_put_room (h : c.lookup url = none) (room : c.entries.length ≠ c.capacity)
    (r : Ref) : (c.put url r).2.2.addresses = r.addr :: c.addresses := by
  have absent := Recency.lookup_eq_none.mp h
  rw [addresses, (c.put_spec url r).2.2.2, Recency.insert, if_neg absent, if_neg room]
  rfl

/-- A new key in a full list takes the place of the last object. -/
theorem addresses_put_full (h : c.lookup url = none) (full : c.entries.length = c.capacity)
    (r : Ref) : ∃ old rest, c.addresses.Perm (old :: rest) ∧
      (c.put url r).2.2.addresses = r.addr :: rest := by
  have absent := Recency.lookup_eq_none.mp h
  rcases c.entries.eq_nil_or_concat with empty | ⟨front, last, split⟩
  · have := c.valid.pos
    rw [empty, List.length_nil] at full
    omega
  · rw [List.concat_eq_append] at split
    refine ⟨last.2.addr, front.map fun e => e.2.addr, ?_, ?_⟩
    · rw [addresses, split, List.map_append]
      exact List.perm_append_singleton _ _
    · rw [addresses, (c.put_spec url r).2.2.2, Recency.insert, if_neg absent, if_pos full, split,
        List.dropLast_concat]
      rfl

/-- A key that is bound changes its object. -/
theorem addresses_put_bound {old : Ref} (h : c.lookup url = some old) (r : Ref) :
    ∃ rest, c.addresses.Perm (old.addr :: rest) ∧
      (c.put url r).2.2.addresses = r.addr :: rest := by
  have bound := Recency.mem_of_lookup h
  have present : url ∈ Recency.keys c.entries := List.mem_map_of_mem bound
  refine ⟨(c.entries.filter (·.1 ≠ url)).map fun e => e.2.addr, ?_, ?_⟩
  · exact (Recency.perm_cons_filter c.nodup bound).map _
  · rw [addresses, (c.put_spec url r).2.2.2, Recency.insert, if_pos present]
    rfl

end LruCache

/-! ## What a run does to the ledger -/

/-- What a run may do to the objects: nothing in the end, lose those it made, add one to
the list, add one and forget another, or put one in the place of another. -/
inductive Turned (s : St) (j : Turn) (t : St) : Prop
  | same (safe : ¬ Leaks s j) (next : s.next ≤ t.next)
      (ledger : ∀ a, a ∈ t.ledger ↔ a ∈ s.ledger) (held : t.cache.addresses.Perm s.cache.addresses)
  | lost (leaks : Leaks s j) (more : s.next < t.next)
      (ledger : ∀ a, a ∈ t.ledger ↔ a ∈ s.ledger ∨ s.next ≤ a ∧ a < t.next)
      (held : t.cache.addresses.Perm s.cache.addresses)
  | added (safe : ¬ Leaks s j) (one : t.next = s.next + 1)
      (ledger : t.ledger = insert s.next s.ledger)
      (held : t.cache.addresses.Perm (s.next :: s.cache.addresses))
  | evicted {old : Nat} {rest : List Nat} (leaks : Leaks s j) (one : t.next = s.next + 1)
      (ledger : t.ledger = insert s.next s.ledger)
      (before : s.cache.addresses.Perm (old :: rest))
      (held : t.cache.addresses = s.next :: rest)
  | replaced {old : Nat} {rest : List Nat} (safe : ¬ Leaks s j) (one : t.next = s.next + 1)
      (ledger : t.ledger = (insert s.next s.ledger).erase old)
      (before : s.cache.addresses.Perm (old :: rest))
      (held : t.cache.addresses = s.next :: rest)

/-- All objects have addresses that were handed out. -/
def St.Bounded (s : St) : Prop := ∀ a ∈ s.ledger, a < s.next

theorem Turned.bounded {s t : St} {j : Turn} (h : Turned s j t) (hs : s.Bounded) : t.Bounded := by
  intro a ha
  have newer {b : Nat} (hb : b ∈ insert s.next s.ledger) : b < s.next + 1 := by
    rcases Finset.mem_insert.mp hb with rfl | hb
    · exact Nat.lt_succ_self _
    · exact Nat.lt_succ_of_lt (hs b hb)
  cases h with
  | same _ next ledger => exact (hs a ((ledger a).mp ha)).trans_le next
  | lost _ more ledger =>
    rcases (ledger a).mp ha with ha | ha
    · exact (hs a ha).trans more
    · exact ha.2
  | added _ one ledger => exact one ▸ newer (ledger ▸ ha)
  | evicted _ one ledger => exact one ▸ newer (ledger ▸ ha)
  | replaced _ one ledger =>
    rw [ledger] at ha
    exact one ▸ newer (Finset.mem_of_mem_erase ha)

/-- From an accounted state just the runs that leak lead to one that is not. -/
theorem Turned.accounted_after {s t : St} {j : Turn} (h : Turned s j t) (hs : s.Bounded)
    (acc : s.Accounted) : t.Accounted ↔ ¬ Leaks s j := by
  have fresh : s.next ∉ s.ledger := fun hm => Nat.lt_irrefl _ (hs _ hm)
  have unheld : s.next ∉ s.cache.addresses := fun hm => fresh ((acc.listed _).mpr hm)
  cases h with
  | same safe _ ledger held =>
    have ledgers : t.ledger = s.ledger := Finset.ext ledger
    refine iff_of_true ?_ safe
    rw [St.Accounted, ledgers]
    exact acc.perm held.symm
  | lost leaks more ledger held =>
    refine iff_of_false ?_ (not_not.mpr leaks)
    have exist : s.next ∈ t.ledger := (ledger _).mpr (.inr ⟨Nat.le_refl _, more⟩)
    exact Holding.not_balanced_of_unheld exist fun hm => unheld (held.mem_iff.mp hm)
  | added safe _ ledger held =>
    refine iff_of_true ?_ safe
    rw [St.Accounted, ledger]
    exact (acc.keep fresh).perm held.symm
  | evicted leaks _ ledger before held =>
    -- the evicted object still exists, and its entry was the only one for it
    have moved := acc.perm before
    refine iff_of_false ?_ (not_not.mpr leaks)
    have live := (moved.listed _).mpr List.mem_cons_self
    apply Holding.not_balanced_of_unheld (ledger ▸ Finset.mem_insert_of_mem live)
    rw [held, List.mem_cons, not_or]
    exact ⟨fun e => fresh (e ▸ live), (List.nodup_cons.mp moved.once).1⟩
  | replaced safe _ ledger before held =>
    refine iff_of_true ?_ safe
    rw [St.Accounted, ledger, held]
    exact (acc.perm before).replace fresh

/-! ## Each run -/

/-- A run of `s` starts at `u`: the objects are those of `s`. -/
structure Starts (s u : St) : Prop where
  next : u.next = s.next
  ledger : u.ledger = s.ledger
  held : u.cache.addresses.Perm s.cache.addresses

section
variable {s u t : St} {j : Turn} {evs : List Event}

theorem starts_enter (s : St) (w : World) : Starts s (s.enter w) := ⟨rfl, rfl, .refl _⟩

theorem starts_touched (s : St) (w : World) (url : Bytes) : Starts s ((s.enter w).touched url) :=
  ⟨rfl, rfl, LruCache.addresses_get s.cache url⟩

theorem Starts.after (h : Starts s u) (w : World) (evs : List Event) : Starts s (u.after w evs) :=
  ⟨h.next, h.ledger, h.held⟩

theorem Starts.same (h : Starts s u) (frame : Frame u t evs) (same : t.next = u.next)
    (safe : ¬ Leaks s j) : Turned s j t := by
  refine .same safe (by rw [same, h.next]) (fun a => ?_) (by rw [frame.cache]; exact h.held)
  have none : ¬ (u.next ≤ a ∧ a < t.next) := by omega
  rw [frame.ledger, h.ledger]
  exact or_iff_left none

theorem Starts.lost (h : Starts s u) (frame : Frame u t evs) (more : u.next < t.next)
    (leaks : Leaks s j) : Turned s j t := by
  refine .lost leaks (h.next ▸ more) (fun a => ?_) (by rw [frame.cache]; exact h.held)
  rw [frame.ledger, h.ledger, h.next]

/-- With one new object in its frame, the ledger is known. -/
theorem Starts.ledger_of_one (h : Starts s u) (frame : Frame u t evs) (one : t.next = u.next + 1) :
    t.ledger = insert s.next s.ledger := by
  ext a
  have only : u.next ≤ a ∧ a < t.next ↔ a = s.next := by
    rw [one, h.next]
    omega
  rw [frame.ledger, only, h.ledger, Finset.mem_insert, or_comm]

/-- Where NULL is returned or an exception leaves, nothing follows. -/
theorem finalSt_bind_null {x : M (Option Ref)} {f : Option Ref → M Unit}
    {res : EStateM.Result Exn St (Option Ref)} (run : x u = res)
    (null : ∀ r t, res ≠ .ok (some r) t) (skip : ∀ t, f none t = .ok () t) :
    finalSt ((x >>= f) u) = finalSt res := by
  cases res with
  | error e t => rw [bind_error _ run]; rfl
  | ok o t =>
    cases o with
    | none => rw [bind_ok _ run, skip]; rfl
    | some r => exact absurd rfl (null r t)

end

/-- After a fetch, it remains to show what comes of an object that parses. -/
theorem fetch_turned {s u : St} {j : Turn} {f : Option Ref → M Unit} (start : Starts s u)
    (world : u.world = j.world) (fetches : made s j = fetchMakes j.req.toHttpRequest j.world)
    (skip : ∀ t, f none t = .ok () t)
    (object : ∀ bytes obj t evs, made s j = some bytes →
      parseResponse j.world.libc bytes = .ok (some obj) → Frame u t evs → t.next = u.next + 1 →
      Turned s j (finalSt (f (some ⟨u.next, obj⟩) t))) (evs : List Event) :
    Turned s j (finalSt ((proxyFetch j.req.toHttpRequest >>= f) (u.after u.world evs))) := by
  have makes := Makes.after (World.Agrees.refl _) evs (proxyFetch_makes j.req (u.after u.world evs))
  rw [after_world, world, ← fetches, ← world] at makes
  generalize hrun : proxyFetch j.req.toHttpRequest (u.after u.world evs) = res at makes
  generalize hm : made s j = what at makes
  cases makes with
  | nothing frame same null =>
    rw [finalSt_bind_null hrun null skip]
    exact start.same frame same (not_leaks_of_none hm)
  | unparsed unparsed frame more null =>
    rw [finalSt_bind_null hrun null skip]
    exact start.lost frame more (leaks_of_unparsed hm (world ▸ unparsed))
  | object parsed frame one =>
    rw [bind_ok _ hrun]
    exact object _ _ _ _ hm (world ▸ parsed) frame one

theorem proxyPOST_turned {s : St} {j : Turn} (hs : s.Bounded) (post : j.method = .post) :
    Turned s j (s.turn j) := by
  have start := starts_enter s j.world
  have run : s.turn j = finalSt (proxyPOST j.req.toHttpRequest (s.enter j.world)) := by
    rw [St.turn, Turn.run, post]
  rw [run]
  by_cases hc : j.world.connect = .connected
  · have fetches : made s j = fetchMakes j.req.toHttpRequest j.world := by
      rw [made, if_pos hc, post]
    rw [proxyPOST, bind_ok _ (connectServer_ok _ (s := s.enter j.world) hc)]
    apply fetch_turned start rfl fetches fun _ => rfl
    -- the object that was made is deleted
    intro bytes obj t evs hm parsed frame one
    have settles : Settles s j obj := by
      rw [Settles, post]
      trivial
    have safe : ¬ Leaks s j := fun h => (leaks_iff hm parsed).mp h settles
    have fresh : s.next ∉ s.ledger := fun h => Nat.lt_irrefl _ (hs _ h)
    have ledger : t.ledger.erase s.next = s.ledger := by
      rw [start.ledger_of_one frame one]
      exact Finset.erase_insert fresh
    have held : t.cache.addresses.Perm s.cache.addresses := by
      rw [frame.cache]
      exact .refl _
    exact .same safe (Nat.le_of_lt (one ▸ Nat.lt_succ_self _))
      (fun a => iff_of_eq (congrArg (a ∈ ·) ledger)) held
  · obtain ⟨w, evs, hrun, hw, _⟩ := connectServer_fails j.req.toHttpRequest (s := s.enter j.world) hc
    have none : made s j = none := by rw [made, if_neg hc]
    rw [proxyPOST, bind_error _ hrun]
    exact start.same (Frame.after _ hw evs) rfl (not_leaks_of_none none)

/-- The store site of a miss: a list that is full evicts. -/
theorem storeFetched_turned {s t : St} {j : Turn} {bytes : Bytes} {obj : HttpResponse}
    (miss : s.cache.lookup j.req.uri = none) (hm : made s j = some bytes)
    (parsed : parseResponse j.world.libc bytes = .ok (some obj))
    (settles : Settles s j obj ↔ obj.statusCode = 200 ∧ obj.noStore = false ∧
      s.cache.entries.length ≠ s.cache.capacity)
    (h200 : obj.statusCode = 200) (allowed : obj.noStore = false)
    (opened : t.cache = (s.cache.get j.req.uri).2) (ledger : t.ledger = insert s.next s.ledger)
    (one : t.next = s.next + 1) :
    Turned s j (finalSt (storeFetched j.req.uri ⟨s.next, obj⟩ t)) := by
  have leaks := leaks_iff hm parsed
  have absent : (s.cache.get j.req.uri).2.lookup j.req.uri = none := by
    rw [LruCache.lookup_get, miss]
  have size : (s.cache.get j.req.uri).2.entries.length = (s.cache.get j.req.uri).2.capacity ↔
      s.cache.entries.length = s.cache.capacity := by
    rw [LruCache.length_get, (s.cache.get_spec j.req.uri).2.1]
  have moved := LruCache.addresses_get s.cache j.req.uri
  have kept : (t.store j.req.uri ⟨s.next, obj⟩).ledger = insert s.next s.ledger := by
    rw [St.store, opened, absent]
    exact ledger
  obtain ⟨evs, hput, _⟩ := storeFetched_store j.req.uri (r := ⟨s.next, obj⟩) h200 allowed t
  have final : finalSt (storeFetched j.req.uri ⟨s.next, obj⟩ t) =
      (t.store j.req.uri ⟨s.next, obj⟩).after t.world evs := congrArg finalSt hput
  rw [final]
  by_cases full : s.cache.entries.length = s.cache.capacity
  · have unsettled : ¬ Settles s j obj := fun h => (settles.mp h).2.2 full
    obtain ⟨old, rest, before, held⟩ :=
      LruCache.addresses_put_full absent (size.mpr full) ⟨s.next, obj⟩
    rw [← opened] at held
    exact .evicted (leaks.mpr unsettled) one kept (moved.symm.trans before) held
  · have safe : ¬ Leaks s j := fun h => leaks.mp h (settles.mpr ⟨h200, allowed, full⟩)
    have held := LruCache.addresses_put_room absent (mt size.mp full) ⟨s.next, obj⟩
    rw [← opened] at held
    have more : (t.store j.req.uri ⟨s.next, obj⟩).cache.addresses.Perm
        (s.next :: s.cache.addresses) := by
      rw [store_cache, held, opened]
      exact moved.cons _
    exact .added safe one kept more

/-- A miss fetches, and stores what it may store. -/
theorem proxyGET_miss_turned {s : St} {j : Turn} (get : j.method = .get)
    (miss : s.cache.lookup j.req.uri = none) : Turned s j (s.turn j) := by
  have start := starts_touched s j.world j.req.uri
  have run : s.turn j =
      finalSt (serveMiss j.req.toHttpRequest ((s.enter j.world).touched j.req.uri)) := by
    rw [St.turn, Turn.run, get]
    exact congrArg finalSt (proxyGET_miss miss)
  rw [run]
  by_cases hc : j.world.connect = .connected
  · have fetches : made s j = fetchMakes j.req.toHttpRequest j.world := by
      rw [made, if_pos hc, get, miss]
    rw [serveMiss_connected _ (s := (s.enter j.world).touched j.req.uri) hc]
    apply fetch_turned start rfl fetches fun _ => rfl
    intro bytes obj t evs hm parsed frame one
    have settles : Settles s j obj ↔ obj.statusCode = 200 ∧ obj.noStore = false ∧
        s.cache.entries.length ≠ s.cache.capacity := by
      rw [Settles, get, miss]
    by_cases store : obj.statusCode = 200 ∧ obj.noStore = false
    · have ledger := start.ledger_of_one frame one
      exact storeFetched_turned miss hm parsed settles store.1 store.2 frame.cache ledger one
    · obtain ⟨evs', hskip, _⟩ := storeFetched_skip j.req.uri (r := ⟨s.next, obj⟩) store t
      have unsettled : ¬ Settles s j obj := fun h => store ⟨(settles.mp h).1, (settles.mp h).2.1⟩
      have after := frame.trans (Frame.after t (World.Agrees.refl _) evs')
      have more : s.next < t.next := by
        rw [one]
        exact Nat.lt_succ_self _
      exact (congrArg finalSt hskip) ▸
        start.lost after more ((leaks_iff hm parsed).mpr unsettled)
  · obtain ⟨w, evs, hrun, hw, _⟩ :=
      serveMiss_refused j.req.toHttpRequest (s := (s.enter j.world).touched j.req.uri) hc
    have none : made s j = none := by rw [made, if_neg hc]
    rw [hrun]
    exact start.same (Frame.after _ hw _) rfl (not_leaks_of_none none)

/-- The reply to a validation becomes an object, and stays if it is a 200. -/
theorem validationReply_turned {s u : St} {j : Turn} {resp old : Ref} {reply : Bytes}
    (start : Starts s u) (libc : u.world.libc = j.world.libc)
    (hit : u.cache.lookup j.req.uri = some old) (hm : made s j = some reply)
    (settles : ∀ r, Settles s j r ↔ r.statusCode = 200) :
    Turned s j (finalSt (validationReply resp j.req.uri reply u)) := by
  have alloc := Frame.alloc u
  have one : u.alloc.next = u.next + 1 := rfl
  have ends := validationReply_answered resp j.req.uri reply u
  generalize validationReply resp j.req.uri reply u = res at ends
  have passed {r : HttpResponse} {w : World} {evs : List Event}
      (parsed : parseResponse u.world.libc reply = .ok (some r)) (other : r.statusCode ≠ 200)
      (hw : u.world.Agrees w) : Turned s j (u.alloc.after w evs) := by
    rw [libc] at parsed
    have leaks := (leaks_iff hm parsed).mpr fun h => other ((settles r).mp h)
    exact start.lost (alloc.trans (Frame.after u.alloc hw evs)) (Nat.lt_succ_self _) leaks
  cases ends with
  | threw h =>
    rw [libc] at h
    exact start.lost alloc (Nat.lt_succ_self _) (leaks_of_unparsed hm (by simp [h]))
  | failed h =>
    rw [libc] at h
    exact start.lost alloc (Nat.lt_succ_self _) (leaks_of_unparsed hm (by simp [h]))
  | notModified parsed h304 hw => exact passed parsed (by omega) hw
  | passed parsed h200 _ hw => exact passed parsed h200 hw
  | @renewed r w evs parsed h200 hw =>
    rw [libc] at parsed
    have safe : ¬ Leaks s j := fun h => (leaks_iff hm parsed).mp h ((settles r).mpr h200)
    obtain ⟨rest, before, held⟩ := LruCache.addresses_put_bound hit ⟨u.next, r⟩
    have ledger : (u.alloc.store j.req.uri ⟨u.next, r⟩).ledger =
        (insert s.next s.ledger).erase old.addr := by
      rw [St.store, alloc_cache, hit, start.ledger_of_one alloc one]
    rw [start.next] at held
    exact .replaced safe (one.trans (by rw [start.next])) ledger (start.held.symm.trans before)
      (start.next ▸ held)

/-- A hit that is fresh makes nothing; a stale one may read a reply. -/
theorem proxyGET_hit_turned {s : St} {j : Turn} {resp : Ref} (get : j.method = .get)
    (hit : s.cache.lookup j.req.uri = some resp) : Turned s j (s.turn j) := by
  have start := starts_touched s j.world j.req.uri
  have run : s.turn j =
      finalSt (serveHit j.req.toHttpRequest resp ((s.enter j.world).touched j.req.uri)) := by
    rw [St.turn, Turn.run, get]
    exact congrArg finalSt (proxyGET_hit hit)
  have hit' : ((s.enter j.world).touched j.req.uri).cache.lookup j.req.uri = some resp := by
    simpa using hit
  rw [run]
  cases stale : revalidates j.req.toHttpRequest resp.obj j.world.now with
  | false =>
    obtain ⟨w, evs, hrun, hw, _⟩ := serveHit_fresh hit' stale
    have none : made s j = none := by simp [made, get, hit, stale]
    rw [hrun]
    exact start.same (Frame.after _ hw _) rfl (not_leaks_of_none none)
  | true =>
    have revalidated := serveHit_revalidated hit' stale
    generalize serveHit j.req.toHttpRequest resp ((s.enter j.world).touched j.req.uri) = res
      at revalidated
    cases revalidated with
    | refused hc hw =>
      have none : made s j = none := if_neg hc
      exact start.same (Frame.after _ hw _) rfl (not_leaks_of_none none)
    | unread _ hw _ failed =>
      have none : made s j = none := by
        have failed' : (takeRecv 65536 j.world.server).1 = .fail := failed
        simp [made, get, hit, failed']
      exact start.same (Frame.after _ hw _) rfl (not_leaks_of_none none)
    | @answered w front reply hc hw _ ht =>
      have hm : made s j = some reply := by
        have ht' : takeRecv 65536 j.world.server = (.data reply, w.server) := ht
        have hc' : j.world.connect = .connected := hc
        simp [made, get, hit, stale, ht', hc']
      have settles (r : HttpResponse) : Settles s j r ↔ r.statusCode = 200 := by
        rw [Settles, get, hit]
      exact validationReply_turned (start.after w front) hw.libc hit' hm settles

theorem turn_turned (s : St) (j : Turn) (hs : s.Bounded) : Turned s j (s.turn j) := by
  cases method : j.method with
  | post => exact proxyPOST_turned hs method
  | get =>
    cases h : s.cache.lookup j.req.uri with
    | none => exact proxyGET_miss_turned method h
    | some resp => exact proxyGET_hit_turned method h

/-- From the empty cache, the ledger is accounted for after each run just as long as no run
leaks. -/
theorem accounted_iff (size : Capacity) (js : List Turn) :
    (∀ p, p <+: js → (p.foldl St.turn (.initial size)).Accounted) ↔
      ∀ p j, p ++ [j] <+: js → ¬ Leaks (p.foldl St.turn (.initial size)) j := by
  have empty : (St.initial size).Accounted := Holding.Balanced.empty
  exact Run.good_iff St.Bounded (by simp [St.Bounded, St.initial]) empty
    (fun s j hs => (turn_turned s j hs).bounded hs)
    (fun s j hs acc => (turn_turned s j hs).accounted_after hs acc) js

/-- A page that is not there. -/
def notThere : Turn :=
  ⟨.get, .home, { server := [.data (str "HTTP/1.1 404 Not Found\r\n\r\n")] }⟩

/-- The 404 is an object that no entry refers to. -/
theorem notThere_unaccounted : ¬ ((St.initial ⟨1, Nat.le_refl 1⟩).turn notThere).Accounted := by
  have exist : 0 ∈ ((St.initial ⟨1, Nat.le_refl 1⟩).turn notThere).ledger := by decide +kernel
  have unheld : 0 ∉ ((St.initial ⟨1, Nat.le_refl 1⟩).turn notThere).cache.addresses := by
    decide +kernel
  exact Holding.not_balanced_of_unheld exist unheld

end HttpProxy
