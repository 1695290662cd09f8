import HttpProxy.Base.Run
import HttpProxy.Runs

/-!
# What a run does to the cache

`proxyGET_mapping`: one run leaves the mapping alone or binds the key of its request
to a 200, pushing out at most the oldest key. `clean_iff`: a list of runs keeps
responses with `no-store` or `private` out of the cache just when none of them
revalidates an entry with such a response; that store site does not look at
`no_store`.
-/

namespace HttpProxy

namespace LruCache

def Full {V : Type} (c : LruCache V) : Prop := c.respList.length = c.capacity

/-- The key at the back of the list. -/
def oldest {V : Type} (c : LruCache V) : Option Bytes := c.keys.getLast?

theorem evicted_get {V : Type} (c : LruCache V) (url j : Bytes) :
    Recency.evicted (c.get url).2.capacity url (c.get url).2.entries = some j ↔
      c.lookup url = none ∧ c.Full ∧ c.oldest = some j := by
  obtain ⟨_, hcap, hent⟩ := c.get_spec url
  rw [hcap, hent, lookup, Recency.lookup_eq_none]
  by_cases hk : url ∈ Recency.keys c.entries
  · have still : url ∈ Recency.keys (Recency.touch url c.entries) := by
      rw [← Recency.lookup_isSome, Recency.lookup_touch, Recency.lookup_isSome]
      exact hk
    simp [Recency.evicted, hk, still]
  · have same : Recency.touch url c.entries = c.entries := by
      have none : c.entries.find? (·.1 = url) = none := by
        cases hf : c.entries.find? (·.1 = url) with
        | none => rfl
        | some e => exact absurd (Recency.mem_keys_iff.mpr ⟨e, hf⟩) hk
      simp [Recency.touch, none]
    rw [same, Recency.evicted, if_neg hk, Cache.entries_length, oldest, Cache.keys_eq, Full]
    simp [hk]

end LruCache

/-- One run of `proxyGET`: the whole mapping is as before, or the run returned normally,
sent no error line, parsed all it received as a 200 and bound its key to that; then
another key is lost only if the key was new, the cache full and that other key the
oldest. -/
theorem proxyGET_mapping (req : HttpRequest) (s : St) :
    ∃ t evs, finalSt (proxyGET req s) = t ∧ t.trace = s.trace ++ evs ∧
      ((∀ j, t.cache.lookup j = s.cache.lookup j) ∨
        proxyGET req s = .ok () t ∧ Unrefused evs ∧
          ∃ r : Ref, parseResponse s.world.libc (bytesFrom .server evs) = .ok (some r.obj) ∧
            r.obj.statusCode = 200 ∧ t.cache.lookup req.uri = some r ∧
            ∀ j, j ≠ req.uri → t.cache.lookup j = s.cache.lookup j ∨
              t.cache.lookup j = none ∧ s.cache.lookup req.uri = none ∧ s.cache.Full ∧
                s.cache.oldest = some j) := by
  obtain ⟨t, evs, h⟩ := proxyGET_run req s
  generalize hres : proxyGET req s = res at h
  cases h with
  | kept final frame =>
    refine ⟨t, evs, final, frame.trace, .inl fun j => ?_⟩
    rw [frame.cache]
    simp
  | @stored r u frame final parsed fresh ok connected contact unrefused site =>
    have cache : t.cache = ((s.cache.get req.uri).2.put req.uri r).2.2 := by
      rw [final, store_cache, frame.cache, touched_cache]
    refine ⟨t, evs, rfl, by rw [final, store_trace, frame.trace, touched_trace],
      .inr ⟨rfl, unrefused, r, parsed, ok, by rw [cache, LruCache.lookup_put_self], fun j hj => ?_⟩⟩
    rw [cache, LruCache.lookup_put_ne _ r hj]
    split_ifs with he
    · exact .inr ⟨rfl, (s.cache.evicted_get req.uri j).mp he⟩
    · exact .inl (by simp)

/-! ## no-store and private -/

/-- Neither the flag nor a header it is read from forbids to store this response. -/
def Storable (r : HttpResponse) : Prop :=
  r.noStore = false ∧ ∀ it ∈ headersOf r.lineRecv, ¬ Mentions storeForbidding it

def Clean (s : St) : Prop := ∀ u r, s.cache.lookup u = some r → Storable r.obj

theorem parsed_storable_iff {libc : Libc} {bytes : Bytes} {r : HttpResponse}
    (h : parseResponse libc bytes = .ok (some r)) : Storable r ↔ r.noStore = false := by
  obtain ⟨p, hp, hl, _, hs, _⟩ := parseResponse_ok h
  have headers : headersOf r.lineRecv = p.msg.headers := by rw [hl, headersOf_parsed hp]
  constructor
  · intro hstore
    exact hstore.1
  · intro hno
    refine ⟨hno, fun it hit hm => ?_⟩
    rw [headers] at hit
    rw [hs.mpr ⟨it, hit, hm⟩] at hno
    cases hno

/-- The run finds its key, goes to the server and is answered with a 200 whose
Cache-Control says no-store or private. -/
def RenewsForbidden (s : St) (j : Job) : Prop :=
  ∃ resp reply rest r, s.cache.lookup j.req.uri = some resp ∧
    revalidates j.req resp.obj j.world.now = true ∧ j.world.connect = .connected ∧
    takeRecv 65536 j.world.server = (.data reply, rest) ∧
    parseResponse j.world.libc reply = .ok (some r) ∧ r.statusCode = 200 ∧
    ∃ it ∈ headersOf reply, Mentions storeForbidding it

theorem serve_clean_iff (s : St) (j : Job) (h : Clean s) :
    Clean (serve s j) ↔ ¬ RenewsForbidden s j := by
  constructor
  · rintro hclean ⟨resp, reply, rest, r, hl, hv, hc, ht, hp, h200, it, hit, hm⟩
    have hcache := proxyGET_renews (s := s.enter j.world) hl hv hc ht hp h200
    have bound : (serve s j).cache.lookup j.req.uri = some ⟨s.next, r⟩ := by
      rw [serve, hcache, LruCache.lookup_put_self]
      rfl
    obtain ⟨_, _, hline, _⟩ := parseResponse_ok hp
    exact (hclean _ _ bound).2 it (hline.symm ▸ hit) hm
  · intro hbad u r hu
    rcases serve_lookup hu with hold | ⟨rfl, hstores⟩
    · exact h u r hold
    · rw [parsed_storable_iff hstores.parsed]
      cases hstores.site with
      | fetched _ allowed _ => exact allowed
      | @renewed resp rest present stale segment =>
        by_contra hno
        have hflag : r.obj.noStore = true := by simpa using hno
        obtain ⟨p, hp, _, _, hs, _⟩ := parseResponse_ok hstores.parsed
        obtain ⟨it, hit, hm⟩ := hs.mp hflag
        refine hbad ⟨resp, _, rest, r.obj, present, stale, hstores.connected, segment,
          hstores.parsed, hstores.ok, it, ?_, hm⟩
        rw [headersOf_parsed hp]
        exact hit

/-- Responses with no-store or private stay out of the cache throughout a list of runs
just when no run of it renews an entry with one. -/
theorem clean_iff (size : Capacity) (js : List Job) :
    (∀ p, p <+: js → Clean (serveAll (.initial size) p)) ↔
      ∀ p j, p ++ [j] <+: js → ¬ RenewsForbidden (serveAll (.initial size) p) j :=
  Run.good_iff (fun _ => True) trivial (fun u r hu => by cases hu) (fun _ _ _ => trivial)
    (fun s j _ => serve_clean_iff s j) js

/-- A response that is to be revalidated at once, and a renewal that forbids to store it. -/
def renewedNoStore : List Job :=
  [⟨AcceptedRequest.home.toHttpRequest,
      { server := [.data (str "HTTP/1.1 200 OK\r\nCache-Control: no-cache\r\n\r\n")] }⟩,
    ⟨AcceptedRequest.home.toHttpRequest,
      { server := [.data (str "HTTP/1.1 200 OK\r\nCache-Control: no-store\r\n\r\n")] }⟩]

theorem renewedNoStore_unclean : ¬ Clean (serveAll (.initial ⟨1, Nat.le_refl 1⟩) renewedNoStore) := by
  intro h
  have stored : ((serveAll (.initial ⟨1, Nat.le_refl 1⟩) renewedNoStore).cache.lookup
      (str "h80/")).map (·.obj.noStore) = some true := by decide +kernel
  obtain ⟨r, hr, hflag⟩ := Option.map_eq_some_iff.mp stored
  rw [(h _ r hr).1] at hflag
  cases hflag

end HttpProxy
