import HttpProxy.Accepted
import HttpProxy.Get

/-!
# Sequences of runs over one cache

A `Job` is one GET request with the world its run meets. `serve` runs it from the
cache and heap the runs before it left; `serveAll` runs a list of them. A binding that
was not there before a run was stored by it (`serve_lookup`), and `Stores` says all
that a run which stores must have done.
-/

namespace HttpProxy

structure Job where
  req : HttpRequest
  world : World

/-- The job of a request that was accepted. -/
def AcceptedRequest.job (q : AcceptedRequest) (w : World) : Job := ⟨q.toHttpRequest, w⟩

theorem AcceptedRequest.nonempty (r : AcceptedRequest) : r.lineSend ≠ [] :=
  r.lineSend_eq ▸ r.line_ne_nil

theorem AcceptedRequest.fits (r : AcceptedRequest) : FitsInt r.lineSend.length := by
  have := r.segment
  rw [r.lineSend_eq, FitsInt]
  omega

/-- An accepted request has bytes to send, and not too many for an `int`. -/
theorem AcceptedRequest.sendable (r : AcceptedRequest) : 0 < intLen r.lineSend.length := by
  rw [intLen_of_fits r.fits]
  exact List.length_pos_of_ne_nil r.nonempty

/-- The state a run begins in: what is shared, a world of its own, and no events yet. -/
def St.enter (s : St) (w : World) : St := { s with world := w, trace := [] }

/-- The state after the run of one job, normal or by exception. -/
def serve (s : St) (j : Job) : St := finalSt (proxyGET j.req (s.enter j.world))

def serveAll (s : St) (js : List Job) : St := js.foldl serve s

/-- An empty cache and an empty heap. -/
def St.initial (size : Capacity) : St := ⟨.new size, ∅, 0, {}, []⟩

@[simp] theorem enter_cache (s : St) (w : World) : (s.enter w).cache = s.cache := rfl
@[simp] theorem enter_next (s : St) (w : World) : (s.enter w).next = s.next := rfl
@[simp] theorem enter_world (s : St) (w : World) : (s.enter w).world = w := rfl
@[simp] theorem enter_trace (s : St) (w : World) : (s.enter w).trace = [] := rfl

@[simp] theorem serveAll_nil (s : St) : serveAll s [] = s := rfl

@[simp] theorem serveAll_singleton (s : St) (j : Job) : serveAll s [j] = serve s j := rfl

@[simp] theorem serveAll_snoc (s : St) (js : List Job) (j : Job) :
    serveAll s (js ++ [j]) = serve (serveAll s js) j := by
  simp [serveAll]

/-- The run of `j` from `s` ends by binding the key of its request to `r`. -/
structure Stores (s : St) (j : Job) (r : Ref) : Prop where
  cache : (serve s j).cache = ((s.cache.get j.req.uri).2.put j.req.uri r).2.2
  parsed : parseResponse j.world.libc (bytesFrom .server (serve s j).trace) = .ok (some r.obj)
  fresh : s.next ≤ r.addr ∧ r.addr < (serve s j).next
  ok : r.obj.statusCode = 200
  connected : j.world.connect = .connected
  contact : connecting j.req <:+: (serve s j).trace
  site : StoreSite j.req (s.enter j.world) (bytesFrom .server (serve s j).trace) r.obj

/-- A run changes no binding or stores one object. -/
theorem serve_cases (s : St) (j : Job) :
    (∀ u, (serve s j).cache.lookup u = s.cache.lookup u) ∨ ∃ r, Stores s j r := by
  obtain ⟨t, evs, h⟩ := proxyGET_run j.req (s.enter j.world)
  generalize hres : proxyGET j.req (s.enter j.world) = res at h
  have hserve : serve s j = finalSt res := by rw [serve, hres]
  cases h with
  | kept final frame =>
    refine .inl fun u => ?_
    rw [hserve, final, frame.cache]
    simp
  | @stored r u frame final parsed fresh ok connected contact _ site =>
    rw [finalSt_ok] at hserve
    have htrace : t.trace = evs := by rw [final, store_trace, frame.trace]; simp
    have site' : StoreSite j.req (s.enter j.world) (bytesFrom .server evs) r.obj := by
      cases site with
      | fetched absent allowed segment => exact .fetched (by simpa using absent) allowed segment
      | renewed present stale segment => exact .renewed (by simpa using present) stale segment
    refine .inr ⟨r, ?_, ?_, ?_, ok, connected, ?_, ?_⟩
    · rw [hserve, final, store_cache, frame.cache]
      rfl
    · rw [hserve, htrace]
      exact parsed
    · rw [hserve]
      exact fresh
    · rw [hserve, htrace]
      exact contact
    · rw [hserve, htrace]
      exact site'

/-- A binding after a run was there before it, or the run stored it. -/
theorem serve_lookup {s : St} {j : Job} {u : Bytes} {r : Ref}
    (h : (serve s j).cache.lookup u = some r) :
    s.cache.lookup u = some r ∨ u = j.req.uri ∧ Stores s j r := by
  rcases serve_cases s j with hkept | ⟨r', hstores⟩
  · exact .inl (hkept u ▸ h)
  · rw [hstores.cache] at h
    rcases LruCache.lookup_put_cases h with ⟨hu, rfl⟩ | ⟨_, hold⟩
    · exact .inr ⟨hu, hstores⟩
    · exact .inl (by simpa using hold)

end HttpProxy
