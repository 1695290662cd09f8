import HttpProxy.Runs

/-!
# Where a cached response comes from

Every binding was stored by an earlier run, for a request with the same key, from the
server that request names (`binding_origin`). The key is host, port and target without
a mark between them, so it tells two requests apart only as far as `KeyTells` says, and
`provenance_iff` shows that nothing less will do.
-/

namespace HttpProxy

/-- The run of `k`, one of the runs `js` from a new cache, stored `r`: it looked up and
reached the server its request names, and `r` holds the bytes it got from there. -/
def ReceivedIn (size : Capacity) (js : List Job) (k : Job) (r : Ref) : Prop :=
  ∃ before, before ++ [k] <+: js ∧
    connecting k.req <:+: (serve (serveAll (.initial size) before) k).trace ∧
    r.obj.lineRecv = bytesFrom .server (serve (serveAll (.initial size) before) k).trace ∧
    (serveAll (.initial size) before).next ≤ r.addr ∧
    r.addr < (serve (serveAll (.initial size) before) k).next

theorem ReceivedIn.of_stores {size : Capacity} {js : List Job} {j : Job} {r : Ref}
    (h : Stores (serveAll (.initial size) js) j r) : ReceivedIn size (js ++ [j]) j r := by
  obtain ⟨_, _, hline, _⟩ := parseResponse_ok h.parsed
  exact ⟨js, List.prefix_rfl, h.contact, hline, h.fresh⟩

theorem ReceivedIn.mono {size : Capacity} {js js' : List Job} {k : Job} {r : Ref}
    (h : ReceivedIn size js k r) (hp : js <+: js') : ReceivedIn size js' k r := by
  obtain ⟨before, hbefore, rest⟩ := h
  exact ⟨before, hbefore.trans hp, rest⟩

theorem binding_origin (size : Capacity) (js : List Job) {u : Bytes} {r : Ref}
    (h : (serveAll (.initial size) js).cache.lookup u = some r) :
    ∃ k, ReceivedIn size js k r ∧ k ∈ js ∧ k.req.uri = u := by
  induction js using List.reverseRecOn with
  | nil => cases h
  | append_singleton js j ih =>
    rw [serveAll_snoc] at h
    rcases serve_lookup h with hold | ⟨rfl, hstores⟩
    · obtain ⟨k, hfrom, hk, hu⟩ := ih hold
      exact ⟨k, hfrom.mono (List.prefix_append _ _), List.mem_append_left _ hk, hu⟩
    · exact ⟨j, .of_stores hstores, by simp, rfl⟩

/-- What a hit of `j` after `js` finds was received from the host and port of `j`, in
answer to a request for the same target. -/
def Provenance (size : Capacity) (js : List Job) (j : Job) : Prop :=
  ∀ r, (serveAll (.initial size) js).cache.lookup j.req.uri = some r →
    ∃ k, ReceivedIn size js k r ∧ k.req.hostName = j.req.hostName ∧
      k.req.hostPort = j.req.hostPort ∧ k.req.target = j.req.target

/-- No two of these requests have one key and different hosts, ports or targets. -/
def KeyTells (among : Set AcceptedRequest) : Prop :=
  ∀ a ∈ among, ∀ b ∈ among, a.uri = b.uri →
    a.hostName = b.hostName ∧ a.hostPort = b.hostPort ∧ a.target = b.target

/-- A server that answers with a plain 200. -/
def plainServer : World := { server := [.data (str "HTTP/1.1 200 OK\r\n\r\n")] }

/-- Whatever is asked of it, the answer is stored. -/
theorem plainServer_stored (q : AcceptedRequest) (size : Capacity) :
    ∃ r, (serve (.initial size) (q.job plainServer)).cache.lookup q.uri = some r := by
  obtain ⟨r, hp, h200, hs⟩ : ∃ r, parseResponse plainServer.libc
      (fetched (str "HTTP/1.1 200 OK\r\n\r\n") []) = .ok (some r) ∧ r.statusCode = 200 ∧
        r.noStore = false := ⟨_, rfl, by decide, by decide⟩
  obtain ⟨addr, hcache⟩ := proxyGET_fetches q.toHttpRequest
    (s := (St.initial size).enter plainServer) rfl rfl (by simp [World.NoFail, plainServer])
    q.sendable rfl (by decide) hp h200 hs
  refine ⟨⟨addr, r⟩, ?_⟩
  rw [serve, AcceptedRequest.job, hcache, LruCache.lookup_put_self]

/-- For runs over any set of accepted requests: every hit, after every list of runs and
against any servers, finds a response of its own origin just when the key tells the
requests of the set apart. -/
theorem provenance_iff (size : Capacity) (among : Set AcceptedRequest) :
    (∀ (js : List (AcceptedRequest × World)) (q : AcceptedRequest) (w : World),
      (∀ p ∈ js, p.1 ∈ among) → q ∈ among →
        Provenance size (js.map fun p => p.1.job p.2) (q.job w)) ↔ KeyTells among := by
  constructor
  · intro h a ha b hb hkey
    obtain ⟨r, hr⟩ := plainServer_stored a size
    have hit : (serveAll (.initial size) ([(a, plainServer)].map fun p => p.1.job p.2)).cache.lookup
        b.uri = some r := by
      rw [List.map_singleton, serveAll_singleton, ← hkey]
      exact hr
    obtain ⟨k, ⟨before, hp, _⟩, hk⟩ :=
      h [(a, plainServer)] b plainServer (by simpa using ha) hb r hit
    have same : k = a.job plainServer := by
      have : k ∈ [a.job plainServer] := hp.subset (by simp)
      simpa using this
    subst same
    simpa [AcceptedRequest.job] using hk
  · intro h js q w hjs hq r hr
    obtain ⟨k, hfrom, hk, hkey⟩ := binding_origin size _ hr
    obtain ⟨p, hp, rfl⟩ := List.mem_map.mp hk
    exact ⟨_, hfrom, h p.1 (hjs p hp) q hq hkey⟩

/-- Two requests that share the key `a80/x`. -/
def portEighty : AcceptedRequest :=
  .of (str "GET /x HTTP/1.1\r\nHost: a:80\r\n\r\n") (by decide) (by decide +kernel)

def portEight : AcceptedRequest :=
  .of (str "GET 0/x HTTP/1.1\r\nHost: a:8\r\n\r\n") (by decide) (by decide +kernel)

/-- The second request is answered with what the first one fetched from port 80. -/
theorem portEight_misled :
    ¬ Provenance ⟨1, Nat.le_refl 1⟩ [portEighty.job plainServer] (portEight.job plainServer) := by
  intro h
  have key : portEighty.uri = portEight.uri := by decide +kernel
  have ports : portEighty.hostPort ≠ portEight.hostPort := by decide +kernel
  obtain ⟨r, hr⟩ := plainServer_stored portEighty ⟨1, Nat.le_refl 1⟩
  have hit : (serveAll (.initial ⟨1, Nat.le_refl 1⟩) [portEighty.job plainServer]).cache.lookup
      portEight.uri = some r := by
    rw [serveAll_singleton, ← key]
    exact hr
  obtain ⟨k, ⟨before, hp, _⟩, _, hport, _⟩ := h r hit
  have same : k = portEighty.job plainServer := by
    have : k ∈ [portEighty.job plainServer] := hp.subset (by simp)
    simpa using this
  subst same
  exact ports hport

end HttpProxy
