import HttpProxy.Validate

/-!
# `proxyGET`

`proxyGET_run` is the inversion of a whole run: the cache is as `get` left it, or
the key of the request is bound to a new object, the parse of all the bytes the run
received. The latter happens only when the run returns normally.
-/

namespace HttpProxy

/-- Does a hit go to the server? -/
def revalidates (req : HttpRequest) (r : HttpResponse) (now : Int) : Bool :=
  expired r req.maxAge now || needsValidation req r now

/-- The state once `get` has moved the entry to the front. -/
def St.touched (s : St) (url : Bytes) : St := { s with cache := (s.cache.get url).2 }

section
variable (s : St) (url : Bytes)

@[simp] theorem touched_next : (s.touched url).next = s.next := rfl
@[simp] theorem touched_world : (s.touched url).world = s.world := rfl
@[simp] theorem touched_trace : (s.touched url).trace = s.trace := rfl
@[simp] theorem touched_ledger : (s.touched url).ledger = s.ledger := rfl
@[simp] theorem touched_cache : (s.touched url).cache = (s.cache.get url).2 := rfl

end

theorem cacheGet_run (url : Bytes) (s : St) :
    cacheGet url s = .ok (s.cache.lookup url) (s.touched url) := by
  rw [← LruCache.get_fst]
  rfl

theorem proxyGET_miss {req : HttpRequest} {s : St} (h : s.cache.lookup req.uri = none) :
    proxyGET req s = serveMiss req (s.touched req.uri) := by
  rw [proxyGET, bind_ok _ (cacheGet_run req.uri s), h]

theorem proxyGET_hit {req : HttpRequest} {s : St} {resp : Ref}
    (h : s.cache.lookup req.uri = some resp) :
    proxyGET req s = serveHit req resp (s.touched req.uri) := by
  rw [proxyGET, bind_ok _ (cacheGet_run req.uri s), h]

/-! ## A hit -/

section
variable {req : HttpRequest} {resp : Ref} {s : St}

theorem checkExpire_eq {c : LruCache Ref} {url : Bytes} (h : c.lookup url = some resp)
    (rmaxAge now : Int) : c.checkExpire url rmaxAge now = expired resp.obj rmaxAge now := by
  rw [LruCache.checkExpire, c.find_eq, h]

/-- A hit that need not be revalidated sends the cached bytes and nothing else. -/
theorem serveHit_fresh (h : s.cache.lookup req.uri = some resp)
    (hv : revalidates req resp.obj s.world.now = false) :
    ∃ w evs, serveHit req resp s = .ok () (s.after w ([.log .valid] ++ evs)) ∧
      s.world.Agrees w ∧ Sends .client (.cached resp.addr) evs ∧
      (s.world.NoFail → bytesTo .client evs = sendable resp.obj.lineRecv) := by
  obtain ⟨he, hn⟩ := Bool.or_eq_false_iff.mp hv
  obtain ⟨k, w, evs, hsend, hw, _, hsends, hfull⟩ := sendVector_agrees .client
    (.cached resp.addr) resp.obj.lineRecv (s.after s.world [.log .valid])
  refine ⟨w, evs, ?_, hw, hsends, fun hf => (hfull hf).1⟩
  rw [serveHit, get_bind, checkExpire_eq h, he, hn]
  simp only [Bool.false_eq_true, if_false]
  rw [log_bind, bind_ok _ hsend, after_after]
  rfl

/-- Any other hit logs why and goes to `HandleValidation`. -/
theorem serveHit_stale (h : s.cache.lookup req.uri = some resp)
    (hv : revalidates req resp.obj s.world.now = true) :
    ∃ line, serveHit req resp s =
      handleValidation req resp req.uri (s.after s.world [.log line]) := by
  rw [serveHit, get_bind, checkExpire_eq h]
  cases he : expired resp.obj req.maxAge s.world.now with
  | true => exact ⟨_, log_bind _ _ s⟩
  | false =>
    have hn : needsValidation req resp.obj s.world.now = true := by
      simpa [revalidates, he] using hv
    refine ⟨.requiresValidation, ?_⟩
    simp only [hn, Bool.false_eq_true, if_false, if_true]
    rw [log_bind]

/-- What a stale hit has done once the server is reached, up to its reply. -/
structure Reached (req : HttpRequest) (evs : List Event) : Prop where
  contact : connecting req <:+: evs
  unrefused : Unrefused evs
  uncached : Uncached evs
  quiet : bytesTo .client evs = []

theorem Reached.looked {req : HttpRequest} {evs : List Event} (h : Reached req evs) :
    .lookup req.hostName req.hostPort ∈ evs := h.contact.subset List.mem_cons_self

theorem Reached.connected {req : HttpRequest} {evs : List Event} (h : Reached req evs) :
    .connected ∈ evs := h.contact.subset (by simp [connecting])

/-- How a stale hit ends: the server is not reached, no reply is read, or one segment is
answered. -/
inductive Revalidated (req : HttpRequest) (resp : Ref) (s : St) :
    EStateM.Result Exn St Unit → Prop
  | refused {w : World} {evs : List Event} (hc : s.world.connect ≠ .connected)
      (hw : s.world.Agrees w) (looked : .lookup req.hostName req.hostPort ∈ evs)
      (uncached : Uncached evs)
      (sent : s.world.sends = [] → bytesTo .client evs = errorLine .notFound404) :
      Revalidated req resp s (.error .exception (s.after w evs))
  | unread {w : World} {evs : List Event} (hc : s.world.connect = .connected)
      (hw : s.world.Agrees w) (reached : Reached req evs)
      (failed : (takeRecv 65536 s.world.server).1 = .fail) :
      Revalidated req resp s (.error .lengthError (s.after w evs))
  | answered {w : World} {evs : List Event} {reply : Bytes}
      (hc : s.world.connect = .connected) (hw : s.world.Agrees w) (reached : Reached req evs)
      (ht : takeRecv 65536 s.world.server = (.data reply, w.server))
      (got : bytesFrom .server evs = reply) (read : .recv .server (.data reply) ∈ evs) :
      Revalidated req resp s (validationReply resp req.uri reply (s.after w evs))

theorem serveHit_revalidated (h : s.cache.lookup req.uri = some resp)
    (hv : revalidates req resp.obj s.world.now = true) :
    Revalidated req resp s (serveHit req resp s) := by
  obtain ⟨line, hline⟩ := serveHit_stale h hv
  have logged : Ordinary [.log line] := Ordinary.log line
  rw [hline]
  by_cases hc : s.world.connect = .connected
  · obtain ⟨w, evs, hw, hord, hquiet, hrun⟩ :=
      handleValidation_begin req resp req.uri (s := s.after s.world [.log line]) hc
    have reached : Reached req ([.log line] ++ (connecting req ++ evs)) := by
      constructor
      · exact ⟨[.log line], evs, by simp⟩
      · exact logged.unrefused.append ((unrefused_connecting req).append hord.unrefused)
      · exact logged.refusing.uncached.append
          ((uncached_connecting req).append hord.refusing.uncached)
      · simp [hquiet]
    rcases hrun with ⟨hrun, _, hfail⟩ | ⟨reply, ht, hgot, hrecv, hrun⟩
    · rw [hrun, after_after]
      exact .unread hc hw reached hfail
    · rw [hrun, after_after]
      exact .answered hc hw reached ht (by simp [hgot]) (by simp [hrecv])
  · obtain ⟨w, evs, hrun, hw, hrefuse, hlookup, _, hsent⟩ :=
      connectServer_fails req (s := s.after s.world [.log line]) hc
    rw [handleValidation, bind_error _ hrun, after_after]
    exact .refused hc hw (List.mem_append_right _ hlookup)
      (logged.refusing.uncached.append hrefuse.uncached) (by simpa using hsent)

end

/-- A miss that reaches the server. -/
theorem serveMiss_connected (req : HttpRequest) {s : St} (hc : s.world.connect = .connected) :
    serveMiss req s =
      (proxyFetch req >>= fun o => match o with
        | some r => storeFetched req.uri r
        | none => pure ()) (s.after s.world ([.log .notInCache] ++ connecting req)) := by
  rw [serveMiss, log_bind, bind_ok _ (connectServer_ok req (s := s.after s.world _) hc), after_after]
  rfl

/-- A miss that does not. -/
theorem serveMiss_refused (req : HttpRequest) {s : St} (hc : s.world.connect ≠ .connected) :
    ∃ w evs, serveMiss req s = .error .exception (s.after w ([.log .notInCache] ++ evs)) ∧
      s.world.Agrees w ∧ Refusing evs ∧ bytesFrom .server evs = [] ∧
      (s.world.sends = [] → bytesTo .client evs = errorLine .notFound404) := by
  obtain ⟨w, evs, hrun, hw, hord, _, hgot, hsent⟩ :=
    connectServer_fails req (s := s.after s.world [.log .notInCache]) hc
  refine ⟨w, evs, ?_, hw, hord, hgot, hsent⟩
  rw [serveMiss, log_bind, bind_error _ hrun, after_after]

/-! ## A whole run -/

/-- Where an object comes to be stored: after a fetch, if its Cache-Control lets it, or
in place of an entry that is revalidated. `got` is what the run received. -/
inductive StoreSite (req : HttpRequest) (s : St) (got : Bytes) (r : HttpResponse) : Prop
  | fetched (absent : s.cache.lookup req.uri = none) (allowed : r.noStore = false)
      (segment : Fetches s.world.server got)
  | renewed {resp : Ref} {rest : List Recv} (present : s.cache.lookup req.uri = some resp)
      (stale : revalidates req resp.obj s.world.now = true)
      (segment : takeRecv 65536 s.world.server = (.data got, rest))

/-- How the part of `proxyGET` after the `get` may lead from `s` to `t`: with the cache
as it was, or, when it returns normally, with a new binding for its key. -/
inductive Served (req : HttpRequest) (s t : St) (evs : List Event) :
    EStateM.Result Exn St Unit → Prop
  | kept {res : EStateM.Result Exn St Unit} (final : finalSt res = t) (frame : Frame s t evs) :
      Served req s t evs res
  | stored {r : Ref} {u : St} (frame : Frame s u evs) (final : t = u.store req.uri r)
      (parsed : parseResponse s.world.libc (bytesFrom .server evs) = .ok (some r.obj))
      (fresh : s.next ≤ r.addr ∧ r.addr < t.next) (ok : r.obj.statusCode = 200)
      (connected : s.world.connect = .connected) (contact : connecting req <:+: evs)
      (unrefused : Unrefused evs)
      (site : StoreSite req s (bytesFrom .server evs) r.obj) :
      Served req s t evs (.ok () t)

theorem serveMiss_run {req : HttpRequest} {s : St} (h : s.cache.lookup req.uri = none) :
    ∃ t evs, Served req s t evs (serveMiss req s) := by
  by_cases hc : s.world.connect = .connected
  · rw [serveMiss_connected req hc]
    have before := Frame.after s (World.Agrees.refl _) ([.log .notInCache] ++ connecting req)
    obtain ⟨t, evs, frame, ⟨hord, hres⟩ | ⟨_, e, hrun⟩⟩ := proxyFetch_run req
      (s.after s.world ([.log .notInCache] ++ connecting req))
    · have whole := before.trans frame
      generalize hrun : proxyFetch req _ = res at hres
      rcases hres with ⟨segment, hres⟩ | rfl
      · cases hres with
        | @found r parsed ge lt =>
          rw [bind_ok _ hrun]
          by_cases hstore : r.obj.statusCode = 200 ∧ r.obj.noStore = false
          · obtain ⟨evs', hput, hlogs⟩ := storeFetched_store req.uri hstore.1 hstore.2 t
            simp only [hput]
            refine ⟨_, _, .stored (whole.trans (Frame.after t (World.Agrees.refl _) evs')) rfl ?_
              ⟨ge, lt⟩ hstore.1 hc ⟨[.log .notInCache], evs ++ evs', by simp⟩ ?_
              (.fetched h hstore.2 ?_)⟩
            · simpa [hlogs.bytesFrom] using parsed
            · exact (((Ordinary.log _).unrefused.append (unrefused_connecting req)).append
                hord.unrefused).append hlogs.ordinary.unrefused
            · simpa [hlogs.bytesFrom] using segment
          · obtain ⟨evs', hskip, _⟩ := storeFetched_skip req.uri hstore t
            simp only [hskip]
            exact ⟨_, _, .kept rfl (whole.trans (Frame.after t (World.Agrees.refl _) evs'))⟩
        | failed => exact ⟨t, _, .kept (by rw [bind_ok _ hrun]; rfl) whole⟩
        | threw => exact ⟨t, _, .kept (by rw [bind_error _ hrun]; rfl) whole⟩
      · exact ⟨t, _, .kept (by rw [bind_ok _ hrun]; rfl) whole⟩
    · exact ⟨t, _, .kept (by rw [bind_error _ hrun]; rfl) (before.trans frame)⟩
  · obtain ⟨w, evs, hrun, hw, _⟩ := serveMiss_refused req hc
    exact ⟨_, _, .kept (by rw [hrun]; rfl) (Frame.after _ hw _)⟩

theorem serveHit_run {req : HttpRequest} {s : St} {resp : Ref}
    (h : s.cache.lookup req.uri = some resp) :
    ∃ t evs, Served req s t evs (serveHit req resp s) := by
  cases hv : revalidates req resp.obj s.world.now with
  | false =>
    obtain ⟨w, evs, hrun, hw, _⟩ := serveHit_fresh h hv
    exact ⟨_, _, .kept (by rw [hrun]; rfl) (Frame.after _ hw _)⟩
  | true =>
    have run := serveHit_revalidated h hv
    generalize serveHit req resp s = res at run
    cases run with
    | refused _ hw => exact ⟨_, _, .kept rfl (Frame.after s hw _)⟩
    | unread _ hw => exact ⟨_, _, .kept rfl (Frame.after s hw _)⟩
    | @answered w front reply hc hw reached ht got =>
      have before := Frame.after s hw front
      have grown {w' : World} (hw' : w.Agrees w') (evs : List Event) :
          Frame s ((s.after w front).alloc.after w' evs) (front ++ evs) := by
        have alloc := before.trans (Frame.alloc (s.after w front))
        rw [List.append_nil] at alloc
        exact alloc.trans (Frame.after _ hw' evs)
      have ends := validationReply_answered resp req.uri reply (s.after w front)
      generalize validationReply resp req.uri reply (s.after w front) = res at ends
      cases ends with
      | threw => exact ⟨_, _, .kept rfl (before.trans (Frame.alloc _))⟩
      | failed => exact ⟨_, _, .kept rfl (before.trans (Frame.alloc _))⟩
      | notModified _ _ hw' => exact ⟨_, _, .kept rfl (grown hw' _)⟩
      | passed _ _ _ hw' => exact ⟨_, _, .kept rfl (grown hw' _)⟩
      | @renewed r w' evs hp h200 hw' hord deaf _ =>
        have all : bytesFrom .server (front ++ evs) = reply := by simp [got, deaf]
        have contact := reached.contact.trans (List.prefix_append front evs).isInfix
        have segment : takeRecv 65536 s.world.server =
            (.data (bytesFrom .server (front ++ evs)), w.server) := by rwa [all]
        refine ⟨_, _, .stored (r := ⟨s.next, r⟩) (grown hw' evs) rfl ?_
          ⟨Nat.le_refl _, Nat.lt_succ_self _⟩ h200 hc contact
          (reached.unrefused.append hord.unrefused) (.renewed h hv segment)⟩
        rwa [all, ← hw.libc]

/-- Every run of `proxyGET` moves its key to the front and ends in one of the two ways. -/
theorem proxyGET_run (req : HttpRequest) (s : St) :
    ∃ t evs, Served req (s.touched req.uri) t evs (proxyGET req s) := by
  cases h : s.cache.lookup req.uri with
  | none =>
    rw [proxyGET_miss h]
    exact serveMiss_run (by simpa using h)
  | some resp =>
    rw [proxyGET_hit h]
    exact serveHit_run (by simpa using h)

/-- A fetch that brings a 200 whose Cache-Control allows it makes a new entry. -/
theorem proxyGET_fetches (req : HttpRequest) {s : St} {input : Bytes} {rest : List Recv}
    {r : HttpResponse} (h : s.cache.lookup req.uri = none) (hc : s.world.connect = .connected)
    (hf : s.world.NoFail) (hreq : 0 < intLen req.lineSend.length)
    (ht : takeRecv 65536 s.world.server = (.data input, rest)) (hend : check502 input = false)
    (hp : parseResponse s.world.libc (fetched input rest) = .ok (some r))
    (h200 : r.statusCode = 200) (hs : r.noStore = false) :
    ∃ addr, (finalSt (proxyGET req s)).cache =
      ((s.cache.get req.uri).2.put req.uri ⟨addr, r⟩).2.2 := by
  rw [proxyGET_miss h, serveMiss_connected req (s := s.touched req.uri) hc]
  obtain ⟨t, evs, frame, _, _, _, hres⟩ := proxyFetch_relay
    (s := (s.touched req.uri).after s.world ([.log .notInCache] ++ connecting req)) hf hreq ht hend
  rw [touched_world]
  generalize hrun : proxyFetch req _ = res at hres
  cases hres with
  | failed hp' => rw [after_world, hp] at hp'; cases hp'
  | threw hp' => rw [after_world, hp] at hp'; cases hp'
  | @found r' hp' =>
    have same : r'.obj = r := by
      rw [after_world, hp] at hp'
      cases hp'
      rfl
    obtain ⟨evs', hput, _⟩ := storeFetched_store req.uri (r := r')
      (same ▸ h200) (same ▸ hs) t
    refine ⟨r'.addr, ?_⟩
    rw [bind_ok _ hrun]
    simp only [hput, finalSt_ok, after_cache, store_cache, frame.cache, touched_cache, ← same]

/-- A revalidation that brings a 200 replaces the entry, whatever its Cache-Control. -/
theorem proxyGET_renews {req : HttpRequest} {s : St} {resp : Ref} {reply : Bytes}
    {rest : List Recv} {r : HttpResponse} (h : s.cache.lookup req.uri = some resp)
    (hv : revalidates req resp.obj s.world.now = true) (hc : s.world.connect = .connected)
    (ht : takeRecv 65536 s.world.server = (.data reply, rest))
    (hp : parseResponse s.world.libc reply = .ok (some r)) (h200 : r.statusCode = 200) :
    (finalSt (proxyGET req s)).cache =
      ((s.cache.get req.uri).2.put req.uri ⟨s.next, r⟩).2.2 := by
  have run := serveHit_revalidated (s := s.touched req.uri) (by simpa using h) hv
  rw [← proxyGET_hit h] at run
  generalize proxyGET req s = res at run
  cases run with
  | refused hc' => exact absurd hc hc'
  | unread _ _ _ hfail =>
    rw [touched_world, ht] at hfail
    cases hfail
  | @answered w evs _ _ hw _ ht' =>
    rw [touched_world, ht] at ht'
    cases ht'
    have parsed : parseResponse w.libc reply = .ok (some r) := by
      rw [hw.libc]
      exact hp
    obtain ⟨w', evs', hput, _⟩ := validationReply_ok resp req.uri
      (s := (s.touched req.uri).after w evs) parsed h200
    rw [hput]
    rfl

end HttpProxy
