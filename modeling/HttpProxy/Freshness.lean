import HttpProxy.Runs

/-!
# When a hit is answered from the cache

`mandatory_revalidation`: no-cache or must-revalidate on either side keeps cached
bytes from the client until the server has said 304. `freshness_iff`: when a hit that
is answered without the server meets the request's freshness demand, and
`usefulness_iff` when one that should be is. The test of `proxyGET` has the comparison
the wrong way round.
-/

namespace HttpProxy

/-! ## The events of a hit -/

/-- Cached bytes are sent only after a connection and a reply that parses as a 304. -/
def SentAfter304 (libc : Libc) (evs : List Event) : Prop :=
  ∀ pre addr range n post, evs = pre ++ .send .client (.cached addr) range n :: post →
    .connected ∈ pre ∧ ∃ reply r, .recv .server (.data reply) ∈ pre ∧
      parseResponse libc reply = .ok (some r) ∧ r.statusCode = 304

theorem Uncached.sentAfter304 {evs : List Event} (h : Uncached evs) (libc : Libc) :
    SentAfter304 libc evs := by
  intro pre addr range n post he
  exact absurd (by simp [he]) (h addr range n)

/-- What comes first may justify everything after it. -/
theorem sentAfter304_append {libc : Libc} {pre tail : List Event} {reply : Bytes}
    {r : HttpResponse} (h : Uncached pre) (hc : .connected ∈ pre)
    (hr : .recv .server (.data reply) ∈ pre) (hp : parseResponse libc reply = .ok (some r))
    (h304 : r.statusCode = 304) : SentAfter304 libc (pre ++ tail) := by
  intro pre' addr range n post he
  have sub : pre ⊆ pre' := by
    rcases List.append_eq_append_iff.mp he with ⟨as, rfl, _⟩ | ⟨bs, rfl, hbs⟩
    · exact List.subset_append_left _ _
    · cases bs with
      | nil => simp
      | cons b bs =>
        -- the send would lie inside `pre`
        cases hbs
        exact absurd (by simp) (h addr range n)
  exact ⟨sub hc, reply, r, sub hr, hp, h304⟩

section
variable {req : HttpRequest} {s : St} {resp : Ref}

theorem hit_fresh_events (h : s.cache.lookup req.uri = some resp)
    (hv : revalidates req resp.obj s.world.now = false) :
    ∃ evs, ran (proxyGET req) s = [.log .valid] ++ evs ∧
      Sends .client (.cached resp.addr) evs ∧
      (s.world.NoFail → bytesTo .client evs = sendable resp.obj.lineRecv) := by
  obtain ⟨w, evs, hrun, _, hsends, hfull⟩ :=
    serveHit_fresh (s := s.touched req.uri) (by simpa using h) hv
  refine ⟨evs, ran_eq ?_, hsends, hfull⟩
  rw [proxyGET_hit h, hrun]
  rfl

/-- A stale hit looks the server up, and cached bytes go out only on a 304. -/
theorem hit_stale_events (req : HttpRequest) (h : s.cache.lookup req.uri = some resp)
    (hv : revalidates req resp.obj s.world.now = true) :
    .lookup req.hostName req.hostPort ∈ ran (proxyGET req) s ∧
      SentAfter304 s.world.libc (ran (proxyGET req) s) := by
  suffices trace : ∃ evs, (finalSt (proxyGET req s)).trace = s.trace ++ evs ∧
      .lookup req.hostName req.hostPort ∈ evs ∧ SentAfter304 s.world.libc evs by
    obtain ⟨evs, htrace, hevs⟩ := trace
    rwa [ran_eq htrace]
  have run := serveHit_revalidated (s := s.touched req.uri) (by simpa using h) hv
  rw [← proxyGET_hit h] at run
  generalize proxyGET req s = res at run
  cases run with
  | refused _ _ looked uncached => exact ⟨_, rfl, looked, uncached.sentAfter304 _⟩
  | unread _ _ reached => exact ⟨_, rfl, reached.looked, reached.uncached.sentAfter304 _⟩
  | @answered w front reply _ hw reached _ _ read =>
    have ends := validationReply_answered resp req.uri reply ((s.touched req.uri).after w front)
    generalize validationReply resp req.uri reply _ = res at ends
    have looked (tail : List Event) : .lookup req.hostName req.hostPort ∈ front ++ tail :=
      List.mem_append_left tail reached.looked
    cases ends with
    | threw => exact ⟨front, by simp, reached.looked, reached.uncached.sentAfter304 _⟩
    | failed => exact ⟨front, by simp, reached.looked, reached.uncached.sentAfter304 _⟩
    | renewed _ _ _ hord =>
      refine ⟨front ++ _, List.append_assoc .., looked _, ?_⟩
      exact (reached.uncached.append hord.refusing.uncached).sentAfter304 _
    | passed _ _ _ _ hord =>
      refine ⟨front ++ _, List.append_assoc .., looked _, ?_⟩
      exact (reached.uncached.append hord.refusing.uncached).sentAfter304 _
    | notModified hp h304 =>
      rw [after_world, hw.libc] at hp
      refine ⟨front ++ _, List.append_assoc .., looked _, ?_⟩
      exact sentAfter304_append reached.uncached reached.connected read hp h304

end

/-! ## Mandatory revalidation -/

theorem revalidates_of_noCache {req : HttpRequest} {r : HttpResponse}
    (h : req.noCache = true ∨ r.noCache = true) (now : Int) : revalidates req r now = true := by
  rcases h with h | h <;> simp [revalidates, needsValidation, h]

/-- A request and a cached response built from any two lists of headers: when one list
has a Cache-Control with no-cache or must-revalidate, a hit sends cached bytes only
after a connection and a 304. -/
theorem mandatory_revalidation {base built : HttpRequest} {reqHeaders respHeaders : List HeaderItem}
    {libc : Libc} {blank : HttpResponse} {resp : Ref} {s : St} (key requestLine hostLine : Bytes)
    (hreq : base.getHostIp reqHeaders = .ok built)
    (hresp : blank.getCacheExpire libc respHeaders = .ok resp.obj)
    (hit : s.cache.lookup key = some resp)
    (hm : (∃ it ∈ reqHeaders, Mentions revalidating it) ∨
      ∃ it ∈ respHeaders, Mentions revalidating it) :
    SentAfter304 s.world.libc (ran (proxyGET
      { built with uri := key, request := requestLine, hostLine := hostLine }) s) := by
  have flag : built.noCache = true ∨ resp.obj.noCache = true :=
    hm.imp (fun h => (HttpRequest.getHostIp_noCache hreq).mpr (.inr h))
      fun h => (HttpResponse.getCacheExpire_ok hresp).2.1.mpr (.inr h)
  have stale := hit_stale_events
    { built with uri := key, request := requestLine, hostLine := hostLine } hit
    (revalidates_of_noCache flag _)
  exact stale.2

/-- A state with one entry. -/
def St.holding (key : Bytes) (r : Ref) (w : World) : St :=
  ⟨((LruCache.new ⟨1, Nat.le_refl 1⟩).put key r).2.2, {r.addr}, r.addr + 1, w, []⟩

theorem lookup_holding (key : Bytes) (r : Ref) (w : World) :
    (St.holding key r w).cache.lookup key = some r := LruCache.lookup_put_self _ key r

/-- An unexpired entry, a request that says no-cache, and a server that says 304. -/
theorem mandatory_revalidation_noCache :
    SentAfter304 ⟨0, fun _ => none, 2 ^ 40⟩ (ran (proxyGET
      { lineSend := str "GET", noCache := true, uri := str "k", request := [], hostLine := [] })
      (.holding (str "k") ⟨0, { lineRecv := str "cached", maxAge := 100 }⟩
        { server := [.data (str "HTTP/1.1 304 Not Modified\r\n\r\n")] })) := by
  have asked : HttpRequest.getHostIp { lineSend := str "GET" } [⟨str "Cache-Control", str "no-cache"⟩]
      = .ok { lineSend := str "GET", noCache := true } := by decide
  have built : HttpResponse.getCacheExpire ⟨0, fun _ => none, 2 ^ 40⟩
      { lineRecv := str "cached", maxAge := 100 } [] =
        .ok { lineRecv := str "cached", maxAge := 100 } := rfl
  have held := lookup_holding (str "k") ⟨0, { lineRecv := str "cached", maxAge := 100 }⟩
    { server := [.data (str "HTTP/1.1 304 Not Modified\r\n\r\n")] }
  have mentioned : Mentions revalidating ⟨str "Cache-Control", str "no-cache"⟩ := by decide
  have sent := mandatory_revalidation (str "k") [] [] asked built held
    (.inl ⟨_, List.mem_cons_self, mentioned⟩)
  exact sent

/-! ## Freshness -/

/-- The smaller of the max-ages that are present. -/
def lifetime (req : HttpRequest) (r : HttpResponse) : Option Int :=
  ([r.maxAge, req.maxAge].filter (· ≠ -1)).min?

/-- The request's freshness demand, and an expiry that has not passed. -/
def MeetsDemand (req : HttpRequest) (r : HttpResponse) (now : Int) : Prop :=
  (∀ l, lifetime req r = some l → now - r.date + req.minFresh ≤ l + req.maxStale) ∧
    (r.expires ≠ 0 → now < r.expires)

/-- The run never turns to the server. -/
def Unaided (req : HttpRequest) (s : St) : Prop :=
  ∀ host port, .lookup host port ∉ ran (proxyGET req) s

theorem unaided_iff {req : HttpRequest} {s : St} {resp : Ref}
    (h : s.cache.lookup req.uri = some resp) :
    Unaided req s ↔ revalidates req resp.obj s.world.now = false := by
  cases hv : revalidates req resp.obj s.world.now with
  | true =>
    simp only [Bool.true_eq_false, iff_false]
    intro hun
    exact hun _ _ (hit_stale_events req h hv).1
  | false =>
    obtain ⟨evs, hran, hsends, _⟩ := hit_fresh_events h hv
    simp only [iff_true, Unaided, hran]
    intro host port hm
    rcases List.mem_append.mp hm with hm | hm
    · simp at hm
    · obtain ⟨_, _, he⟩ := hsends _ hm
      cases he

theorem lifetime_eq {req : HttpRequest} {r : HttpResponse} (hm : -1 ≤ r.maxAge)
    (hrm : -1 ≤ req.maxAge) :
    lifetime req r =
      if minMaxAge r.maxAge req.maxAge = -1 then none else some (minMaxAge r.maxAge req.maxAge) := by
  unfold lifetime minMaxAge
  by_cases h₁ : r.maxAge = -1 <;> by_cases h₂ : req.maxAge = -1
  · simp [h₁, h₂]
  · simp [h₁, h₂]
    omega
  · simp [h₁, h₂]
    omega
  · simp [h₁, h₂, List.min?]
    split_ifs <;> omega

theorem revalidates_false_iff {req : HttpRequest} {r : HttpResponse} {now : Int} :
    revalidates req r now = false ↔
      (now - r.date < minMaxAge r.maxAge req.maxAge ∨ minMaxAge r.maxAge req.maxAge = -1) ∧
        (now < r.expires ∨ r.expires = 0) ∧ req.noCache = false ∧ r.noCache = false ∧
          r.maxAge + (req.maxStale - req.minFresh) + r.date ≤ now := by
  simp only [revalidates, expired, needsValidation, Bool.or_eq_false_iff, Bool.not_eq_false',
    Bool.and_eq_true, Bool.or_eq_true, decide_eq_true_eq, decide_eq_false_iff_not, and_assoc,
    Int.not_lt]
  rfl

/-- When a hit that is answered alone meets the demand: a flag, a passed expiry or an age
outside the window sends it to the server, or no max-age is there to exceed, or the age is
within the demand. -/
def FreshEnough (req : HttpRequest) (r : HttpResponse) (now : Int) : Prop :=
  req.noCache = true ∨ r.noCache = true ∨ (r.expires ≠ 0 ∧ r.expires ≤ now) ∨
    now - r.date < r.maxAge + req.maxStale - req.minFresh ∨
    ∀ l, lifetime req r = some l →
      l ≤ now - r.date ∨ now - r.date ≤ l + req.maxStale - req.minFresh

/-- A hit answered without the server meets the demand just when it is `FreshEnough`. -/
theorem freshness_iff {req : HttpRequest} {s : St} {resp : Ref}
    (hit : s.cache.lookup req.uri = some resp) (hm : -1 ≤ resp.obj.maxAge)
    (hrm : -1 ≤ req.maxAge) :
    (Unaided req s → MeetsDemand req resp.obj s.world.now) ↔
      FreshEnough req resp.obj s.world.now := by
  rw [unaided_iff hit, revalidates_false_iff, MeetsDemand, FreshEnough, lifetime_eq hm hrm]
  generalize minMaxAge resp.obj.maxAge req.maxAge = l
  generalize hn : req.noCache = n
  generalize hc : resp.obj.noCache = c
  cases n with
  | true => simp
  | false =>
    cases c with
    | true => simp
    | false =>
      by_cases hl : l = -1
      · subst hl
        simp
        omega
      · simp only [hl, if_false, Option.some.injEq, forall_eq', or_false]
        simp
        omega

theorem freshness_iff_held :
    let req : HttpRequest := { lineSend := str "GET", uri := str "k", minFresh := 10 }
    let resp : Ref := ⟨0, { lineRecv := str "cached", maxAge := 100 }⟩
    let s := St.holding (str "k") resp { now := 50 }
    (Unaided req s → MeetsDemand req resp.obj s.world.now) ↔ FreshEnough req resp.obj s.world.now :=
  freshness_iff (lookup_holding _ _ _) (by decide) (by decide)

/-- A request that wants ten more seconds of freshness. -/
def freshForTen : HttpRequest :=
  (AcceptedRequest.of (str "GET / HTTP/1.1\r\nHost: h\r\nCache-Control: min-fresh=10\r\n\r\n")
    (by decide) (by decide +kernel)).toHttpRequest

/-- One second before the end of a hundred seconds of max-age. -/
def nearlyStale : St :=
  (serve (.initial ⟨1, Nat.le_refl 1⟩) ⟨freshForTen, { server := [.data
    (str "HTTP/1.1 200 OK\r\nDate: 0\r\nCache-Control: max-age=100\r\n\r\n")] }⟩).enter { now := 99 }

theorem freshForTen_unmet :
    ∃ resp, nearlyStale.cache.lookup freshForTen.uri = some resp ∧ Unaided freshForTen nearlyStale ∧
      ¬ MeetsDemand freshForTen resp.obj nearlyStale.world.now := by
  have held : (nearlyStale.cache.lookup freshForTen.uri).map
      (fun r => (revalidates freshForTen r.obj 99, lifetime freshForTen r.obj, r.obj.date))
        = some (false, some 100, 0) := by decide +kernel
  have asked : freshForTen.minFresh = 10 ∧ freshForTen.maxStale = 0 := by decide +kernel
  obtain ⟨resp, hresp, heq⟩ := Option.map_eq_some_iff.mp held
  simp only [Prod.mk.injEq] at heq
  obtain ⟨hv, hl, hd⟩ := heq
  refine ⟨resp, hresp, (unaided_iff hresp).mpr hv, fun hmeets => ?_⟩
  have late := hmeets.1 100 hl
  rw [asked.1, asked.2, hd, nearlyStale, enter_world] at late
  dsimp only at late
  omega

/-! ## Usefulness -/

/-- What asks for an answer from the cache: no flag, no Expires, a max-age, and an age
within it by the request's own reckoning. -/
structure Servable (req : HttpRequest) (r : HttpResponse) (now : Int) : Prop where
  asked : req.noCache = false
  kept : r.noCache = false
  undated : r.expires = 0
  demand : ∃ l, lifetime req r = some l ∧ now - r.date + req.minFresh < l + req.maxStale

/-- The run turns to no server, and sends the bytes of `resp`: all of them if no send fails. -/
def ServedFromCache (req : HttpRequest) (s : St) (resp : Ref) : Prop :=
  Unaided req s ∧ ∃ evs, ran (proxyGET req) s = [.log .valid] ++ evs ∧
    Sends .client (.cached resp.addr) evs ∧
    (s.world.NoFail → bytesTo .client evs = sendable resp.obj.lineRecv)

theorem servedFromCache_iff {req : HttpRequest} {s : St} {resp : Ref}
    (hit : s.cache.lookup req.uri = some resp) :
    ServedFromCache req s resp ↔ revalidates req resp.obj s.world.now = false := by
  rw [← unaided_iff hit]
  constructor
  · exact And.left
  · intro hun
    obtain ⟨evs, hran, hsends, hfull⟩ := hit_fresh_events hit ((unaided_iff hit).mp hun)
    exact ⟨hun, evs, hran, hsends, hfull⟩

/-- The test of `proxyGET` turns away every age that a max-age of the response allows. -/
theorem Servable.revalidates_iff {req : HttpRequest} {r : HttpResponse} {now : Int}
    (h : Servable req r now) : revalidates req r now = false ↔
      r.maxAge = -1 ∧ now - r.date < req.maxAge ∧
        req.maxStale - req.minFresh ≤ now - r.date + 1 := by
  obtain ⟨l, hl, hlt⟩ := h.demand
  rw [revalidates_false_iff, h.asked, h.kept, h.undated, minMaxAge]
  unfold lifetime at hl
  by_cases hr : r.maxAge = -1 <;> by_cases hq : req.maxAge = -1
  · simp [hr, hq] at hl
  · obtain rfl : req.maxAge = l := by simpa [hr, hq] using hl
    simp [hr]
    omega
  · obtain rfl : r.maxAge = l := by simpa [hr, hq] using hl
    simp [hr]
    omega
  · -- two max-ages: the smaller is at most that of the response
    have least : l ≤ r.maxAge := by
      simp only [hr, hq, ne_eq, decide_not, List.filter_cons, decide_false, Bool.not_false,
        if_true, List.filter_nil, List.min?_cons, Option.some.injEq] at hl
      simp at hl
      omega
    simp [hr]
    omega

/-- Of the hits that ask for an answer from the cache, only those whose response has no
max-age of its own get one. -/
theorem usefulness_iff {req : HttpRequest} {s : St} {resp : Ref}
    (hit : s.cache.lookup req.uri = some resp)
    (servable : Servable req resp.obj s.world.now) :
    ServedFromCache req s resp ↔
      resp.obj.maxAge = -1 ∧ s.world.now - resp.obj.date < req.maxAge ∧
        req.maxStale - req.minFresh ≤ s.world.now - resp.obj.date + 1 := by
  rw [servedFromCache_iff hit]
  exact servable.revalidates_iff

theorem usefulness_iff_held :
    let req : HttpRequest := { lineSend := str "GET", uri := str "k", maxAge := 60 }
    let resp : Ref := ⟨0, { lineRecv := str "cached" }⟩
    let s := St.holding (str "k") resp { now := 50 }
    ServedFromCache req s resp ↔
      resp.obj.maxAge = -1 ∧ s.world.now - resp.obj.date < req.maxAge ∧
        req.maxStale - req.minFresh ≤ s.world.now - resp.obj.date + 1 :=
  usefulness_iff (lookup_holding _ _ _) ⟨rfl, rfl, rfl, 60, by decide, by decide⟩

/-- Half way through a hundred seconds of max-age. -/
def halfway : St :=
  (serve (.initial ⟨1, Nat.le_refl 1⟩) (AcceptedRequest.home.job { server := [.data
    (str "HTTP/1.1 200 OK\r\nDate: 0\r\nCache-Control: max-age=100\r\n\r\n")] })).enter
      { now := 50 }

theorem halfway_unserved :
    ∃ resp, halfway.cache.lookup AcceptedRequest.home.uri = some resp ∧
      Servable AcceptedRequest.home.toHttpRequest resp.obj halfway.world.now ∧
      ¬ ServedFromCache AcceptedRequest.home.toHttpRequest halfway resp := by
  generalize hreq : AcceptedRequest.home.toHttpRequest = req
  have asked : req.noCache = false ∧ req.minFresh = 0 ∧ req.maxStale = 0 := by
    rw [← hreq]
    decide +kernel
  have held : (halfway.cache.lookup req.uri).map (fun r => (revalidates req r.obj halfway.world.now,
      lifetime req r.obj, r.obj.date, r.obj.noCache, r.obj.expires, halfway.world.now))
        = some (true, some 100, 0, false, 0, 50) := by
    rw [← hreq]
    decide +kernel
  obtain ⟨resp, hresp, heq⟩ := Option.map_eq_some_iff.mp held
  simp only [Prod.mk.injEq] at heq
  obtain ⟨hv, hl, hd, hc, he, hnow⟩ := heq
  refine ⟨resp, hresp, ⟨asked.1, hc, he, 100, hl, ?_⟩, fun hserved => ?_⟩
  · rw [asked.2.1, asked.2.2, hd, hnow]
    decide
  · have fresh := (servedFromCache_iff hresp).mp hserved
    rw [hv] at fresh
    cases fresh

end HttpProxy
