import HttpProxy.Arrival
import HttpProxy.Logged
import HttpProxy.Provenance
import HttpProxy.Retention
import HttpProxy.Segments
import HttpProxy.Shelf

/-!
# The proxy is what it is for

Where the network does its job, a list of visits to the proxy leaves in its cache what the
shelf holds, and each visit is handled as the shelf says (`proxy_refines`). While the pages do
not change, nobody can see that there is a cache (`proxy_transparent`).
-/

namespace HttpProxy

/-! ## The cache as a shelf -/

def LruCache.shelf (c : LruCache Ref) : Shelf := Recency.mapValues Ref.obj c.entries

section
variable (c : LruCache Ref) (url : Bytes) (r : Ref)

theorem lookup_shelf : Recency.lookup url c.shelf = (c.lookup url).map Ref.obj :=
  Recency.lookup_mapValues ..

theorem shelf_get : (c.get url).2.shelf = Recency.touch url c.shelf := by
  rw [LruCache.shelf, (c.get_spec url).2.2, LruCache.shelf, Recency.touch_mapValues]

theorem shelf_put : (c.put url r).2.2.shelf = Recency.insert c.capacity url r.obj c.shelf := by
  rw [LruCache.shelf, (c.put_spec url r).2.2.2, LruCache.shelf, Recency.insert_mapValues]

end

/-! ## A network that does its job -/

/-- Every `send` takes all it is given, and the server's results bring bytes until it
closes. -/
structure World.Smooth (w : World) : Prop where
  sends : w.sends = []
  server : Steady w.server

theorem Steady.division {l : List Recv} (h : Steady l) :
    ∃ d : Division (pendingBytes l), d.recvs = l := by
  have segments : ∃ segments : List Bytes, (∀ b ∈ segments, b ≠ []) ∧ l = segments.map .data := by
    induction l with
    | nil => exact ⟨[], by simp, rfl⟩
    | cons r l ih =>
      obtain ⟨first, later⟩ := List.forall_mem_cons.mp h
      obtain ⟨bs, some, rfl⟩ := first
      obtain ⟨segments, all, rfl⟩ := ih later
      exact ⟨bs :: segments, List.forall_mem_cons.mpr ⟨some, all⟩, rfl⟩
  obtain ⟨segments, all, rfl⟩ := segments
  have same : pendingBytes (segments.map .data) = segments.flatten := by
    rw [pendingBytes, List.flatMap_map]
    exact List.flatMap_id' ..
  exact ⟨⟨segments, all, same.symm⟩, rfl⟩

/-- A server of this kind is one that a division describes. -/
theorem World.Smooth.facing {s : St} (h : s.world.Smooth) :
    ∃ d : Division (pendingBytes s.world.server), s.facing d = s ∧
      d.first = s.world.reply ∧ d.rest = s.world.later := by
  obtain ⟨d, hd⟩ := h.server.division
  refine ⟨d, ?_, ?_, ?_⟩
  · rw [St.facing, hd, ← h.sends]
  · rw [Division.first, hd, World.reply]
  · rw [Division.rest, hd, World.later]

theorem World.Smooth.take {w : World} (h : w.Smooth) :
    takeRecv 65536 w.server = (.data w.reply, w.later) := by
  obtain ⟨bs, rest, ht, _⟩ := takeRecv_steady (by omega : 0 < 65536) h.server
  rw [World.reply, World.later, ht]
  rfl

/-! ## `proxyGET` -/

section
variable (q : AcceptedRequest) {s : St} (smooth : s.world.Smooth)

include smooth

/-- The client is sent what the shelf has for it. -/
theorem proxyGET_client : bytesTo .client (ran (proxyGET q.toHttpRequest) s) =
    (Handling.get s.cache.shelf q.toHttpRequest s.world).client := by
  obtain ⟨d, same, first, rest⟩ := smooth.facing
  have ends := (proxyGET_ends q s d).sent
  rw [same] at ends
  rw [ends, getOutcome, Handling.get, lookup_shelf]
  cases s.cache.lookup q.uri with
  | none =>
    simp only [Option.map_none, Handling.fetch, Handling.refusal, fetchOutcome, first, rest]
    split_ifs <;> rfl
  | some resp =>
    simp only [Option.map_some, Handling.renew, Handling.refusal, renewOutcome, first]
    split_ifs
    · cases parseResponse s.world.libc s.world.reply with
      | error e => rfl
      | ok o =>
        cases o with
        | none => rfl
        | some r =>
          dsimp only
          split_ifs <;> rfl
    · rfl
    · rfl

/-- The shelf afterwards. -/
theorem proxyGET_shelf : (finalSt (proxyGET q.toHttpRequest s)).cache.shelf =
    match (Handling.get s.cache.shelf q.toHttpRequest s.world).kept with
    | none => Recency.touch q.uri s.cache.shelf
    | some r => Recency.insert s.cache.capacity q.uri r (Recency.touch q.uri s.cache.shelf) := by
  have put {addr : Nat} {r : HttpResponse} (h : (finalSt (proxyGET q.toHttpRequest s)).cache =
      ((s.cache.get q.uri).2.put q.uri ⟨addr, r⟩).2.2) :
      (finalSt (proxyGET q.toHttpRequest s)).cache.shelf =
        Recency.insert s.cache.capacity q.uri r (Recency.touch q.uri s.cache.shelf) := by
    rw [h, shelf_put, shelf_get, (s.cache.get_spec q.uri).2.1]
  have free : s.world.NoFail := by simp [World.NoFail, smooth.sends]
  cases kept : (Handling.get s.cache.shelf q.toHttpRequest s.world).kept with
  | some r =>
    obtain ⟨connected, ok, ⟨absent, ended, allowed, parsed⟩ | ⟨held, present, stale, parsed⟩⟩ :=
      Handling.get_kept_iff.mp kept
    · have missing : s.cache.lookup q.uri = none := by
        simpa [lookup_shelf] using absent
      obtain ⟨addr, h⟩ := proxyGET_fetches q.toHttpRequest missing connected free q.sendable
        smooth.take ended parsed ok allowed
      exact put h
    · rw [lookup_shelf] at present
      obtain ⟨resp, hit, rfl⟩ := Option.map_eq_some_iff.mp present
      exact put (proxyGET_renews hit stale connected smooth.take parsed ok)
  | none =>
    obtain ⟨t, evs, served⟩ := proxyGET_run q.toHttpRequest s
    generalize proxyGET q.toHttpRequest s = res at served
    cases served with
    | kept final frame => rw [final, frame.cache, touched_cache, shelf_get]
    | @stored r u frame final parsed fresh ok connected contact unrefused site =>
      -- the shelf would have kept it too
      have some : (Handling.get s.cache.shelf q.toHttpRequest s.world).kept = some r.obj := by
        apply Handling.get_kept_iff.mpr ⟨connected, ok, ?_⟩
        cases site with
        | fetched absent allowed segment =>
          obtain ⟨input, rest, ht, ended, got⟩ := segment
          rw [touched_world, smooth.take] at ht
          cases ht
          rw [got] at parsed
          refine .inl ⟨?_, ended, allowed, parsed⟩
          rw [touched_cache, LruCache.lookup_get] at absent
          rw [lookup_shelf, absent]
          rfl
        | @renewed resp rest present stale segment =>
          rw [touched_world, smooth.take, Prod.mk.injEq, Recv.data.injEq] at segment
          rw [← segment.1] at parsed
          rw [touched_cache, LruCache.lookup_get] at present
          refine .inr ⟨resp.obj, ?_, stale, parsed⟩
          rw [lookup_shelf, present]
          rfl
      rw [kept] at some
      cases some

omit smooth in
theorem storeResult_spared (url : Bytes) (o : Option Ref) : Only Spared (storeResult url o) := by
  apply (storeResult_only url o).mono
  intro e he
  cases he with
  | note h => cases h <;> rfl
  | judged h => rfl
  | evicted url => rfl

omit smooth in
theorem ran_hit {req : HttpRequest} {resp : Ref} (hit : s.cache.lookup req.uri = some resp) :
    ran (proxyGET req) s = ran (serveHit req resp) (s.touched req.uri) := by
  rw [ran, ran, proxyGET_hit hit, touched_trace]

omit smooth in
theorem proxyGET_refused_server {req : HttpRequest} (absent : s.cache.lookup req.uri = none)
    (unreached : s.world.connect ≠ .connected) : bytesTo .server (ran (proxyGET req) s) = [] := by
  obtain ⟨w, evs, failed, _⟩ := connectServer_fails req
    (s := (s.touched req.uri).after s.world [.log .notInCache]) unreached
  have logged : Only Spared (log .notInCache) := only_log rfl
  have behind : Only (Missing req) (connectServer req >>= fun _ =>
      proxyFetch req >>= storeResult req.uri) :=
    ((connectServer_only req).mono fun _ => .reach).bind fun _ =>
      ((proxyFetch_only req).mono fun _ => .fetch).bind fun o =>
        (storeResult_only req.uri o).mono fun _ => .file
  have same : ran (proxyGET req) s = ran (serveMiss req) (s.touched req.uri) := by
    rw [ran, ran, proxyGET_miss absent, touched_trace]
  rw [same, serveMiss_eq]
  exact (logged.spared_left behind rfl).trans ((connectServer_spared req).spared_failed failed)

omit smooth in
/-- All that a revalidation sends the server is its question. -/
theorem handleValidation_begins (req : HttpRequest) (cached : Ref) (url : Bytes) :
    ∃ k : Int → M Unit, handleValidation req cached url = (connectServer req >>= fun _ =>
        log (.requesting req.request req.hostName) >>= fun _ =>
          sendVector .server .validation (constructValidation req cached.obj) >>= k) ∧
      ∀ n, Only Spared (k n) := by
  refine ⟨_, rfl, fun _ => ?_⟩
  apply (only_recvBuff (P := Spared) fun _ => rfl).bind
  intro reply
  apply (only_log (P := Spared) rfl).bind
  intro _
  apply (validationReply_only cached url reply).mono
  intro e he
  cases he <;> rfl

/-- When no send fails, the question reaches the server. -/
theorem handleValidation_server (req : HttpRequest) (cached : Ref) (url : Bytes) :
    bytesTo .server (ran (handleValidation req cached url) s) =
      if s.world.connect = .connected then sendable (constructValidation req cached.obj) else [] := by
  obtain ⟨k, run, later⟩ := handleValidation_begins req cached url
  have free : s.world.NoFail := by simp [World.NoFail, smooth.sends]
  rw [run]
  split_ifs with connected
  · obtain ⟨n, w, evs, sent, _, _, _, whole⟩ := sendVector_agrees .server .validation
      (constructValidation req cached.obj) ((s.after s.world (connecting req)).after s.world
        [.log (.requesting req.request req.hostName)])
    have asks : Only (fun _ => True) (sendVector .server .validation
        (constructValidation req cached.obj) >>= k) :=
      (only_sendVector _ fun _ _ => trivial).bind fun n => (later n).mono fun _ _ => trivial
    have logged : Only Spared (log (.requesting req.request req.hostName)) := only_log rfl
    have first : Only (fun _ => True) (log (.requesting req.request req.hostName) >>= fun _ =>
        sendVector .server .validation (constructValidation req cached.obj) >>= k) :=
      (only_log trivial).bind fun _ => asks
    have reached := (connectServer_spared req).spared_left
      (f := fun _ => log (.requesting req.request req.hostName) >>= fun _ =>
        sendVector .server .validation (constructValidation req cached.obj) >>= k)
      first (connectServer_ok req connected)
    have asked := logged.spared_left
      (f := fun _ => sendVector .server .validation (constructValidation req cached.obj) >>= k)
      asks (log_run _ (s.after s.world (connecting req)))
    refine reached.trans (asked.trans ?_)
    have sending : Only (fun _ => True) (sendVector .server .validation
        (constructValidation req cached.obj)) := only_sendVector _ fun _ _ => trivial
    have events := ran_eq (congrArg (fun r => (finalSt r).trace) sent)
    rw [sending.spared_right later, after_world, events]
    exact (whole free).1
  · obtain ⟨w, evs, failed, _⟩ := connectServer_fails req connected
    exact (connectServer_spared req).spared_failed failed

/-- The server is asked what the shelf asks it. -/
theorem proxyGET_server : bytesTo .server (ran (proxyGET q.toHttpRequest) s) =
    (Handling.get s.cache.shelf q.toHttpRequest s.world).server := by
  rw [Handling.get, lookup_shelf]
  cases h : s.cache.lookup q.uri with
  | none =>
    by_cases connected : s.world.connect = .connected
    · have all : passed q.line.length s.world.sends = q.line.length := by
        rw [smooth.sends]
        rfl
      rw [ran_miss h connected, bytesTo_append,
        (proxyFetch_only _).spared_right (storeResult_spared q.uri), proxyFetch_forwards, after_world,
        all, List.take_length, ← q.lineSend_eq]
      simp only [Option.map_none, Handling.fetch, if_pos connected]
      split_ifs <;> rfl
    · rw [proxyGET_refused_server h connected]
      simp [Handling.fetch, connected, Handling.refusal]
  | some resp =>
    rw [ran_hit h]
    cases stale : revalidates q.toHttpRequest resp.obj s.world.now with
    | false =>
      obtain ⟨w, evs, hrun, _, sends, _⟩ :=
        serveHit_fresh (s := s.touched q.uri) (by simpa using h) stale
      have events : ran (serveHit q.toHttpRequest resp) (s.touched q.uri) = [.log .valid] ++ evs :=
        ran_eq (by rw [hrun]; rfl)
      rw [events, bytesTo_append, sends.bytesTo_ne (by decide)]
      simp [stale]
    | true =>
      obtain ⟨line, hrun⟩ := serveHit_stale (s := s.touched q.uri) (by simpa using h) stale
      have kept : ((s.touched q.uri).after s.world [.log line]).world.Smooth := smooth
      have events : ran (serveHit q.toHttpRequest resp) (s.touched q.uri) = [.log line] ++
          ran (handleValidation q.toHttpRequest resp q.uri)
            ((s.touched q.uri).after s.world [.log line]) := by
        obtain ⟨evs, htrace, _⟩ := handleValidation_only q.toHttpRequest resp q.uri
          ((s.touched q.uri).after s.world [.log line])
        rw [ran_eq htrace]
        apply ran_eq
        rw [hrun, touched_world, htrace, after_trace, List.append_assoc]
      rw [events, bytesTo_append, handleValidation_server kept]
      simp only [Option.map_some, stale, if_true, Handling.renew_server]
      rfl

end

/-! ## A run after its request is accepted -/

/-- The run sends the client and the server these bytes. -/
def Handles (x : M Unit) (s : St) (a : Handling) : Prop :=
  bytesTo .client (ran x s) = a.client ∧ bytesTo .server (ran x s) = a.server

theorem proxyGET_only (req : HttpRequest) : Only (fun _ => True) (proxyGET req) := by
  apply (only_cacheGet req.uri).bind
  intro o
  cases o with
  | none => exact (serveMiss_only req).mono fun _ _ => trivial
  | some resp => exact (serveHit_only req resp).mono fun _ _ => trivial

theorem proxyERROR_handles (code : ErrorCode) {s : St} (smooth : s.world.Smooth) :
    Handles (proxyERROR code) s (.refusal code) := by
  obtain ⟨w, evs, hrun, _, _, _, sent⟩ := proxyERROR_run code s
  have events : ran (proxyERROR code) s = evs := ran_eq (by rw [hrun]; rfl)
  constructor
  · rw [events, sent smooth.sends]
    rfl
  · have spared : Only Spared (proxyERROR code) := only_proxyERROR (fun _ _ => rfl) fun _ => rfl
    exact spared.spared s

theorem proxyPOST_handles (q : AcceptedRequest) {s : St} (smooth : s.world.Smooth) :
    Handles (proxyPOST q.toHttpRequest) s
      { Handling.fetch q.toHttpRequest s.world with kept := none } := by
  constructor
  · obtain ⟨d, same, first, rest⟩ := smooth.facing
    have ends := (proxyPOST_ends q s d).sent
    rw [same] at ends
    rw [ends]
    simp only [postOutcome, Handling.fetch, Handling.refusal, fetchOutcome, first, rest]
    split_ifs <;> rfl
  · have all : passed q.line.length s.world.sends = q.line.length := by
      rw [smooth.sends]
      rfl
    rw [proxyPOST_forwards, all, List.take_length, ← q.lineSend_eq]
    simp only [Handling.fetch, Handling.refusal]
    split_ifs <;> rfl

section
variable (fds : Descriptors) (rounds : List Ready) (q : AcceptedRequest) {s : St}

theorem judgeRequest_handles (smooth : s.world.Smooth) (untunnelled : q.method ≠ str "CONNECT") :
    Handles (judgeRequest fds rounds q.toHttpRequest) s
      (.judge s.cache.shelf q.toHttpRequest s.world) := by
  rw [judgeRequest, if_neg untunnelled, Handling.judge]
  split_ifs
  · exact proxyPOST_handles q smooth
  · exact ⟨proxyGET_client q smooth, proxyGET_server q smooth⟩
  · exact proxyERROR_handles .badRequest400 smooth

theorem judgeRequest_traces (untunnelled : q.method ≠ str "CONNECT") :
    Only (fun _ => True) (judgeRequest fds rounds q.toHttpRequest) := by
  rw [judgeRequest, if_neg untunnelled]
  split_ifs
  · exact proxyPOST_only _
  · exact proxyGET_only _
  · exact only_proxyERROR (fun _ _ => trivial) fun _ => trivial

theorem judgeRequest_shelf (smooth : s.world.Smooth) :
    (finalSt (judgeRequest fds rounds q.toHttpRequest s)).cache.shelf =
      if q.method = str "GET" then
        match (Handling.get s.cache.shelf q.toHttpRequest s.world).kept with
        | none => Recency.touch q.uri s.cache.shelf
        | some r => Recency.insert s.cache.capacity q.uri r (Recency.touch q.uri s.cache.shelf)
      else s.cache.shelf := by
  by_cases get : q.method = str "GET"
  · rw [judgeRequest_get fds rounds get, if_pos get]
    exact proxyGET_shelf q smooth
  · rw [if_neg get, judgeRequest_retains fds rounds get s]

end

/-! ## A visit -/

theorem judgeRequest_capacity (fds : Descriptors) (rounds : List Ready) (req : HttpRequest) (s : St) :
    (finalSt (judgeRequest fds rounds req s)).cache.capacity = s.cache.capacity := by
  by_cases get : req.method = str "GET"
  · rw [judgeRequest_get fds rounds get]
    obtain ⟨t, evs, served⟩ := proxyGET_run req s
    generalize proxyGET req s = res at served
    cases served with
    | kept final frame => rw [final, frame.cache, touched_cache, (s.cache.get_spec req.uri).2.1]
    | stored frame final =>
      rw [finalSt_ok, final, store_cache, (LruCache.put_spec _ _ _).2.2.1, frame.cache,
        touched_cache, (s.cache.get_spec req.uri).2.1]
  · rw [judgeRequest_retains fds rounds get s]

theorem setRequest_declines {line : Bytes} {s : St}
    (h : HttpRequest.constructRequest s.world.libc.memory line = .ok none) :
    ∃ w evs, setRequest line s = .error .exception (s.after w evs) ∧
      (s.world.sends = [] → bytesTo .client evs = errorLine .badRequest400) := by
  obtain ⟨before, hlog, logs⟩ := onlyLogs_logWhen (4 < line.length) .invalidRequest s
  obtain ⟨w, evs, herr, _, _, _, sent⟩ := proxyERROR_run .badRequest400 (s.after s.world before)
  refine ⟨w, before ++ evs, ?_, fun free => ?_⟩
  · rw [setRequest, get_bind, h]
    simp only [bind_ok _ hlog, bind_ok _ herr, after_after]
    rfl
  · rw [bytesTo_append, sent free, logs.bytesTo, List.nil_append]

/-- A request is accepted, or the run is over. -/
theorem visit_begins (s : St) (v : Visit) :
    (∃ (q : AcceptedRequest) (rest : List Recv), v.asks = some q.toHttpRequest ∧
        receiveRequest (s.enter v.world) = .ok q.toHttpRequest
          ((s.enter v.world).after (v.world.setPending .client rest)
            [.recv .client (.data q.line), .log (.accepted q.request)])) ∨
      (v.asks = none ∧ ∃ e w evs,
        receiveRequest (s.enter v.world) = .error e ((s.enter v.world).after w evs) ∧
          (v.world.sends = [] →
            bytesTo .client evs = if v.rejected then errorLine .badRequest400 else [])) := by
  obtain ⟨⟨r, rest⟩, read⟩ : ∃ p, takeRecv 65536 v.world.client = p := ⟨_, rfl⟩
  rw [Visit.asks, Visit.rejected, read]
  cases r with
  | fail =>
    have failed : recvBuff .client (s.enter v.world) = .error .lengthError
        ((s.enter v.world).after (v.world.setPending .client rest) [.recv .client .fail]) := by
      rw [recvBuff_run]
      simp only [enter_world, World.pending, read]
    exact .inr ⟨rfl, _, _, _, bind_error _ failed, fun _ => rfl⟩
  | data line =>
    have reads := receiveRequest_reads (s := s.enter v.world) read
    rw [enter_world] at reads
    obtain ⟨o, h⟩ : ∃ o, HttpRequest.constructRequest v.world.libc.memory line = o := ⟨_, rfl⟩
    simp only [h]
    cases o with
    | error e =>
      have threw : receiveRequest (s.enter v.world) = .error e
          ((s.enter v.world).after (v.world.setPending .client rest)
            [.recv .client (.data line)]) := reads.trans (setRequest_throws h)
      exact .inr ⟨rfl, _, _, _, threw, fun _ => rfl⟩
    | ok o =>
      cases o with
      | none =>
        obtain ⟨w, evs, declines, sent⟩ := setRequest_declines
          (s := (s.enter v.world).after (v.world.setPending .client rest)
            [.recv .client (.data line)]) h
        rw [← reads, after_after] at declines
        refine .inr ⟨rfl, _, _, _, declines, fun free => ?_⟩
        rw [bytesTo_append, sent (by simpa using free)]
        rfl
      | some r =>
        exact .inl ⟨⟨r, line, takeRecv_length read, _, h⟩, rest, rfl,
          receiveRequest_accepts (s := s.enter v.world) read h⟩

theorem finalSt_visit (s : St) (v : Visit) :
    s.visit v = finalSt ((receiveRequest >>= judgeRequest v.fds v.rounds) (s.enter v.world)) := by
  rw [St.visit, runProxy1, finalSt_catch, receiveRequest, bind_assoc]

theorem visit_capacity (s : St) (v : Visit) : (s.visit v).cache.capacity = s.cache.capacity := by
  rw [finalSt_visit]
  rcases visit_begins s v with ⟨q, rest, _, accepts⟩ | ⟨_, e, w, evs, threw, _⟩
  · rw [bind_ok _ accepts, judgeRequest_capacity]
    rfl
  · rw [bind_error _ threw]
    rfl

section
variable (s : St) {v : Visit} (smooth : v.world.Smooth)
include smooth

theorem visit_shelf : (s.visit v).cache.shelf = s.cache.shelf.visit s.cache.capacity v := by
  rw [finalSt_visit, Shelf.visit]
  rcases visit_begins s v with ⟨q, rest, asks, accepts⟩ | ⟨silent, e, w, evs, threw, _⟩
  · rw [bind_ok _ accepts, asks]
    exact judgeRequest_shelf v.fds v.rounds q (s := (s.enter v.world).after
      (v.world.setPending .client rest) _) ⟨smooth.sends, smooth.server⟩
  · rw [bind_error _ threw, silent]
    rfl

/-- The bytes of a visit that asks for no tunnel. -/
theorem visit_answer (untunnelled : ∀ req, v.asks = some req → req.method ≠ str "CONNECT") :
    Handles (runProxy1 v.fds v.rounds) (s.enter v.world) (s.cache.shelf.answer v) := by
  rw [Handles, ran_runProxy1, Shelf.answer]
  rcases visit_begins s v with ⟨q, rest, asks, accepts⟩ | ⟨silent, e, w, evs, threw, sent⟩
  · have events : ran receiveRequest (s.enter v.world) =
        [.recv .client (.data q.line), .log (.accepted q.request)] := ran_eq (by rw [accepts]; rfl)
    have handles := judgeRequest_handles v.fds v.rounds q (s := (s.enter v.world).after
      (v.world.setPending .client rest) [.recv .client (.data q.line), .log (.accepted q.request)])
      ⟨smooth.sends, smooth.server⟩ (untunnelled _ asks)
    rw [receiveRequest_spared.ran_bind (judgeRequest_traces v.fds v.rounds q (untunnelled _ asks))
      accepts, events, asks]
    exact handles
  · have events : ran (receiveRequest >>= judgeRequest v.fds v.rounds) (s.enter v.world) = evs :=
      ran_eq (by rw [bind_error _ threw]; rfl)
    constructor
    · rw [events, sent smooth.sends, silent]
      split_ifs <;> rfl
    · rw [receiveRequest_spared.spared_failed threw, silent]
      split_ifs <;> rfl

end

/-! ## A list of visits -/

theorem visits_shelf (size : Capacity) {vs : List Visit} (smooth : ∀ v ∈ vs, v.world.Smooth) :
    (visits size vs).cache.shelf = Shelf.visits size vs :=
  Run.refines (fun s : St => s.cache.shelf) (fun s => s.cache.capacity = size) rfl
    (fun s v same => (visit_capacity s v).trans same)
    (fun s _ same smooth => same ▸ visit_shelf s smooth) smooth

/-- However many visits there were before, what is in the cache is on the shelf, in the same
order, and a visit that asks for no tunnel has its client and its server sent what the shelf
says. -/
theorem proxy_refines (size : Capacity) (vs : List Visit) (smooth : ∀ v ∈ vs, v.world.Smooth) :
    (visits size vs).cache.shelf = Shelf.visits size vs ∧
      ∀ p v, p ++ [v] <+: vs → (∀ req, v.asks = some req → req.method ≠ str "CONNECT") →
        Handles (runProxy1 v.fds v.rounds) ((visits size p).enter v.world)
          ((Shelf.visits size p).answer v) := by
  refine ⟨visits_shelf size smooth, fun p v front untunnelled => ?_⟩
  obtain ⟨before, last⟩ := List.forall_mem_append.mp fun u hu => smooth u (front.subset hu)
  rw [← visits_shelf size before]
  exact visit_answer _ (last v List.mem_cons_self) untunnelled

theorem homeVisit_smooth : (homeVisit 0).world.Smooth where
  sends := rfl
  server := by
    intro r hr
    cases List.mem_singleton.mp hr
    exact ⟨compressed, by decide, rfl⟩

theorem homeVisit_asks : (homeVisit 0).asks = some AcceptedRequest.home.toHttpRequest := by
  rw [Visit.asks, homeVisit, takeRecv_all AcceptedRequest.home.segment []]
  dsimp only
  rw [AcceptedRequest.home.accepts_get (by decide +kernel)]

theorem proxy_refines_home :
    Handles (runProxy1 (homeVisit 0).fds (homeVisit 0).rounds)
      ((visits ⟨1, Nat.le_refl 1⟩ [homeVisit 0]).enter (homeVisit 0).world)
      ((Shelf.visits 1 [homeVisit 0]).answer (homeVisit 0)) := by
  refine (proxy_refines ⟨1, Nat.le_refl 1⟩ [homeVisit 0, homeVisit 0] (fun v hv => ?_)).2
    [homeVisit 0] (homeVisit 0) List.prefix_rfl fun req asks => ?_
  · obtain rfl : v = homeVisit 0 := by simpa using hv
    exact homeVisit_smooth
  · rw [homeVisit_asks] at asks
    cases asks
    decide +kernel

/-- Where the pages of the servers do not change, and each is `Served` whole, the client of
every GET is sent the page of its URI, whatever the capacity and whichever responses are kept,
valid or pushed out. -/
theorem proxy_transparent (size : Capacity) (page : Bytes → Bytes) (vs : List Visit)
    (smooth : ∀ v ∈ vs, v.world.Smooth)
    (served : ∀ p v, p ++ [v] <+: vs → v.Served page (Shelf.visits size p)) (p : List Visit)
    (v : Visit) (front : p ++ [v] <+: vs) (req : HttpRequest) (asks : v.asks = some req)
    (get : req.method = str "GET") :
    bytesTo .client (ran (runProxy1 v.fds v.rounds) ((visits size p).enter v.world)) =
      page req.uri := by
  obtain ⟨before, last⟩ := List.forall_mem_append.mp fun u hu => smooth u (front.subset hu)
  have untunnelled : ∀ req, v.asks = some req → req.method ≠ str "CONNECT" := by
    intro req' asks'
    rw [asks] at asks'
    cases asks'
    rw [get]
    decide
  have answer := visit_answer (visits size p) (last v List.mem_cons_self) untunnelled
  rw [visits_shelf size before] at answer
  rw [answer.1]
  exact Shelf.answers_page size served front asks get

/-- A visit to another server, whose page comes in chunks and in two segments. -/
def chunksVisit : Visit :=
  { homeVisit 0 with world := { twoSegments with client := [.data portEighty.line] } }

/-- The pages of both servers. -/
def twoPages (uri : Bytes) : Bytes :=
  if uri = portEighty.uri then pendingBytes twoSegments.server else compressed

theorem chunksVisit_asks : chunksVisit.asks = some portEighty.toHttpRequest := by
  rw [Visit.asks, chunksVisit, takeRecv_all portEighty.segment []]
  dsimp only
  rw [portEighty.accepts_get (by decide +kernel)]

theorem homeVisit_serves (held : Prop) :
    (homeVisit 0).world.Serves (twoPages AcceptedRequest.home.uri) held := by
  have page : twoPages AcceptedRequest.home.uri = compressed := if_neg (by decide +kernel)
  obtain ⟨r, parsed, _⟩ := parse_compressed (homeVisit 0).world.libc []
  rw [List.append_nil] at parsed
  rw [page]
  exact ⟨rfl, ⟨r, parsed⟩, by decide, fun _ => by decide, fun _ => .inl rfl⟩

theorem chunksVisit_serves {held : Prop} (absent : ¬ held) :
    chunksVisit.world.Serves (twoPages portEighty.uri) held := by
  have page : twoPages portEighty.uri = pendingBytes twoSegments.server := if_pos rfl
  rw [page]
  exact ⟨rfl, ⟨_, rfl⟩, by decide, fun _ => by decide +kernel, fun held => absurd held absent⟩

theorem chunksVisit_smooth : chunksVisit.world.Smooth where
  sends := rfl
  server := by
    intro r hr
    rcases List.mem_pair.mp hr with rfl | rfl
    · exact ⟨_, by decide, rfl⟩
    · exact ⟨_, by decide, rfl⟩

/-- A page is fetched in two segments, another one takes its place and is then sent as kept. -/
theorem proxy_transparent_twoPages :
    bytesTo .client (ran (runProxy1 chunksVisit.fds chunksVisit.rounds)
      ((visits ⟨1, Nat.le_refl 1⟩ []).enter chunksVisit.world)) = twoPages portEighty.uri ∧
    bytesTo .client (ran (runProxy1 (homeVisit 0).fds (homeVisit 0).rounds)
      ((visits ⟨1, Nat.le_refl 1⟩ [chunksVisit, homeVisit 0]).enter (homeVisit 0).world)) =
        twoPages AcceptedRequest.home.uri := by
  have sent := proxy_transparent ⟨1, Nat.le_refl 1⟩ twoPages
    [chunksVisit, homeVisit 0, homeVisit 0] (fun v hv => ?smooth) fun p v front req asks _ => ?served
  case smooth =>
    rcases (by simpa using hv : v = chunksVisit ∨ v = homeVisit 0) with rfl | rfl
    · exact chunksVisit_smooth
    · exact homeVisit_smooth
  case served =>
    cases p with
    | nil =>
      obtain rfl : v = chunksVisit := (List.cons_prefix_cons.mp front).1
      rw [chunksVisit_asks] at asks
      cases asks
      exact chunksVisit_serves fun ⟨_, found⟩ => by cases found
    | cons u p =>
      have later : p ++ [v] <+: [homeVisit 0, homeVisit 0] := (List.cons_prefix_cons.mp front).2
      obtain rfl : v = homeVisit 0 := by
        simpa using later.subset (List.mem_append_right p List.mem_cons_self)
      rw [homeVisit_asks] at asks
      cases asks
      exact homeVisit_serves _
  constructor
  · exact sent [] chunksVisit ⟨[homeVisit 0, homeVisit 0], rfl⟩ _ chunksVisit_asks rfl
  · exact sent [chunksVisit, homeVisit 0] (homeVisit 0) List.prefix_rfl _ homeVisit_asks rfl

end HttpProxy
