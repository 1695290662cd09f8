import HttpProxy.Runs
import HttpProxy.Traces

/-!
# What the log says of a response

`receiveLog` ends with one line on what becomes of a response that was fetched.
`policy_logged`: it says that the response is not cacheable just when `proxyGET` does not
store it.
-/

namespace HttpProxy

/-! ## The reason and the flag -/

namespace HttpResponse

theorem readCacheControl_reason {r r' : HttpResponse} {value : Bytes}
    (h : r.readCacheControl value = .ok r') :
    r'.noCacheReason ≠ [] ↔ r.noCacheReason ≠ [] ∨ Search.contains (str "no-store") value = true ∨
      Search.contains (str "private") value = true := by
  obtain ⟨n, _, read⟩ := Fold.bind_ok h
  clear h
  cases read
  have added (t : Bytes) {w : Bytes} (hw : w ≠ []) : t ++ w ≠ [] :=
    List.append_ne_nil_of_right_ne_nil t hw
  simp only [apply_ite HttpResponse.noCacheReason, ite_self]
  by_cases personal : Search.contains (str "private") value = true
  · rw [if_pos personal]
    exact iff_of_true (added _ (by decide)) (.inr (.inr personal))
  · rw [if_neg personal]
    by_cases forbidden : Search.contains (str "no-store") value = true
    · rw [if_pos forbidden]
      exact iff_of_true (added _ (by decide)) (.inr (.inl forbidden))
    · rw [if_neg forbidden]
      constructor
      · exact .inl
      · exact fun h => h.resolve_right fun seen => seen.elim forbidden personal

theorem readHeader_reason {libc : Libc} {r r' : HttpResponse} {it : HeaderItem}
    (h : readHeader libc r it = .ok r') :
    r'.noCacheReason ≠ [] ↔ r.noCacheReason ≠ [] ∨ Mentions storeForbidding it := by
  unfold readHeader at h
  by_cases hcc : it.name = str "Cache-Control"
  · rw [if_pos hcc] at h
    simpa [Mentions, hcc, storeForbidding] using readCacheControl_reason h
  · rw [if_neg hcc] at h
    have quiet : ¬ Mentions storeForbidding it := fun hm => hcc hm.1
    simp only [quiet, or_false]
    split_ifs at h <;> cases h <;> rfl

theorem getCacheExpire_reason {libc : Libc} {r r' : HttpResponse} {headers : List HeaderItem}
    (h : r.getCacheExpire libc headers = .ok r') :
    r'.noCacheReason ≠ [] ↔ r.noCacheReason ≠ [] ∨ ∃ it ∈ headers, Mentions storeForbidding it :=
  Fold.foldlM_flag (fun r => r.noCacheReason ≠ []) _ (fun _ _ _ h => readHeader_reason h) h

/-- `stoi` takes the max-age of the header, if it has one. -/
def Aged (it : HeaderItem) : Prop :=
  it.name = str "Cache-Control" → ∃ n, findNumber (str "max-age=") it.value = .ok n

theorem readHeader_ok_iff (libc : Libc) (r : HttpResponse) (it : HeaderItem) :
    (∃ t, readHeader libc r it = .ok t) ↔ Aged it := by
  unfold readHeader Aged
  by_cases hcc : it.name = str "Cache-Control"
  · rw [if_pos hcc]
    constructor
    · rintro ⟨t, h⟩ _
      obtain ⟨n, hn, _⟩ := Fold.bind_ok h
      exact ⟨n, hn⟩
    · intro h
      obtain ⟨n, hn⟩ := h hcc
      exact Fold.exists_bind_ok.mpr ⟨n, hn, _, rfl⟩
  · rw [if_neg hcc]
    refine iff_of_true ?_ fun h => absurd h hcc
    split_ifs <;> exact ⟨_, rfl⟩

theorem getCacheExpire_ok_iff (libc : Libc) (r : HttpResponse) (headers : List HeaderItem) :
    (∃ t, r.getCacheExpire libc headers = .ok t) ↔ ∀ it ∈ headers, Aged it :=
  Fold.foldlM_ok_iff Aged (readHeader_ok_iff libc)

/-- The flags do not depend on the order of the headers. -/
theorem getCacheExpire_perm {libc : Libc} {r r' : HttpResponse} {headers headers' : List HeaderItem}
    (h : r.getCacheExpire libc headers = .ok r') (perm : headers.Perm headers') :
    ∃ r'', r.getCacheExpire libc headers' = .ok r'' ∧ r''.noStore = r'.noStore ∧
      r''.noCache = r'.noCache := by
  have same (P : HeaderItem → Prop) : (∃ it ∈ headers', P it) ↔ ∃ it ∈ headers, P it := by
    simp only [perm.mem_iff]
  have aged := (getCacheExpire_ok_iff libc r headers).mp ⟨r', h⟩
  obtain ⟨r'', h'⟩ := (getCacheExpire_ok_iff libc r headers').mpr fun it hit =>
    aged it (perm.mem_iff.mpr hit)
  obtain ⟨stores, caches, _⟩ := getCacheExpire_ok h
  obtain ⟨stores', caches', _⟩ := getCacheExpire_ok h'
  refine ⟨r'', h', ?_, ?_⟩
  · rw [Bool.eq_iff_iff, stores, stores', same]
  · rw [Bool.eq_iff_iff, caches, caches', same]

end HttpResponse

/-! ## The lines of `receiveLog` -/

/-- The last line of `receiveLog`. -/
def verdict (r : HttpResponse) : LogLine :=
  if r.noCacheReason.length ≠ 0 then .notCacheable r.noCacheReason
  else if r.noCache then .cachedRevalidate
  else if r.maxAge = -1 ∧ r.expires = 0 then .cachedNoExpiry
  else if r.maxAge ≠ -1 then .cachedExpiresAt (r.date + r.maxAge)
  else .cachedExpiresAt r.expires

/-- What it may write before. -/
inductive Note : Event → Prop
  | etags (t : Bytes) : Note (.log (.noteEtags t))
  | cacheControl (t : Bytes) : Note (.log (.noteCacheControl t))

theorem receiveLog_lines (r : HttpResponse) (s : St) :
    ∃ notes, receiveLog r s = .ok () (s.after s.world (notes ++ [.log (verdict r)])) ∧
      ∀ e ∈ notes, Note e := by
  have noted (c : Prop) [Decidable c] (line : LogLine) (u : St) : logWhen c line u =
      .ok () (u.after u.world (if c then [.log line] else [])) := by
    unfold logWhen
    split_ifs
    · rfl
    · simp
  have last (u : St) : (if r.noCacheReason.length ≠ 0 then log (.notCacheable r.noCacheReason)
      else if r.noCache then log .cachedRevalidate
      else if r.maxAge = -1 ∧ r.expires = 0 then log .cachedNoExpiry
      else if r.maxAge ≠ -1 then log (.cachedExpiresAt (r.date + r.maxAge))
      else log (.cachedExpiresAt r.expires)) u = .ok () (u.after u.world [.log (verdict r)]) := by
    unfold verdict
    split_ifs <;> rfl
  refine ⟨(if r.etags.length ≠ 0 then [.log (.noteEtags r.etags)] else []) ++
    (if r.cacheCtrl ≠ [] then [.log (.noteCacheControl r.cacheCtrl)] else []), ?_, ?_⟩
  · unfold receiveLog
    rw [bind_ok _ (noted ..), bind_ok _ (noted ..), last]
    simp
  · intro e he
    rcases List.mem_append.mp he with he | he
    · split_ifs at he
      · rw [List.mem_singleton.mp he]
        exact .etags _
      · cases he
    · split_ifs at he
      · rw [List.mem_singleton.mp he]
        exact .cacheControl _
      · cases he

/-- The lines `receiveLog` ends with. -/
inductive Judgement : LogLine → Prop
  | notCacheable (reason : Bytes) : Judgement (.notCacheable reason)
  | revalidate : Judgement .cachedRevalidate
  | noExpiry : Judgement .cachedNoExpiry
  | expiresAt (t : Int) : Judgement (.cachedExpiresAt t)

theorem judgement_verdict (r : HttpResponse) : Judgement (verdict r) := by
  unfold verdict
  split_ifs
  · exact .notCacheable _
  · exact .revalidate
  · exact .noExpiry
  · exact .expiresAt _
  · exact .expiresAt _

/-- What `storeFetched` writes behind `receiveLog`. -/
inductive Evicting : Event → Prop
  | evicted (url : Bytes) : Evicting (.log (.evicted url))

/-- What `storeFetched` can write. -/
inductive Filing : Event → Prop
  | note {e : Event} (h : Note e) : Filing e
  | judged {line : LogLine} (h : Judgement line) : Filing (.log line)
  | evicted (url : Bytes) : Filing (.log (.evicted url))

/-- A run of `proxyGET` whose fetch returns a 200. -/
structure Received (req : HttpRequest) (s : St) (r : Ref) (t : St) : Prop where
  absent : s.cache.lookup req.uri = none
  connected : s.world.connect = .connected
  fetch : proxyFetch req
    ((s.touched req.uri).after s.world ([.log .notInCache] ++ connecting req)) = .ok (some r) t
  ok : r.obj.statusCode = 200

section
variable {req : HttpRequest} {s t : St} {r : Ref} {line : LogLine}

theorem storeFetched_events (url : Bytes) (t : St) (ok : r.obj.statusCode = 200) :
    ∃ notes more, ran (storeFetched url r) t = notes ++ [.log (verdict r.obj)] ++ more ∧
      (∀ e ∈ notes, Note e) ∧ ∀ e ∈ more, Evicting e := by
  obtain ⟨notes, hlog, hnotes⟩ := receiveLog_lines r.obj t
  have rest : Only Evicting (if r.obj.noStore = false then do
      let removed ← cachePut url r
      logWhen (removed.length ≠ 0) (.evicted removed) else pure ()) := by
    split_ifs
    · exact (only_cachePut url r).bind fun _ => only_logWhen _ (.evicted _)
    · exact only_pure ()
  obtain ⟨more, htrace, hmore⟩ := rest (t.after t.world (notes ++ [.log (verdict r.obj)]))
  refine ⟨notes, more, ran_eq ?_, hnotes, hmore⟩
  rw [storeFetched, if_pos ok, bind_ok _ hlog]
  refine Eq.trans htrace ?_
  rw [after_trace, List.append_assoc]

theorem storeFetched_other (url : Bytes) (t : St) (other : r.obj.statusCode ≠ 200) :
    ran (storeFetched url r) t = [] := by
  apply ran_eq
  rw [storeFetched, if_neg other, List.append_nil]
  rfl

theorem storeFetched_mem (hj : Judgement line) (url : Bytes) (t : St) :
    .log line ∈ ran (storeFetched url r) t ↔ r.obj.statusCode = 200 ∧ line = verdict r.obj := by
  by_cases ok : r.obj.statusCode = 200
  · obtain ⟨notes, more, hran, hnotes, hmore⟩ := storeFetched_events url t ok
    have unnoted : .log line ∉ notes := fun h => by cases hnotes _ h <;> cases hj
    have still : .log line ∉ more := fun h => by cases hmore _ h; cases hj
    simp [hran, unnoted, still, ok]
  · rw [storeFetched_other url t ok]
    simp [ok]

/-- What `proxyGET` does with what its fetch returns. -/
def storeResult (url : Bytes) : Option Ref → M Unit
  | some r => storeFetched url r
  | none => return ()

theorem receiveLog_only (r : HttpResponse) : Only Filing (receiveLog r) := by
  apply Only.of_run
  intro s
  obtain ⟨notes, hrun, hnotes⟩ := receiveLog_lines r s
  refine ⟨(), _, _, hrun, fun e he => ?_⟩
  rcases List.mem_append.mp he with he | he
  · exact .note (hnotes e he)
  · rw [List.mem_singleton.mp he]
    exact .judged (judgement_verdict r)

theorem storeResult_only (url : Bytes) (o : Option Ref) : Only Filing (storeResult url o) := by
  cases o with
  | none => exact only_pure ()
  | some r =>
    rw [storeResult, storeFetched]
    split_ifs
    · apply (receiveLog_only r.obj).bind
      intro _
      exact (only_cachePut url r).bind fun _ => only_logWhen _ (.evicted _)
    · exact (receiveLog_only r.obj).bind fun _ => only_pure ()
    · exact only_pure ()

theorem serveMiss_eq (req : HttpRequest) :
    serveMiss req = log .notInCache >>= fun _ => connectServer req >>= fun _ =>
      proxyFetch req >>= storeResult req.uri := by
  rfl

/-- What a run that misses can do. -/
inductive Missing (req : HttpRequest) : Event → Prop
  | notInCache : Missing req (.log .notInCache)
  | reach {e : Event} (h : Reaching req e) : Missing req e
  | fetch {e : Event} (h : Fetching e) : Missing req e
  | file {e : Event} (h : Filing e) : Missing req e

theorem serveMiss_only (req : HttpRequest) : Only (Missing req) (serveMiss req) := by
  rw [serveMiss_eq]
  apply (only_log .notInCache).bind
  intro _
  apply ((connectServer_only req).mono fun _ => .reach).bind
  intro _
  apply ((proxyFetch_only req).mono fun _ => .fetch).bind
  exact fun o => (storeResult_only req.uri o).mono fun _ => .file

theorem proxyGET_fetch (absent : s.cache.lookup req.uri = none)
    (hc : s.world.connect = .connected) :
    proxyGET req s = (proxyFetch req >>= storeResult req.uri)
      ((s.touched req.uri).after s.world ([.log .notInCache] ++ connecting req)) := by
  have reached := connectServer_ok req
    (s := (s.touched req.uri).after s.world [.log .notInCache]) hc
  rw [proxyGET_miss absent, serveMiss_eq, log_bind, touched_world, bind_ok _ reached, after_after]
  rfl

theorem ran_miss (absent : s.cache.lookup req.uri = none) (hc : s.world.connect = .connected) :
    ran (proxyGET req) s = [.log .notInCache] ++ connecting req ++
      ran (proxyFetch req >>= storeResult req.uri)
        ((s.touched req.uri).after s.world ([.log .notInCache] ++ connecting req)) := by
  have all : Only (Missing req) (proxyFetch req >>= storeResult req.uri) :=
    ((proxyFetch_only req).mono fun _ => .fetch).bind fun o =>
      (storeResult_only req.uri o).mono fun _ => .file
  obtain ⟨evs, htrace, _⟩ := all
    ((s.touched req.uri).after s.world ([.log .notInCache] ++ connecting req))
  rw [ran_eq htrace]
  apply ran_eq
  rw [proxyGET_fetch absent hc, htrace, after_trace, touched_trace, List.append_assoc]

theorem unjudged_refused (hj : Judgement line) (hc : s.world.connect ≠ .connected) :
    .log line ∉ ran (serveMiss req) s := by
  have logged : Only (fun e => e = .log .notInCache) (log .notInCache) := only_log rfl
  have fetched : Only (Missing req) (proxyFetch req >>= storeResult req.uri) :=
    ((proxyFetch_only req).mono fun _ => .fetch).bind fun o =>
      (storeResult_only req.uri o).mono fun _ => .file
  have reached : Only (Missing req) (connectServer req) :=
    (connectServer_only req).mono fun _ => .reach
  intro h
  rw [serveMiss_eq] at h
  rcases logged.mem_ran_bind (fun _ => reached.bind fun _ => fetched) h with h | ⟨_, t, hlog, h⟩
  · cases logged.of_mem h
    cases hj
  · rcases reached.mem_ran_bind (fun _ => fetched) h with h | ⟨_, u, hok, _⟩
    · cases (connectServer_only req).of_mem h <;> cases hj
    · cases hlog
      obtain ⟨w, evs, hrun, _⟩ :=
        connectServer_fails req (s := s.after s.world [.log .notInCache]) hc
      cases hrun.symm.trans hok

/-- A line of the kind that `receiveLog` ends with stands in the log of a run just when its
fetch returned a 200, and it is the one for that response. -/
theorem judged_iff (hj : Judgement line) :
    .log line ∈ ran (proxyGET req) s ↔ ∃ r t, Received req s r t ∧ line = verdict r.obj := by
  constructor
  · intro logged
    cases absent : s.cache.lookup req.uri with
    | some resp =>
      have hit : .log line ∈ ran (serveHit req resp) (s.touched req.uri) := by
        rw [ran, proxyGET_hit absent] at logged
        exact logged
      cases (serveHit_only req resp).of_mem hit with
      | renew h => cases h with
        | reach h => cases h <;> cases hj
        | _ => cases hj
      | _ => cases hj
    | none =>
      by_cases hc : s.world.connect = .connected
      · rw [ran_miss absent hc] at logged
        rcases List.mem_append.mp logged with front | behind
        · obtain rfl : line = .notInCache := by simpa [connecting] using front
          cases hj
        · rcases (proxyFetch_only req).mem_ran_bind (storeResult_only req.uri) behind with h | h
          · cases (proxyFetch_only req).of_mem h <;> cases hj
          · obtain ⟨o, t, fetch, h⟩ := h
            cases o with
            | none => simp [ran, storeResult] at h
            | some r =>
              obtain ⟨ok, rfl⟩ := (storeFetched_mem hj req.uri t).mp h
              exact ⟨r, t, ⟨absent, hc, fetch, ok⟩, rfl⟩
      · have refused : .log line ∈ ran (serveMiss req) (s.touched req.uri) := by
          rw [ran, proxyGET_miss absent] at logged
          exact logged
        exact absurd refused (unjudged_refused hj hc)
  · rintro ⟨r, t, received, rfl⟩
    rw [ran_miss received.absent received.connected,
      (proxyFetch_only req).ran_bind (storeResult_only req.uri _) received.fetch]
    apply List.mem_append_right
    apply List.mem_append_right
    exact (storeFetched_mem hj req.uri t).mpr ⟨received.ok, rfl⟩

/-- An object that a fetch returns is the parse of some bytes, and the cache is as before. -/
theorem proxyFetch_found (h : proxyFetch req s = .ok (some r) t) :
    (∃ bytes, parseResponse s.world.libc bytes = .ok (some r.obj)) ∧ t.cache = s.cache := by
  obtain ⟨u, evs, frame, ⟨_, ⟨_, parsed⟩ | none⟩ | ⟨_, e, threw⟩⟩ := proxyFetch_run req s
  · rw [h] at parsed
    cases parsed with
    | found h => exact ⟨⟨_, h⟩, frame.cache⟩
  · cases h.symm.trans none
  · cases h.symm.trans threw

/-- A run whose fetch returned a 200 stores it just when its `no_store` is false. -/
theorem Received.stored_iff (h : Received req s r t) :
    (finalSt (proxyGET req s)).cache.lookup req.uri = some r ↔ r.obj.noStore = false := by
  obtain ⟨_, cache⟩ := proxyFetch_found h.fetch
  rw [proxyGET_fetch h.absent h.connected, bind_ok _ h.fetch, storeResult]
  constructor
  · intro stored
    by_contra forbidden
    obtain ⟨evs, hskip, _⟩ := storeFetched_skip req.uri (r := r) (fun hs => forbidden hs.2) t
    rw [hskip, finalSt_ok, after_cache, cache, after_cache, touched_cache, LruCache.lookup_get,
      h.absent] at stored
    cases stored
  · intro allowed
    obtain ⟨evs, hput, _⟩ := storeFetched_store req.uri h.ok allowed t
    rw [hput, finalSt_ok, after_cache, store_cache, LruCache.lookup_put_self]

end

/-! ## The policy and its log line -/

/-- What the loop of `get_cache_expire` makes of a list of headers, as to storing and
revalidating. -/
structure Extracted (libc : Libc) (blank : HttpResponse) (headers : List HeaderItem)
    (r : HttpResponse) : Prop where
  noStore : r.noStore = true ↔ ∃ it ∈ headers, Mentions storeForbidding it
  noCache : r.noCache = true ↔ ∃ it ∈ headers, Mentions revalidating it
  reason : r.noCacheReason ≠ [] ↔ r.noStore = true
  order : ∀ headers', headers.Perm headers' → ∃ r', blank.getCacheExpire libc headers' = .ok r' ∧
    r'.noStore = r.noStore ∧ r'.noCache = r.noCache

theorem extracted {libc : Libc} {lineRecv httpVer status : Bytes} {statusCode : Nat}
    {headers : List HeaderItem} {r : HttpResponse}
    (h : HttpResponse.getCacheExpire libc { lineRecv, httpVer, statusCode, status } headers = .ok r) :
    Extracted libc { lineRecv, httpVer, statusCode, status } headers r := by
  obtain ⟨stores, caches, _⟩ := HttpResponse.getCacheExpire_ok h
  have reason := HttpResponse.getCacheExpire_reason h
  simp only [Bool.false_eq_true, false_or, ne_eq, not_true] at stores caches reason
  exact ⟨stores, caches, reason.trans stores.symm, fun _ perm =>
    HttpResponse.getCacheExpire_perm h perm⟩

theorem reason_of_parsed {libc : Libc} {bytes : Bytes} {r : HttpResponse}
    (h : parseResponse libc bytes = .ok (some r)) : r.noCacheReason ≠ [] ↔ r.noStore = true := by
  unfold parseResponse at h
  split at h
  · obtain ⟨r', hr, heq⟩ := Fold.map_ok h
    cases heq
    exact (extracted hr).reason
  all_goals cases h

/-- The two flags are disjunctions over all headers, in any order; and in a run of `proxyGET`
whose fetch returns a 200, the log says `not cacheable` just when the response is not
stored. -/
theorem policy_logged {libc : Libc} {lineRecv httpVer status : Bytes} {statusCode : Nat}
    {headers : List HeaderItem} {read : HttpResponse} {req : HttpRequest} {s t : St} {r : Ref}
    (h : HttpResponse.getCacheExpire libc { lineRecv, httpVer, statusCode, status } headers =
      .ok read) (received : Received req s r t) :
    Extracted libc { lineRecv, httpVer, statusCode, status } headers read ∧
      ((∃ reason, .log (.notCacheable reason) ∈ ran (proxyGET req) s) ↔
        (finalSt (proxyGET req s)).cache.lookup req.uri ≠ some r) := by
  obtain ⟨⟨bytes, parsed⟩, _⟩ := proxyFetch_found received.fetch
  have reason := reason_of_parsed parsed
  refine ⟨extracted h, ?_⟩
  rw [ne_eq, received.stored_iff, Bool.not_eq_false, ← reason]
  constructor
  · rintro ⟨text, logged⟩
    obtain ⟨r', t', received', line⟩ := (judged_iff (.notCacheable text)).mp logged
    cases received.fetch.symm.trans received'.fetch
    intro empty
    rw [verdict, empty] at line
    simp only [List.length_nil, ne_eq, not_true, if_false] at line
    split_ifs at line
  · intro nonempty
    refine ⟨r.obj.noCacheReason, (judged_iff (.notCacheable _)).mpr ⟨r, t, received, ?_⟩⟩
    rw [verdict, if_pos (by simpa using nonempty)]

/-- A server that answers with a response of its own client only. -/
def privateWorld : World := { server := [.data (str "HTTP/1.1 200 OK\r\nCache-Control: private\r\n\r\n")] }

def privateRef : Ref where
  addr := 0
  obj :=
    { lineRecv := str "HTTP/1.1 200 OK\r\nCache-Control: private\r\n\r\n"
      httpVer := str "HTTP/1.1"
      statusCode := 200
      status := str "OK"
      cacheCtrl := str "private"
      noCacheReason := str "private"
      noStore := true }

theorem policy_logged_private :
    let s := (St.initial ⟨1, Nat.le_refl 1⟩).enter privateWorld
    Extracted privateWorld.libc { lineRecv := [] } [⟨str "Cache-Control", str "private"⟩]
        { lineRecv := [], cacheCtrl := str "private", noCacheReason := str "private", noStore := true } ∧
      ((∃ reason, .log (.notCacheable reason) ∈ ran (proxyGET AcceptedRequest.home.toHttpRequest) s) ↔
        (finalSt (proxyGET AcceptedRequest.home.toHttpRequest s)).cache.lookup
          AcceptedRequest.home.uri ≠ some privateRef) := by
  intro s
  have fetch := returned_some (x := proxyFetch AcceptedRequest.home.toHttpRequest) (r := privateRef)
    (s := (s.touched AcceptedRequest.home.uri).after s.world
      ([.log .notInCache] ++ connecting AcceptedRequest.home.toHttpRequest)) (by decide +kernel)
  exact policy_logged (by decide) ⟨rfl, rfl, fetch, rfl⟩

end HttpProxy
