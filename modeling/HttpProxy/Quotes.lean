import HttpProxy.Base.Upholding
import HttpProxy.Language
import HttpProxy.Logged
import HttpProxy.LogText
import HttpProxy.Retention
import HttpProxy.Validators
import HttpProxy.Visits

/-!
# What a log line quotes

A client can put no control character into the log, and a server can only in the two lines
that quote the first line it sends (`logged_clean_iff`): the request line, the host and the cache
key are plain for every request that is accepted, and the header values for every response.
-/

namespace HttpProxy

open Upholding

/-! ## What a request brings -/

theorem Plain.take {x : Bytes} (h : Plain x) (n : Nat) : Plain (x.take n) :=
  fun c hc => h c (List.mem_of_mem_take hc)

theorem Plain.drop {x : Bytes} (h : Plain x) (n : Nat) : Plain (x.drop n) :=
  fun c hc => h c (List.mem_of_mem_drop hc)

theorem Plain.unbroken {x : Bytes} (h : Plain x) : Unbroken x := by
  intro newline
  have control := h _ newline
  revert control
  decide +kernel

theorem upTo_lineEnd {x : Bytes} (h : Plain x) (rest : Bytes) :
    upTo (x ++ ch '\r' :: rest) (findFirstOf (str "\r\n") (x ++ ch '\r' :: rest)) = x := by
  rw [findFirstOf_append h.endless (by decide)]
  simp [upTo]

/-- The request line ends at the first line end. -/
theorem plain_requestLine {memory : Nat} {line : Bytes} {p : ParsedRequest}
    (parsed : RequestParser.parse memory line = .halt (.completed p)) :
    Plain (upTo line (findFirstOf (str "\r\n") line)) := by
  have plainLine {method tail : Bytes} (h : Plain method ∧ Plain tail) :
      Plain (RequestParser.lineText method tail) :=
    h.1.append (.append (t := [ch ' ']) (.single (by decide)) h.2)
  cases RequestParser.completed_of_parse parsed with
  | simple _ plain text =>
    rw [text, upTo_lineEnd (plainLine plain)]
    exact plainLine plain
  | @full tail rest _ begun _ _ text =>
    have split : line = RequestParser.lineText p.method tail ++ ch '\r' :: (ch '\n' :: rest) := by
      simp [text, str]
    rw [split, upTo_lineEnd (plainLine begun.plain)]
    exact plainLine begun.plain

theorem plain_target {memory : Nat} {line : Bytes} {p : ParsedRequest}
    (parsed : RequestParser.parse memory line = .halt (.completed p)) : Plain p.uri := by
  have plain {method uri : Bytes} (h : RequestText.ProperTarget method uri) : Plain uri := by
    obtain ⟨_, _, c, rest, rfl, first, later⟩ := h
    intro d hd
    rcases List.mem_cons.mp hd with rfl | hd
    · simpa [isPlain] using first
    · simpa [isPlain] using (later d hd).1
  obtain ⟨_, _, _, read⟩ := Scan.run_halt_iff_exactly.mp parsed
  obtain ⟨t, proper, reads, _⟩ := RequestParser.exactly_request.mp read
  cases t with
  | simple method uri =>
    rw [show p = _ from reads]
    exact plain proper
  | full method uri major minor message =>
    rw [reads.2.1]
    exact plain proper.1

namespace HttpRequest

theorem getHostIp_plain {r r' : HttpRequest} {headers : List HeaderItem} (plain : PlainValues headers)
    (before : Plain r.hostName ∧ Plain r.hostPort) (h : r.getHostIp headers = .ok r') :
    Plain r'.hostName ∧ Plain r'.hostPort := by
  have defaultPort : Plain (str "80") := by
    unfold Plain
    decide +kernel
  refine Fold.foldlM_keeps_of (fun r : HttpRequest => Plain r.hostName ∧ Plain r.hostPort)
    (fun it : HeaderItem => Plain it.value) ?_ before plain h
  intro s it t hs hit hstep
  unfold readHeader at hstep
  split_ifs at hstep
  · cases hstep
    unfold readHost
    split
    · exact ⟨hit.take _, hit.drop _⟩
    · exact ⟨hit, defaultPort⟩
  · obtain ⟨_, _, hstep⟩ := Fold.bind_ok hstep
    obtain ⟨_, _, hstep⟩ := Fold.bind_ok hstep
    obtain ⟨_, _, hstep⟩ := Fold.bind_ok hstep
    cases hstep
    simpa only [apply_ite HttpRequest.hostName, apply_ite HttpRequest.hostPort, ite_self] using hs
  · cases hstep
    exact hs

theorem getRequestLine_request {r r' : HttpRequest} (h : r.getRequestLine = .ok r') :
    r'.request = upTo r.lineSend (findFirstOf (str "\r\n") r.lineSend) := by
  obtain ⟨_, _, h⟩ := Fold.bind_ok h
  obtain ⟨_, _, h⟩ := Fold.bind_ok h
  cases h
  rfl

/-- What the log quotes of a request, and the key of its response. -/
structure Sober (r : HttpRequest) : Prop where
  request : Plain r.request
  host : Plain r.hostName
  uri : Plain r.uri

theorem sober_of_accepted {memory : Nat} {line : Bytes} {r : HttpRequest}
    (h : constructRequest memory line = .ok (some r)) : r.Sober := by
  obtain ⟨o, hparse, h⟩ := Fold.bind_ok h
  cases o with
  | none => cases h
  | some mid =>
    obtain ⟨r', hline, h⟩ := Fold.bind_ok h
    cases h
    have request := getRequestLine_request hline
    obtain ⟨requestLine, hostLine, rfl⟩ := getRequestLine_ok hline
    unfold parseRequest at hparse
    split at hparse
    · next p hp =>
      obtain ⟨built, hbuilt, hmid⟩ := Fold.bind_ok hparse
      cases hmid
      obtain ⟨whole, target, _⟩ := getHostIp_keeps hbuilt
      obtain ⟨host, port⟩ := getHostIp_plain (RequestParser.plainValues_of_parse hp)
        ⟨Plain.nil, Plain.nil⟩ hbuilt
      dsimp only at request whole target
      refine ⟨?_, host, (host.append port).append ?_⟩
      · rw [request, whole]
        exact plain_requestLine hp
      · rw [target]
        exact plain_target hp
    all_goals cases hparse

end HttpRequest

/-! ## What a response brings -/

/-- What the log quotes of the headers of a response. -/
structure HttpResponse.Sober (r : HttpResponse) : Prop where
  etags : Plain r.etags
  cacheCtrl : Plain r.cacheCtrl
  reason : Plain r.noCacheReason

theorem HttpResponse.readCacheControl_sober {r r' : HttpResponse} {value : Bytes} (h : r.Sober)
    (plain : Plain value) (read : r.readCacheControl value = .ok r') : r'.Sober := by
  obtain ⟨n, _, whole⟩ := Fold.bind_ok read
  clear read
  cases whole
  have words : Plain (str "no-store") ∧ Plain (str " ") ∧ Plain (str "private") := by
    unfold Plain
    decide +kernel
  refine ⟨?_, ?_, ?_⟩
  · simpa only [apply_ite HttpResponse.etags, ite_self] using h.etags
  · simpa only [apply_ite HttpResponse.cacheCtrl, ite_self] using plain
  · -- a reason grows by the words of the two directives
    have grows {t : Bytes} (ht : Plain t) (personal more : Prop) [Decidable personal]
        [Decidable more] : Plain (if personal then (if more then t ++ str " " else t) ++ str "private"
          else t) := by
      split_ifs
      · exact (ht.append words.2.1).append words.2.2
      · exact ht.append words.2.2
      · exact ht
    simp only [apply_ite HttpResponse.noCacheReason, ite_self]
    by_cases forbidden : Search.contains (str "no-store") value = true
    · simp only [if_pos forbidden]
      exact grows (h.reason.append words.1) _ _
    · simp only [if_neg forbidden]
      exact grows h.reason _ _

theorem HttpResponse.sober_of_parsed {libc : Libc} {bytes : Bytes} {r : HttpResponse}
    (h : parseResponse libc bytes = .ok (some r)) : r.Sober := by
  unfold parseResponse at h
  split at h
  · next p hp =>
    obtain ⟨t, ht, heq⟩ := Fold.map_ok h
    cases heq
    refine Fold.foldlM_keeps_of HttpResponse.Sober (fun it : HeaderItem => Plain it.value) ?_
      ⟨Plain.nil, Plain.nil, Plain.nil⟩ (ResponseParser.plainValues_of_parse hp) ht
    intro s it t hs hit hstep
    unfold readHeader at hstep
    by_cases hcc : it.name = str "Cache-Control"
    · rw [if_pos hcc] at hstep
      exact readCacheControl_sober hs hit hstep
    · rw [if_neg hcc] at hstep
      split_ifs at hstep <;> cases hstep
      all_goals
        first
        | exact hs
        | exact ⟨hit, hs.cacheCtrl, hs.reason⟩
        | exact ⟨hs.etags, hs.cacheCtrl, hs.reason⟩
  all_goals cases h

/-! ## What a run logs -/

/-- The quotes that a parser has gone over: all but those of the server's first line. -/
def LogLine.guarded : LogLine → List Bytes
  | .responding _ => []
  | .received _ host => [host]
  | line => line.quotes

def LogLine.Sober (line : LogLine) : Prop := ∀ bs ∈ line.guarded, Plain bs

/-- The keys of the cache and the log lines of the run. -/
structure St.Sober (s : St) : Prop where
  keys : ∀ url ∈ Recency.keys s.cache.entries, Plain url
  lines : ∀ line, .log line ∈ s.trace → line.Sober

/-- An event that is no log line, or a sober one. -/
def Event.Sober : Event → Prop
  | .log line => line.Sober
  | _ => True

section
variable {α : Type} {x : M α}

/-- A program that leaves the cache alone and logs sober lines. -/
theorem upholds_sober {Q : α → Prop} (only : Only Event.Sober x) (retains : Retains x)
    (post : ∀ s a t, x s = .ok a t → Q a) : Upholds St.Sober x Q := by
  constructor
  intro s hs
  obtain ⟨evs, trace, sober⟩ := only s
  have after : (finalSt (x s)).Sober := by
    refine ⟨by rw [retains s]; exact hs.keys, fun line hline => ?_⟩
    rw [trace] at hline
    exact (List.mem_append.mp hline).elim (hs.lines line) fun h => sober _ h
  cases run : x s with
  | error e t => rwa [run] at after
  | ok a t =>
    rw [run] at after
    exact ⟨after, post s a t run⟩

theorem upholds_quietly (only : Only Event.Sober x) (retains : Retains x) :
    Upholds St.Sober x fun _ => True := upholds_sober only retains fun _ _ _ _ => trivial

end

theorem upholds_log {line : LogLine} (h : line.Sober) : Upholds St.Sober (log line) fun _ => True :=
  upholds_quietly (only_log (P := Event.Sober) h) (retains_log line)

theorem upholds_logWhen (c : Prop) [Decidable c] {line : LogLine} (h : line.Sober) :
    Upholds St.Sober (logWhen c line) fun _ => True :=
  upholds_quietly (only_logWhen (P := Event.Sober) c h) (retains_logWhen c line)

theorem upholds_sendVector (dst : Sock) (what : Payload) (buf : Bytes) :
    Upholds St.Sober (sendVector dst what buf) fun _ => True :=
  upholds_quietly (only_sendVector buf fun _ _ => trivial) (retains_sendVector dst what buf)

theorem upholds_recvBuff (src : Sock) : Upholds St.Sober (recvBuff src) fun _ => True :=
  upholds_quietly (only_recvBuff fun _ => trivial) (retains_recvBuff src)

/-! ### The cache -/

theorem upholds_cacheGet (url : Bytes) : Upholds St.Sober (cacheGet url) fun _ => True := by
  constructor
  intro s hs
  refine ⟨⟨fun u hu => hs.keys u ?_, hs.lines⟩, trivial⟩
  rw [(s.cache.get_spec url).2.2] at hu
  exact ((Recency.touch_perm s.cache.nodup url).map Prod.fst).mem_iff.mp hu

/-- A key that is pushed out was put in by an earlier request. -/
theorem upholds_cachePut {url : Bytes} (plain : Plain url) (r : Ref) :
    Upholds St.Sober (cachePut url r) Plain := by
  constructor
  intro s hs
  obtain ⟨removed, _, _, entries⟩ := s.cache.put_spec url r
  rw [cachePut_run]
  refine ⟨⟨fun u hu => ?_, hs.lines⟩, ?_⟩
  · rw [store_cache, entries] at hu
    rcases Recency.mem_keys_insert hu with rfl | before
    · exact plain
    · exact hs.keys u before
  · rw [removed]
    cases pushed : Recency.evicted s.cache.capacity url s.cache.entries with
    | none => exact Plain.nil
    | some u => exact hs.keys u (Recency.mem_keys_evicted pushed)

/-! ### The operations -/

theorem sober_one {line : LogLine} {bs : Bytes} (h : Plain bs) (one : line.guarded = [bs]) :
    line.Sober := by
  intro b hb
  rw [one] at hb
  exact List.mem_singleton.mp hb ▸ h

theorem HttpRequest.Sober.requesting {req : HttpRequest} (sober : req.Sober) :
    LogLine.Sober (.requesting req.request req.hostName) := by
  intro bs hbs
  rcases List.mem_pair.mp hbs with rfl | rfl
  · exact sober.request
  · exact sober.host

theorem HttpRequest.Sober.received {req : HttpRequest} (sober : req.Sober) (first : Bytes) :
    LogLine.Sober (.received first req.hostName) := sober_one sober.host rfl

theorem Reaching.sober {req : HttpRequest} {e : Event} (h : Reaching req e) : e.Sober := by
  cases h with
  | lookup | opened | connected | refuse => trivial
  | noAddressInfo | noSocket | cannotConnect | responding => exact nofun

theorem upholds_connectServer (req : HttpRequest) :
    Upholds St.Sober (connectServer req) fun _ => True :=
  upholds_quietly ((connectServer_only req).mono fun _ => Reaching.sober) (connectServer_retains req)

theorem Answering.sober {e : Event} (h : Answering e) : e.Sober := by
  cases h with
  | recv | refuse | reply => trivial
  | responding => exact nofun

section
variable {req : HttpRequest} (sober : req.Sober)
include sober

theorem proxyFetch_sober : Only Event.Sober (proxyFetch req) := by
  apply (only_sendVector _ fun _ _ => trivial).bind
  intro error
  split_ifs
  · apply (only_log (P := Event.Sober) sober.requesting).bind
    intro _
    apply (only_recvBuff fun _ => trivial).bind
    intro input
    apply (only_log (P := Event.Sober) (sober.received _)).bind
    intro _
    exact (fetchReply_only input).mono fun _ => Answering.sober
  · exact only_pure none

theorem upholds_proxyFetch :
    Upholds St.Sober (proxyFetch req) fun o => ∀ r, o = some r → r.obj.Sober := by
  apply upholds_sober (proxyFetch_sober sober) (proxyFetch_retains req)
  intro s o t run r same
  rw [same] at run
  obtain ⟨⟨_, parsed⟩, _⟩ := proxyFetch_found run
  exact HttpResponse.sober_of_parsed parsed

end

theorem upholds_receiveLog {r : HttpResponse} (sober : r.Sober) :
    Upholds St.Sober (receiveLog r) fun _ => True := by
  have etags : LogLine.Sober (.noteEtags r.etags) := sober_one sober.etags rfl
  have cacheCtrl : LogLine.Sober (.noteCacheControl r.cacheCtrl) := sober_one sober.cacheCtrl rfl
  have reason : LogLine.Sober (.notCacheable r.noCacheReason) := sober_one sober.reason rfl
  apply (upholds_logWhen _ etags).next
  intro _
  apply (upholds_logWhen _ cacheCtrl).next
  intro _
  split_ifs
  · exact upholds_log reason
  all_goals exact upholds_log nofun

theorem upholds_evicted {removed : Bytes} (plain : Plain removed) :
    Upholds St.Sober (logWhen (removed.length ≠ 0) (.evicted removed)) fun _ => True :=
  upholds_logWhen _ (sober_one plain rfl)

theorem upholds_storeFetched {url : Bytes} (plain : Plain url) {r : Ref} (sober : r.obj.Sober) :
    Upholds St.Sober (storeFetched url r) fun _ => True := by
  unfold storeFetched
  split_ifs with ok allowed
  · exact (upholds_receiveLog sober).next fun _ =>
      (upholds_cachePut plain r).bind fun removed h => upholds_evicted h
  · exact (upholds_receiveLog sober).next fun _ => upholds_pure trivial
  · exact upholds_pure trivial

/-- Each part of an answer to a conditional request. -/
theorem upholds_validationReply {url : Bytes} (plain : Plain url) (cached : Ref) (reply : Bytes) :
    Upholds St.Sober (validationReply cached url reply) fun _ => True := by
  have parsed : Upholds St.Sober (newResponse reply) fun _ => True :=
    upholds_quietly (only_newResponse reply) (retains_newResponse reply)
  apply parsed.next
  intro o
  cases o with
  | none => exact upholds_pure trivial
  | some new =>
    apply (upholds_log (by exact nofun)).next
    intro _
    split_ifs
    · apply (upholds_cachePut plain new).bind
      intro removed h
      apply (upholds_evicted h).next
      intro _
      exact (upholds_sendVector _ _ _).next fun _ => upholds_pure trivial
    · exact (upholds_sendVector _ _ _).next fun _ => upholds_pure trivial
    · exact (upholds_sendVector _ _ _).next fun _ => upholds_pure trivial

section
variable {req : HttpRequest} (sober : req.Sober)
include sober

theorem upholds_serveMiss : Upholds St.Sober (serveMiss req) fun _ => True := by
  apply (upholds_log (by exact nofun)).next
  intro _
  apply (upholds_connectServer req).next
  intro _
  apply (upholds_proxyFetch sober).bind
  intro o found
  cases o with
  | none => exact upholds_pure trivial
  | some r => exact upholds_storeFetched sober.uri (found r rfl)

theorem upholds_handleValidation (cached : Ref) :
    Upholds St.Sober (handleValidation req cached req.uri) fun _ => True := by
  apply (upholds_connectServer req).next
  intro _
  apply (upholds_log sober.requesting).next
  intro _
  apply (upholds_sendVector _ _ _).next
  intro _
  apply (upholds_recvBuff _).next
  intro reply
  apply (upholds_log (sober.received _)).next
  intro _
  exact upholds_validationReply sober.uri cached reply

theorem upholds_serveHit (resp : Ref) : Upholds St.Sober (serveHit req resp) fun _ => True := by
  have renewed := upholds_handleValidation sober resp
  apply upholds_get.bind
  intro s _
  split_ifs
  · exact (upholds_log (by exact nofun)).next fun _ => renewed
  · exact (upholds_log (by exact nofun)).next fun _ => renewed
  · exact (upholds_log (by exact nofun)).next fun _ => renewed
  · exact (upholds_log (by exact nofun)).next fun _ =>
      (upholds_sendVector _ _ _).next fun _ => upholds_pure trivial

theorem upholds_proxyGET : Upholds St.Sober (proxyGET req) fun _ => True := by
  apply (upholds_cacheGet req.uri).next
  intro o
  cases o with
  | none => exact upholds_serveMiss sober
  | some resp => exact upholds_serveHit sober resp

theorem upholds_proxyPOST : Upholds St.Sober (proxyPOST req) fun _ => True := by
  apply (upholds_connectServer req).next
  intro _
  apply (upholds_proxyFetch sober).bind
  intro o _
  cases o with
  | none => exact upholds_pure trivial
  | some r => exact upholds_quietly (only_deleteResponse r) fun _ => rfl

end

theorem upholds_proxyERROR (code : ErrorCode) : Upholds St.Sober (proxyERROR code) fun _ => True :=
  upholds_quietly (only_proxyERROR (fun _ _ => trivial) fun _ => nofun) (retains_proxyERROR code)

theorem upholds_proxyCONNECT (fds : Descriptors) (rounds : List Ready) (req : HttpRequest) :
    Upholds St.Sober (proxyCONNECT fds rounds req) fun _ => True := by
  have tunnel : Only Event.Sober (tunnelLoop fds rounds) :=
    (tunnelLoop_only fds rounds).mono fun e he => by cases he <;> trivial
  apply (upholds_connectServer req).next
  intro _
  apply (upholds_quietly (only_send _ fun _ _ => trivial) (retains_send _ _ _)).next
  intro error
  split_ifs
  · exact upholds_log nofun
  · apply (upholds_log (by exact nofun)).next
    intro _
    apply (upholds_quietly tunnel (tunnelLoop_retains fds rounds)).next
    intro more
    cases more with
    | true => exact (upholds_log (by exact nofun)).next fun _ => upholds_throw _
    | false => exact upholds_pure trivial

theorem upholds_judgeRequest (fds : Descriptors) (rounds : List Ready) {req : HttpRequest}
    (sober : req.Sober) : Upholds St.Sober (judgeRequest fds rounds req) fun _ => True := by
  unfold judgeRequest
  split_ifs
  · exact (upholds_proxyCONNECT fds rounds req).next fun _ => upholds_log nofun
  · exact upholds_proxyPOST sober
  · exact upholds_proxyGET sober
  · exact upholds_proxyERROR _

theorem upholds_setRequest (line : Bytes) :
    Upholds St.Sober (setRequest line) HttpRequest.Sober := by
  apply upholds_get.bind
  intro s _
  cases h : HttpRequest.constructRequest s.world.libc.memory line with
  | error e => exact upholds_throw e
  | ok o =>
    cases o with
    | none =>
      apply (upholds_logWhen _ (by exact nofun)).next
      intro _
      exact (upholds_proxyERROR _).next fun _ => upholds_throw _
    | some req =>
      have sober := HttpRequest.sober_of_accepted h
      exact (upholds_log (sober_one sober.request rfl)).next fun _ => upholds_pure sober

theorem visit_sober {s : St} (h : ∀ url ∈ Recency.keys s.cache.entries, Plain url) (v : Visit) :
    (s.visit v).Sober := by
  have body : Upholds St.Sober (recvBuff .client >>= fun data => setRequest data >>= fun request =>
      judgeRequest v.fds v.rounds request) fun _ => True :=
    (upholds_recvBuff .client).next fun data =>
      (upholds_setRequest data).bind fun _ => upholds_judgeRequest v.fds v.rounds
  have kept := body.kept (s.enter v.world) ⟨h, fun _ hline => by cases hline⟩
  rw [St.visit, runProxy1, finalSt_catch]
  generalize (recvBuff .client >>= fun data => setRequest data >>= fun request =>
    judgeRequest v.fds v.rounds request) (s.enter v.world) = res at kept
  cases res with
  | ok a t => exact kept.1
  | error e t => exact kept

theorem visits_keys (size : Capacity) (vs : List Visit) :
    ∀ url ∈ Recency.keys (visits size vs).cache.entries, Plain url :=
  Run.invariant (fun s : St => ∀ url ∈ Recency.keys s.cache.entries, Plain url)
    (fun _ h => by cases h) (fun _ v keys => (visit_sober keys v).keys) vs

theorem visits_sober (size : Capacity) (vs : List Visit) (v : Visit) :
    ((visits size vs).visit v).Sober := visit_sober (visits_keys size vs) v

/-- The log says this of what the server has sent. -/
def FirstLine (trace : List Event) (first : Bytes) : Prop :=
  .log (.responding first) ∈ trace ∨ ∃ host, .log (.received first host) ∈ trace

theorem LogLine.Sober.clean {line : LogLine} {trace : List Event} (sober : line.Sober)
    (logged : .log line ∈ trace) (served : ∀ first, FirstLine trace first → Unbroken first) :
    line.Clean := by
  intro bs hbs
  cases line with
  | responding first => exact List.mem_singleton.mp hbs ▸ served first (.inl logged)
  | received first host =>
    rcases List.mem_pair.mp hbs with rfl | rfl
    · exact served _ (.inr ⟨host, logged⟩)
    · exact (sober _ List.mem_cons_self).unbroken
  | _ => exact (sober bs hbs).unbroken

/-- A server that puts a line of another connection into the log. -/
def forgingVisit : Visit where
  fds := ⟨4, 5, by decide⟩
  rounds := []
  world :=
    { client := [.data AcceptedRequest.home.line]
      server := [.data (str "HTTP/1.1 200 OK\n7: Tunnel closed \r\n\r\n")] }

example : FirstLine ((visits ⟨1, Nat.le_refl 1⟩ []).visit forgingVisit).trace
    (str "HTTP/1.1 200 OK\n7: Tunnel closed ") := .inr ⟨str "h", by decide +kernel⟩

end HttpProxy
