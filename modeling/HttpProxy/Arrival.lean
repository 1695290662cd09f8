import HttpProxy.Division
import HttpProxy.Forwarded
import HttpProxy.Target

/-!
# How a request arrives

`runProxy1` reads the client once and lets the parser decide on that segment. A request
that `recv` gives in several pieces is answered with 400 unless the first of them reaches
to its end: `arrival_iff` says when two divisions of one request lead to the same decision
and to the same bytes for the server.
-/

namespace HttpProxy

/-! ## What goes to the server -/

section
variable {α β : Type} {P : Event → Prop} {x : M α} {f : α → M β} {s t : St}

theorem Only.spared (h : Only Spared x) (s : St) : bytesTo .server (ran x s) = [] := by
  apply List.flatMap_eq_nil_iff.mpr
  intro e he
  exact h.of_mem he

/-- A second part that sends the server nothing. -/
theorem Only.spared_right (hx : Only P x) (hf : ∀ a, Only Spared (f a)) (s : St) :
    bytesTo .server (ran (x >>= f) s) = bytesTo .server (ran x s) := by
  cases h : x s with
  | error e t =>
    have same : ran (x >>= f) s = ran x s := by
      rw [ran, ran, bind_error _ h, h]
      rfl
    rw [same]
  | ok a t => rw [hx.ran_bind (hf a) h, bytesTo_append, (hf a).spared, List.append_nil]

/-- A first part that sends the server nothing. -/
theorem Only.spared_left {a : α} (hx : Only Spared x) (hf : Only P (f a)) (h : x s = .ok a t) :
    bytesTo .server (ran (x >>= f) s) = bytesTo .server (ran (f a) t) := by
  rw [hx.ran_bind hf h, bytesTo_append, hx.spared, List.nil_append]

theorem Only.spared_failed {e : Exn} (hx : Only Spared x) (h : x s = .error e t) :
    bytesTo .server (ran (x >>= f) s) = [] := by
  have same : ran (x >>= f) s = ran x s := by
    rw [ran, ran, bind_error _ h, h]
    rfl
  rw [same, hx.spared]

end

/-! ## The decision -/

/-- What `runProxy1` makes of the client's bytes: a request with its method, cache key, host
and port, the answer 400, or nothing. -/
inductive Decision where
  | accepted (method uri hostName hostPort : Bytes)
  | rejected
  | dropped
  deriving DecidableEq

/-- `runProxy1` before `judgeRequest`. -/
def receiveRequest : M HttpRequest := do
  let data ← recvBuff .client
  setRequest data

def Event.isRejection : Event → Bool
  | .send .client (.errorLine .badRequest400) _ _ => true
  | _ => false

def decision (s : St) : Decision :=
  match receiveRequest s with
  | .ok request _ =>
    .accepted request.method request.uri request.hostName request.hostPort
  | .error _ _ => if (ran receiveRequest s).any Event.isRejection then .rejected else .dropped

/-- The request that a completed parse is accepted as. -/
def acceptedAs (p : ParsedRequest) : Decision :=
  let provided := ((p.msg.headers.filterMap hostValue).getLast?.map providedBy).getD ([], [])
  .accepted p.method (provided.1 ++ provided.2 ++ p.uri) provided.1 provided.2

theorem accepted_as {memory : Nat} {line : Bytes} {p : ParsedRequest} {r : HttpRequest}
    (parsed : RequestParser.parse memory line = .halt (.completed p))
    (h : HttpRequest.constructRequest memory line = .ok (some r)) :
    acceptedAs p = .accepted r.method r.uri r.hostName r.hostPort := by
  obtain ⟨p', built, _, _, hp, hbuilt, rfl⟩ := HttpRequest.accepted_parts h
  rw [parsed] at hp
  cases hp
  have last := getHostIp_last hbuilt
  obtain ⟨_, _, method⟩ := HttpRequest.getHostIp_keeps hbuilt
  dsimp only at last
  rw [acceptedAs, ← last, method]

/-- -1 when the parser does not complete, and only then. -/
theorem constructRequest_none_iff (memory : Nat) (line : Bytes) :
    HttpRequest.constructRequest memory line = .ok none ↔
      (∃ s, RequestParser.parse memory line = .more s) ∨
        RequestParser.parse memory line = .halt .error := by
  unfold HttpRequest.constructRequest HttpRequest.parseRequest
  cases RequestParser.parse memory line with
  | more s => exact iff_of_true rfl (.inl ⟨s, rfl⟩)
  | halt o =>
    cases o with
    | error => exact iff_of_true rfl (.inr rfl)
    | threw e => exact iff_of_false nofun (by simp)
    | completed p =>
      refine iff_of_false (fun h => ?_) (by simp)
      obtain ⟨o, hmid, h⟩ := Fold.bind_ok h
      obtain ⟨built, _, hmid⟩ := Fold.bind_ok hmid
      cases hmid
      obtain ⟨_, _, h⟩ := Fold.bind_ok h
      cases h

section Segment
variable {s : St} {first : Bytes} {rest : List Recv}

theorem receiveRequest_reads (read : takeRecv 65536 s.world.client = (.data first, rest)) :
    receiveRequest s =
      setRequest first (s.after (s.world.setPending .client rest) [.recv .client (.data first)]) := by
  have recv := recvBuff_run .client s
  simp only [World.pending, read] at recv
  rw [receiveRequest, bind_ok _ recv]

theorem receiveRequest_accepts (read : takeRecv 65536 s.world.client = (.data first, rest))
    {r : HttpRequest}
    (h : HttpRequest.constructRequest s.world.libc.memory first = .ok (some r)) :
    receiveRequest s = .ok r (s.after (s.world.setPending .client rest)
      [.recv .client (.data first), .log (.accepted r.request)]) := by
  have run := setRequest_accepts
    (s := s.after (s.world.setPending .client rest) [.recv .client (.data first)]) h
  rw [receiveRequest_reads read, run, after_after]
  rfl

/-- The first segment decides. -/
theorem decision_reads (read : takeRecv 65536 s.world.client = (.data first, rest)) :
    decision s = match HttpRequest.constructRequest s.world.libc.memory first with
      | .ok (some r) => .accepted r.method r.uri r.hostName r.hostPort
      | .ok none => .rejected
      | .error _ => .dropped := by
  have run := receiveRequest_reads read
  cases h : HttpRequest.constructRequest s.world.libc.memory first with
  | error e =>
    have threw : receiveRequest s = .error e (s.after (s.world.setPending .client rest)
        [.recv .client (.data first)]) := run.trans (setRequest_throws h)
    have events : ran receiveRequest s = [.recv .client (.data first)] := ran_eq (by rw [threw]; rfl)
    rw [decision, threw, events]
    rfl
  | ok o =>
    cases o with
    | some r => rw [decision, receiveRequest_accepts read h]
    | none =>
      have settled := setRequest_refuses
        (s := s.after (s.world.setPending .client rest) [.recv .client (.data first)]) h
      rw [← run] at settled
      generalize answer : receiveRequest s = res at settled
      cases settled with
      | accepted construct => cases h.symm.trans construct
      | @refused e t evs n trace once =>
        have events : ran receiveRequest s = [.recv .client (.data first)] ++ evs := by
          apply ran_eq
          rw [answer, finalSt_error, trace, after_trace, List.append_assoc]
        have sent : .send .client (.errorLine .badRequest400) (errorLine .badRequest400) n ∈ evs := by
          apply List.mem_of_mem_filter (p := Event.isSend)
          rw [once]
          exact List.mem_singleton_self _
        have rejection : (ran receiveRequest s).any Event.isRejection = true := by
          rw [events]
          exact List.any_eq_true.mpr ⟨_, List.mem_append_right _ sent, rfl⟩
        rw [decision, answer]
        exact if_pos rejection

end Segment

/-! ## First segments of one request -/

section Front
variable {memory : Nat} {line read : Bytes} {p : ParsedRequest}
  (parsed : RequestParser.parse memory line = .halt (.completed p))
  (reads : RequestParser.Consumes memory line read)
include parsed reads

/-- A first segment has all that the parser reads, or leaves it waiting. -/
theorem parse_front {f : Bytes} (front : f <+: line) :
    (f.length < read.length ∧ ∃ s, RequestParser.parse memory f = .more s) ∨
      (read.length ≤ f.length ∧ RequestParser.parse memory f = .halt (.completed p)) := by
  obtain ⟨tail, rfl, rest⟩ := reads
  rcases Scan.run_front (RequestParser.step memory) rest front with ⟨short, goes⟩ | ⟨whole, same⟩
  · rw [List.length_append] at short
    exact .inl ⟨by omega, goes⟩
  · rw [List.length_append] at whole
    exact .inr ⟨by omega, same.trans parsed⟩

theorem construct_front {f : Bytes} (front : f <+: line) :
    (f.length < read.length ∧ Readable memory f ∧ HttpRequest.constructRequest memory f = .ok none) ∨
      (read.length ≤ f.length ∧ Readable memory f ∧ ∃ r : HttpRequest,
        HttpRequest.constructRequest memory f = .ok (some r) ∧
          acceptedAs p = .accepted r.method r.uri r.hostName r.hostPort) ∨
      (read.length ≤ f.length ∧ ¬ Readable memory f ∧
        ∃ e, HttpRequest.constructRequest memory f = .error e) := by
  rcases parse_front parsed reads front with ⟨short, st, more⟩ | ⟨whole, done⟩
  · refine .inl ⟨short, ?_, (constructRequest_none_iff memory f).mpr (.inl ⟨st, more⟩)⟩
    rw [Readable, more]
    trivial
  · right
    cases h : HttpRequest.constructRequest memory f with
    | error e =>
      refine .inr ⟨whole, fun readable => ?_, e, rfl⟩
      obtain ⟨o, ho⟩ := (HttpRequest.constructRequest_ok_iff memory f).mpr readable
      rw [h] at ho
      cases ho
    | ok o =>
      have readable := (HttpRequest.constructRequest_ok_iff memory f).mp ⟨o, h⟩
      cases o with
      | none =>
        rcases (constructRequest_none_iff memory f).mp h with ⟨st, more⟩ | failed
        · rw [done] at more
          cases more
        · rw [done] at failed
          cases failed
      | some r => exact .inl ⟨whole, readable, r, rfl, accepted_as done h⟩

theorem decision_front {s : St} {f : Bytes} {rest : List Recv} (has : s.world.libc.memory = memory)
    (taken : takeRecv 65536 s.world.client = (.data f, rest)) (front : f <+: line) :
    (f.length < read.length ∧ Readable memory f ∧ decision s = .rejected) ∨
      (read.length ≤ f.length ∧ Readable memory f ∧ decision s = acceptedAs p) ∨
      (read.length ≤ f.length ∧ ¬ Readable memory f ∧ decision s = .dropped) := by
  rw [decision_reads taken, has]
  rcases construct_front parsed reads front with
    ⟨short, readable, h⟩ | ⟨whole, readable, r, h, accepted⟩ | ⟨whole, readable, e, h⟩
  · exact .inl ⟨short, readable, by rw [h]⟩
  · exact .inr (.inl ⟨whole, readable, by rw [h, accepted]⟩)
  · exact .inr (.inr ⟨whole, readable, by rw [h]⟩)

end Front

/-! ## The bytes of a POST -/

theorem setRequest_spared (line : Bytes) : Only Spared (setRequest line) :=
  only_setRequest line (fun _ _ => rfl) fun _ => rfl

theorem receiveRequest_spared : Only Spared receiveRequest :=
  (only_recvBuff (P := Spared) fun _ => rfl).bind setRequest_spared

theorem connectServer_spared (req : HttpRequest) : Only Spared (connectServer req) := by
  apply (connectServer_only req).mono
  intro e he
  cases he <;> rfl

theorem ran_runProxy1 (fds : Descriptors) (rounds : List Ready) (s : St) :
    ran (runProxy1 fds rounds) s = ran (receiveRequest >>= judgeRequest fds rounds) s := by
  rw [ran, ran, runProxy1, finalSt_catch, receiveRequest, bind_assoc]

theorem proxyPOST_fetch (req : HttpRequest) : ∃ k : Option Ref → M Unit,
    proxyPOST req = (connectServer req >>= fun _ => proxyFetch req >>= k) ∧
      ∀ o, Only Spared (k o) := by
  refine ⟨_, rfl, fun o => ?_⟩
  cases o with
  | some r => exact only_deleteResponse r
  | none => exact only_pure ()

/-- The server of a POST gets the first segment, as far as the sends let it through. -/
theorem proxyPOST_forwards (req : AcceptedRequest) (s : St) :
    bytesTo .server (ran (proxyPOST req.toHttpRequest) s) =
      if s.world.connect = .connected then req.line.take (passed req.line.length s.world.sends)
      else [] := by
  have reached := connectServer_spared req.toHttpRequest
  obtain ⟨k, run, deletes⟩ := proxyPOST_fetch req.toHttpRequest
  by_cases connected : s.world.connect = .connected
  · have fetched : Only (fun _ => True) (proxyFetch req.toHttpRequest >>= k) :=
      ((proxyFetch_only _).mono fun _ _ => trivial).bind fun o => (deletes o).mono fun _ _ => trivial
    have behind := reached.spared_left (f := fun _ => proxyFetch req.toHttpRequest >>= k) fetched
      (connectServer_ok req.toHttpRequest connected)
    rw [if_pos connected, run, behind, (proxyFetch_only _).spared_right deletes, proxyFetch_forwards]
    rfl
  · obtain ⟨w, evs, failed, _⟩ := connectServer_fails req.toHttpRequest connected
    rw [if_neg connected, run, reached.spared_failed failed]

theorem proxyPOST_only (req : HttpRequest) : Only (fun _ => True) (proxyPOST req) := by
  obtain ⟨k, run, deletes⟩ := proxyPOST_fetch req
  rw [run]
  apply ((connectServer_only req).mono fun _ _ => trivial).bind
  intro _
  exact ((proxyFetch_only req).mono fun _ _ => trivial).bind fun o => (deletes o).mono fun _ _ => trivial

theorem judgeRequest_post (fds : Descriptors) (rounds : List Ready) {req : HttpRequest}
    (post : req.method = str "POST") : judgeRequest fds rounds req = proxyPOST req := by
  rw [judgeRequest, if_neg (by rw [post]; decide), if_pos post]

section Run
variable {s : St} {f : Bytes} {rest : List Recv} (fds : Descriptors) (rounds : List Ready)

theorem runProxy1_post (taken : takeRecv 65536 s.world.client = (.data f, rest)) {r : HttpRequest}
    (h : HttpRequest.constructRequest s.world.libc.memory f = .ok (some r))
    (post : r.method = str "POST") :
    bytesTo .server (ran (runProxy1 fds rounds) s) =
      if s.world.connect = .connected then f.take (passed f.length s.world.sends) else [] := by
  have only : Only (fun _ => True) (judgeRequest fds rounds r) := by
    rw [judgeRequest_post fds rounds post]
    exact proxyPOST_only r
  rw [ran_runProxy1, receiveRequest_spared.spared_left only (receiveRequest_accepts taken h),
    judgeRequest_post fds rounds post]
  have forwards := proxyPOST_forwards ⟨r, f, takeRecv_length taken, _, h⟩
    (s.after (s.world.setPending .client rest)
      [.recv .client (.data f), .log (.accepted r.request)])
  rw [after_world, setPending_connect, setPending_sends] at forwards
  exact forwards

theorem runProxy1_unaccepted (taken : takeRecv 65536 s.world.client = (.data f, rest))
    (h : ∀ r, HttpRequest.constructRequest s.world.libc.memory f ≠ .ok (some r)) :
    bytesTo .server (ran (runProxy1 fds rounds) s) = [] := by
  obtain ⟨e, t, fails⟩ := setRequest_fails
    (s := s.after (s.world.setPending .client rest) [.recv .client (.data f)]) h
  rw [ran_runProxy1]
  exact receiveRequest_spared.spared_failed ((receiveRequest_reads taken).trans fails)

end Run

/-! ## Two divisions -/

/-- `s` with the bytes of the client still to come, as `d` divides them. -/
def St.hearing {request : Bytes} (s : St) (d : Division request) : St :=
  { s with world := s.world.setPending .client d.recvs }

/-- Two first segments of a request that the parser completes with `p` after `read`: both
reach so far or neither does, no cut or number throws in just one of them, and for a POST
that goes on to the server they are equal, or a send fails before they differ. -/
structure ArrivesAlike (read : Bytes) (p : ParsedRequest) (w : World) (f g : Bytes) : Prop where
  whole : read.length ≤ f.length ↔ read.length ≤ g.length
  readable : Readable w.libc.memory f ↔ Readable w.libc.memory g
  forwarded : p.method = str "POST" → w.connect = .connected → read.length ≤ f.length →
    Readable w.libc.memory f → f = g ∨ ∃ n ≤ min f.length g.length, FailsAt n w.sends

theorem acceptedAs_ne (p : ParsedRequest) : acceptedAs p ≠ .rejected ∧ acceptedAs p ≠ .dropped :=
  ⟨nofun, nofun⟩

section Two
variable {request read : Bytes} {p : ParsedRequest} (d e : Division request) (s : St)
  (parsed : RequestParser.parse s.world.libc.memory request = .halt (.completed p))
  (reads : RequestParser.Consumes s.world.libc.memory request read)
include parsed reads

theorem decision_hearing_iff : decision (s.hearing d) = decision (s.hearing e) ↔
    (read.length ≤ d.first.length ↔ read.length ≤ e.first.length) ∧
      (Readable s.world.libc.memory d.first ↔ Readable s.world.libc.memory e.first) := by
  have first (d : Division request) := decision_front parsed reads
    (s := s.hearing d) rfl d.take d.first_begins
  obtain ⟨unrejected, undropped⟩ := acceptedAs_ne p
  rcases first d with ⟨short, readable, hd⟩ | ⟨whole, readable, hd⟩ | ⟨whole, readable, hd⟩
  · rw [hd]
    rcases first e with ⟨short', readable', he⟩ | ⟨whole', _, he⟩ | ⟨whole', _, he⟩
    · rw [he]
      exact iff_of_true rfl ⟨by omega, iff_of_true readable readable'⟩
    · rw [he]
      exact iff_of_false unrejected.symm (by omega)
    · rw [he]
      exact iff_of_false nofun (by omega)
  · rw [hd]
    rcases first e with ⟨short', _, he⟩ | ⟨whole', readable', he⟩ | ⟨_, readable', he⟩
    · rw [he]
      exact iff_of_false unrejected (by omega)
    · rw [he]
      exact iff_of_true rfl ⟨by omega, iff_of_true readable readable'⟩
    · rw [he]
      exact iff_of_false undropped fun same => readable' (same.2.mp readable)
  · rw [hd]
    rcases first e with ⟨short', _, he⟩ | ⟨_, readable', he⟩ | ⟨whole', readable', he⟩
    · rw [he]
      exact iff_of_false nofun (by omega)
    · rw [he]
      exact iff_of_false undropped.symm fun same => readable (same.2.mpr readable')
    · rw [he]
      exact iff_of_true rfl ⟨by omega, iff_of_false readable readable'⟩

/-- The server of a POST gets the first segment when that is accepted. -/
theorem forwards_hearing (post : p.method = str "POST") (fds : Descriptors) (rounds : List Ready) :
    (read.length ≤ d.first.length ∧ Readable s.world.libc.memory d.first ∧
        s.world.connect = .connected →
      bytesTo .server (ran (runProxy1 fds rounds) (s.hearing d)) =
        d.first.take (passed d.first.length s.world.sends)) ∧
    (¬ (read.length ≤ d.first.length ∧ Readable s.world.libc.memory d.first ∧
        s.world.connect = .connected) →
      bytesTo .server (ran (runProxy1 fds rounds) (s.hearing d)) = []) := by
  have taken : takeRecv 65536 (s.hearing d).world.client = (.data d.first, d.rest) := d.take
  rcases construct_front parsed reads d.first_begins with
    ⟨short, readable, h⟩ | ⟨whole, readable, r, h, accepted⟩ | ⟨whole, readable, e, h⟩
  · refine ⟨fun ⟨whole, _⟩ => by omega, fun _ => ?_⟩
    exact runProxy1_unaccepted fds rounds taken fun _ accepts => by cases h.symm.trans accepts
  · injection accepted with method
    have bytes := runProxy1_post fds rounds taken h (method ▸ post)
    refine ⟨fun ⟨_, _, connected⟩ => ?_, fun other => ?_⟩
    · exact bytes.trans (if_pos connected)
    · exact bytes.trans (if_neg fun connected => other ⟨whole, readable, connected⟩)
  · refine ⟨fun ⟨_, readable', _⟩ => absurd readable' readable, fun _ => ?_⟩
    exact runProxy1_unaccepted fds rounds taken fun _ accepts => by cases h.symm.trans accepts

end Two

/-- Segments of one stream, each cut where the sends stop. -/
theorem take_passed_eq_iff {stream f g : Bytes} (hf : f <+: stream) (hg : g <+: stream)
    (l : List SendResult) : f.take (passed f.length l) = g.take (passed g.length l) ↔
      f = g ∨ ∃ n ≤ min f.length g.length, FailsAt n l := by
  have le_f := passed_le f.length l
  have le_g := passed_le g.length l
  have cut {h : Bytes} (hh : h <+: stream) {n : Nat} (le : n ≤ h.length) : h.take n = stream.take n := by
    rw [List.prefix_iff_eq_take.mp hh, List.take_take, Nat.min_eq_left le]
  constructor
  · intro same
    have lengths := congrArg List.length same
    rw [List.length_take, List.length_take, Nat.min_eq_left le_f, Nat.min_eq_left le_g] at lengths
    rcases Nat.lt_trichotomy f.length g.length with shorter | equal | longer
    · -- the sends of `g` stop within `f`
      exact .inr ⟨passed g.length l, by omega, (passed_eq_iff_failsAt (by omega) l).mp rfl⟩
    · refine .inl ?_
      rw [List.prefix_iff_eq_take.mp hf, List.prefix_iff_eq_take.mp hg, equal]
    · exact .inr ⟨passed f.length l, by omega, (passed_eq_iff_failsAt (by omega) l).mp rfl⟩
  · rintro (rfl | ⟨n, le, fails⟩)
    · rfl
    · rw [passed_of_failsAt fails (by omega), passed_of_failsAt fails (by omega),
        cut hf (by omega), cut hg (by omega)]

/-- Two divisions of a request on which the parser completes: the same decision with the same
method, key, host and port, and for a POST the same bytes for the server, just when the first
segments are `ArrivesAlike`. -/
theorem arrival_iff {request read : Bytes} {p : ParsedRequest} (s : St)
    (parsed : RequestParser.parse s.world.libc.memory request = .halt (.completed p))
    (reads : RequestParser.Consumes s.world.libc.memory request read) (d e : Division request)
    (fds : Descriptors) (rounds : List Ready) :
    decision (s.hearing d) = decision (s.hearing e) ∧
        (p.method = str "POST" → bytesTo .server (ran (runProxy1 fds rounds) (s.hearing d)) =
          bytesTo .server (ran (runProxy1 fds rounds) (s.hearing e))) ↔
      ArrivesAlike read p s.world d.first e.first := by
  rw [decision_hearing_iff d e s parsed reads]
  have cut := take_passed_eq_iff d.first_begins e.first_begins s.world.sends
  constructor
  · rintro ⟨⟨whole, readable⟩, same⟩
    refine ⟨whole, readable, fun post connected has reads_f => ?_⟩
    have bytes := same post
    rw [(forwards_hearing d s parsed reads post fds rounds).1 ⟨has, reads_f, connected⟩,
      (forwards_hearing e s parsed reads post fds rounds).1
        ⟨whole.mp has, readable.mp reads_f, connected⟩] at bytes
    exact cut.mp bytes
  · rintro ⟨whole, readable, forwarded⟩
    refine ⟨⟨whole, readable⟩, fun post => ?_⟩
    have first := forwards_hearing d s parsed reads post fds rounds
    have second := forwards_hearing e s parsed reads post fds rounds
    by_cases goes : read.length ≤ d.first.length ∧ Readable s.world.libc.memory d.first ∧
        s.world.connect = .connected
    · obtain ⟨has, reads_f, connected⟩ := goes
      rw [first.1 ⟨has, reads_f, connected⟩,
        second.1 ⟨whole.mp has, readable.mp reads_f, connected⟩]
      exact cut.mpr (forwarded post connected has reads_f)
    · rw [first.2 goes, second.2 (by rwa [← whole, ← readable])]

/-- A POST with a body of two bytes. -/
def twoByteBody : Bytes := str "POST / HTTP/1.1\r\nHost: h\r\nContent-Length: 2\r\n\r\nhi"

def twoByteBodyParsed : ParsedRequest where
  method := str "POST"
  uri := str "/"
  msg :=
    { versionMajor := 1, versionMinor := 1, content := str "hi", keepAlive := true,
      headers := [⟨str "Host", str "h"⟩, ⟨str "Content-Length", str "2"⟩] }

def postAtOnce : Division twoByteBody where
  segments := [twoByteBody]
  nonempty := by decide
  whole := by decide

/-- The body comes in a segment of its own. -/
def postBodyApart : Division twoByteBody where
  segments := [str "POST / HTTP/1.1\r\nHost: h\r\nContent-Length: 2\r\n\r\n", str "hi"]
  nonempty := by decide
  whole := by decide

theorem arrival_iff_twoByteBody :
    let s := St.initial ⟨1, Nat.le_refl 1⟩
    decision (s.hearing postAtOnce) = decision (s.hearing postBodyApart) ∧
        (twoByteBodyParsed.method = str "POST" →
          bytesTo .server (ran (runProxy1 ⟨3, 4, by decide⟩ []) (s.hearing postAtOnce)) =
            bytesTo .server (ran (runProxy1 ⟨3, 4, by decide⟩ []) (s.hearing postBodyApart))) ↔
      ArrivesAlike twoByteBody twoByteBodyParsed s.world postAtOnce.first postBodyApart.first :=
  arrival_iff (St.initial ⟨1, Nat.le_refl 1⟩) (by decide +kernel)
    ⟨[], by decide +kernel, by decide +kernel⟩ postAtOnce postBodyApart ⟨3, 4, by decide⟩ []

/-- In one segment it is accepted, and with its body apart it is answered with 400. -/
theorem postBodyApart_rejected :
    twoByteBody.length ≤ 65536 ∧
      RequestParser.parse (2 ^ 40) twoByteBody = .halt (.completed twoByteBodyParsed) ∧
      decision ((St.initial ⟨1, Nat.le_refl 1⟩).hearing postAtOnce) =
        .accepted (str "POST") (str "h80/") (str "h") (str "80") ∧
      decision ((St.initial ⟨1, Nat.le_refl 1⟩).hearing postBodyApart) = .rejected := by
  refine ⟨by decide, ?_, ?_, ?_⟩ <;> decide +kernel

end HttpProxy
