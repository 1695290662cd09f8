import HttpProxy.Policy

/-!
# Requests that `setRequest` accepts

`setRequest` reads the client once, at most 65536 bytes, and goes on only when
`constructRequest` succeeds on them. `accepted_parts` says what such a request is made
of; its cache key is host, port and target one after the other.
-/

namespace HttpProxy

/-- A request together with the one segment it was accepted from, with some memory. -/
structure AcceptedRequest extends HttpRequest where
  line : Bytes
  segment : line.length ≤ 65536
  accepts : ∃ memory, HttpRequest.constructRequest memory line = .ok (some toHttpRequest)

namespace HttpRequest

/-- The request target the parser saw: what follows host and port in the key. -/
def target (r : HttpRequest) : Bytes := r.uri.drop (r.hostName.length + r.hostPort.length)

theorem getHostIp_keeps {r r' : HttpRequest} {headers : List HeaderItem}
    (h : r.getHostIp headers = .ok r') :
    r'.lineSend = r.lineSend ∧ r'.uri = r.uri ∧ r'.method = r.method := by
  refine Fold.foldlM_keeps
    (fun t => t.lineSend = r.lineSend ∧ t.uri = r.uri ∧ t.method = r.method) ?_ ⟨rfl, rfl, rfl⟩ h
  intro s it t hs hstep
  suffices same : t.lineSend = s.lineSend ∧ t.uri = s.uri ∧ t.method = s.method by
    simpa only [same] using hs
  unfold readHeader at hstep
  split_ifs at hstep with hhost hcc
  · cases hstep
    unfold readHost
    split <;> exact ⟨rfl, rfl, rfl⟩
  · obtain ⟨n₁, _, hstep⟩ := Fold.bind_ok hstep
    obtain ⟨n₂, _, hstep⟩ := Fold.bind_ok hstep
    obtain ⟨n₃, _, hstep⟩ := Fold.bind_ok hstep
    cases hstep
    simp only [apply_ite HttpRequest.lineSend, apply_ite HttpRequest.uri,
      apply_ite HttpRequest.method, ite_self, and_self]
  · cases hstep
    exact ⟨rfl, rfl, rfl⟩

theorem getRequestLine_ok {r r' : HttpRequest} (h : r.getRequestLine = .ok r') :
    ∃ request hostLine, r' = { r with request := request, hostLine := hostLine } := by
  obtain ⟨_, _, h⟩ := Fold.bind_ok h
  obtain ⟨_, _, h⟩ := Fold.bind_ok h
  cases h
  exact ⟨_, _, rfl⟩

/-- What `constructRequest` puts together: the parsed target and the fields the header
loop fills, under a key made of host, port and target. -/
theorem accepted_parts {memory : Nat} {line : Bytes} {r : HttpRequest}
    (h : constructRequest memory line = .ok (some r)) :
    ∃ p built requestLine hostLine, RequestParser.parse memory line = .halt (.completed p) ∧
      HttpRequest.getHostIp
        { lineSend := line, method := p.method, uri := p.uri, httpVer := httpVersion p.msg }
        p.msg.headers = .ok built ∧
      r = { built with
        uri := built.hostName ++ built.hostPort ++ p.uri
        request := requestLine
        hostLine := hostLine } := by
  obtain ⟨o, hparse, h⟩ := Fold.bind_ok h
  cases o with
  | none => cases h
  | some mid =>
    obtain ⟨r', hline, h⟩ := Fold.bind_ok h
    cases h
    obtain ⟨requestLine, hostLine, rfl⟩ := getRequestLine_ok hline
    unfold parseRequest at hparse
    split at hparse
    · next p hp =>
      obtain ⟨built, hbuilt, hmid⟩ := Fold.bind_ok hparse
      cases hmid
      obtain ⟨_, huri, _⟩ := getHostIp_keeps hbuilt
      exact ⟨p, built, requestLine, hostLine, hp, hbuilt, by rw [huri]⟩
    all_goals cases hparse

end HttpRequest

namespace AcceptedRequest

variable (r : AcceptedRequest)

theorem lineSend_eq : r.lineSend = r.line := by
  obtain ⟨_, accepts⟩ := r.accepts
  obtain ⟨p, built, _, _, _, hbuilt, heq⟩ := HttpRequest.accepted_parts accepts
  rw [heq]
  exact (HttpRequest.getHostIp_keeps hbuilt).1

theorem line_ne_nil : r.line ≠ [] := by
  intro hnil
  obtain ⟨_, accepts⟩ := r.accepts
  obtain ⟨p, _, _, _, hp, _⟩ := HttpRequest.accepted_parts accepts
  rw [hnil] at hp
  cases hp

/-- A request without a body is accepted again with any memory. -/
theorem accepts_unframed (unframed : r.method ≠ str "POST" ∧ r.method ≠ str "PUT") (memory : Nat) :
    HttpRequest.constructRequest memory r.line = .ok (some r.toHttpRequest) := by
  obtain ⟨memory', accepts⟩ := r.accepts
  obtain ⟨p, built, _, _, hp, hbuilt, heq⟩ := HttpRequest.accepted_parts accepts
  have method : r.method = p.method := by
    rw [heq]
    exact (HttpRequest.getHostIp_keeps hbuilt).2.2
  have again := RequestParser.parse_unframed hp (by simpa [RequestParser.framed, ← method]) memory
  have same : HttpRequest.parseRequest memory { lineSend := r.line } =
      HttpRequest.parseRequest memory' { lineSend := r.line } := by
    unfold HttpRequest.parseRequest
    rw [hp, again]
  rw [← accepts, HttpRequest.constructRequest, HttpRequest.constructRequest, same]

theorem accepts_get (get : r.method = str "GET") (memory : Nat) :
    HttpRequest.constructRequest memory r.line = .ok (some r.toHttpRequest) := by
  refine r.accepts_unframed ?_ memory
  rw [get]
  decide

/-- The request accepted from a line. -/
def of (line : Bytes) (segment : line.length ≤ 65536)
    (h : (HttpRequest.accepted (2 ^ 40) line).isSome = true) : AcceptedRequest where
  toHttpRequest := (HttpRequest.accepted (2 ^ 40) line).get h
  line := line
  segment := segment
  accepts := by
    have found : HttpRequest.accepted (2 ^ 40) line =
      some ((HttpRequest.accepted (2 ^ 40) line).get h) := by simp
    generalize (HttpRequest.accepted (2 ^ 40) line).get h = r at found
    unfold HttpRequest.accepted at found
    split at found
    · next o ho => exact ⟨2 ^ 40, by rw [ho, found]⟩
    · cases found

/-- A GET for the root of host `h`. -/
def home : AcceptedRequest :=
  .of (str "GET / HTTP/1.1\r\nHost: h\r\n\r\n") (by decide) (by decide +kernel)

end AcceptedRequest

end HttpProxy
