import HttpProxy.Rejected
import HttpProxy.Traces

/-!
# Where a tunnel leads

`getHostIp` takes host and port from the last Host header, for CONNECT as for the other
methods; the request target only goes into the cache key. `connect_target` says where
`proxyCONNECT` connects, and for which requests that is the target they name.
-/

namespace HttpProxy

/-! ## The tunnel looks up one server -/

/-- What a run for a CONNECT request can do. -/
inductive Connecting (req : HttpRequest) : Event → Prop
  | reach {e : Event} (h : Reaching req e) : Connecting req e
  | established (range : Bytes) (n : Int) : Connecting req (.send .client .established range n)
  | log (line : LogLine) : Connecting req (.log line)
  | tunnel {e : Event} (h : Tunnelling e) : Connecting req e

section
variable (fds : Descriptors) (rounds : List Ready) (req : HttpRequest)

theorem proxyCONNECT_begins : ∃ k : Unit → M Unit,
    proxyCONNECT fds rounds req = connectServer req >>= k ∧ ∀ a, Only (Connecting req) (k a) := by
  refine ⟨_, rfl, fun _ => ?_⟩
  apply (only_send _ .established).bind
  intro error
  split_ifs
  · exact only_log (.log _)
  · apply (only_log (.log _)).bind
    intro _
    apply ((tunnelLoop_only fds rounds).mono fun _ => .tunnel).bind
    intro more
    cases more with
    | true => exact (only_log (.log _)).bind fun _ => only_throw _
    | false => exact only_pure ()

theorem judgeRequest_connect {req : HttpRequest} (connect : req.method = str "CONNECT") :
    judgeRequest fds rounds req = proxyCONNECT fds rounds req >>= fun _ => log .tunnelClosed :=
  if_pos connect

/-- The run looks this host and port up, and no other. -/
def ConnectsTo (s : St) (host port : Bytes) : Prop :=
  .lookup host port ∈ ran (judgeRequest fds rounds req) s ∧
    ∀ host' port', .lookup host' port' ∈ ran (judgeRequest fds rounds req) s →
      host' = host ∧ port' = port

theorem connectsTo_iff {req : HttpRequest} (connect : req.method = str "CONNECT") (s : St)
    (host port : Bytes) :
    ConnectsTo fds rounds req s host port ↔ host = req.hostName ∧ port = req.hostPort := by
  obtain ⟨k, hk, rest⟩ := proxyCONNECT_begins fds rounds req
  have reached := (connectServer_only req).mono fun _ => Connecting.reach
  have closes (_ : Unit) : Only (Connecting req) (log .tunnelClosed) := only_log (.log _)
  have all : Only (Connecting req) (judgeRequest fds rounds req) := by
    rw [judgeRequest_connect fds rounds connect, hk]
    exact (reached.bind rest).bind closes
  have looked : .lookup req.hostName req.hostPort ∈ ran (judgeRequest fds rounds req) s := by
    rw [judgeRequest_connect fds rounds connect, hk]
    apply (reached.bind rest).mem_ran_bind_left closes
    apply reached.mem_ran_bind_left rest
    exact connectServer_looks req s
  constructor
  · rintro ⟨here, _⟩
    cases all.of_mem here with
    | reach h => cases h; exact ⟨rfl, rfl⟩
    | tunnel h => cases h
  · rintro ⟨rfl, rfl⟩
    refine ⟨looked, fun host' port' there => ?_⟩
    cases all.of_mem there with
    | reach h => cases h; exact ⟨rfl, rfl⟩
    | tunnel h => cases h

end

/-! ## What the last Host header says -/

/-- The value of a Host header. -/
def hostValue (it : HeaderItem) : Option Bytes := if it.name = str "Host" then some it.value else none

/-- The value of the last Host header of a request. -/
def givenHost (line : Bytes) : Option Bytes :=
  match RequestParser.parse maxSize line with
  | .halt (.completed p) => (p.msg.headers.filterMap hostValue).getLast?
  | _ => none

/-- The host and port that a Host value provides, if there is one. -/
inductive Provided : Option Bytes → Bytes → Bytes → Prop
  | missing : Provided none [] []
  | whole {host port : Bytes} (plain : ch ':' ∉ host) :
      Provided (some (host ++ ch ':' :: port)) host port
  | portless {host : Bytes} (plain : ch ':' ∉ host) : Provided (some host) host (str "80")

theorem findFirstOf_none {value : Bytes} (colon : ch ':' ∉ value) (ret : ch '\r' ∉ value) :
    findFirstOf (str ":\r") value = none := by
  rw [findFirstOf, List.findIdx?_eq_none_iff]
  intro c hc
  have other : c ≠ ch ':' := fun h => colon (h ▸ hc)
  have other' : c ≠ ch '\r' := fun h => ret (h ▸ hc)
  simp [str, other, other']

theorem findFirstOf_colon {host : Bytes} (colon : ch ':' ∉ host) (ret : ch '\r' ∉ host)
    (port : Bytes) : findFirstOf (str ":\r") (host ++ ch ':' :: port) = some host.length := by
  have before := findFirstOf_none colon ret
  rw [findFirstOf] at before
  rw [findFirstOf, List.findIdx?_append, before, Option.none_or, List.findIdx?_cons,
    if_pos (by decide), Option.map_some, Nat.zero_add]

/-- The Host branch keeps what the value provides. -/
theorem readHost_provided {value : Bytes} (ret : ch '\r' ∉ value) (r : HttpRequest)
    (host port : Bytes) : Provided (some value) host port ↔
      host = (r.readHost value).hostName ∧ port = (r.readHost value).hostPort := by
  unfold HttpRequest.readHost
  constructor
  · intro provided
    generalize hv : some value = given at provided
    cases provided with
    | missing => cases hv
    | whole plain =>
      cases hv
      rw [findFirstOf_colon plain fun h => ret (List.mem_append_left _ h)]
      simp
    | portless plain =>
      cases hv
      rw [findFirstOf_none plain ret]
      exact ⟨rfl, rfl⟩
  · rintro ⟨rfl, rfl⟩
    by_cases colon : ch ':' ∈ value
    · obtain ⟨a, b, rfl, plain⟩ := List.eq_append_cons_of_mem colon
      rw [findFirstOf_colon plain fun h => ret (List.mem_append_left _ h)]
      simpa using Provided.whole plain
    · rw [findFirstOf_none colon ret]
      exact .portless colon

/-- Where the Host branch goes does not depend on what it has read before. -/
def providedBy (value : Bytes) : Bytes × Bytes :=
  ((HttpRequest.readHost { lineSend := [] } value).hostName,
    (HttpRequest.readHost { lineSend := [] } value).hostPort)

theorem readHost_providedBy (r : HttpRequest) (value : Bytes) :
    ((r.readHost value).hostName, (r.readHost value).hostPort) = providedBy value := by
  unfold providedBy HttpRequest.readHost
  cases findFirstOf (str ":\r") value <;> rfl

theorem readHeader_host {r r' : HttpRequest} {it : HeaderItem} (h : r.readHeader it = .ok r') :
    (r'.hostName, r'.hostPort) = ((hostValue it).map providedBy).getD (r.hostName, r.hostPort) := by
  unfold HttpRequest.readHeader at h
  unfold hostValue
  split_ifs at h ⊢ with host control
  · cases h
    exact readHost_providedBy r it.value
  · obtain ⟨n₁, h₁, rest⟩ := Fold.bind_ok h
    obtain ⟨n₂, h₂, rest⟩ := Fold.bind_ok rest
    obtain ⟨n₃, h₃, _⟩ := Fold.bind_ok rest
    obtain ⟨_, _, _, name, port⟩ := HttpRequest.readCacheControl_numbers h₁ h₂ h₃ h
    rw [name, port]
    rfl
  · cases h
    rfl

theorem getHostIp_last {r r' : HttpRequest} {its : List HeaderItem} (h : r.getHostIp its = .ok r') :
    (r'.hostName, r'.hostPort) =
      ((its.filterMap hostValue).getLast?.map providedBy).getD (r.hostName, r.hostPort) :=
  Fold.foldlM_last (fun r : HttpRequest => (r.hostName, r.hostPort)) hostValue providedBy
    (fun _ _ _ => readHeader_host) h

theorem getHostIp_host {r r' : HttpRequest} {its : List HeaderItem} (h : r.getHostIp its = .ok r')
    (blank : r.hostName = [] ∧ r.hostPort = []) (plain : ∀ it ∈ its, ch '\r' ∉ it.value)
    (host port : Bytes) :
    Provided (its.filterMap hostValue).getLast? host port ↔ host = r'.hostName ∧ port = r'.hostPort := by
  have last := getHostIp_last h
  cases found : (its.filterMap hostValue).getLast? with
  | none =>
    rw [found, blank.1, blank.2] at last
    obtain ⟨name, none⟩ := Prod.mk.inj last
    rw [name, none]
    constructor
    · rintro ⟨⟩
      exact ⟨rfl, rfl⟩
    · rintro ⟨rfl, rfl⟩
      exact .missing
  | some value =>
    rw [found] at last
    obtain ⟨name, some⟩ := Prod.mk.inj last
    have ret : ch '\r' ∉ value := by
      obtain ⟨it, hit, hv⟩ := List.mem_filterMap.mp (List.mem_of_getLast? found)
      unfold hostValue at hv
      split_ifs at hv
      cases hv
      exact plain it hit
    rw [name, some]
    exact readHost_provided ret _ host port

/-- `target` reads `host:port`, where the host is a name, an IPv4 address or an IPv6 address in
brackets. -/
structure Authority (target host port : Bytes) : Prop where
  text : target = host ++ ch ':' :: port
  host : host ≠ [] ∧ ch ':' ∉ host ∨ ∃ address, host = ch '[' :: address ++ [ch ']']
  port : port ≠ [] ∧ ∀ c ∈ port, isDigit c = true

/-- A run for CONNECT goes to the host and port that the last Host header provides. That is
the target just when the header names the same host, by a name without a colon, and the same
port, or none where it is 80. -/
theorem connect_target (q : AcceptedRequest) (connect : q.method = str "CONNECT")
    (fds : Descriptors) (rounds : List Ready) (s : St) :
    (∀ host port, ConnectsTo fds rounds q.toHttpRequest s host port ↔
      Provided (givenHost q.line) host port) ∧
    ∀ host port, Authority q.target host port →
      (ConnectsTo fds rounds q.toHttpRequest s host port ↔
        ∃ value, givenHost q.line = some value ∧ ch ':' ∉ host ∧
          (value = host ++ ch ':' :: port ∨ value = host ∧ port = str "80")) := by
  have goes (host port : Bytes) : ConnectsTo fds rounds q.toHttpRequest s host port ↔
      Provided (givenHost q.line) host port := by
    obtain ⟨_, accepts⟩ := q.accepts
    obtain ⟨p, built, _, _, hp, hbuilt, heq⟩ := HttpRequest.accepted_parts accepts
    have plain : ∀ it ∈ p.msg.headers, ch '\r' ∉ it.value := by
      intro it hit hm
      exact absurd (RequestParser.plainValues_of_parse hp it hit _ hm) (by decide)
    have given : givenHost q.line = (p.msg.headers.filterMap hostValue).getLast? := by
      rw [givenHost, RequestParser.parse_unlimited hp]
    rw [connectsTo_iff fds rounds connect, given, getHostIp_host hbuilt ⟨rfl, rfl⟩ plain, heq]
  refine ⟨goes, fun host port authority => ?_⟩
  rw [goes]
  constructor
  · intro provided
    generalize hv : givenHost q.line = given at provided
    cases provided with
    | missing =>
      rcases authority.host with ⟨ne, _⟩ | ⟨address, bracketed⟩
      · exact absurd rfl ne
      · cases bracketed
    | whole plain => exact ⟨_, rfl, plain, .inl rfl⟩
    | portless plain => exact ⟨_, rfl, plain, .inr ⟨rfl, rfl⟩⟩
  · rintro ⟨value, given, plain, rfl | ⟨rfl, rfl⟩⟩
    · rw [given]
      exact .whole plain
    · rw [given]
      exact .portless plain

/-- A request for port 443 whose Host header leaves the port out. -/
def securely : AcceptedRequest :=
  .of (str "CONNECT h:443 HTTP/1.1\r\nHost: h\r\n\r\n") (by decide) (by decide +kernel)

theorem connect_target_securely :
    (∀ host port, ConnectsTo ⟨3, 4, by decide⟩ [] securely.toHttpRequest
      ((St.initial ⟨1, Nat.le_refl 1⟩).enter {}) host port ↔
        Provided (givenHost securely.line) host port) ∧
    ∀ host port, Authority securely.target host port →
      (ConnectsTo ⟨3, 4, by decide⟩ [] securely.toHttpRequest
        ((St.initial ⟨1, Nat.le_refl 1⟩).enter {}) host port ↔
        ∃ value, givenHost securely.line = some value ∧ ch ':' ∉ host ∧
          (value = host ++ ch ':' :: port ∨ value = host ∧ port = str "80")) :=
  connect_target securely (by decide +kernel) ⟨3, 4, by decide⟩ []
    ((St.initial ⟨1, Nat.le_refl 1⟩).enter {})

/-- The tunnel for port 443 leads to port 80. -/
theorem securely_misled :
    securely.method = str "CONNECT" ∧ Authority securely.target (str "h") (str "443") ∧
      ¬ ConnectsTo ⟨3, 4, by decide⟩ [] securely.toHttpRequest
        ((St.initial ⟨1, Nat.le_refl 1⟩).enter {}) (str "h") (str "443") := by
  have connect : securely.method = str "CONNECT" := by decide +kernel
  have eighty : securely.hostPort = str "80" := by decide +kernel
  refine ⟨connect, ⟨by decide +kernel, .inl (by decide), by decide +kernel⟩, fun goes => ?_⟩
  have port := ((connectsTo_iff _ _ connect _ _ _).mp goes).2
  rw [eighty] at port
  exact absurd port (by decide)

end HttpProxy
