import HttpProxy.RequestLine
import HttpProxy.Runs
import HttpProxy.Traces

/-!
# What `proxyFetch` sends to the server

`forwarded_iff`: it sends the receive buffer from which the request was read, with
whatever follows the request in it. The server gets the bytes that the parser consumed,
and no others, when the buffer ends there and no send fails; a buffer that goes on is cut
there only by a send that fails at that very place.
-/

namespace HttpProxy

/-- An event that puts nothing on the server's socket. -/
def Spared (e : Event) : Prop := e.sentTo .server = []

/-- All that goes to the server is sent by the first step. -/
theorem proxyFetch_begins (req : HttpRequest) : ∃ k : Int → M (Option Ref),
    proxyFetch req = sendVector .server .request req.lineSend >>= k ∧ ∀ n, Only Spared (k n) := by
  refine ⟨_, rfl, fun error => ?_⟩
  split_ifs
  · apply (only_log (P := Spared) rfl).bind
    intro _
    apply (only_recvBuff (P := Spared) fun _ => rfl).bind
    intro input
    apply (only_log (P := Spared) rfl).bind
    intro _
    apply (fetchReply_only input).mono
    intro e he
    cases he <;> rfl
  · exact only_pure none

theorem proxyFetch_forwards (req : AcceptedRequest) (s : St) :
    bytesTo .server (ran (proxyFetch req.toHttpRequest) s) =
      req.line.take (passed req.line.length s.world.sends) := by
  have hsend := sendVector_outcome .server .request req.lineSend s req.fits req.nonempty
  have first : Only (fun _ => True) (sendVector .server .request req.lineSend) :=
    only_sendVector _ fun _ _ => trivial
  have events : ran (sendVector .server .request req.lineSend) s =
      sendEvents .server .request req.lineSend s.world.sends := by
    apply ran_eq
    rw [hsend]
    rfl
  obtain ⟨k, run, later⟩ := proxyFetch_begins req.toHttpRequest
  rw [run, first.ran_bind (later _) hsend, bytesTo_append, events, bytesTo_sendEvents, req.lineSend_eq]
  refine (congrArg _ ?_).trans (List.append_nil _)
  apply List.flatMap_eq_nil_iff.mpr
  intro e he
  exact (later _).of_mem he

/-! ## How much the sends let through -/

/-- A send fails when exactly `n` bytes have been taken. -/
def FailsAt : Nat → List SendResult → Prop
  | _, [] => False
  | n, .fail :: _ => n = 0
  | n, .took k :: rest => max 1 k ≤ n ∧ FailsAt (n - max 1 k) rest

instance decidableFailsAt : (n : Nat) → (l : List SendResult) → Decidable (FailsAt n l)
  | _, [] => isFalse id
  | n, .fail :: _ => inferInstanceAs (Decidable (n = 0))
  | n, .took k :: rest =>
    have := decidableFailsAt (n - max 1 k) rest
    inferInstanceAs (Decidable (_ ∧ _))

theorem passed_eq_iff_failsAt {n len : Nat} (h : n < len) (l : List SendResult) :
    passed len l = n ↔ FailsAt n l := by
  induction l generalizing n len with
  | nil =>
    rw [passed, FailsAt, iff_false]
    omega
  | cons r rest ih =>
    cases r with
    | fail =>
      rw [passed, FailsAt, if_neg (by omega)]
      exact eq_comm
    | took k =>
      rw [passed, FailsAt, if_neg (by omega)]
      by_cases within : max 1 k ≤ n
      · have clipped : min len (max 1 k) = max 1 k := by omega
        have later : passed (len - max 1 k) rest = n - max 1 k ↔ FailsAt (n - max 1 k) rest :=
          ih (by omega)
        rw [clipped, ← later]
        omega
      · exact iff_of_false (by omega) fun h => within h.1

/-- Whatever there is to send behind them. -/
theorem passed_of_failsAt {n len : Nat} {l : List SendResult} (h : FailsAt n l) (le : n ≤ len) :
    passed len l = n := by
  rcases Nat.lt_or_eq_of_le le with more | rfl
  · exact (passed_eq_iff_failsAt more l).mpr h
  · induction l generalizing n with
    | nil => exact absurd h id
    | cons r rest ih =>
      cases r with
      | fail =>
        obtain rfl : n = 0 := h
        rw [passed_zero]
      | took k =>
        obtain ⟨within, later⟩ := h
        have taken : min n (max 1 k) = max 1 k := by omega
        rw [passed, if_neg (by omega), taken, ih later (Nat.le_refl _)]
        omega

/-- The sends let these bytes at the front of the line through and no others. -/
def LetsThrough (line consumed : Bytes) (sends : List SendResult) : Prop :=
  if line = consumed then (sendsAll line.length sends).1 = true
  else FailsAt consumed.length sends

instance (line consumed : Bytes) (sends : List SendResult) :
    Decidable (LetsThrough line consumed sends) :=
  inferInstanceAs (Decidable (if line = consumed then _ else _))

theorem take_passed_iff {memory : Nat} {line consumed : Bytes}
    (h : RequestParser.Consumes memory line consumed) (l : List SendResult) :
    line.take (passed line.length l) = consumed ↔ LetsThrough line consumed l := by
  obtain ⟨tail, rfl, _⟩ := h
  have le := passed_le (consumed ++ tail).length l
  have cut : (consumed ++ tail).take (passed (consumed ++ tail).length l) = consumed ↔
      passed (consumed ++ tail).length l = consumed.length := by
    constructor
    · intro eq
      have lengths := congrArg List.length eq
      rwa [List.length_take, Nat.min_eq_left le] at lengths
    · intro eq
      rw [eq, List.take_left]
  rw [cut, LetsThrough]
  by_cases none : tail = []
  · rw [none, List.append_nil, if_pos rfl, passed_eq_iff]
  · have more := List.length_pos_of_ne_nil none
    rw [if_neg (by simpa using none), passed_eq_iff_failsAt]
    simp only [List.length_append]
    omega

/-- Two requests of which the parser reads the same bytes, each forwarded by a run of its
own: exactly these bytes go to the server just when the sends of each let them through and
no others. -/
theorem forwarded_iff {a b : AcceptedRequest} {memory memory' : Nat} {consumed : Bytes}
    (ha : RequestParser.Consumes memory a.line consumed)
    (hb : RequestParser.Consumes memory' b.line consumed) (s t : St) :
    bytesTo .server (ran (proxyFetch a.toHttpRequest) s) = consumed ∧
        bytesTo .server (ran (proxyFetch b.toHttpRequest) t) = consumed ↔
      LetsThrough a.line consumed s.world.sends ∧ LetsThrough b.line consumed t.world.sends := by
  rw [proxyFetch_forwards, proxyFetch_forwards, take_passed_iff ha, take_passed_iff hb]

/-- A GET with a second one behind it in the same segment. -/
def AcceptedRequest.pipelined : AcceptedRequest :=
  .of (str "GET / HTTP/1.1\r\nHost: h\r\n\r\nGET /x HTTP/1.1\r\nHost: h\r\n\r\n") (by decide)
    (by decide +kernel)

theorem consumes_home : RequestParser.Consumes (2 ^ 40) AcceptedRequest.home.line
    (str "GET / HTTP/1.1\r\nHost: h\r\n\r\n") := ⟨[], rfl, by decide +kernel⟩

theorem consumes_pipelined : RequestParser.Consumes (2 ^ 40) AcceptedRequest.pipelined.line
    (str "GET / HTTP/1.1\r\nHost: h\r\n\r\n") :=
  ⟨str "GET /x HTTP/1.1\r\nHost: h\r\n\r\n", by decide +kernel, by decide +kernel⟩

/-- The second request is held back only because a send fails right in front of it. -/
theorem forwarded_iff_pipelined :
    let s := St.initial ⟨1, Nat.le_refl 1⟩
    let t := s.enter { sends := [.took 20, .took 7, .fail] }
    bytesTo .server (ran (proxyFetch AcceptedRequest.home.toHttpRequest) s) =
        str "GET / HTTP/1.1\r\nHost: h\r\n\r\n" ∧
      bytesTo .server (ran (proxyFetch AcceptedRequest.pipelined.toHttpRequest) t) =
        str "GET / HTTP/1.1\r\nHost: h\r\n\r\n" :=
  (forwarded_iff consumes_home consumes_pipelined _ _).mpr
    ⟨by decide +kernel, by decide +kernel⟩

/-- Both requests of the buffer go to the server of the first. -/
theorem pipelined_forwarded :
    RequestParser.Consumes (2 ^ 40) AcceptedRequest.home.line
        (str "GET / HTTP/1.1\r\nHost: h\r\n\r\n") ∧
      RequestParser.Consumes (2 ^ 40) AcceptedRequest.pipelined.line
        (str "GET / HTTP/1.1\r\nHost: h\r\n\r\n") ∧
      bytesTo .server (ran (proxyFetch AcceptedRequest.pipelined.toHttpRequest)
        (St.initial ⟨1, Nat.le_refl 1⟩)) =
        str "GET / HTTP/1.1\r\nHost: h\r\n\r\nGET /x HTTP/1.1\r\nHost: h\r\n\r\n" ∧
      bytesTo .server (ran (proxyFetch AcceptedRequest.pipelined.toHttpRequest)
          (St.initial ⟨1, Nat.le_refl 1⟩)) ≠
        bytesTo .server (ran (proxyFetch AcceptedRequest.home.toHttpRequest)
          (St.initial ⟨1, Nat.le_refl 1⟩)) :=
  ⟨consumes_home, consumes_pipelined, by decide +kernel, by decide +kernel⟩

end HttpProxy
