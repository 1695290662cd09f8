import HttpProxy.Freshness
import HttpProxy.Segments

/-!
# Requests that are answered with nothing

`answered_iff`: a GET whose connection and sends succeed gets at least one byte, unless
it is a hit that is validated by a reply without an object, or a hit with no cached bytes
to send. A fetch answers everything: what it cannot read gets a 502.
-/

namespace HttpProxy

/-- The server's `recv`s return no error. -/
def World.Readable (w : World) : Prop := Recv.fail ∉ w.server

theorem takeRecv_readable {n : Nat} {l : List Recv} (h : Recv.fail ∉ l) :
    (takeRecv n l).1 ≠ .fail := by
  cases l with
  | nil => simp [takeRecv]
  | cons r l =>
    cases r with
    | fail => exact absurd List.mem_cons_self h
    | data bs =>
      rw [takeRecv]
      split <;> simp

/-- On the way from `s` to this result the client is sent at least one byte. -/
def Answers {α : Type} (res : EStateM.Result Exn St α) (s : St) : Prop :=
  ∃ evs, (finalSt res).trace = s.trace ++ evs ∧ bytesTo .client evs ≠ []

theorem ran_ne_nil {α : Type} {x : M α} {s : St} (h : Answers (x s) s) :
    bytesTo .client (ran x s) ≠ [] := by
  obtain ⟨evs, htrace, hne⟩ := h
  rwa [ran_eq htrace]

theorem Answers.after {α : Type} {res : EStateM.Result Exn St α} {s : St} {w : World}
    {evs : List Event} (h : Answers res (s.after w evs)) : Answers res s := by
  obtain ⟨evs', htrace, hne⟩ := h
  refine ⟨evs ++ evs', ?_, ?_⟩
  · rw [htrace, after_trace, List.append_assoc]
  · rw [bytesTo_append]
    exact List.append_ne_nil_of_right_ne_nil _ hne

/-! ## A fetch -/

theorem proxyERROR_answers (code : ErrorCode) {s : St} (hf : s.world.NoFail) :
    Answers (proxyERROR code s) s := by
  obtain ⟨n, l, ht, hrun⟩ := proxyERROR_events code s
  obtain ⟨k, hk, hpos, _⟩ := takeSend_spec hf (errorLine code).length (by cases code <;> decide)
  obtain rfl : n = k := by rw [← hk, ht]
  refine ⟨_, congrArg (fun res => (finalSt res).trace) hrun, ?_⟩
  have some_line : errorLine code ≠ [] := by cases code <;> decide
  simp [bytesTo, Event.sentTo, some_line]
  omega

theorem delivered_ne_nil {libc : Libc} {input : Bytes} {rest : List Recv} (h : input ≠ []) :
    delivered libc input rest ≠ [] := by
  unfold delivered
  split_ifs <;> simp [h]

theorem proxyFetch_answers (req : AcceptedRequest) {s : St} (hf : s.world.NoFail)
    (hr : s.world.Readable) : Answers (proxyFetch req.toHttpRequest s) s := by
  obtain ⟨w, evs, hw, _, _, ⟨_, _, hno⟩ | ⟨_, _, hfail⟩ | ⟨input, ht, _, run⟩⟩ :=
    proxyFetch_begin req.toHttpRequest s
  · exact absurd ⟨hf, req.sendable⟩ hno
  · exact absurd hfail (takeRecv_readable hr)
  · rw [run]
    apply Answers.after
    have hf' : w.NoFail := hf.agrees hw
    cases hend : check502 input with
    | true =>
      obtain ⟨w', evs', hrun, _⟩ := proxyERROR_run .badGateway502 (s.after w evs)
      have answers := proxyERROR_answers .badGateway502 (s := s.after w evs) hf'
      rw [hrun] at answers
      rw [fetchReply, hend, if_pos rfl, bind_ok _ hrun]
      exact answers
    | false =>
      obtain ⟨t, evs', frame, _, _, hres, sent⟩ :=
        fetchReply_run hend (takeRecv_length ht) (s.after w evs)
      have final : finalSt (fetchReply input (s.after w evs)) = t := by
        generalize fetchReply input (s.after w evs) = res at hres
        rcases hres with hres | ⟨rfl, _⟩
        · cases hres <;> rfl
        · rfl
      refine ⟨evs', by rw [final, frame.trace], ?_⟩
      rw [sent hf']
      exact delivered_ne_nil (ne_nil_of_headerEnd hend)

theorem storeFetched_trace (url : Bytes) (r : Ref) (s : St) :
    ∃ t evs, storeFetched url r s = .ok () t ∧ t.trace = s.trace ++ evs := by
  by_cases h : r.obj.statusCode = 200 ∧ r.obj.noStore = false
  · obtain ⟨evs, hrun, _⟩ := storeFetched_store url h.1 h.2 s
    exact ⟨_, evs, hrun, rfl⟩
  · obtain ⟨evs, hrun, _⟩ := storeFetched_skip url h s
    exact ⟨_, evs, hrun, rfl⟩

theorem proxyGET_miss_answers (req : AcceptedRequest) {s : St}
    (hc : s.world.connect = .connected) (hf : s.world.NoFail) (hr : s.world.Readable)
    (miss : s.cache.lookup req.uri = none) : Answers (proxyGET req.toHttpRequest s) s := by
  rw [proxyGET_miss miss, serveMiss_connected req.toHttpRequest (s := s.touched req.uri) hc]
  have fetch : Answers (proxyFetch req.toHttpRequest _) _ := proxyFetch_answers req
    (s := (s.touched req.uri).after s.world ([.log .notInCache] ++ connecting req.toHttpRequest))
    hf hr
  obtain ⟨evs, htrace, hne⟩ := fetch.after
  rw [touched_world]
  generalize hrun : proxyFetch req.toHttpRequest _ = res at htrace
  cases res with
  | error e t =>
    rw [bind_error _ hrun]
    exact ⟨evs, htrace, hne⟩
  | ok o t =>
    rw [bind_ok _ hrun]
    cases o with
    | none => exact ⟨evs, htrace, hne⟩
    | some r =>
      -- storing only adds to the log
      obtain ⟨u, evs', hput, htrace'⟩ := storeFetched_trace req.uri r t
      simp only [hput]
      refine ⟨evs ++ evs', ?_, ?_⟩
      · rw [finalSt_ok, htrace', show t.trace = _ from htrace, List.append_assoc]
        rfl
      · rw [bytesTo_append]
        exact List.append_ne_nil_of_left_ne_nil hne _

/-! ## A hit -/

theorem renewOutcome_sent_nil {libc : Libc} {cached reply : Bytes} :
    (renewOutcome libc cached reply).sent = [] ↔ Unanswered libc cached reply :=
  ⟨unanswered_of_sent, fun h => by rw [renewOutcome_unanswered h]⟩

/-- When no send fails, `validationReply` sends what the outcome of its segment says. -/
theorem Answered.sent {cached : Ref} {url reply : Bytes} {s : St}
    {res : EStateM.Result Exn St Unit} (h : Answered cached url reply s res)
    (hf : s.world.NoFail) (fits : FitsInt reply.length) :
    ∃ evs, (finalSt res).trace = s.trace ++ evs ∧ bytesTo .client evs =
      (renewOutcome s.world.libc cached.obj.lineRecv reply).sent := by
  unfold renewOutcome
  cases h with
  | threw hp =>
    rw [hp]
    exact ⟨[], by simp [finalSt], rfl⟩
  | failed hp =>
    rw [hp]
    exact ⟨[], by simp [finalSt], rfl⟩
  | renewed hp h200 _ _ _ sent =>
    rw [hp]
    refine ⟨_, rfl, ?_⟩
    simp only [if_pos h200]
    rw [sent hf, sendable_of_fits fits]
  | notModified hp h304 _ _ sent =>
    rw [hp]
    refine ⟨_, rfl, ?_⟩
    simp only [h304, if_true, if_neg (show ¬ 304 = 200 by decide)]
    exact sent hf
  | passed hp h200 h304 _ _ _ sent =>
    rw [hp]
    refine ⟨_, rfl, ?_⟩
    simp only [if_neg h200, if_neg h304]
    rw [sent hf, sendable_of_fits fits]

/-- A hit that leaves its client without a byte: validated by a segment that gives no
object (or by a 304), or sent at once, with no cached bytes to send. -/
inductive Dropped (req : HttpRequest) (s : St) : Prop
  | validated {resp : Ref} {reply : Bytes} {rest : List Recv}
      (hit : s.cache.lookup req.uri = some resp)
      (stale : revalidates req resp.obj s.world.now = true)
      (segment : takeRecv 65536 s.world.server = (.data reply, rest))
      (unanswered : Unanswered s.world.libc resp.obj.lineRecv reply)
  | empty {resp : Ref} (hit : s.cache.lookup req.uri = some resp)
      (fresh : revalidates req resp.obj s.world.now = false)
      (nothing : sendable resp.obj.lineRecv = [])

theorem dropped_fresh_iff {req : HttpRequest} {s : St} {resp : Ref}
    (hit : s.cache.lookup req.uri = some resp)
    (fresh : revalidates req resp.obj s.world.now = false) :
    Dropped req s ↔ sendable resp.obj.lineRecv = [] := by
  constructor
  · intro dropped
    cases dropped with
    | validated hit' stale =>
      cases hit.symm.trans hit'
      rw [fresh] at stale
      cases stale
    | empty hit' _ nothing =>
      cases hit.symm.trans hit'
      exact nothing
  · exact .empty hit fresh

theorem dropped_stale_iff {req : HttpRequest} {s : St} {resp : Ref} {reply : Bytes}
    {rest : List Recv} (hit : s.cache.lookup req.uri = some resp)
    (stale : revalidates req resp.obj s.world.now = true)
    (segment : takeRecv 65536 s.world.server = (.data reply, rest)) :
    Dropped req s ↔ Unanswered s.world.libc resp.obj.lineRecv reply := by
  constructor
  · intro dropped
    cases dropped with
    | validated hit' _ segment' unanswered =>
      cases hit.symm.trans hit'
      cases segment.symm.trans segment'
      exact unanswered
    | empty hit' fresh =>
      cases hit.symm.trans hit'
      rw [stale] at fresh
      cases fresh
  · exact .validated hit stale segment

theorem proxyGET_hit_sent {req : HttpRequest} {s : St} {resp : Ref}
    (hc : s.world.connect = .connected) (hf : s.world.NoFail) (hr : s.world.Readable)
    (hit : s.cache.lookup req.uri = some resp) :
    bytesTo .client (ran (proxyGET req) s) = [] ↔ Dropped req s := by
  cases hv : revalidates req resp.obj s.world.now with
  | false =>
    obtain ⟨evs, hran, _, hsent⟩ := hit_fresh_events hit hv
    have sent : bytesTo .client (ran (proxyGET req) s) = sendable resp.obj.lineRecv := by
      rw [hran, bytesTo_append, hsent hf]
      rfl
    rw [sent, dropped_fresh_iff hit hv]
  | true =>
    have run := serveHit_revalidated (s := s.touched req.uri) (by simpa using hit) hv
    rw [← proxyGET_hit hit] at run
    generalize hres : proxyGET req s = res at run
    cases run with
    | refused hc' => exact absurd hc hc'
    | unread _ _ _ failed => exact absurd failed (takeRecv_readable hr)
    | @answered w front reply _ hw reached ht =>
      have hf' : w.NoFail := hf.agrees hw
      have fits : FitsInt reply.length := by
        have := takeRecv_length ht
        unfold FitsInt
        omega
      obtain ⟨evs, htrace, hsent⟩ :=
        (validationReply_answered resp req.uri reply ((s.touched req.uri).after w front)).sent hf' fits
      have sent : bytesTo .client (ran (proxyGET req) s) =
          (renewOutcome s.world.libc resp.obj.lineRecv reply).sent := by
        have whole : (finalSt (proxyGET req s)).trace = s.trace ++ (front ++ evs) := by
          rw [hres, htrace, after_trace, List.append_assoc]
          rfl
        rw [ran_eq whole, bytesTo_append, reached.quiet, hsent, after_world, hw.libc]
        rfl
      rw [sent, renewOutcome_sent_nil, dropped_stale_iff hit hv ht]

/-- When the server can be reached, no send fails and no `recv` returns an error, a GET that
`setRequest` accepted is answered unless it is `Dropped`. -/
theorem answered_iff (req : AcceptedRequest) {s : St} (hc : s.world.connect = .connected)
    (hf : s.world.NoFail) (hr : s.world.Readable) :
    bytesTo .client (ran (proxyGET req.toHttpRequest) s) ≠ [] ↔ ¬ Dropped req.toHttpRequest s := by
  cases h : s.cache.lookup req.uri with
  | none =>
    constructor
    · intro _ dropped
      cases dropped with
      | validated hit => cases h.symm.trans hit
      | empty hit => cases h.symm.trans hit
    · intro _
      exact ran_ne_nil (proxyGET_miss_answers req hc hf hr h)
  | some resp => exact not_congr (proxyGET_hit_sent hc hf hr h)

/-- A reply that is stored, but must be validated each time. -/
def validatedEachTime (size : Capacity) : St :=
  serve (.initial size) (AcceptedRequest.home.job
    { server := [.data (str "HTTP/1.1 200 OK\r\nCache-Control: no-cache\r\n\r\n")] })

theorem answered_iff_validated :
    let s := (validatedEachTime ⟨1, Nat.le_refl 1⟩).enter
      { server := [.data (str "HTTP/1.1 404 Not Found\r\n\r\n")] }
    bytesTo .client (ran (proxyGET AcceptedRequest.home.toHttpRequest) s) ≠ [] ↔
      ¬ Dropped AcceptedRequest.home.toHttpRequest s :=
  answered_iff AcceptedRequest.home rfl (by simp [World.NoFail, enter_world])
    (by simp [World.Readable, enter_world])

/-- The validation is answered with a number that `stoi` refuses, and the client with nothing. -/
theorem validatedEachTime_dropped :
    let s := (validatedEachTime ⟨1, Nat.le_refl 1⟩).enter
      { server := [.data (str "HTTP/1.1 200 OK\r\nCache-Control: max-age=soon\r\n\r\n")] }
    s.world.connect = .connected ∧ s.world.NoFail ∧ s.world.Readable ∧
      bytesTo .client (ran (proxyGET AcceptedRequest.home.toHttpRequest) s) = [] := by
  refine ⟨rfl, by simp [World.NoFail, enter_world], by simp [World.Readable, enter_world], ?_⟩
  decide +kernel

end HttpProxy
