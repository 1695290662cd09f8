import HttpProxy.Tunnel

/-!
# Programs that leave the cache alone

Everything but `proxyGET`, however it ends: `judgeRequest_retains` for a request that is no
GET, and what runs before it.
-/

namespace HttpProxy

def Retains {α : Type} (x : M α) : Prop := ∀ s, (finalSt (x s)).cache = s.cache

section
variable {α β : Type}

theorem Retains.bind {x : M α} {f : α → M β} (hx : Retains x) (hf : ∀ a, Retains (f a)) :
    Retains (x >>= f) := by
  intro s
  have first := hx s
  cases run : x s with
  | error e t =>
    rw [run] at first
    rw [bind_error _ run]
    exact first
  | ok a t =>
    rw [run] at first
    rw [bind_ok _ run, hf a t]
    exact first

theorem retains_pure (a : α) : Retains (pure a : M α) := fun _ => rfl

theorem retains_throw (e : Exn) : Retains (throw e : M α) := fun _ => rfl

end

theorem retains_log (line : LogLine) : Retains (log line) := fun _ => rfl

theorem retains_logWhen (c : Prop) [Decidable c] (line : LogLine) : Retains (logWhen c line) := by
  unfold logWhen
  split_ifs
  · exact retains_log line
  · exact retains_pure ()

theorem retains_send (dst : Sock) (what : Payload) (range : Bytes) : Retains (send dst what range) :=
  fun _ => rfl

theorem retains_sendVector (dst : Sock) (what : Payload) (buf : Bytes) :
    Retains (sendVector dst what buf) := by
  intro s
  obtain ⟨r, run, _⟩ := sendVector_spec dst what buf s
  rw [run]
  rfl

theorem retains_recvBuff (src : Sock) : Retains (recvBuff src) := by
  intro s
  rw [recvBuff_run]
  cases (takeRecv 65536 (s.world.pending src)).1 <;> rfl

theorem retains_newResponse (bytes : Bytes) : Retains (newResponse bytes) := by
  intro s
  have parsed := newResponse_run bytes s
  generalize newResponse bytes s = res at parsed
  cases parsed <;> rfl

theorem retains_recvBlock (src : Sock) : Retains (recvBlock src) := by
  intro s
  obtain ⟨evs, _, _, run⟩ := recvBlock_spec src s
  rw [run]
  split_ifs <;> rfl

theorem retains_proxyERROR (code : ErrorCode) : Retains (proxyERROR code) :=
  (retains_send _ _ _).bind fun _ => retains_log _

theorem connectServer_retains (req : HttpRequest) : Retains (connectServer req) := by
  intro s
  by_cases connected : s.world.connect = .connected
  · rw [connectServer_ok req connected]
    rfl
  · obtain ⟨w, evs, run, _⟩ := connectServer_fails req connected
    rw [run]
    rfl

theorem proxyFetch_retains (req : HttpRequest) : Retains (proxyFetch req) := by
  intro s
  obtain ⟨t, evs, frame, ⟨_, ⟨_, parsed⟩ | none⟩ | ⟨_, e, threw⟩⟩ := proxyFetch_run req s
  · rw [← frame.cache]
    generalize proxyFetch req s = res at parsed
    cases parsed <;> rfl
  · rw [none, finalSt_ok, frame.cache]
  · rw [threw, finalSt_error, frame.cache]

theorem proxyPOST_retains (req : HttpRequest) : Retains (proxyPOST req) := by
  apply (connectServer_retains req).bind
  intro _
  apply (proxyFetch_retains req).bind
  intro o
  cases o with
  | none => exact retains_pure ()
  | some r => exact fun _ => rfl

theorem tunnelScan_retains (fds : Descriptors) (ready : Ready) (is : List Nat) :
    Retains (tunnelScan fds ready is) := by
  induction is with
  | nil => exact retains_pure true
  | cons i is ih =>
    unfold tunnelScan
    by_cases set : fds.isset ready i = true
    · rw [if_pos set]
      apply (retains_recvBlock _).bind
      intro data
      by_cases zero : data.length = 0
      · rw [if_pos zero]
        exact retains_pure false
      · rw [if_neg zero]
        exact (retains_sendVector _ _ _).bind fun _ => ih
    · rw [if_neg set]
      exact ih

theorem tunnelLoop_retains (fds : Descriptors) (rounds : List Ready) :
    Retains (tunnelLoop fds rounds) := by
  induction rounds with
  | nil => exact retains_pure true
  | cons ready rounds ih =>
    apply (tunnelScan_retains fds ready _).bind
    intro more
    cases more with
    | true => exact ih
    | false => exact retains_pure false

theorem proxyCONNECT_retains (fds : Descriptors) (rounds : List Ready) (req : HttpRequest) :
    Retains (proxyCONNECT fds rounds req) := by
  apply (connectServer_retains req).bind
  intro _
  apply (retains_send _ _ _).bind
  intro error
  split_ifs
  · exact retains_log _
  · apply (retains_log _).bind
    intro _
    apply (tunnelLoop_retains fds rounds).bind
    intro more
    cases more with
    | true => exact (retains_log _).bind fun _ => retains_throw _
    | false => exact retains_pure ()

theorem setRequest_retains (line : Bytes) : Retains (setRequest line) := by
  intro s
  rw [setRequest, get_bind]
  cases HttpRequest.constructRequest s.world.libc.memory line with
  | error e => exact retains_throw e s
  | ok o =>
    cases o with
    | some req => exact (retains_log _).bind (fun _ => retains_pure req) s
    | none =>
      refine (retains_logWhen _ _).bind (fun _ => ?_) s
      exact (retains_proxyERROR _).bind fun _ => retains_throw _

theorem judgeRequest_retains (fds : Descriptors) (rounds : List Ready) {req : HttpRequest}
    (other : req.method ≠ str "GET") : Retains (judgeRequest fds rounds req) := by
  unfold judgeRequest
  split_ifs
  · exact (proxyCONNECT_retains fds rounds req).bind fun _ => retains_log _
  · exact proxyPOST_retains req
  · exact retains_proxyERROR _

theorem judgeRequest_get (fds : Descriptors) (rounds : List Ready) {req : HttpRequest}
    (get : req.method = str "GET") : judgeRequest fds rounds req = proxyGET req := by
  have others : str "GET" ≠ str "CONNECT" ∧ str "GET" ≠ str "POST" := by decide
  rw [judgeRequest, if_neg (by rw [get]; exact others.1), if_neg (by rw [get]; exact others.2),
    if_pos get]

end HttpProxy
