import HttpProxy.Session
import HttpProxy.Validate

/-!
# What a program can write to its trace

`Only P` says that every event of a program satisfies `P`, however the program ends. It
passes from the parts of a program to the whole. `Fetching`, `Reaching`, `Renewing` and
`Tunnelling` list what a fetch, a connection, a revalidation and a tunnel can do.
-/

namespace HttpProxy

def Only {α : Type} (P : Event → Prop) (x : M α) : Prop :=
  ∀ s, ∃ evs, (finalSt (x s)).trace = s.trace ++ evs ∧ ∀ e ∈ evs, P e

section
variable {α β : Type} {P Q : Event → Prop}

theorem Only.bind {x : M α} {f : α → M β} (hx : Only P x) (hf : ∀ a, Only P (f a)) :
    Only P (x >>= f) := by
  intro s
  obtain ⟨evs, htrace, hP⟩ := hx s
  cases hrun : x s with
  | error e t =>
    rw [hrun] at htrace
    exact ⟨evs, by rw [bind_error _ hrun]; exact htrace, hP⟩
  | ok a t =>
    rw [hrun] at htrace
    obtain ⟨evs', htrace', hP'⟩ := hf a t
    refine ⟨evs ++ evs', ?_, List.forall_mem_append.mpr ⟨hP, hP'⟩⟩
    rw [bind_ok _ hrun, htrace', ← List.append_assoc]
    exact congrArg (· ++ evs') htrace

theorem Only.mono {x : M α} (h : Only P x) (le : ∀ e, P e → Q e) : Only Q x := by
  intro s
  obtain ⟨evs, htrace, hP⟩ := h s
  exact ⟨evs, htrace, fun e he => le e (hP e he)⟩

/-- The events of a run. -/
theorem Only.of_mem {x : M α} (h : Only P x) {s : St} {e : Event} (he : e ∈ ran x s) : P e := by
  obtain ⟨evs, htrace, hP⟩ := h s
  rw [ran_eq htrace] at he
  exact hP e he

/-- The events of a first part that returns stand before those of the second. -/
theorem Only.ran_bind {x : M α} {f : α → M β} {a : α} (hx : Only P x) (hf : Only Q (f a))
    {s t : St} (h : x s = .ok a t) : ran (x >>= f) s = ran x s ++ ran (f a) t := by
  obtain ⟨evs, htrace, _⟩ := hx s
  obtain ⟨evs', htrace', _⟩ := hf t
  rw [ran_eq htrace, ran_eq htrace']
  apply ran_eq
  rw [h] at htrace
  rw [bind_ok _ h, htrace', ← List.append_assoc]
  exact congrArg (· ++ evs') htrace

theorem Only.mem_ran_bind {x : M α} {f : α → M β} (hx : Only P x) (hf : ∀ a, Only Q (f a)) {s : St}
    {e : Event} (he : e ∈ ran (x >>= f) s) :
    e ∈ ran x s ∨ ∃ a t, x s = .ok a t ∧ e ∈ ran (f a) t := by
  cases h : x s with
  | error ex t =>
    have same : ran (x >>= f) s = ran x s := by rw [ran, ran, bind_error _ h, h]; rfl
    exact .inl (same ▸ he)
  | ok a t =>
    rw [hx.ran_bind (hf a) h] at he
    exact (List.mem_append.mp he).imp id fun he => ⟨a, t, rfl, he⟩

/-- The second part takes no event of the first back. -/
theorem Only.mem_ran_bind_left {x : M α} {f : α → M β} (hx : Only P x) (hf : ∀ a, Only Q (f a))
    {s : St} {e : Event} (he : e ∈ ran x s) : e ∈ ran (x >>= f) s := by
  cases h : x s with
  | error ex t =>
    have same : ran (x >>= f) s = ran x s := by rw [ran, ran, bind_error _ h, h]; rfl
    exact same ▸ he
  | ok a t =>
    rw [hx.ran_bind (hf a) h]
    exact List.mem_append_left _ he

/-- A step that ends normally in a known state. -/
theorem Only.of_run {x : M α}
    (h : ∀ s, ∃ a w evs, x s = .ok a (s.after w evs) ∧ ∀ e ∈ evs, P e) : Only P x := by
  intro s
  obtain ⟨a, w, evs, hrun, hP⟩ := h s
  exact ⟨evs, by rw [hrun]; rfl, hP⟩

/-- A step that leaves the trace as it was. -/
theorem Only.of_same {x : M α} (h : ∀ s, (finalSt (x s)).trace = s.trace) : Only P x :=
  fun s => ⟨[], by rw [h, List.append_nil], by simp⟩

theorem only_pure (a : α) : Only P (pure a : M α) := .of_same fun _ => rfl

theorem only_throw (e : Exn) : Only P (throw e : M α) := .of_same fun _ => rfl

theorem only_get : Only P (get : M St) := .of_same fun _ => rfl

theorem only_emit {e : Event} (h : P e) : Only P (emit e) :=
  fun _ => ⟨[e], rfl, by simpa using h⟩

theorem only_log {line : LogLine} (h : P (.log line)) : Only P (log line) := only_emit h

theorem only_logWhen (c : Prop) [Decidable c] {line : LogLine} (h : P (.log line)) :
    Only P (logWhen c line) := by
  unfold logWhen
  split_ifs
  · exact only_log h
  · exact only_pure ()

theorem OnlyLogs.only {x : M Unit} (h : OnlyLogs x) (hlog : ∀ line, P (.log line)) : Only P x := by
  apply Only.of_run
  intro s
  obtain ⟨evs, hrun, logs⟩ := h s
  refine ⟨(), s.world, evs, hrun, fun e he => ?_⟩
  obtain ⟨line, rfl⟩ := logs e he
  exact hlog line

/-! ## The system calls and the heap -/

theorem only_send {dst : Sock} {what : Payload} (range : Bytes)
    (h : ∀ range n, P (.send dst what range n)) : Only P (send dst what range) := by
  apply Only.of_run
  intro s
  exact ⟨_, _, _, send_run dst what range s rfl, by simpa using h range _⟩

theorem only_sendVector {dst : Sock} {what : Payload} (buf : Bytes)
    (h : ∀ range n, P (.send dst what range n)) : Only P (sendVector dst what buf) := by
  apply Only.of_run
  intro s
  obtain ⟨r, evs, l, hrun, _, sends⟩ := sendVector_run dst what buf s
  refine ⟨r, _, evs, hrun, fun e he => ?_⟩
  obtain ⟨range, n, rfl⟩ := sends e he
  exact h range n

theorem only_recv {src : Sock} (n : Nat) (h : ∀ r, P (.recv src r)) : Only P (recv src n) := by
  apply Only.of_run
  intro s
  exact ⟨_, _, _, recv_run src n s, by simpa using h _⟩

theorem only_recvBuff {src : Sock} (h : ∀ r, P (.recv src r)) : Only P (recvBuff src) := by
  apply (only_recv 65536 h).bind
  intro r
  cases r with
  | data bs => exact only_pure bs
  | fail => exact only_throw _

theorem only_recvChar {src : Sock} (h : ∀ r, P (.recv src r)) : Only P (recvChar src) := by
  apply Only.of_run
  intro s
  obtain ⟨evs, hrun, recvs, _⟩ := recvChar_run src s
  refine ⟨_, _, evs, hrun, fun e he => ?_⟩
  obtain ⟨r, rfl⟩ := recvs e he
  exact h r

theorem only_newResponse (bytes : Bytes) : Only P (newResponse bytes) := by
  apply Only.of_same
  intro s
  have parsed := newResponse_run bytes s
  generalize newResponse bytes s = res at parsed
  cases parsed with
  | found => rfl
  | failed => rfl
  | threw => rfl

theorem only_deleteResponse (r : Ref) : Only P (deleteResponse r) := .of_same fun _ => rfl

theorem only_cacheGet (url : Bytes) : Only P (cacheGet url) := .of_same fun _ => rfl

theorem only_cachePut (url : Bytes) (r : Ref) : Only P (cachePut url r) := by
  apply Only.of_same
  intro s
  rw [cachePut_run]
  rfl

theorem only_proxyERROR {code : ErrorCode}
    (hsend : ∀ range n, P (.send .client (.errorLine code) range n))
    (hlog : ∀ line, P (.log (.responding line))) : Only P (proxyERROR code) :=
  (only_send _ hsend).bind fun _ => only_log (hlog _)

theorem only_setRequest (line : Bytes)
    (hsend : ∀ range n, P (.send .client (.errorLine .badRequest400) range n))
    (hlog : ∀ line, P (.log line)) : Only P (setRequest line) := by
  unfold setRequest
  apply only_get.bind
  intro s
  split
  · exact only_throw _
  · apply (only_logWhen _ (hlog _)).bind
    intro _
    exact (only_proxyERROR hsend fun _ => hlog _).bind fun _ => only_throw _
  · exact (only_log (hlog _)).bind fun _ => only_pure _

end

/-! ## A fetch -/

/-- What a reply makes a fetch do. -/
inductive Answering : Event → Prop
  | recv (r : Recv) : Answering (.recv .server r)
  | refuse (range : Bytes) (n : Int) : Answering (.send .client (.errorLine .badGateway502) range n)
  | reply (range : Bytes) (n : Int) : Answering (.send .client .reply range n)
  | responding (line : Bytes) : Answering (.log (.responding line))

theorem relayLoop_only (fuel : Nat) (total : Bytes) : Only Answering (relayLoop fuel total) := by
  induction fuel generalizing total with
  | zero => exact only_pure total
  | succ fuel ih =>
    apply (only_recvChar .recv).bind
    intro block
    split_ifs
    · exact only_pure total
    · exact (only_sendVector _ .reply).bind fun _ => ih _

theorem chunkHandle_only (input : Bytes) : Only Answering (chunkHandle input) := by
  unfold chunkHandle
  split_ifs
  · apply (only_sendVector _ .reply).bind
    intro _
    apply (only_log (.responding _)).bind
    intro _
    apply only_get.bind
    intro s
    exact (relayLoop_only _ _).bind fun total => only_newResponse total
  · exact only_pure none

theorem forwardSegment_only (input : Bytes) : Only Answering (forwardSegment input) := by
  unfold forwardSegment
  split_ifs
  · apply (only_sendVector _ .reply).bind
    intro error
    split_ifs
    · apply (only_newResponse input).bind
      intro o
      cases o with
      | none => exact only_pure none
      | some r => exact (only_log (.responding _)).bind fun _ => only_pure (some r)
    · exact only_pure none
  · exact only_pure none

theorem fetchReply_only (input : Bytes) : Only Answering (fetchReply input) := by
  unfold fetchReply
  split_ifs
  · exact (only_proxyERROR .refuse .responding).bind fun _ => only_throw _
  · apply (chunkHandle_only input).bind
    intro o
    cases o with
    | none => exact forwardSegment_only input
    | some r => exact only_pure (some r)

inductive Fetching : Event → Prop
  | request (range : Bytes) (n : Int) : Fetching (.send .server .request range n)
  | requesting (line host : Bytes) : Fetching (.log (.requesting line host))
  | recv (r : Recv) : Fetching (.recv .server r)
  | received (line host : Bytes) : Fetching (.log (.received line host))
  | refuse (range : Bytes) (n : Int) : Fetching (.send .client (.errorLine .badGateway502) range n)
  | reply (range : Bytes) (n : Int) : Fetching (.send .client .reply range n)
  | responding (line : Bytes) : Fetching (.log (.responding line))

theorem Answering.fetching {e : Event} (h : Answering e) : Fetching e := by
  cases h with
  | recv r => exact .recv r
  | refuse range n => exact .refuse range n
  | reply range n => exact .reply range n
  | responding line => exact .responding line

theorem proxyFetch_only (req : HttpRequest) : Only Fetching (proxyFetch req) := by
  apply (only_sendVector _ .request).bind
  intro error
  split_ifs
  · apply (only_log (.requesting _ _)).bind
    intro _
    apply (only_recvBuff .recv).bind
    intro input
    apply (only_log (.received _ _)).bind
    intro _
    exact (fetchReply_only input).mono fun _ => Answering.fetching
  · exact only_pure none

/-! ## A connection -/

inductive Reaching (req : HttpRequest) : Event → Prop
  | lookup : Reaching req (.lookup req.hostName req.hostPort)
  | opened : Reaching req .opened
  | connected : Reaching req .connected
  | noAddressInfo : Reaching req (.log .noAddressInfo)
  | noSocket : Reaching req (.log .noSocket)
  | cannotConnect : Reaching req (.log .cannotConnect)
  | refuse (range : Bytes) (n : Int) : Reaching req (.send .client (.errorLine .notFound404) range n)
  | responding (line : Bytes) : Reaching req (.log (.responding line))

/-- It looks the server up before all else. -/
theorem connectServer_begins (req : HttpRequest) : ∃ k : Unit → M Unit,
    connectServer req = emit (.lookup req.hostName req.hostPort) >>= k ∧
      ∀ a, Only (Reaching req) (k a) := by
  have refuse {line : LogLine} (h : Reaching req (.log line)) : Only (Reaching req) (log line >>=
      fun _ => proxyERROR .notFound404 >>= fun _ => (throw .exception : M Unit)) :=
    (only_log h).bind fun _ => (only_proxyERROR .refuse .responding).bind fun _ => only_throw _
  refine ⟨_, rfl, fun _ => ?_⟩
  apply only_get.bind
  intro s
  cases s.world.connect with
  | noAddress => exact refuse .noAddressInfo
  | noSocket => exact refuse .noSocket
  | refused => exact (only_emit .opened).bind fun _ => refuse .cannotConnect
  | connected => exact (only_emit .opened).bind fun _ => only_emit .connected

theorem connectServer_only (req : HttpRequest) : Only (Reaching req) (connectServer req) := by
  obtain ⟨k, hk, rest⟩ := connectServer_begins req
  rw [hk]
  exact (only_emit .lookup).bind rest

theorem connectServer_looks (req : HttpRequest) (s : St) :
    .lookup req.hostName req.hostPort ∈ ran (connectServer req) s := by
  obtain ⟨k, hk, rest⟩ := connectServer_begins req
  have first : Only (Reaching req) (emit (.lookup req.hostName req.hostPort)) := only_emit .lookup
  rw [hk]
  apply first.mem_ran_bind_left rest
  have looked : ran (emit (.lookup req.hostName req.hostPort)) s =
      [.lookup req.hostName req.hostPort] := ran_eq rfl
  rw [looked]
  exact List.mem_singleton_self _

/-! ## A revalidation -/

/-- What the reply to a conditional request does. -/
inductive Revising : Event → Prop
  | responding (line : Bytes) : Revising (.log (.responding line))
  | evicted (url : Bytes) : Revising (.log (.evicted url))
  | reply (range : Bytes) (n : Int) : Revising (.send .client .reply range n)
  | cached (addr : Nat) (range : Bytes) (n : Int) : Revising (.send .client (.cached addr) range n)

theorem validationReply_only (cached : Ref) (url reply : Bytes) :
    Only Revising (validationReply cached url reply) := by
  apply (only_newResponse reply).bind
  intro o
  cases o with
  | none => exact only_pure ()
  | some new =>
    apply (only_log (.responding _)).bind
    intro _
    split_ifs
    · apply (only_cachePut url new).bind
      intro removed
      apply (only_logWhen _ (.evicted _)).bind
      intro _
      exact (only_sendVector _ .reply).bind fun _ => only_pure ()
    · exact (only_sendVector _ (.cached _)).bind fun _ => only_pure ()
    · exact (only_sendVector _ .reply).bind fun _ => only_pure ()

inductive Renewing (req : HttpRequest) : Event → Prop
  | reach {e : Event} (h : Reaching req e) : Renewing req e
  | requesting (line host : Bytes) : Renewing req (.log (.requesting line host))
  | validation (range : Bytes) (n : Int) : Renewing req (.send .server .validation range n)
  | recv (r : Recv) : Renewing req (.recv .server r)
  | received (line host : Bytes) : Renewing req (.log (.received line host))
  | responding (line : Bytes) : Renewing req (.log (.responding line))
  | evicted (url : Bytes) : Renewing req (.log (.evicted url))
  | reply (range : Bytes) (n : Int) : Renewing req (.send .client .reply range n)
  | cached (addr : Nat) (range : Bytes) (n : Int) : Renewing req (.send .client (.cached addr) range n)

theorem Revising.renewing {req : HttpRequest} {e : Event} (h : Revising e) : Renewing req e := by
  cases h with
  | responding line => exact .responding line
  | evicted url => exact .evicted url
  | reply range n => exact .reply range n
  | cached addr range n => exact .cached addr range n

theorem handleValidation_only (req : HttpRequest) (cached : Ref) (url : Bytes) :
    Only (Renewing req) (handleValidation req cached url) := by
  apply ((connectServer_only req).mono fun _ => .reach).bind
  intro _
  apply (only_log (.requesting _ _)).bind
  intro _
  apply (only_sendVector _ .validation).bind
  intro _
  apply (only_recvBuff .recv).bind
  intro reply
  apply (only_log (.received _ _)).bind
  intro _
  exact (validationReply_only cached url reply).mono fun _ => Revising.renewing

/-! ## A hit -/

inductive Hitting (req : HttpRequest) : Event → Prop
  | renew {e : Event} (h : Renewing req e) : Hitting req e
  | expiredAt (t : Int) : Hitting req (.log (.expiredAt t))
  | requiresValidation : Hitting req (.log .requiresValidation)
  | valid : Hitting req (.log .valid)

theorem serveHit_only (req : HttpRequest) (resp : Ref) : Only (Hitting req) (serveHit req resp) := by
  have renewed := (handleValidation_only req resp req.uri).mono fun _ => Hitting.renew
  apply only_get.bind
  intro s
  split_ifs
  · exact (only_log (.expiredAt _)).bind fun _ => renewed
  · exact (only_log (.expiredAt _)).bind fun _ => renewed
  · exact (only_log .requiresValidation).bind fun _ => renewed
  · apply (only_log .valid).bind
    intro _
    exact (only_sendVector _ fun _ _ => .renew (.cached ..)).bind fun _ => only_pure ()

/-! ## A tunnel -/

inductive Tunnelling : Event → Prop
  | recv (src : Sock) (r : Recv) : Tunnelling (.recv src r)
  | send (dst : Sock) (range : Bytes) (n : Int) : Tunnelling (.send dst .tunnel range n)

theorem recvBlock_only (src : Sock) : Only Tunnelling (recvBlock src) := by
  apply (only_recvChar (.recv src)).bind
  intro data
  split_ifs
  · exact only_pure data
  · exact only_throw _

theorem tunnelScan_only (fds : Descriptors) (ready : Ready) (is : List Nat) :
    Only Tunnelling (tunnelScan fds ready is) := by
  induction is with
  | nil => exact only_pure true
  | cons i is ih =>
    rw [tunnelScan]
    by_cases set : fds.isset ready i = true
    · rw [if_pos set]
      apply (recvBlock_only _).bind
      intro data
      by_cases zero : data.length = 0
      · rw [if_pos zero]
        exact only_pure false
      · rw [if_neg zero]
        exact (only_sendVector _ (.send _)).bind fun _ => ih
    · rw [if_neg set]
      exact ih

theorem tunnelLoop_only (fds : Descriptors) (rounds : List Ready) :
    Only Tunnelling (tunnelLoop fds rounds) := by
  induction rounds with
  | nil => exact only_pure true
  | cons ready rounds ih =>
    apply (tunnelScan_only fds ready _).bind
    intro more
    cases more with
    | true => exact ih
    | false => exact only_pure false

end HttpProxy
