import HttpProxy.Calls
import HttpProxy.Delivery
import HttpProxy.Rejected
import HttpProxy.Tunnel

/-!
# The length that `sendall` is passed

The callers of `sendall` put the size of a vector into an `int`. The vectors are never empty,
but a relayed block, a stored response and a conditional request have no bound, and a size of
2^31 or more is not what the `int` holds. `runProxy1_meets` says in which runs that happens.
-/

namespace HttpProxy

open Noting

namespace Call

/-- What the call returns, and leaves in `*len`, when its `n` has this value at first. -/
def returns (c : Call) (s : St) (n : Int) : Option (Int × Int) :=
  match sendall c.dst c.what c.buf c.len { s with world := { s.world with uninit := n } } with
  | .ok r _ => some r
  | .error _ _ => none

/-- The length is positive and the size of the buffer, and `n` is assigned before it is
returned. -/
structure Covered (c : Call) : Prop where
  positive : 1 ≤ c.len
  whole : c.len = c.buf.length
  assigned : ∀ s n n', c.returns s n = c.returns s n'

theorem assigned_of_positive {c : Call} (positive : 1 ≤ c.len) (within : c.len ≤ c.buf.length)
    (s : St) (n n' : Int) : c.returns s n = c.returns s n' := by
  have spec (s : St) := sendall_spec c.dst c.what (show 0 < c.len by omega) within s
  rw [returns, returns, spec, spec]

end Call

/-- A vector whose size is a positive `int`. -/
def Passable (buf : Bytes) : Prop := buf ≠ [] ∧ FitsInt buf.length

theorem toInt32_eq_iff (n : Nat) : 1 ≤ toInt32 n ∧ toInt32 n = n ↔ n ≠ 0 ∧ FitsInt n := by
  rw [toInt32, Int.bmod_def, FitsInt]
  split_ifs <;> omega

theorem covered_iff_passable (dst : Sock) (what : Payload) (buf : Bytes) :
    (Call.mk dst what buf (toInt32 buf.length)).Covered ↔ Passable buf := by
  have sized := toInt32_eq_iff buf.length
  have some : buf.length ≠ 0 ↔ buf ≠ [] := List.length_eq_zero_iff.not
  rw [some] at sized
  generalize hlen : toInt32 buf.length = len at sized
  constructor
  · intro h
    exact sized.mp ⟨h.positive, h.whole⟩
  · intro h
    obtain ⟨positive, whole⟩ := sized.mpr h
    exact ⟨positive, whole, Call.assigned_of_positive positive (le_of_eq whole)⟩

section
variable (dst : Sock) (what : Payload) (buf : Bytes) (s : St)

theorem sendVector_meets :
    Meets Call.Covered (sendVector dst what buf) (Calls.sendVector dst what buf) s
      (Passable buf) := by
  apply Meets.congr
  · apply Meets.bind_silent
    · exact (notes_lift (sendall dst what buf _) s).meets.note _
    · exact fun _ t => notes_pure _ t
  · rw [and_true, covered_iff_passable]

end

/-! ## A relay -/

theorem relayLoop_meets (fuel : Nat) (total : Bytes) (s : St) :
    Meets Call.Covered (relayLoop fuel total) (Calls.relayLoop fuel total) s
      (∀ b ∈ relayBlocks fuel s.world.server, FitsInt b.length) := by
  induction fuel generalizing total s with
  | zero => exact (notes_pure total s).meets.congr (by simp [relayBlocks])
  | succ fuel ih =>
    obtain ⟨evs, hrecv, _⟩ := recvChar_run .server s
    obtain ⟨⟨block, rest⟩, htaken⟩ : ∃ p, charTaken s.world.server = p := ⟨_, rfl⟩
    simp only [World.pending, htaken] at hrecv
    rw [relayLoop, Calls.relayLoop]
    apply Meets.lift_bind hrecv
    by_cases zero : block.length = 0
    · rw [if_pos zero, if_pos zero]
      exact (notes_pure total _).meets.congr (by simp [relayBlocks, htaken, zero])
    · rw [if_neg zero, if_neg zero]
      obtain ⟨r, hsend, _⟩ := sendVector_spec .client .reply block
        (s.after (s.world.setPending .server rest) evs)
      apply ((sendVector_meets ..).bind hsend (ih _ _)).congr
      have blocks : relayBlocks (fuel + 1) s.world.server = block :: relayBlocks fuel rest := by
        simp [relayBlocks, htaken, zero]
      have some : block ≠ [] := List.ne_nil_of_length_pos (Nat.pos_of_ne_zero zero)
      rw [blocks, List.forall_mem_cons, Passable, and_iff_right some]
      rfl

/-- The blocks that are relayed behind a reply like this. One that does not fit has also
outgrown the `int total` of the `recvChar` that returned it. -/
def RelaysFit (input : Bytes) (rest : List Recv) : Prop :=
  chunkMarked input = true → ∀ b ∈ relayed rest, FitsInt b.length

theorem chunkHandle_meets {input : Bytes} (passable : Passable input) (s : St) :
    Meets Call.Covered (chunkHandle input) (Calls.chunkHandle input) s
      (RelaysFit input s.world.server) := by
  unfold chunkHandle Calls.chunkHandle RelaysFit
  cases marked : chunkMarked input with
  | false =>
    rw [if_neg Bool.false_ne_true, if_neg Bool.false_ne_true]
    exact (notes_pure none s).meets.congr (by simp)
  | true =>
    rw [if_pos rfl, if_pos rfl]
    obtain ⟨r, hsend, _⟩ := sendVector_spec .client .reply input s
    apply Meets.congr
    · apply (sendVector_meets ..).bind hsend
      apply Meets.lift_bind (log_run _ _)
      apply Meets.get_bind
      apply (relayLoop_meets ..).bind_silent
      intro total t
      exact notes_lift (newResponse total) t
    · simp [passable, relayed]

theorem passable_segment {input : Bytes} (some : input ≠ []) (hlen : input.length ≤ 65536) :
    Passable input := by
  refine ⟨some, ?_⟩
  unfold FitsInt
  omega

theorem forwardSegment_meets {input : Bytes} (hlen : input.length ≤ 65536) (s : St) :
    Meets Call.Covered (forwardSegment input) (Calls.forwardSegment input) s True := by
  unfold forwardSegment Calls.forwardSegment
  by_cases none : input.length = 0
  · rw [if_neg (not_not.mpr none), if_neg (not_not.mpr none)]
    exact (notes_pure _ s).meets
  · rw [if_pos none, if_pos none]
    have some : input ≠ [] := List.ne_nil_of_length_pos (Nat.pos_of_ne_zero none)
    have called := sendVector_meets .client .reply input s
    apply (called.congr (iff_true_intro (passable_segment some hlen))).bind_silent
    intro error t
    split_ifs
    · cases parsed : newResponse input t with
      | error e u => exact (notes_lift _ t).bind_error parsed
      | ok o u =>
        apply Notes.lift_bind parsed
        cases o with
        | none => exact notes_pure _ u
        | some r => exact Notes.lift_bind (log_run _ u) (notes_pure _ _)
    · exact notes_pure _ t

/-- The fetch from this reply on relays no block that is too long. -/
theorem fetchReply_meets {input : Bytes} (hlen : input.length ≤ 65536) (s : St) :
    Meets Call.Covered (fetchReply input) (Calls.fetchReply input) s
      (check502 input = false → RelaysFit input s.world.server) := by
  unfold fetchReply Calls.fetchReply
  cases ended : check502 input with
  | true =>
    rw [if_pos rfl, if_pos rfl]
    have refused : Notes (proxyERROR .badGateway502 >>= fun _ => (throw .exception : M (Option Ref)))
        (lift (proxyERROR .badGateway502) >>= fun _ => throw .exception) s ([] : List Call) :=
      (notes_lift _ s).bind_silent fun _ t => notes_throw _ t
    exact refused.meets.congr (by simp)
  | false =>
    rw [if_neg Bool.false_ne_true, if_neg Bool.false_ne_true]
    have passable := passable_segment (ne_nil_of_headerEnd ended) hlen
    have relays := chunkHandle_meets passable s
    rw [forall_prop_of_true rfl]
    cases run : chunkHandle input s with
    | error e t => exact relays.bind_error run
    | ok o t =>
      apply (relays.bind run (q := True) ?_).congr (by rw [and_true])
      cases o with
      | some r => exact (notes_pure _ t).meets
      | none => exact forwardSegment_meets hlen t

/-- Does the reply to come relay blocks that fit an `int`, if any? -/
def RepliesFit (server : List Recv) : Prop :=
  ∀ input rest, takeRecv 65536 server = (.data input, rest) → check502 input = false →
    RelaysFit input rest

/-- A reply is read and logged before the program goes on with it. -/
theorem readServer_meets {α : Type} (req : HttpRequest) {f : Bytes → M α} {g : Bytes → Calling α}
    (p : Bytes → World → Prop)
    (next : ∀ input, input.length ≤ 65536 → ∀ t, Meets Call.Covered (f input) (g input) t
      (p input t.world)) (s : St) :
    Meets Call.Covered
      (recvBuff .server >>= fun input =>
        log (.received (firstLine input) req.hostName) >>= fun _ => f input)
      (lift (recvBuff .server) >>= fun input =>
        lift (log (.received (firstLine input) req.hostName)) >>= fun _ => g input)
      s (∀ input rest, takeRecv 65536 s.world.server = (.data input, rest) →
        p input (s.world.setPending .server rest)) := by
  obtain ⟨⟨o, rest⟩, ht⟩ : ∃ p, takeRecv 65536 s.world.server = p := ⟨_, rfl⟩
  have hrecv := recvBuff_run .server s
  simp only [World.pending, ht] at hrecv
  rw [ht]
  cases o with
  | fail => exact ((notes_lift _ s).bind_error hrecv).meets.congr (by simp)
  | data input =>
    apply Meets.congr
    · apply Meets.lift_bind hrecv
      apply Meets.lift_bind (log_run _ _)
      exact next input (takeRecv_length ht) _
    · constructor
      · rintro fits _ _ ⟨⟩
        exact fits
      · exact fun fits => fits input rest rfl

theorem proxyFetch_meets {req : HttpRequest} (passable : Passable req.lineSend) (s : St) :
    Meets Call.Covered (proxyFetch req) (Calls.proxyFetch req) s
      ((sendsAll req.lineSend.length s.world.sends).1 = true → RepliesFit s.world.server) := by
  have hsend := sendVector_outcome .server .request req.lineSend s passable.2 passable.1
  have called := (sendVector_meets .server .request req.lineSend s).congr (iff_true_intro passable)
  unfold proxyFetch Calls.proxyFetch
  cases sent : (sendsAll req.lineSend.length s.world.sends).1 with
  | false =>
    rw [sent, if_neg Bool.false_ne_true] at hsend
    apply Meets.congr
    · apply called.bind hsend
      rw [if_neg (by decide), if_neg (by decide)]
      exact (notes_pure none _).meets
    · simp
  | true =>
    rw [sent, if_pos rfl] at hsend
    apply Meets.congr
    · apply called.bind hsend
      rw [if_pos rfl, if_pos rfl]
      apply Meets.lift_bind (log_run _ _)
      exact readServer_meets req (fun input w => check502 input = false → RelaysFit input w.server)
        (fun _ hlen t => fetchReply_meets hlen t) _
    · rw [forall_prop_of_true rfl, true_and]
      rfl

theorem OnlyLogs.meets {α : Type} {x : M Unit} (h : OnlyLogs x) {f : Unit → M α}
    {g : Unit → Calling α} {s : St} {p : Prop} (rest : ∀ t, Meets Call.Covered (f ()) (g ()) t p) :
    Meets Call.Covered (x >>= f) (lift x >>= g) s p := by
  obtain ⟨evs, run, _⟩ := h s
  exact Meets.lift_bind run (rest _)

/-- Nothing is called where the server is not reached. -/
theorem connectServer_meets {α : Type} (req : HttpRequest) {f : Unit → M α} {g : Unit → Calling α}
    {s : St} {p : Prop}
    (next : Meets Call.Covered (f ()) (g ()) (s.after s.world (connecting req)) p) :
    Meets Call.Covered (connectServer req >>= f) (lift (connectServer req) >>= g) s
      (s.world.connect = .connected → p) := by
  by_cases connected : s.world.connect = .connected
  · rw [forall_prop_of_true connected]
    exact Meets.lift_bind (connectServer_ok req connected) next
  · obtain ⟨w, evs, failed, _⟩ := connectServer_fails req connected
    exact ((notes_lift _ s).bind_error failed).meets.congr (by simp [connected])

/-! ## A revalidation -/

/-- The last call of a function. -/
theorem lastCall_meets (dst : Sock) (what : Payload) (buf : Bytes) (s : St) :
    Meets Call.Covered (sendVector dst what buf >>= fun _ => (pure () : M Unit))
      (Calls.sendVector dst what buf >>= fun _ => pure ()) s (Passable buf) :=
  (sendVector_meets dst what buf s).bind_silent fun _ t => notes_pure () t

/-- The size of a conditional request about a response with validators. -/
def conditionalSize (req : HttpRequest) (r : HttpResponse) : Nat :=
  req.request.length + req.hostLine.length + 11 +
    (if r.lastStr = [] then 0 else r.lastStr.length + 21) +
    (if r.etags = [] then 0 else r.etags.length + 17)

theorem length_constructValidation (req : HttpRequest) {r : HttpResponse}
    (h : r.lastStr ≠ [] ∨ r.etags ≠ []) :
    (constructValidation req r).length = conditionalSize req r := by
  have sizes : (str "\r\n").length = 2 ∧ (str "Host:").length = 5 ∧
      (str "If-Modified-Since: ").length = 19 ∧ (str "If-None-Match: ").length = 15 := by decide
  obtain ⟨newline, host, modified, match'⟩ := sizes
  have validators : r.lastStr.length ≠ 0 ∨ r.etags.length ≠ 0 := by simpa using h
  rw [constructValidation, if_pos validators, conditionalSize]
  by_cases last : r.lastStr = [] <;> by_cases tag : r.etags = []
  all_goals
    simp only [last, tag, List.length_append, List.length_nil, newline, host, modified, match',
      ne_eq, not_true_eq_false, if_false, if_true, List.length_eq_zero_iff, not_false_eq_true]
    omega

theorem passable_validation {req : HttpRequest} (passable : Passable req.lineSend)
    (r : HttpResponse) : Passable (constructValidation req r) ↔
      (r.lastStr ≠ [] ∨ r.etags ≠ [] → FitsInt (conditionalSize req r)) := by
  by_cases validators : r.lastStr ≠ [] ∨ r.etags ≠ []
  · have size := length_constructValidation req validators
    have some : constructValidation req r ≠ [] := by
      apply List.ne_nil_of_length_pos
      rw [size, conditionalSize]
      omega
    rw [Passable, size, and_iff_right some, forall_prop_of_true validators]
  · have whole : constructValidation req r = req.lineSend := by
      rw [constructValidation, if_neg (by simpa using validators)]
    rw [whole]
    exact iff_of_true passable fun h => absurd h validators

/-- A reply that is a 304 replays a stored response whose size fits an `int`. -/
def NotModifiedFits (libc : Libc) (cached : Ref) (reply : Bytes) : Prop :=
  ∀ new, parseResponse libc reply = .ok (some new) → new.statusCode = 304 →
    FitsInt cached.obj.lineRecv.length

theorem validationReply_meets {cached : Ref} (stored : cached.obj.lineRecv ≠ []) (url : Bytes)
    {reply : Bytes} (hlen : reply.length ≤ 65536) (s : St) :
    Meets Call.Covered (validationReply cached url reply) (Calls.validationReply cached url reply) s
      (NotModifiedFits s.world.libc cached reply) := by
  unfold validationReply Calls.validationReply NotModifiedFits
  have parsed := newResponse_run reply s
  generalize hnew : newResponse reply s = res at parsed
  cases parsed with
  | threw h =>
    rw [h]
    exact ((notes_lift _ s).bind_error hnew).meets.congr (by simp)
  | failed h =>
    rw [h]
    apply (Meets.lift_bind hnew (notes_pure () _).meets).congr
    simp
  | @found new h =>
    have passable : Passable reply := by
      apply passable_segment _ hlen
      rintro rfl
      cases h
    have answered (t : St) := (lastCall_meets .client .reply reply t).congr (iff_true_intro passable)
    rw [h]
    apply Meets.congr
    · apply Meets.lift_bind hnew
      apply Meets.lift_bind (log_run _ _)
      show Meets _ _ _ _ (new.obj.statusCode = 304 → FitsInt cached.obj.lineRecv.length)
      by_cases h200 : new.obj.statusCode = 200
      · rw [if_pos h200, if_pos h200]
        have other : new.obj.statusCode ≠ 304 := by omega
        apply Meets.congr (p := True)
        · apply Meets.lift_bind (cachePut_run ..)
          exact (onlyLogs_logWhen _ _).meets fun t => answered t
        · simp [other]
      · rw [if_neg h200, if_neg h200]
        by_cases h304 : new.obj.statusCode = 304
        · rw [if_pos h304, if_pos h304]
          apply (lastCall_meets ..).congr
          rw [Passable, and_iff_right stored, forall_prop_of_true h304]
        · rw [if_neg h304, if_neg h304]
          exact (answered _).congr (by simp [h304])
    · constructor
      · rintro fits _ ⟨⟩
        exact fits
      · exact fun fits => fits new.obj rfl

/-- What a revalidation sends has a size that fits an `int`: the conditional request, and the
stored response if the answer is a 304. -/
structure RevalidationFits (req : HttpRequest) (cached : Ref) (w : World) : Prop where
  asks : cached.obj.lastStr ≠ [] ∨ cached.obj.etags ≠ [] → FitsInt (conditionalSize req cached.obj)
  answers : ∀ reply rest, takeRecv 65536 w.server = (.data reply, rest) →
    NotModifiedFits w.libc cached reply

theorem handleValidation_meets {req : HttpRequest} (passable : Passable req.lineSend) {cached : Ref}
    (stored : cached.obj.lineRecv ≠ []) (url : Bytes) (s : St) :
    Meets Call.Covered (handleValidation req cached url) (Calls.handleValidation req cached url) s
      (s.world.connect = .connected → RevalidationFits req cached s.world) := by
  unfold handleValidation Calls.handleValidation
  obtain ⟨r, hsend, _⟩ := sendVector_spec .server .validation (constructValidation req cached.obj)
    ((s.after s.world (connecting req)).after s.world [.log (.requesting req.request req.hostName)])
  apply connectServer_meets req
  apply Meets.congr
  · apply Meets.lift_bind (log_run _ _)
    apply (sendVector_meets ..).bind hsend
    exact readServer_meets req (fun reply w => NotModifiedFits w.libc cached reply)
      (fun _ hlen t => validationReply_meets stored url hlen t) _
  · rw [passable_validation passable]
    exact ⟨fun h => ⟨h.1, h.2⟩, fun h => ⟨h.asks, h.answers⟩⟩

/-! ## The methods -/

/-- The sizes that a fetch for this request meets. -/
def FetchFits (req : HttpRequest) (w : World) : Prop :=
  w.connect = .connected → (sendsAll req.lineSend.length w.sends).1 = true → RepliesFit w.server

section
variable {req : HttpRequest} (passable : Passable req.lineSend) (s : St)
include passable

theorem proxyPOST_meets :
    Meets Call.Covered (proxyPOST req) (Calls.proxyPOST req) s (FetchFits req s.world) := by
  unfold proxyPOST Calls.proxyPOST FetchFits
  apply connectServer_meets req
  apply (proxyFetch_meets passable _).bind_silent
  intro o t
  cases o with
  | some r => exact notes_lift (deleteResponse r) t
  | none => exact notes_pure () t

theorem serveMiss_meets :
    Meets Call.Covered (serveMiss req) (Calls.serveMiss req) s (FetchFits req s.world) := by
  unfold serveMiss Calls.serveMiss FetchFits
  apply Meets.lift_bind (log_run _ s)
  apply connectServer_meets req
  apply (proxyFetch_meets passable _).bind_silent
  intro o t
  cases o with
  | some r => exact notes_lift (storeFetched req.uri r) t
  | none => exact notes_pure () t

/-- The sizes that a hit meets. -/
structure HitFits (req : HttpRequest) (resp : Ref) (w : World) : Prop where
  replays : revalidates req resp.obj w.now = false → FitsInt resp.obj.lineRecv.length
  revalidates : revalidates req resp.obj w.now = true → w.connect = .connected →
    RevalidationFits req resp w

theorem serveHit_meets {resp : Ref} (h : s.cache.lookup req.uri = some resp)
    (stored : resp.obj.lineRecv ≠ []) :
    Meets Call.Covered (serveHit req resp) (Calls.serveHit req resp) s (HitFits req resp s.world) := by
  have validates (line : LogLine) (stale : revalidates req resp.obj s.world.now = true) :
      Meets Call.Covered (log line >>= fun _ => handleValidation req resp req.uri)
        (lift (log line) >>= fun _ => Calls.handleValidation req resp req.uri) s
        (HitFits req resp s.world) := by
    apply Meets.congr
    · apply Meets.lift_bind (log_run _ s)
      exact handleValidation_meets passable stored req.uri _
    · exact ⟨fun fits => ⟨fun valid => by simp [stale] at valid, fun _ => fits⟩,
        fun fits => fits.revalidates stale⟩
  unfold serveHit Calls.serveHit
  apply Meets.get_bind
  rw [checkExpire_eq h]
  cases he : expired resp.obj req.maxAge s.world.now with
  | true =>
    rw [if_pos rfl, if_pos rfl]
    exact validates _ (by rw [revalidates, he, Bool.true_or])
  | false =>
    rw [if_neg Bool.false_ne_true, if_neg Bool.false_ne_true]
    cases hn : needsValidation req resp.obj s.world.now with
    | true =>
      rw [if_pos rfl, if_pos rfl]
      exact validates _ (by rw [revalidates, he, hn, Bool.false_or])
    | false =>
      rw [if_neg Bool.false_ne_true, if_neg Bool.false_ne_true]
      have valid : revalidates req resp.obj s.world.now = false := by
        rw [revalidates, he, hn, Bool.false_or]
      apply Meets.congr
      · apply Meets.lift_bind (log_run _ s)
        exact lastCall_meets ..
      · rw [Passable, and_iff_right stored]
        exact ⟨fun fits => ⟨fun _ => fits, fun stale => by simp [valid] at stale⟩,
          fun fits => fits.replays valid⟩

end

/-- No entry of the cache is empty. -/
def Stocked (c : LruCache Ref) : Prop := ∀ u r, c.lookup u = some r → r.obj.lineRecv ≠ []

/-- The sizes that a run of `proxyGET` meets. -/
def GetFits (req : HttpRequest) (c : LruCache Ref) (w : World) : Prop :=
  match c.lookup req.uri with
  | none => FetchFits req w
  | some resp => HitFits req resp w

theorem proxyGET_meets {req : HttpRequest} (passable : Passable req.lineSend) {s : St}
    (stocked : Stocked s.cache) :
    Meets Call.Covered (proxyGET req) (Calls.proxyGET req) s (GetFits req s.cache s.world) := by
  unfold proxyGET Calls.proxyGET GetFits
  apply Meets.lift_bind (cacheGet_run req.uri s)
  cases h : s.cache.lookup req.uri with
  | none => exact serveMiss_meets passable _
  | some resp => exact serveHit_meets passable _ (by simpa using h) (stocked _ _ h)

/-! ## The tunnel -/

theorem tunnelScan_meets (fds : Descriptors) (ready : Ready) (is : List Nat) (s : St) :
    Meets Call.Covered (tunnelScan fds ready is) (Calls.tunnelScan fds ready is) s True := by
  induction is generalizing s with
  | nil => exact (notes_pure true s).meets
  | cons i is ih =>
    rw [tunnelScan, Calls.tunnelScan]
    by_cases set : fds.isset ready i = true
    · rw [if_pos set, if_pos set]
      obtain ⟨evs, _, _, hrecv⟩ := recvBlock_spec (fds.sock i) s
      generalize (charTaken (s.world.pending (fds.sock i))).1 = data at hrecv
      split_ifs at hrecv with fits
      · apply Meets.lift_bind hrecv
        by_cases zero : data.length = 0
        · rw [if_pos zero, if_pos zero]
          exact (notes_pure false _).meets
        · rw [if_neg zero, if_neg zero]
          have passable : Passable data :=
            ⟨List.ne_nil_of_length_pos (Nat.pos_of_ne_zero zero), fits⟩
          obtain ⟨r, hsend, _⟩ := sendVector_spec
            (if i = fds.server then .client else .server) .tunnel data (s.after _ evs)
          exact ((sendVector_meets ..).bind hsend (ih _)).congr (by simp [passable])
      · exact ((notes_lift _ s).bind_error hrecv).meets
    · rw [if_neg set, if_neg set]
      exact ih s

theorem tunnelLoop_meets (fds : Descriptors) (rounds : List Ready) (s : St) :
    Meets Call.Covered (tunnelLoop fds rounds) (Calls.tunnelLoop fds rounds) s True := by
  induction rounds generalizing s with
  | nil => exact (notes_pure true s).meets
  | cons ready rounds ih =>
    rw [tunnelLoop, Calls.tunnelLoop]
    have scanned := tunnelScan_meets fds ready (List.range (fds.max + 1)) s
    cases run : tunnelScan fds ready (List.range (fds.max + 1)) s with
    | error e t => exact scanned.bind_error run
    | ok more t =>
      apply (scanned.bind run (q := True) ?_).congr (by rw [and_true])
      cases more with
      | true => exact ih t
      | false => exact (notes_pure false t).meets

theorem proxyCONNECT_meets (fds : Descriptors) (rounds : List Ready) (req : HttpRequest) (s : St) :
    Meets Call.Covered (proxyCONNECT fds rounds req) (Calls.proxyCONNECT fds rounds req) s True := by
  unfold proxyCONNECT Calls.proxyCONNECT
  cases reached : connectServer req s with
  | error e t => exact ((notes_lift _ s).bind_error reached).meets
  | ok _ t =>
    obtain ⟨⟨k, l⟩, ht⟩ : ∃ p,
        takeSend (str "HTTP/1.1 200 OK\r\n\r\n").length t.world.sends = p := ⟨_, rfl⟩
    apply Meets.lift_bind reached
    apply Meets.lift_bind (send_run .client .established _ t ht)
    by_cases failed : k < 0
    · rw [if_pos failed, if_pos failed]
      exact (notes_lift _ _).meets
    · rw [if_neg failed, if_neg failed]
      apply Meets.lift_bind (log_run _ _)
      apply (tunnelLoop_meets ..).bind_silent
      intro more u
      cases more with
      | true => exact (notes_lift _ u).bind_silent fun _ v => notes_throw _ v
      | false => exact notes_pure () u

/-! ## A whole run -/

/-- The sizes that a run for this request meets. -/
structure SizesFit (req : HttpRequest) (c : LruCache Ref) (w : World) : Prop where
  get : req.method = str "GET" → GetFits req c w
  post : req.method = str "POST" → FetchFits req w

theorem judgeRequest_meets (fds : Descriptors) (rounds : List Ready) {req : HttpRequest}
    (passable : Passable req.lineSend) {s : St} (stocked : Stocked s.cache) :
    Meets Call.Covered (judgeRequest fds rounds req) (Calls.judgeRequest fds rounds req) s
      (SizesFit req s.cache s.world) := by
  have apart : str "CONNECT" ≠ str "GET" ∧ str "CONNECT" ≠ str "POST" ∧
      str "POST" ≠ str "GET" := by decide
  obtain ⟨cg, cp, pg⟩ := apart
  unfold judgeRequest Calls.judgeRequest
  by_cases connect : req.method = str "CONNECT"
  · rw [if_pos connect, if_pos connect]
    apply Meets.congr
    · exact (proxyCONNECT_meets fds rounds req s).bind_silent fun _ t => notes_lift _ t
    · refine iff_of_true trivial ⟨fun h => ?_, fun h => ?_⟩
      · exact absurd (connect.symm.trans h) cg
      · exact absurd (connect.symm.trans h) cp
  · rw [if_neg connect, if_neg connect]
    by_cases post : req.method = str "POST"
    · rw [if_pos post, if_pos post]
      apply (proxyPOST_meets passable s).congr
      exact ⟨fun fits => ⟨fun h => absurd (post.symm.trans h) pg, fun _ => fits⟩,
        fun fits => fits.post post⟩
    · rw [if_neg post, if_neg post]
      by_cases get : req.method = str "GET"
      · rw [if_pos get, if_pos get]
        apply (proxyGET_meets passable stocked).congr
        exact ⟨fun fits => ⟨fun _ => fits, fun h => absurd h post⟩, fun fits => fits.get get⟩
      · rw [if_neg get, if_neg get]
        exact (notes_lift _ s).meets.congr
          (iff_of_true trivial ⟨fun h => absurd h get, fun h => absurd h post⟩)

/-- The request that a run reads from its client. -/
def Asks (w : World) (req : HttpRequest) : Prop :=
  ∃ line rest, takeRecv 65536 w.client = (.data line, rest) ∧
    HttpRequest.constructRequest w.libc.memory line = .ok (some req)

section
variable {req : HttpRequest} {cached : Ref} {c : LruCache Ref} {w : World} {rest : List Recv}

theorem RevalidationFits.setClient (h : RevalidationFits req cached w) :
    RevalidationFits req cached (w.setPending .client rest) := ⟨h.asks, h.answers⟩

theorem RevalidationFits.ofClient (h : RevalidationFits req cached (w.setPending .client rest)) :
    RevalidationFits req cached w := ⟨h.asks, h.answers⟩

/-- What the client still sends is of no matter. -/
theorem getFits_client : GetFits req c (w.setPending .client rest) ↔ GetFits req c w := by
  unfold GetFits
  cases c.lookup req.uri with
  | none => exact Iff.rfl
  | some resp =>
    constructor
    · intro fits
      exact ⟨fits.replays, fun stale connected => (fits.revalidates stale connected).ofClient⟩
    · intro fits
      exact ⟨fits.replays, fun stale connected => (fits.revalidates stale connected).setClient⟩

theorem sizesFit_client : SizesFit req c (w.setPending .client rest) ↔ SizesFit req c w := by
  constructor
  · intro fits
    exact ⟨fun get => getFits_client.mp (fits.get get), fits.post⟩
  · intro fits
    exact ⟨fun get => getFits_client.mpr (fits.get get), fits.post⟩

end

/-- The request of a run is never empty, nor too long. -/
theorem passable_accepted (q : AcceptedRequest) : Passable q.lineSend := ⟨q.nonempty, q.fits⟩

theorem runProxy1_meets (fds : Descriptors) (rounds : List Ready) {s : St}
    (stocked : Stocked s.cache) :
    Meets Call.Covered (runProxy1 fds rounds) (Calls.runProxy1 fds rounds) s
      (∀ req, Asks s.world req → SizesFit req s.cache s.world) := by
  apply Meets.catch
  obtain ⟨⟨o, rest⟩, ht⟩ : ∃ p, takeRecv 65536 s.world.client = p := ⟨_, rfl⟩
  have hrecv := recvBuff_run .client s
  simp only [World.pending, ht] at hrecv
  unfold Asks
  rw [ht]
  cases o with
  | fail => exact ((notes_lift _ s).bind_error hrecv).meets.congr (by simp)
  | data line =>
    by_cases accepted : ∃ req, HttpRequest.constructRequest s.world.libc.memory line =
        .ok (some req)
    · obtain ⟨req, construct⟩ := accepted
      have passable := passable_accepted ⟨req, line, takeRecv_length ht, _, construct⟩
      apply Meets.congr
      · apply Meets.lift_bind hrecv
        apply Meets.lift_bind (setRequest_accepts
          (s := s.after (s.world.setPending .client rest) [.recv .client (.data line)]) construct)
        exact judgeRequest_meets fds rounds passable stocked
      · rw [after_world, after_world, sizesFit_client]
        constructor
        · rintro fits _ ⟨_, _, ⟨⟩, construct'⟩
          cases construct.symm.trans construct'
          exact fits
        · intro fits
          exact fits req ⟨line, rest, rfl, construct⟩
    · have none : ∀ req, HttpRequest.constructRequest s.world.libc.memory line ≠ .ok (some req) :=
        fun req h => accepted ⟨req, h⟩
      obtain ⟨e, t, refused⟩ := setRequest_fails
        (s := s.after (s.world.setPending .client rest) [.recv .client (.data line)]) none
      apply Meets.congr
      · exact Meets.lift_bind hrecv ((notes_lift _ _).bind_error refused).meets
      · refine iff_of_true trivial ?_
        rintro req ⟨_, _, ⟨⟩, construct⟩
        exact absurd construct (none req)

end HttpProxy
