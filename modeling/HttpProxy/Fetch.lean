import HttpProxy.Receive

/-!
# `chunkHandle` and `proxyFetch`

Both leave the cache alone and put at most new objects on the heap (`Frame`). What
they return is parsed from all the bytes the call received from the server; what
they send the client, when no send fails, is `relayed`.
-/

namespace HttpProxy

/-- The second world is the first one some calls of `send` and `recv` later. -/
structure World.Agrees (w w' : World) : Prop where
  connect : w'.connect = w.connect
  now : w'.now = w.now
  libc : w'.libc = w.libc
  uninit : w'.uninit = w.uninit
  sends : w'.sends <:+ w.sends

theorem World.Agrees.refl (w : World) : w.Agrees w := ⟨rfl, rfl, rfl, rfl, List.suffix_rfl⟩

theorem World.Agrees.trans {u v w : World} (h : u.Agrees v) (h' : v.Agrees w) : u.Agrees w :=
  ⟨h'.connect.trans h.connect, h'.now.trans h.now, h'.libc.trans h.libc,
    h'.uninit.trans h.uninit, h'.sends.trans h.sends⟩

theorem World.NoFail.agrees {w w' : World} (hf : w.NoFail) (h : w.Agrees w') : w'.NoFail :=
  fun hm => hf (h.sends.subset hm)

theorem World.agrees_setSends {w : World} {l : List SendResult} (h : l <:+ w.sends) :
    w.Agrees (w.setSends l) := ⟨rfl, rfl, rfl, rfl, h⟩

theorem World.agrees_setPending (w : World) (src : Sock) (l : List Recv) :
    w.Agrees (w.setPending src l) := by constructor <;> simp

/-- From `s` to `t` the cache is untouched, the heap has at most grown, and the run
has done `evs`. -/
structure Frame (s t : St) (evs : List Event) : Prop where
  cache : t.cache = s.cache
  next : s.next ≤ t.next
  ledger : ∀ a, a ∈ t.ledger ↔ a ∈ s.ledger ∨ s.next ≤ a ∧ a < t.next
  world : s.world.Agrees t.world
  trace : t.trace = s.trace ++ evs

theorem Frame.after (s : St) {w : World} (h : s.world.Agrees w) (evs : List Event) :
    Frame s (s.after w evs) evs := by
  refine ⟨rfl, Nat.le_refl _, fun a => ?_, h, rfl⟩
  have empty : ¬ (s.next ≤ a ∧ a < s.next) := by omega
  simp only [after_ledger, after_next, empty, or_false]

theorem Frame.trans {s t u : St} {evs evs' : List Event} (h : Frame s t evs)
    (h' : Frame t u evs') : Frame s u (evs ++ evs') := by
  have hn := h.next
  have hn' := h'.next
  refine ⟨h'.cache.trans h.cache, hn.trans hn', fun a => ?_, h.world.trans h'.world, ?_⟩
  · have split : s.next ≤ a ∧ a < u.next ↔ s.next ≤ a ∧ a < t.next ∨ t.next ≤ a ∧ a < u.next := by
      omega
    rw [h'.ledger, h.ledger, split, or_assoc]
  · rw [h'.trace, h.trace, List.append_assoc]

/-! ## `newResponse` -/

/-- One more object on the heap. -/
def St.alloc (s : St) : St := { s with next := s.next + 1, ledger := insert s.next s.ledger }

@[simp] theorem alloc_cache (s : St) : s.alloc.cache = s.cache := rfl
@[simp] theorem alloc_next (s : St) : s.alloc.next = s.next + 1 := rfl
@[simp] theorem alloc_world (s : St) : s.alloc.world = s.world := rfl
@[simp] theorem alloc_trace (s : St) : s.alloc.trace = s.trace := rfl

theorem Frame.alloc (s : St) : Frame s s.alloc [] := by
  refine ⟨rfl, Nat.le_succ _, fun a => ?_, World.Agrees.refl _, by simp⟩
  have one : s.next ≤ a ∧ a < s.next + 1 ↔ a = s.next := by omega
  rw [alloc_next, one, or_comm]
  exact Finset.mem_insert

/-- What `newResponse` returns, as the parse of its bytes decides. -/
inductive Parsed (libc : Libc) (bytes : Bytes) (lo : Nat) (t : St) :
    EStateM.Result Exn St (Option Ref) → Prop
  | found {r : Ref} (h : parseResponse libc bytes = .ok (some r.obj)) (ge : lo ≤ r.addr)
      (lt : r.addr < t.next) : Parsed libc bytes lo t (.ok (some r) t)
  | failed (h : parseResponse libc bytes = .ok none) : Parsed libc bytes lo t (.ok none t)
  | threw {e : Exn} (h : parseResponse libc bytes = .error e) :
      Parsed libc bytes lo t (.error e t)

theorem newResponse_run (bytes : Bytes) (s : St) :
    Parsed s.world.libc bytes s.next s.alloc (newResponse bytes s) := by
  rw [newResponse, get_bind, set_bind]
  cases h : parseResponse s.world.libc bytes with
  | error e => exact .threw h
  | ok o =>
    cases o with
    | none => exact .failed h
    | some r => exact .found (r := ⟨s.next, r⟩) h (Nat.le_refl _) (Nat.lt_succ_self _)

/-- A reply that does not complete has no prefix that does. -/
theorem parseResponse_prefix {libc : Libc} {bytes more : Bytes}
    (h : parseResponse libc (bytes ++ more) = .ok none) : parseResponse libc bytes = .ok none := by
  unfold parseResponse at h ⊢
  cases hp : ResponseParser.parse libc.memory bytes with
  | more s => rfl
  | halt o =>
    rw [ResponseParser.parse_append_halt more hp] at h
    cases o with
    | error => rfl
    | threw e => cases h
    | completed p =>
      -- completed with `more` behind it, it would have given an object or thrown
      dsimp only at h
      cases hg : HttpResponse.getCacheExpire libc
        { lineRecv := bytes ++ more, status := p.status, statusCode := p.statusCode,
          httpVer := httpVersion p.msg } p.msg.headers <;> rw [hg] at h <;> cases h

/-! ## The relay of `chunkHandle` -/

/-- The blocks a relay forwards: what each `recvChar` takes, up to an empty one. -/
def relayBlocks : Nat → List Recv → List Bytes
  | 0, _ => []
  | fuel + 1, l =>
    if (charTaken l).1.length = 0 then [] else (charTaken l).1 :: relayBlocks fuel (charTaken l).2

/-- Neither a connection nor a send of cached bytes or of an error line. -/
def Event.ordinary : Event → Bool
  | .connected => false
  | .send _ (.cached _) _ _ => false
  | .send _ (.errorLine _) _ _ => false
  | _ => true

def Ordinary (evs : List Event) : Prop := ∀ e ∈ evs, e.ordinary = true

theorem Ordinary.nil : Ordinary [] := by simp [Ordinary]

theorem Ordinary.append {evs evs' : List Event} (h : Ordinary evs) (h' : Ordinary evs') :
    Ordinary (evs ++ evs') :=
  List.forall_mem_append.mpr ⟨h, h'⟩

theorem Ordinary.log (line : LogLine) : Ordinary [.log line] := by simp [Ordinary, Event.ordinary]

theorem Recvs.ordinary {src : Sock} {evs : List Event} (h : Recvs src evs) : Ordinary evs := by
  intro e he
  obtain ⟨r, rfl⟩ := h e he
  rfl

theorem Sends.ordinary {dst : Sock} {what : Payload} {evs : List Event} (h : Sends dst what evs)
    (hw : ∀ range n, (Event.send dst what range n).ordinary = true) : Ordinary evs := by
  intro e he
  obtain ⟨range, n, rfl⟩ := h e he
  exact hw range n

/-- Ordinary events and error lines to the client. -/
def Refusing (evs : List Event) : Prop :=
  ∀ e ∈ evs, e.ordinary = true ∨ ∃ code range n, e = .send .client (.errorLine code) range n

theorem Ordinary.refusing {evs : List Event} (h : Ordinary evs) : Refusing evs :=
  fun e he => .inl (h e he)

theorem Refusing.append {evs evs' : List Event} (h : Refusing evs) (h' : Refusing evs') :
    Refusing (evs ++ evs') :=
  List.forall_mem_append.mpr ⟨h, h'⟩

/-- `sendVector`: the events are sends, and when none fails they send what fits. -/
theorem sendVector_agrees (dst : Sock) (what : Payload) (buf : Bytes) (s : St) :
    ∃ r w evs, sendVector dst what buf s = .ok r (s.after w evs) ∧ s.world.Agrees w ∧
      w.server = s.world.server ∧ Sends dst what evs ∧
      (s.world.NoFail → bytesTo dst evs = sendable buf ∧ (0 < intLen buf.length → r = 0)) := by
  by_cases hf : s.world.NoFail
  · obtain ⟨r, evs, l, hrun, hl, hsends, hsent⟩ := sendVector_sent dst what buf s hf
    exact ⟨r, _, evs, hrun, World.agrees_setSends hl, rfl, hsends, fun _ => hsent⟩
  · obtain ⟨r, evs, l, hrun, hl, hsends⟩ := sendVector_run dst what buf s
    exact ⟨r, _, evs, hrun, World.agrees_setSends hl, rfl, hsends, fun h => absurd h hf⟩

/-- The relay forwards block after block and adds them to `total`. -/
theorem relayLoop_run (fuel : Nat) (total : Bytes) (s : St) :
    ∃ w evs, relayLoop fuel total s =
        .ok (total ++ (relayBlocks fuel s.world.server).flatten) (s.after w evs) ∧
      s.world.Agrees w ∧ Ordinary evs ∧
      bytesFrom .server evs = (relayBlocks fuel s.world.server).flatten ∧
      (s.world.NoFail →
        bytesTo .client evs = (relayBlocks fuel s.world.server).flatMap sendable) := by
  induction fuel generalizing total s with
  | zero =>
    exact ⟨s.world, [], by simp [relayLoop, relayBlocks], World.Agrees.refl _, Ordinary.nil,
      rfl, fun _ => rfl⟩
  | succ fuel ih =>
    obtain ⟨evs₁, hrecv, hrecvs, hgot⟩ := recvChar_run .server s
    obtain ⟨⟨block, rest⟩, htaken⟩ : ∃ p, charTaken s.world.server = p := ⟨_, rfl⟩
    simp only [World.pending, htaken] at hrecv hgot
    rw [relayLoop, bind_ok _ hrecv]
    by_cases hzero : block.length = 0
    · have hnil := List.eq_nil_of_length_eq_zero hzero
      subst hnil
      have blocks : relayBlocks (fuel + 1) s.world.server = [] := by simp [relayBlocks, htaken]
      rw [blocks]
      refine ⟨s.world.setPending .server rest, evs₁, by simp, World.agrees_setPending _ _ _,
        hrecvs.ordinary, hgot, fun _ => hrecvs.bytesTo .client⟩
    · obtain ⟨r, w₂, evs₂, hsend, hw₂, hserver, hsends, hfull⟩ :=
        sendVector_agrees .client .reply block
        (s.after (s.world.setPending .server rest) evs₁)
      simp only [after_world, setPending_server] at hserver hw₂
      obtain ⟨w₃, evs₃, hloop, hw₃, hord, hgot₃, hsent₃⟩ := ih (total ++ block)
        (s.after w₂ (evs₁ ++ evs₂))
      simp only [after_world, after_after, hserver] at hloop hw₃ hgot₃ hsent₃
      have blocks : relayBlocks (fuel + 1) s.world.server = block :: relayBlocks fuel rest := by
        simp [relayBlocks, htaken, hzero]
      refine ⟨w₃, evs₁ ++ evs₂ ++ evs₃, ?_, ?_, ?_, ?_, fun hf => ?_⟩
      · rw [if_neg hzero, bind_ok _ hsend, after_after, hloop, blocks]
        simp
      · exact ((World.agrees_setPending _ _ _).trans hw₂).trans hw₃
      · exact (hrecvs.ordinary.append (hsends.ordinary fun _ _ => rfl)).append hord
      · rw [bytesFrom_append, bytesFrom_append, hgot, hsends.bytesFrom, hgot₃, blocks]
        simp
      · have hf₁ := hf.agrees (World.agrees_setPending s.world .server rest)
        rw [bytesTo_append, bytesTo_append, hrecvs.bytesTo, (hfull hf₁).1, hsent₃ (hf₁.agrees hw₂),
          blocks, List.nil_append, List.flatMap_cons]

/-- The blocks a relay forwards when these are the results to come. -/
def relayed (l : List Recv) : List Bytes := relayBlocks ((pendingBytes l).length + 1) l

/-- All the bytes a fetch receives, given the first segment and the results after it. -/
def fetched (input : Bytes) (rest : List Recv) : Bytes :=
  if chunkMarked input then input ++ (relayed rest).flatten else input

theorem chunkHandle_unmarked {input : Bytes} (h : chunkMarked input = false) (s : St) :
    chunkHandle input s = .ok none s := by
  rw [chunkHandle, h]
  rfl

/-- On a marked reply `chunkHandle` relays to the end of the stream and parses the whole. -/
theorem chunkHandle_marked {input : Bytes} (h : chunkMarked input = true) (s : St) :
    ∃ w evs, chunkHandle input s =
        newResponse (input ++ (relayed s.world.server).flatten) (s.after w evs) ∧
      s.world.Agrees w ∧ Ordinary evs ∧
      bytesFrom .server evs = (relayed s.world.server).flatten ∧
      (s.world.NoFail → bytesTo .client evs = sendable input ++
        (relayed s.world.server).flatMap sendable) := by
  obtain ⟨r, w₁, evs₁, hsend, hw₁, hserver, hsends, hfull⟩ :=
    sendVector_agrees .client .reply input s
  obtain ⟨w₂, evs₂, hloop, hw₂, hord, hgot, hsent⟩ := relayLoop_run
    ((pendingBytes s.world.server).length + 1) input
    (s.after w₁ (evs₁ ++ [.log (.responding (firstLine input))]))
  simp only [after_world, after_after, hserver] at hloop hw₂ hgot hsent
  refine ⟨w₂, evs₁ ++ [.log (.responding (firstLine input))] ++ evs₂, ?_, hw₁.trans hw₂, ?_, ?_,
    fun hf => ?_⟩
  · rw [chunkHandle, if_pos h, bind_ok _ hsend, log_bind, get_bind]
    simp only [after_world, after_after, hserver]
    rw [bind_ok _ hloop]
    rfl
  · exact ((hsends.ordinary fun _ _ => rfl).append (Ordinary.log _)).append hord
  · rw [bytesFrom_append, bytesFrom_append, hsends.bytesFrom, hgot]
    simp [relayed]
  · rw [bytesTo_append, bytesTo_append, (hfull hf).1, hsent (hf.agrees hw₁), bytesTo_singleton,
      Event.sentTo_log, List.append_nil, relayed]

/-- `forwardSegment` on a reply that has bytes. -/
theorem forwardSegment_run {input : Bytes} (hpos : input ≠ []) (s : St) :
    ∃ t evs, Frame s t evs ∧ Ordinary evs ∧ bytesFrom .server evs = [] ∧
      (Parsed s.world.libc input s.next t (forwardSegment input s) ∨
        forwardSegment input s = .ok none t ∧ ¬ (s.world.NoFail ∧ 0 < intLen input.length)) ∧
      (s.world.NoFail → bytesTo .client evs = sendable input) := by
  have hlen : input.length ≠ 0 := by simpa using hpos
  obtain ⟨r, w, evs, hsend, hw, _, hsends, hfull⟩ := sendVector_agrees .client .reply input s
  have hord : Ordinary evs := hsends.ordinary fun _ _ => rfl
  have before := Frame.after s hw evs
  by_cases hr : r = 0
  · subst hr
    have after := before.trans (Frame.alloc (s.after w evs))
    have parsed := newResponse_run input (s.after w evs)
    rw [after_world, hw.libc] at parsed
    generalize hnew : newResponse input (s.after w evs) = res at parsed
    cases parsed with
    | @found r h ge lt =>
      have run : forwardSegment input s = .ok (some r) ((s.after w evs).alloc.after
          (s.after w evs).world [.log (.responding r.obj.returnResponse)]) := by
        rw [forwardSegment, if_pos hlen, bind_ok _ hsend, if_pos rfl, bind_ok _ hnew]
        rfl
      refine ⟨_, _, after.trans (Frame.after _ (World.Agrees.refl _) [.log _]), ?_, ?_,
        .inl (by rw [run]; exact .found h ge lt), fun hf => ?_⟩
      · simpa using hord.append (Ordinary.log _)
      · simp [hsends.bytesFrom]
      · simp [(hfull hf).1]
    | failed h =>
      have run : forwardSegment input s = .ok none (s.after w evs).alloc := by
        rw [forwardSegment, if_pos hlen, bind_ok _ hsend, if_pos rfl, bind_ok _ hnew]
        rfl
      exact ⟨_, _, after, by simpa using hord, by simp [hsends.bytesFrom],
        .inl (run ▸ .failed h), fun hf => by simp [(hfull hf).1]⟩
    | @threw e h =>
      have run : forwardSegment input s = .error e (s.after w evs).alloc := by
        rw [forwardSegment, if_pos hlen, bind_ok _ hsend, if_pos rfl, bind_error _ hnew]
      exact ⟨_, _, after, by simpa using hord, by simp [hsends.bytesFrom],
        .inl (run ▸ .threw h), fun hf => by simp [(hfull hf).1]⟩
  · refine ⟨_, _, before, hord, hsends.bytesFrom _, .inr ⟨?_, ?_⟩,
      fun hf => (hfull hf).1⟩
    · rw [forwardSegment, if_pos hlen, bind_ok _ hsend, if_neg hr]
      rfl
    · intro hf
      exact hr ((hfull hf.1).2 hf.2)

/-! ## `proxyFetch` -/

/-- `proxyERROR` calls `send` once and writes a line of the log. -/
theorem proxyERROR_events (code : ErrorCode) (s : St) :
    ∃ n l, takeSend (errorLine code).length s.world.sends = (n, l) ∧ proxyERROR code s =
      .ok () (s.after (s.world.setSends l) [.send .client (.errorLine code) (errorLine code) n,
        .log (.responding ((errorLine code).take ((errorLine code).length - 4)))]) := by
  obtain ⟨⟨n, l⟩, ht⟩ : ∃ p, takeSend (errorLine code).length s.world.sends = p := ⟨_, rfl⟩
  refine ⟨n, l, ht, ?_⟩
  rw [proxyERROR, bind_ok _ (send_run .client _ _ s ht), log_run, after_after]
  rfl

theorem proxyERROR_run (code : ErrorCode) (s : St) :
    ∃ w evs, proxyERROR code s = .ok () (s.after w evs) ∧ s.world.Agrees w ∧
      Refusing evs ∧ bytesFrom .server evs = [] ∧
      (s.world.sends = [] → bytesTo .client evs = errorLine code) := by
  obtain ⟨n, l, ht, hrun⟩ := proxyERROR_events code s
  refine ⟨s.world.setSends l, _, hrun, World.agrees_setSends (takeSend_suffix ht),
    by simp [Refusing, Event.ordinary], rfl, fun hs => ?_⟩
  rw [hs, takeSend] at ht
  cases ht
  simp [bytesTo, Event.sentTo]

/-- Does `parseResponse` return -1? -/
def parseFails (libc : Libc) (bytes : Bytes) : Bool :=
  match parseResponse libc bytes with
  | .ok none => true
  | _ => false

theorem parseFails_iff {libc : Libc} {bytes : Bytes} :
    parseFails libc bytes = true ↔ parseResponse libc bytes = .ok none := by
  unfold parseFails
  split
  · next h => simp [h]
  · next h => simpa using h

/-- What the client is sent of a reply with a header block when no send fails: the
bytes received, and on top of a relay that does not parse its first segment again. -/
def delivered (libc : Libc) (input : Bytes) (rest : List Recv) : Bytes :=
  if chunkMarked input then
    input ++ (relayed rest).flatMap sendable
      ++ (if parseFails libc (fetched input rest) then input else [])
  else input

theorem ne_nil_of_headerEnd {input : Bytes} (h : check502 input = false) : input ≠ [] := by
  rintro rfl
  cases h

theorem fetchReply_run {input : Bytes} (hend : check502 input = false)
    (hlen : input.length ≤ 65536) (s : St) :
    ∃ t evs, Frame s t evs ∧ Ordinary evs ∧
      input ++ bytesFrom .server evs = fetched input s.world.server ∧
      (Parsed s.world.libc (fetched input s.world.server) s.next t (fetchReply input s) ∨
        fetchReply input s = .ok none t ∧ ¬ s.world.NoFail) ∧
      (s.world.NoFail → bytesTo .client evs = delivered s.world.libc input s.world.server) := by
  have hne := ne_nil_of_headerEnd hend
  have fits : FitsInt input.length := by unfold FitsInt; omega
  have whole := sendable_of_fits fits
  have hpos : 0 < intLen input.length := by
    rw [intLen_of_fits fits]
    exact List.length_pos_of_ne_nil hne
  cases hm : chunkMarked input with
  | false =>
    have run : fetchReply input s = forwardSegment input s := by
      rw [fetchReply, hend, if_neg Bool.false_ne_true, bind_ok _ (chunkHandle_unmarked hm s)]
    obtain ⟨t, evs, frame, hord, hgot, hres, hsent⟩ := forwardSegment_run hne s
    refine ⟨t, evs, frame, hord, by simp [hgot, fetched, hm], ?_, fun hf => ?_⟩
    · rw [run, fetched, hm, if_neg Bool.false_ne_true]
      exact hres.imp id fun h => ⟨h.1, fun hf => h.2 ⟨hf, hpos⟩⟩
    · rw [hsent hf, whole, delivered, hm, if_neg Bool.false_ne_true]
  | true =>
    obtain ⟨w, evs, hrun, hw, hord, hgot, hsent⟩ := chunkHandle_marked hm s
    have total : fetched input s.world.server = input ++ (relayed s.world.server).flatten := by
      rw [fetched, if_pos hm]
    have frame := (Frame.after s hw evs).trans (Frame.alloc (s.after w evs))
    have parsed := newResponse_run (fetched input s.world.server) (s.after w evs)
    rw [after_world, hw.libc] at parsed
    rw [← total] at hrun
    generalize hnew : newResponse (fetched input s.world.server) (s.after w evs) = res
      at parsed hrun
    cases parsed with
    | @found r h ge lt =>
      have run : fetchReply input s = .ok (some r) (s.after w evs).alloc := by
        rw [fetchReply, hend, if_neg Bool.false_ne_true, bind_ok _ hrun]
        rfl
      refine ⟨_, _, frame, by simpa using hord, by simp [hgot, total],
        .inl (by rw [run]; exact .found h ge lt), fun hf => ?_⟩
      simp [delivered, hm, hsent hf, whole, parseFails, h]
    | @threw e h =>
      have run : fetchReply input s = .error e (s.after w evs).alloc := by
        rw [fetchReply, hend, if_neg Bool.false_ne_true, bind_error _ hrun]
      refine ⟨_, _, frame, by simpa using hord, by simp [hgot, total],
        .inl (by rw [run]; exact .threw h), fun hf => ?_⟩
      simp [delivered, hm, hsent hf, whole, parseFails, h]
    | failed h =>
      -- NULL although everything was relayed: the first segment goes out again
      have run : fetchReply input s = forwardSegment input (s.after w evs).alloc := by
        rw [fetchReply, hend, if_neg Bool.false_ne_true, bind_ok _ hrun]
      obtain ⟨t, evs', frame', hord', hgot', hres, hsent'⟩ :=
        forwardSegment_run hne (s.after w evs).alloc
      have first : parseResponse s.world.libc input = .ok none :=
        parseResponse_prefix (total ▸ h)
      refine ⟨t, evs ++ evs', by simpa using frame.trans frame', hord.append hord',
        by simp [hgot, hgot', total], ?_, fun hf => ?_⟩
      · rw [run]
        rcases hres with hres | ⟨hres, hfail⟩
        · rw [alloc_world, after_world, hw.libc] at hres
          generalize forwardSegment input (s.after w evs).alloc = res at hres
          cases hres with
          | found h' => rw [first] at h'; cases h'
          | failed => exact .inl (.failed h)
          | threw h' => rw [first] at h'; cases h'
        · exact .inr ⟨hres, fun hf => hfail ⟨hf.agrees hw, hpos⟩⟩
      · rw [bytesTo_append, hsent hf, hsent' (hf.agrees hw), whole, delivered, if_pos hm,
          if_pos (parseFails_iff.mpr h)]

/-- How `proxyFetch` begins: the request is not sent, or no reply is read, or the
first segment goes to `fetchReply`. -/
theorem proxyFetch_begin (req : HttpRequest) (s : St) :
    ∃ w evs, s.world.Agrees w ∧ Ordinary evs ∧ bytesTo .client evs = [] ∧
      ((proxyFetch req s = .ok none (s.after w evs) ∧ bytesFrom .server evs = [] ∧
          ¬ (s.world.NoFail ∧ 0 < intLen req.lineSend.length)) ∨
        (proxyFetch req s = .error .lengthError (s.after w evs) ∧ bytesFrom .server evs = [] ∧
          (takeRecv 65536 s.world.server).1 = .fail) ∨
        ∃ input, takeRecv 65536 s.world.server = (.data input, w.server) ∧
          bytesFrom .server evs = input ∧
          proxyFetch req s = fetchReply input (s.after w evs)) := by
  obtain ⟨r, w₁, evs₁, hsend, hw₁, hserver, hsends, hfull⟩ :=
    sendVector_agrees .server .request req.lineSend s
  have sending : Ordinary evs₁ := hsends.ordinary fun _ _ => rfl
  have quiet : bytesTo .client evs₁ = [] := hsends.bytesTo_ne (by decide)
  have deaf : bytesFrom .server evs₁ = [] := hsends.bytesFrom _
  by_cases h0 : r = 0
  · subst h0
    obtain ⟨⟨o, rest⟩, ht⟩ : ∃ p, takeRecv 65536 s.world.server = p := ⟨_, rfl⟩
    have hrecv := recvBuff_run .server
      (s.after w₁ (evs₁ ++ [.log (.requesting req.request req.hostName)]))
    simp only [after_world, after_after, World.pending, hserver, ht] at hrecv
    have run : proxyFetch req s = (recvBuff .server >>= fun input =>
        log (.received (firstLine input) req.hostName) >>= fun _ => fetchReply input)
        (s.after w₁ (evs₁ ++ [.log (.requesting req.request req.hostName)])) := by
      rw [proxyFetch, bind_ok _ hsend, if_pos rfl, log_bind, after_after]
      rfl
    have agrees := hw₁.trans (World.agrees_setPending w₁ .server rest)
    cases o with
    | fail =>
      rw [bind_error _ hrecv] at run
      refine ⟨_, _, agrees, ?_, ?_, .inr (.inl ⟨run, ?_, by rw [ht]⟩)⟩
      · exact (sending.append (Ordinary.log _)).append (Recvs.single .server _).ordinary
      · simp [quiet]
      · simp [deaf]
    | data input =>
      rw [bind_ok _ hrecv, log_bind, after_after] at run
      refine ⟨_, _, agrees, ?_, ?_, .inr (.inr ⟨input, by simp [ht], ?_, run⟩)⟩
      · exact ((sending.append (Ordinary.log _)).append (Recvs.single .server _).ordinary).append
          (Ordinary.log _)
      · simp [quiet]
      · simp [deaf]
  · refine ⟨w₁, evs₁, hw₁, sending, quiet, .inl ⟨?_, deaf, fun hf => h0 ((hfull hf.1).2 hf.2)⟩⟩
    rw [proxyFetch, bind_ok _ hsend, if_neg h0]
    rfl

/-- A fetch from a server with these results to come receives `got`. -/
def Fetches (server : List Recv) (got : Bytes) : Prop :=
  ∃ input rest, takeRecv 65536 server = (.data input, rest) ∧ check502 input = false ∧
    got = fetched input rest

/-- A fetch leaves the cache alone, and an object it returns is the parse of all the
bytes it received from the server. -/
theorem proxyFetch_run (req : HttpRequest) (s : St) :
    ∃ t evs, Frame s t evs ∧
      (Ordinary evs ∧ (Fetches s.world.server (bytesFrom .server evs) ∧
            Parsed s.world.libc (bytesFrom .server evs) s.next t (proxyFetch req s) ∨
          proxyFetch req s = .ok none t) ∨
        Refusing evs ∧ ∃ e, proxyFetch req s = .error e t) := by
  obtain ⟨w, evs, hw, hord, _, ⟨run, _⟩ | ⟨run, _⟩ | ⟨input, ht, hgot, run⟩⟩ :=
    proxyFetch_begin req s
  · exact ⟨_, evs, Frame.after s hw evs, .inl ⟨hord, .inr run⟩⟩
  · exact ⟨_, evs, Frame.after s hw evs, .inr ⟨hord.refusing, _, run⟩⟩
  · have before := Frame.after s hw evs
    cases hend : check502 input with
    | true =>
      obtain ⟨w', evs', hrun, hw', hrefuse, _⟩ := proxyERROR_run .badGateway502 (s.after w evs)
      refine ⟨_, evs ++ evs', before.trans (Frame.after _ hw' evs'),
        .inr ⟨hord.refusing.append hrefuse, .exception, ?_⟩⟩
      rw [run, fetchReply, hend, if_pos rfl, bind_ok _ hrun]
      rfl
    | false =>
      obtain ⟨t, evs', frame, hord', hgot', hres, _⟩ :=
        fetchReply_run hend (takeRecv_length ht) (s.after w evs)
      refine ⟨t, evs ++ evs', before.trans frame, .inl ⟨hord.append hord', ?_⟩⟩
      rw [after_world, hw.libc, ← run, after_next] at hres
      rw [after_world] at hgot'
      rw [← hgot'] at hres
      rw [bytesFrom_append, hgot]
      rcases hres with hres | ⟨hres, _⟩
      · exact .inl ⟨⟨input, w.server, ht, hend, hgot'⟩, hres⟩
      · exact .inr hres

/-- When no send fails and the first segment ends a header block: what the fetch
receives, what it sends the client and what it returns. -/
theorem proxyFetch_relay {req : HttpRequest} {s : St} {input : Bytes} {rest : List Recv}
    (hf : s.world.NoFail) (hreq : 0 < intLen req.lineSend.length)
    (ht : takeRecv 65536 s.world.server = (.data input, rest)) (hend : check502 input = false) :
    ∃ t evs, Frame s t evs ∧ Ordinary evs ∧ bytesFrom .server evs = fetched input rest ∧
      bytesTo .client evs = delivered s.world.libc input rest ∧
      Parsed s.world.libc (fetched input rest) s.next t (proxyFetch req s) := by
  obtain ⟨w, evs, hw, hord, hquiet, ⟨_, _, hno⟩ | ⟨_, _, hno⟩ | ⟨input', ht', hgot, run⟩⟩ :=
    proxyFetch_begin req s
  · exact absurd ⟨hf, hreq⟩ hno
  · rw [ht] at hno; cases hno
  · rw [ht] at ht'
    cases ht'
    obtain ⟨t, evs', frame, hord', hgot', hres, hsent⟩ :=
      fetchReply_run hend (takeRecv_length ht) (s.after w evs)
    refine ⟨t, evs ++ evs', (Frame.after s hw evs).trans frame, hord.append hord', ?_, ?_,
      ?_⟩
    · rw [bytesFrom_append, hgot]
      exact hgot'
    · rw [bytesTo_append, hquiet, hsent (hf.agrees hw), after_world, hw.libc, List.nil_append]
    · rw [run]
      rcases hres with hres | ⟨_, hfail⟩
      · rwa [after_world, hw.libc] at hres
      · exact absurd (hf.agrees hw) hfail

end HttpProxy
