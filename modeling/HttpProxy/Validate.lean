import HttpProxy.Fetch

/-!
# `connectServer`, `HandleValidation` and the two store sites

`St.store` is the state after `put`. Every run of these functions ends in the state
it began in, up to events and new objects (`Frame`), with at most one `store`.
-/

namespace HttpProxy

/-- The state after `myCache->put(url, r)`. -/
def St.store (s : St) (url : Bytes) (r : Ref) : St :=
  { s with
    cache := (s.cache.put url r).2.2
    ledger := match s.cache.lookup url with
      | some old => s.ledger.erase old.addr
      | none => s.ledger }

section
variable (s : St) (url : Bytes) (r : Ref)

@[simp] theorem store_next : (s.store url r).next = s.next := rfl
@[simp] theorem store_world : (s.store url r).world = s.world := rfl
@[simp] theorem store_trace : (s.store url r).trace = s.trace := rfl
@[simp] theorem store_cache : (s.store url r).cache = (s.cache.put url r).2.2 := rfl

theorem store_after (w : World) (evs : List Event) :
    (s.after w evs).store url r = (s.store url r).after w evs := rfl

theorem cachePut_run : cachePut url r s = .ok (s.cache.put url r).1 (s.store url r) := by
  rw [cachePut, get_bind, set_bind, St.store]
  simp only [LruCache.put_deleted]
  cases s.cache.lookup url <;> rfl

end

/-! ## Logging -/

def Logs (evs : List Event) : Prop := ∀ e ∈ evs, ∃ line, e = .log line

theorem Logs.append {evs evs' : List Event} (h : Logs evs) (h' : Logs evs') :
    Logs (evs ++ evs') :=
  List.forall_mem_append.mpr ⟨h, h'⟩

theorem Logs.ordinary {evs : List Event} (h : Logs evs) : Ordinary evs := by
  intro e he
  obtain ⟨line, rfl⟩ := h e he
  rfl

theorem Logs.bytesTo {evs : List Event} (h : Logs evs) (dst : Sock) : bytesTo dst evs = [] := by
  apply List.flatMap_eq_nil_iff.mpr
  intro e he
  obtain ⟨line, rfl⟩ := h e he
  rfl

theorem Logs.bytesFrom {evs : List Event} (h : Logs evs) (src : Sock) : bytesFrom src evs = [] := by
  apply List.flatMap_eq_nil_iff.mpr
  intro e he
  obtain ⟨line, rfl⟩ := h e he
  rfl

/-- A program that only writes to the log. -/
def OnlyLogs (x : M Unit) : Prop :=
  ∀ s, ∃ evs, x s = .ok () (s.after s.world evs) ∧ Logs evs

theorem onlyLogs_log (line : LogLine) : OnlyLogs (log line) :=
  fun _ => ⟨_, rfl, by simp [Logs]⟩

theorem onlyLogs_logWhen (c : Prop) [Decidable c] (line : LogLine) : OnlyLogs (logWhen c line) := by
  unfold logWhen
  split
  · exact onlyLogs_log line
  · intro s
    exact ⟨[], by simp, by simp [Logs]⟩

theorem OnlyLogs.bind {x y : M Unit} (hx : OnlyLogs x) (hy : OnlyLogs y) :
    OnlyLogs (x >>= fun _ => y) := by
  intro s
  obtain ⟨evs, hrun, hlogs⟩ := hx s
  obtain ⟨evs', hrun', hlogs'⟩ := hy (s.after s.world evs)
  refine ⟨evs ++ evs', ?_, hlogs.append hlogs'⟩
  rw [bind_ok _ hrun, hrun', after_after, after_world]

theorem receiveLog_run (r : HttpResponse) : OnlyLogs (receiveLog r) := by
  unfold receiveLog
  refine .bind (onlyLogs_logWhen _ _) (.bind (onlyLogs_logWhen _ _) ?_)
  split_ifs <;> exact onlyLogs_log _

/-! ## The store site of `proxyGET` -/

theorem storeFetched_skip (url : Bytes) {r : Ref}
    (h : ¬ (r.obj.statusCode = 200 ∧ r.obj.noStore = false)) : OnlyLogs (storeFetched url r) := by
  intro s
  by_cases h200 : r.obj.statusCode = 200
  · obtain ⟨evs, hrun, hlogs⟩ := receiveLog_run r.obj s
    refine ⟨evs, ?_, hlogs⟩
    rw [storeFetched, if_pos h200, bind_ok _ hrun, if_neg fun hs => h ⟨h200, hs⟩]
    rfl
  · refine ⟨[], ?_, by simp [Logs]⟩
    rw [storeFetched, if_neg h200, after_self]
    rfl

theorem storeFetched_store (url : Bytes) {r : Ref} (h200 : r.obj.statusCode = 200)
    (hs : r.obj.noStore = false) (s : St) :
    ∃ evs, storeFetched url r s = .ok () ((s.store url r).after s.world evs) ∧ Logs evs := by
  obtain ⟨evs, hrun, hlogs⟩ := receiveLog_run r.obj s
  obtain ⟨evs', hrun', hlogs'⟩ := onlyLogs_logWhen ((s.cache.put url r).1.length ≠ 0)
    (.evicted (s.cache.put url r).1) ((s.store url r).after s.world evs)
  refine ⟨evs ++ evs', ?_, hlogs.append hlogs'⟩
  rw [storeFetched, if_pos h200, bind_ok _ hrun, if_pos hs, bind_ok _ (cachePut_run ..),
    store_after, after_cache, hrun', after_after, after_world]

/-! ## `connectServer` -/

theorem connectServer_ok (req : HttpRequest) {s : St} (h : s.world.connect = .connected) :
    connectServer req s =
      .ok () (s.after s.world [.lookup req.hostName req.hostPort, .opened, .connected]) := by
  rw [connectServer, emit_bind, get_bind, after_world, h]
  simp only [emit_bind, emit_run, after_after, after_world]
  rfl

/-- A connection that fails is answered with a 404 and an exception. -/
theorem connectServer_fails (req : HttpRequest) {s : St} (h : s.world.connect ≠ .connected) :
    ∃ w evs, connectServer req s = .error .exception (s.after w evs) ∧ s.world.Agrees w ∧
      Refusing evs ∧ .lookup req.hostName req.hostPort ∈ evs ∧ bytesFrom .server evs = [] ∧
      (s.world.sends = [] → bytesTo .client evs = errorLine .notFound404) := by
  -- whatever comes before it, the 404 ends the run
  have refuse (before : List Event) (hb : Refusing before)
      (hl : .lookup req.hostName req.hostPort ∈ before) (hq : bytesTo .client before = [])
      (hd : bytesFrom .server before = []) : ∃ w evs,
      (proxyERROR .notFound404 >>= fun _ => (throw .exception : M Unit)) (s.after s.world before) =
        .error .exception (s.after w evs) ∧ s.world.Agrees w ∧ Refusing evs ∧
      .lookup req.hostName req.hostPort ∈ evs ∧ bytesFrom .server evs = [] ∧
      (s.world.sends = [] → bytesTo .client evs = errorLine .notFound404) := by
    obtain ⟨w, evs, hrun, hw, hord, hgot, hsent⟩ :=
      proxyERROR_run .notFound404 (s.after s.world before)
    refine ⟨w, before ++ evs, ?_, hw, hb.append hord, List.mem_append_left _ hl,
      by simp [hd, hgot], by simpa [hq] using hsent⟩
    rw [bind_ok _ hrun, after_after]
    rfl
  cases hc : s.world.connect with
  | connected => exact absurd hc h
  | noAddress =>
    rw [connectServer, emit_bind, get_bind, after_world, hc]
    simp only [log_bind, after_after, after_world]
    exact refuse _ (by simp [Refusing, Event.ordinary]) List.mem_cons_self rfl rfl
  | noSocket =>
    rw [connectServer, emit_bind, get_bind, after_world, hc]
    simp only [log_bind, after_after, after_world]
    exact refuse _ (by simp [Refusing, Event.ordinary]) List.mem_cons_self rfl rfl
  | refused =>
    rw [connectServer, emit_bind, get_bind, after_world, hc]
    simp only [emit_bind, log_bind, after_after, after_world]
    exact refuse _ (by simp [Refusing, Event.ordinary]) List.mem_cons_self rfl rfl

/-! ## `HandleValidation` -/

section
variable (cached : Ref) (url reply : Bytes) (s : St)

theorem validationReply_failed (h : parseResponse s.world.libc reply = .ok none) :
    validationReply cached url reply s = .ok () s.alloc := by
  have hnew : newResponse reply s = .ok none s.alloc := by
    rw [newResponse, get_bind, set_bind, h]
    rfl
  rw [validationReply, bind_ok _ hnew]
  rfl

theorem validationReply_threw {e : Exn} (h : parseResponse s.world.libc reply = .error e) :
    validationReply cached url reply s = .error e s.alloc := by
  have hnew : newResponse reply s = .error e s.alloc := by
    rw [newResponse, get_bind, set_bind, h]
    rfl
  rw [validationReply, bind_error _ hnew]

variable {reply s} {r : HttpResponse}

theorem newResponse_found (h : parseResponse s.world.libc reply = .ok (some r)) :
    newResponse reply s = .ok (some ⟨s.next, r⟩) s.alloc := by
  rw [newResponse, get_bind, set_bind, h]
  rfl

/-- A 200 replaces the entry and goes to the client. -/
theorem validationReply_ok (h : parseResponse s.world.libc reply = .ok (some r))
    (h200 : r.statusCode = 200) :
    ∃ w evs, validationReply cached url reply s =
        .ok () ((s.alloc.store url ⟨s.next, r⟩).after w evs) ∧
      s.world.Agrees w ∧ Ordinary evs ∧ bytesFrom .server evs = [] ∧
      (s.world.NoFail → bytesTo .client evs = sendable reply) := by
  obtain ⟨evs₁, hlog, hlogs⟩ := onlyLogs_logWhen ((s.cache.put url ⟨s.next, r⟩).1.length ≠ 0)
    (.evicted (s.cache.put url ⟨s.next, r⟩).1)
    ((s.alloc.store url ⟨s.next, r⟩).after s.world [.log (.responding r.returnResponse)])
  obtain ⟨k, w, evs₂, hsend, hw, _, hsends, hfull⟩ := sendVector_agrees .client .reply reply
    ((s.alloc.store url ⟨s.next, r⟩).after s.world ([.log (.responding r.returnResponse)] ++ evs₁))
  simp only [after_after, after_world] at hlog hsend
  refine ⟨w, [.log (.responding r.returnResponse)] ++ evs₁ ++ evs₂, ?_, hw, ?_, ?_, fun hf => ?_⟩
  · rw [validationReply, bind_ok _ (newResponse_found h)]
    simp only [h200, if_true]
    rw [log_bind, bind_ok _ (cachePut_run ..), store_after, alloc_world, after_cache, alloc_cache,
      bind_ok _ hlog, bind_ok _ hsend]
    rfl
  · exact ((Ordinary.log _).append hlogs.ordinary).append (hsends.ordinary fun _ _ => rfl)
  · simp [hlogs.bytesFrom, hsends.bytesFrom]
  · simp [hlogs.bytesTo, (hfull hf).1]

/-- A 304 sends the client the cached bytes. -/
theorem validationReply_notModified (h : parseResponse s.world.libc reply = .ok (some r))
    (h304 : r.statusCode = 304) :
    ∃ w evs, validationReply cached url reply s = .ok () (s.alloc.after w
        ([.log (.responding r.returnResponse)] ++ evs)) ∧
      s.world.Agrees w ∧ Sends .client (.cached cached.addr) evs ∧
      (s.world.NoFail → bytesTo .client evs = sendable cached.obj.lineRecv) := by
  obtain ⟨k, w, evs, hsend, hw, _, hsends, hfull⟩ := sendVector_agrees .client
    (.cached cached.addr) cached.obj.lineRecv
    (s.alloc.after s.world [.log (.responding r.returnResponse)])
  refine ⟨w, evs, ?_, hw, hsends, fun hf => (hfull hf).1⟩
  rw [validationReply, bind_ok _ (newResponse_found h)]
  simp only [h304, if_true, if_neg (show ¬ 304 = 200 by decide)]
  rw [log_bind, alloc_world, bind_ok _ hsend, after_after]
  rfl

/-- Any other status passes the reply on and stores nothing. -/
theorem validationReply_other (h : parseResponse s.world.libc reply = .ok (some r))
    (h200 : r.statusCode ≠ 200) (h304 : r.statusCode ≠ 304) :
    ∃ w evs, validationReply cached url reply s = .ok () (s.alloc.after w evs) ∧
      s.world.Agrees w ∧ Ordinary evs ∧ bytesFrom .server evs = [] ∧
      (s.world.NoFail → bytesTo .client evs = sendable reply) := by
  obtain ⟨k, w, evs, hsend, hw, _, hsends, hfull⟩ := sendVector_agrees .client .reply reply
    (s.alloc.after s.world [.log (.responding r.returnResponse)])
  refine ⟨w, [.log (.responding r.returnResponse)] ++ evs, ?_, hw,
    (Ordinary.log _).append (hsends.ordinary fun _ _ => rfl), by simp [hsends.bytesFrom],
    fun hf => by simp [(hfull hf).1]⟩
  rw [validationReply, bind_ok _ (newResponse_found h)]
  simp only [if_neg h200, if_neg h304]
  rw [log_bind, alloc_world, bind_ok _ hsend, after_after]
  rfl

end

/-- How `validationReply` ends, by what its segment parses as. -/
inductive Answered (cached : Ref) (url reply : Bytes) (s : St) :
    EStateM.Result Exn St Unit → Prop
  | threw {e : Exn} (h : parseResponse s.world.libc reply = .error e) :
      Answered cached url reply s (.error e s.alloc)
  | failed (h : parseResponse s.world.libc reply = .ok none) :
      Answered cached url reply s (.ok () s.alloc)
  | renewed {r : HttpResponse} {w : World} {evs : List Event}
      (h : parseResponse s.world.libc reply = .ok (some r)) (h200 : r.statusCode = 200)
      (hw : s.world.Agrees w) (hord : Ordinary evs) (deaf : bytesFrom .server evs = [])
      (sent : s.world.NoFail → bytesTo .client evs = sendable reply) :
      Answered cached url reply s (.ok () ((s.alloc.store url ⟨s.next, r⟩).after w evs))
  | notModified {r : HttpResponse} {w : World} {evs : List Event}
      (h : parseResponse s.world.libc reply = .ok (some r)) (h304 : r.statusCode = 304)
      (hw : s.world.Agrees w) (hsends : Sends .client (.cached cached.addr) evs)
      (sent : s.world.NoFail → bytesTo .client evs = sendable cached.obj.lineRecv) :
      Answered cached url reply s
        (.ok () (s.alloc.after w ([.log (.responding r.returnResponse)] ++ evs)))
  | passed {r : HttpResponse} {w : World} {evs : List Event}
      (h : parseResponse s.world.libc reply = .ok (some r)) (h200 : r.statusCode ≠ 200)
      (h304 : r.statusCode ≠ 304) (hw : s.world.Agrees w) (hord : Ordinary evs)
      (deaf : bytesFrom .server evs = [])
      (sent : s.world.NoFail → bytesTo .client evs = sendable reply) :
      Answered cached url reply s (.ok () (s.alloc.after w evs))

theorem validationReply_answered (cached : Ref) (url reply : Bytes) (s : St) :
    Answered cached url reply s (validationReply cached url reply s) := by
  cases h : parseResponse s.world.libc reply with
  | error e =>
    rw [validationReply_threw cached url reply s h]
    exact .threw h
  | ok o =>
    cases o with
    | none =>
      rw [validationReply_failed cached url reply s h]
      exact .failed h
    | some r =>
      by_cases h200 : r.statusCode = 200
      · obtain ⟨w, evs, hput, hw, hord, deaf, sent⟩ := validationReply_ok cached url h h200
        rw [hput]
        exact .renewed h h200 hw hord deaf sent
      by_cases h304 : r.statusCode = 304
      · obtain ⟨w, evs, hsend, hw, hsends, sent⟩ := validationReply_notModified cached url h h304
        rw [hsend]
        exact .notModified h h304 hw hsends sent
      · obtain ⟨w, evs, hsend, hw, hord, deaf, sent⟩ := validationReply_other cached url h h200 h304
        rw [hsend]
        exact .passed h h200 h304 hw hord deaf sent

/-- The first events of a run that reaches the server. -/
def connecting (req : HttpRequest) : List Event :=
  [.lookup req.hostName req.hostPort, .opened, .connected]

@[simp] theorem bytesTo_connecting (req : HttpRequest) (dst : Sock) :
    bytesTo dst (connecting req) = [] := rfl

@[simp] theorem bytesFrom_connecting (req : HttpRequest) (src : Sock) :
    bytesFrom src (connecting req) = [] := rfl

/-- No error line is sent to the client. -/
def Unrefused (evs : List Event) : Prop :=
  ∀ code range n, Event.send .client (.errorLine code) range n ∉ evs

theorem Ordinary.unrefused {evs : List Event} (h : Ordinary evs) : Unrefused evs :=
  fun _ _ _ hm => Bool.false_ne_true (h _ hm)

theorem Unrefused.append {evs evs' : List Event} (h : Unrefused evs) (h' : Unrefused evs') :
    Unrefused (evs ++ evs') := by
  intro code range n hm
  rcases List.mem_append.mp hm with hm | hm
  · exact h code range n hm
  · exact h' code range n hm

theorem unrefused_connecting (req : HttpRequest) : Unrefused (connecting req) := by
  simp [Unrefused, connecting]

/-- No cached bytes are sent to the client. -/
def Uncached (evs : List Event) : Prop :=
  ∀ addr range n, Event.send .client (.cached addr) range n ∉ evs

theorem Refusing.uncached {evs : List Event} (h : Refusing evs) : Uncached evs := by
  intro addr range n hm
  rcases h _ hm with hord | ⟨code, range', n', he⟩
  · cases hord
  · cases he

theorem Uncached.append {evs evs' : List Event} (h : Uncached evs) (h' : Uncached evs') :
    Uncached (evs ++ evs') := by
  intro addr range n hm
  rcases List.mem_append.mp hm with hm | hm
  · exact h addr range n hm
  · exact h' addr range n hm

theorem uncached_connecting (req : HttpRequest) : Uncached (connecting req) := by
  simp [Uncached, connecting]

/-- How `HandleValidation` begins once it is connected: no reply is read, or one segment
goes to `validationReply`. -/
theorem handleValidation_begin (req : HttpRequest) (cached : Ref) (url : Bytes) {s : St}
    (hc : s.world.connect = .connected) :
    ∃ w evs, s.world.Agrees w ∧ Ordinary evs ∧ bytesTo .client evs = [] ∧
      ((handleValidation req cached url s = .error .lengthError (s.after w (connecting req ++ evs)) ∧
          bytesFrom .server evs = [] ∧ (takeRecv 65536 s.world.server).1 = .fail) ∨
        ∃ reply, takeRecv 65536 s.world.server = (.data reply, w.server) ∧
          bytesFrom .server evs = reply ∧ .recv .server (.data reply) ∈ evs ∧
          handleValidation req cached url s =
            validationReply cached url reply (s.after w (connecting req ++ evs))) := by
  obtain ⟨k, w₁, evs₁, hsend, hw₁, hserver, hsends, _⟩ := sendVector_agrees .server .validation
    (constructValidation req cached.obj)
    (s.after s.world (connecting req ++ [.log (.requesting req.request req.hostName)]))
  obtain ⟨⟨o, rest⟩, ht⟩ : ∃ p, takeRecv 65536 s.world.server = p := ⟨_, rfl⟩
  have hrecv := recvBuff_run .server
    (s.after w₁ (connecting req ++ [.log (.requesting req.request req.hostName)] ++ evs₁))
  simp only [after_world, after_after, World.pending, hserver, ht] at hrecv hsend hw₁
  have quiet : bytesTo .client evs₁ = [] := hsends.bytesTo_ne (by decide)
  have sending : Ordinary evs₁ := hsends.ordinary fun _ _ => rfl
  have agrees := hw₁.trans (World.agrees_setPending w₁ .server rest)
  have run : handleValidation req cached url s = (recvBuff .server >>= fun reply =>
      log (.received (firstLine reply) req.hostName) >>= fun _ => validationReply cached url reply)
      (s.after w₁ (connecting req ++ [.log (.requesting req.request req.hostName)] ++ evs₁)) := by
    rw [handleValidation, bind_ok _ (connectServer_ok req hc), log_bind, after_after, after_world,
      ← connecting, bind_ok _ hsend]
  cases o with
  | fail =>
    refine ⟨_, [.log (.requesting req.request req.hostName)] ++ evs₁ ++ [.recv .server .fail],
      agrees, ((Ordinary.log _).append sending).append (Recvs.single .server _).ordinary,
      by simp [quiet], .inl ⟨?_, by simp [hsends.bytesFrom], by rw [ht]⟩⟩
    rw [run, bind_error _ hrecv]
    simp
  | data reply =>
    refine ⟨_, [.log (.requesting req.request req.hostName)] ++ evs₁
      ++ [.recv .server (.data reply), .log (.received (firstLine reply) req.hostName)],
      agrees, ((Ordinary.log _).append sending).append ?_, by simp [quiet],
      .inr ⟨reply, by simp [ht], by simp [hsends.bytesFrom], by simp, ?_⟩⟩
    · exact (Recvs.single .server _).ordinary.append (Ordinary.log _)
    · rw [run, bind_ok _ hrecv, log_bind, after_after, after_world]
      simp

end HttpProxy
