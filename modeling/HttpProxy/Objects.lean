import HttpProxy.Runs

/-!
# The objects of a fetch

`Makes` says of a program that returns a pointer or NULL which objects it leaves on the
heap: none, the one it points to, or one or more that do not parse and that nothing points
to. For a fetch, `fetchMakes` reads off the inputs which of these it is.
-/

namespace HttpProxy

/-- The bytes a fetch makes an object from. A reply without the chunk mark becomes one only
after it has gone to the client. -/
def fetchMakes (req : HttpRequest) (w : World) : Option Bytes :=
  let sent := sendsAll req.lineSend.length w.sends
  if sent.1 then
    match takeRecv 65536 w.server with
    | (.data input, rest) =>
      if check502 input then none
      else if chunkMarked input || (sendsAll input.length sent.2).1 then some (fetched input rest)
      else none
    | (.fail, _) => none
  else none

/-- A program that returns a pointer or NULL, by the bytes it makes an object from. -/
inductive Makes (s : St) : Option Bytes → EStateM.Result Exn St (Option Ref) → Prop
  | nothing {res : EStateM.Result Exn St (Option Ref)} {evs : List Event}
      (frame : Frame s (finalSt res) evs) (same : (finalSt res).next = s.next)
      (null : ∀ r t, res ≠ .ok (some r) t) : Makes s none res
  | object {bytes : Bytes} {obj : HttpResponse} {t : St} {evs : List Event}
      (parsed : parseResponse s.world.libc bytes = .ok (some obj)) (frame : Frame s t evs)
      (one : t.next = s.next + 1) : Makes s (some bytes) (.ok (some ⟨s.next, obj⟩) t)
  | unparsed {bytes : Bytes} {res : EStateM.Result Exn St (Option Ref)} {evs : List Event}
      (unparsed : ∀ obj, parseResponse s.world.libc bytes ≠ .ok (some obj))
      (frame : Frame s (finalSt res) evs) (more : s.next < (finalSt res).next)
      (null : ∀ r t, res ≠ .ok (some r) t) : Makes s (some bytes) res

/-- What is made after a part that makes nothing. -/
theorem Makes.after {s : St} {w : World} (hw : s.world.Agrees w) (evs : List Event)
    {made : Option Bytes} {res : EStateM.Result Exn St (Option Ref)}
    (h : Makes (s.after w evs) made res) : Makes s made res := by
  have before := Frame.after s hw evs
  cases h with
  | nothing frame same null => exact .nothing (before.trans frame) same null
  | object parsed frame one =>
    rw [after_world, hw.libc] at parsed
    exact .object parsed (before.trans frame) one
  | unparsed unparsed frame more null =>
    rw [after_world, hw.libc] at unparsed
    exact .unparsed unparsed (before.trans frame) more null

/-- What is made after an object that does not parse, if that does not parse either. -/
theorem Makes.again {s : St} {bytes : Bytes} {made : Option Bytes}
    {res : EStateM.Result Exn St (Option Ref)}
    (unparsed : ∀ obj, parseResponse s.world.libc bytes ≠ .ok (some obj))
    (neither : ∀ b ∈ made, ∀ obj, parseResponse s.world.libc b ≠ .ok (some obj))
    (h : Makes s.alloc made res) : Makes s (some bytes) res := by
  have before := Frame.alloc s
  have more : s.next < s.alloc.next := Nat.lt_succ_self _
  cases h with
  | nothing frame same null =>
    exact .unparsed unparsed (before.trans frame) (more.trans_le frame.next) null
  | object parsed frame one =>
    rw [alloc_world] at parsed
    exact absurd parsed (neither _ rfl _)
  | unparsed _ frame more' null =>
    exact .unparsed unparsed (before.trans frame) (more.trans more') null

theorem newResponse_makes (bytes : Bytes) (s : St) :
    Makes s (some bytes) (newResponse bytes s) := by
  have frame := Frame.alloc s
  have parsed := newResponse_run bytes s
  generalize newResponse bytes s = res at parsed
  cases parsed with
  | @found r h ge lt =>
    have addr : s.next = r.addr := by
      rw [alloc_next] at lt
      omega
    rw [show r = ⟨s.next, r.obj⟩ by rw [addr]]
    exact .object h frame rfl
  | failed h => exact .unparsed (by simp [h]) frame (Nat.lt_succ_self _) (by simp)
  | threw h => exact .unparsed (by simp [h]) frame (Nat.lt_succ_self _) (by simp)

theorem forwardSegment_makes {input : Bytes} (fits : FitsInt input.length) (ne : input ≠ [])
    (s : St) :
    Makes s (if (sendsAll input.length s.world.sends).1 = true then some input else none)
      (forwardSegment input s) := by
  have size : input.length ≠ 0 := by simpa using ne
  have hsend := sendVector_outcome .client .reply input s fits ne
  generalize sendEvents .client .reply input s.world.sends = evs at hsend
  have agrees : s.world.Agrees (s.world.setSends (sendsAll input.length s.world.sends).2) :=
    World.agrees_setSends (sendsAll_suffix _ _)
  generalize s.world.setSends (sendsAll input.length s.world.sends).2 = w at hsend agrees
  rw [forwardSegment, if_pos size, bind_ok _ hsend]
  cases sent : (sendsAll input.length s.world.sends).1 with
  | false => exact .nothing (Frame.after s agrees evs) rfl (by intro r t h; cases h)
  | true =>
    rw [if_pos rfl, if_pos rfl, if_pos rfl]
    apply Makes.after agrees evs
    have makes := newResponse_makes input (s.after w evs)
    generalize hrun : newResponse input (s.after w evs) = res at makes
    cases makes with
    | @object _ obj u _ parsed frame one =>
      rw [bind_ok _ hrun]
      exact .object parsed (frame.trans (Frame.after u (World.Agrees.refl _)
        [.log (.responding obj.returnResponse)])) one
    | unparsed unparsed frame more null =>
      cases res with
      | error e u =>
        rw [bind_error _ hrun]
        exact .unparsed unparsed frame more (by simp)
      | ok o u =>
        rw [bind_ok _ hrun]
        cases o with
        | none => exact .unparsed unparsed frame more (by simp)
        | some r => exact absurd rfl (null r u)

/-- A reply with the chunk mark, which is an object as soon as its blocks are relayed. -/
theorem markedReply_makes {input : Bytes} (hend : check502 input = false)
    (hlen : input.length ≤ 65536) (hm : chunkMarked input = true) (s : St) :
    Makes s (some (fetched input s.world.server)) (fetchReply input s) := by
  obtain ⟨w, evs, hrun, hw, _⟩ := chunkHandle_marked hm s
  have total : fetched input s.world.server = input ++ (relayed s.world.server).flatten := by
    rw [fetched, if_pos hm]
  apply Makes.after hw evs
  have parsed := newResponse_run (fetched input s.world.server) (s.after w evs)
  rw [← total] at hrun
  generalize hnew : newResponse (fetched input s.world.server) (s.after w evs) = res
    at parsed hrun
  cases parsed with
  | @found r h ge lt =>
    have run : fetchReply input s = .ok (some r) (s.after w evs).alloc := by
      rw [fetchReply, hend, if_neg Bool.false_ne_true, bind_ok _ hrun]
      rfl
    rw [run, ← hnew]
    exact newResponse_makes _ _
  | @threw e h =>
    have run : fetchReply input s = .error e (s.after w evs).alloc := by
      rw [fetchReply, hend, if_neg Bool.false_ne_true, bind_error _ hrun]
    rw [run, ← hnew]
    exact newResponse_makes _ _
  | failed h =>
    -- NULL for an object that exists: the first segment goes out again, and may make another
    have run : fetchReply input s = forwardSegment input (s.after w evs).alloc := by
      rw [fetchReply, hend, if_neg Bool.false_ne_true, bind_ok _ hrun]
    have first : parseResponse (s.after w evs).world.libc input = .ok none :=
      parseResponse_prefix (total ▸ h)
    have fits : FitsInt input.length := by unfold FitsInt; omega
    rw [run]
    apply Makes.again ?_ ?_ (forwardSegment_makes fits (ne_nil_of_headerEnd hend) _)
    · rw [h]
      simp
    · intro b hb
      split_ifs at hb
      · cases hb
        rw [first]
        simp
      · cases hb

/-- A reply whose header block ends. -/
theorem endedReply_makes {input : Bytes} (hend : check502 input = false)
    (hlen : input.length ≤ 65536) (s : St) :
    Makes s (if (chunkMarked input || (sendsAll input.length s.world.sends).1) = true then
        some (fetched input s.world.server) else none) (fetchReply input s) := by
  cases hm : chunkMarked input with
  | false =>
    have fits : FitsInt input.length := by unfold FitsInt; omega
    have run : fetchReply input s = forwardSegment input s := by
      rw [fetchReply, hend, if_neg Bool.false_ne_true, bind_ok _ (chunkHandle_unmarked hm s)]
    have first : fetched input s.world.server = input := by
      rw [fetched, hm, if_neg Bool.false_ne_true]
    rw [run, first, Bool.false_or]
    exact forwardSegment_makes fits (ne_nil_of_headerEnd hend) s
  | true =>
    rw [Bool.true_or, if_pos rfl]
    exact markedReply_makes hend hlen hm s

theorem fetchReply_makes {input : Bytes} (hlen : input.length ≤ 65536) (s : St) :
    Makes s (if check502 input = true then none
      else if (chunkMarked input || (sendsAll input.length s.world.sends).1) = true then
        some (fetched input s.world.server) else none) (fetchReply input s) := by
  cases hend : check502 input with
  | true =>
    obtain ⟨w, evs, hrun, hw, _⟩ := proxyERROR_run .badGateway502 s
    have run : fetchReply input s = .error .exception (s.after w evs) := by
      rw [fetchReply, hend, if_pos rfl, bind_ok _ hrun]
      rfl
    rw [run, if_pos rfl]
    exact .nothing (Frame.after s hw evs) rfl (by intro r t h; cases h)
  | false =>
    rw [if_neg Bool.false_ne_true]
    exact endedReply_makes hend hlen s

/-- The request goes out, one segment is read, and that segment decides. -/
theorem proxyFetch_makes (req : AcceptedRequest) (s : St) :
    Makes s (fetchMakes req.toHttpRequest s.world) (proxyFetch req.toHttpRequest s) := by
  have hsend := sendVector_outcome .server .request req.lineSend s req.fits req.nonempty
  generalize sendEvents .server .request req.lineSend s.world.sends = evs at hsend
  have agrees : s.world.Agrees (s.world.setSends (sendsAll req.lineSend.length s.world.sends).2) :=
    World.agrees_setSends (sendsAll_suffix _ _)
  rw [proxyFetch, bind_ok _ hsend, fetchMakes]
  cases sent : (sendsAll req.lineSend.length s.world.sends).1 with
  | false => exact .nothing (Frame.after s agrees evs) rfl (by intro r t h; cases h)
  | true =>
    rw [if_pos rfl, if_pos rfl, if_pos rfl, log_bind, after_after, after_world]
    obtain ⟨⟨o, rest⟩, ht⟩ : ∃ p, takeRecv 65536 s.world.server = p := ⟨_, rfl⟩
    have hrecv := recvBuff_run .server (s.after (s.world.setSends
      (sendsAll req.lineSend.length s.world.sends).2)
      (evs ++ [.log (.requesting req.request req.hostName)]))
    simp only [after_world, after_after, World.pending, setSends_server, ht] at hrecv
    have agrees' := agrees.trans (World.agrees_setPending _ .server rest)
    cases o with
    | fail =>
      rw [bind_error _ hrecv, ht]
      exact .nothing (Frame.after s agrees' _) rfl (by intro r t h; cases h)
    | data input =>
      rw [bind_ok _ hrecv, log_bind, after_after, ht]
      have reply := fetchReply_makes (takeRecv_length ht) (s.after (World.setPending
        (s.world.setSends (sendsAll req.lineSend.length s.world.sends).2) .server rest)
        (evs ++ [.log (.requesting req.request req.hostName)] ++ [.recv .server (.data input)] ++
          [.log (.received (firstLine input) req.hostName)]))
      rw [after_world, setPending_server, setPending_sends, setSends_sends] at reply
      exact Makes.after agrees' _ reply

end HttpProxy
