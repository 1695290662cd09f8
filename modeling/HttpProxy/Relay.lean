import HttpProxy.Runs

/-!
# What `proxyFetch` passes on

`relay_exact_iff`: on the relay path the client is sent what the server sent, each
byte once, just when a reply marked as chunked parses and no block of it outgrows an
`int`. A marked reply that does not parse has been relayed in full by `chunkHandle`
and is then begun again by `proxyFetch`. The object that a fetch returns holds what the
client was sent (`stored_is_sent`).
-/

namespace HttpProxy

theorem flatMap_sendable_of_fits {blocks : List Bytes} (h : ∀ b ∈ blocks, FitsInt b.length) :
    blocks.flatMap sendable = blocks.flatten := by
  rw [List.flatMap_def, List.map_congr_left fun b hb => sendable_of_fits (h b hb), List.map_id']

theorem length_sendable_le (buf : Bytes) : (sendable buf).length ≤ buf.length := by
  simp [sendable]

theorem length_flatMap_sendable_le (blocks : List Bytes) :
    (blocks.flatMap sendable).length ≤ blocks.flatten.length := by
  induction blocks with
  | nil => exact Nat.le_refl _
  | cons b blocks ih =>
    have := length_sendable_le b
    simp only [List.flatMap_cons, List.flatten_cons, List.length_append]
    omega

/-- One block that outgrows an `int` loses more than a first segment can make up for. -/
theorem length_flatMap_sendable_lost {blocks : List Bytes}
    (h : ¬ ∀ b ∈ blocks, FitsInt b.length) :
    (blocks.flatMap sendable).length + 2 ^ 31 ≤ blocks.flatten.length := by
  induction blocks with
  | nil => simp at h
  | cons b blocks ih =>
    simp only [List.flatMap_cons, List.flatten_cons, List.length_append]
    by_cases hb : FitsInt b.length
    · have rest : ¬ ∀ b ∈ blocks, FitsInt b.length := by simpa [hb] using h
      have := ih rest
      have := length_sendable_le b
      omega
    · have := length_flatMap_sendable_le blocks
      have := intLen_lost hb
      have : (sendable b).length ≤ intLen b.length := by simp [sendable]
      omega

/-- The reply is passed on once: marked as chunked, it must parse, and each block of the
relay must have a size that an `int` holds. -/
def RelayedOnce (libc : Libc) (input : Bytes) (rest : List Recv) : Prop :=
  chunkMarked input = true →
    parseFails libc (fetched input rest) = false ∧ ∀ b ∈ relayed rest, FitsInt b.length

theorem delivered_eq_fetched_iff {libc : Libc} {input : Bytes} {rest : List Recv}
    (hne : input ≠ []) (hlen : input.length ≤ 65536) :
    delivered libc input rest = fetched input rest ↔ RelayedOnce libc input rest := by
  unfold RelayedOnce
  cases hm : chunkMarked input with
  | false => simp [delivered, fetched, hm]
  | true =>
    have hpos := List.length_pos_of_ne_nil hne
    have total : fetched input rest = input ++ (relayed rest).flatten := by simp [fetched, hm]
    rw [delivered, if_pos hm]
    by_cases fits : ∀ b ∈ relayed rest, FitsInt b.length
    · rw [flatMap_sendable_of_fits fits, ← total]
      cases parseFails libc (fetched input rest) with
      | false => simpa using fits
      | true => simp [hne]
    · have lost := length_flatMap_sendable_lost fits
      simp only [fits, and_false, imp_false, not_true, iff_false]
      intro heq
      have lengths := congrArg List.length heq
      rw [total] at lengths
      simp only [List.length_append] at lengths
      split_ifs at lengths
      · omega
      · simp only [List.length_nil] at lengths
        omega

/-- One call of `proxyFetch` that gets as far as the relay, with no send failing: the client
is sent exactly the bytes received from the server just when the reply is `RelayedOnce`. -/
theorem relay_exact_iff (req : AcceptedRequest) {s : St} {input : Bytes} {rest : List Recv}
    (hf : s.world.NoFail) (hinput : takeRecv 65536 s.world.server = (.data input, rest))
    (hend : check502 input = false) :
    bytesTo .client (ran (proxyFetch req.toHttpRequest) s) =
        bytesFrom .server (ran (proxyFetch req.toHttpRequest) s) ↔
      RelayedOnce s.world.libc input rest := by
  obtain ⟨t, evs, frame, _, hgot, hsent, hres⟩ := proxyFetch_relay hf req.sendable hinput hend
  have final : finalSt (proxyFetch req.toHttpRequest s) = t := by
    generalize proxyFetch req.toHttpRequest s = res at hres
    cases hres <;> rfl
  rw [ran_eq (by rw [final, frame.trace]), hgot, hsent]
  exact delivered_eq_fetched_iff (ne_nil_of_headerEnd hend) (takeRecv_length hinput)

/-- A server that announces five bytes, sends three and closes. -/
def cutChunk : World :=
  { server := [.data (str "HTTP/1.1 200 OK\r\nTransfer-Encoding: chunked\r\n\r\n5\r\nhel")] }

theorem relay_exact_iff_cutChunk :
    bytesTo .client (ran (proxyFetch AcceptedRequest.home.toHttpRequest)
        ((St.initial ⟨1, Nat.le_refl 1⟩).enter cutChunk)) =
      bytesFrom .server (ran (proxyFetch AcceptedRequest.home.toHttpRequest)
        ((St.initial ⟨1, Nat.le_refl 1⟩).enter cutChunk)) ↔
    RelayedOnce cutChunk.libc
      (str "HTTP/1.1 200 OK\r\nTransfer-Encoding: chunked\r\n\r\n5\r\nhel") [] :=
  relay_exact_iff AcceptedRequest.home (s := (St.initial ⟨1, Nat.le_refl 1⟩).enter cutChunk)
    (by simp [World.NoFail, cutChunk]) rfl (by decide)

/-- All sends succeed, and the client is sent the first segment twice. -/
theorem cutChunk_repeated :
    cutChunk.NoFail ∧ bytesTo .client (ran (proxyFetch AcceptedRequest.home.toHttpRequest)
        ((St.initial ⟨1, Nat.le_refl 1⟩).enter cutChunk)) ≠
      bytesFrom .server (ran (proxyFetch AcceptedRequest.home.toHttpRequest)
        ((St.initial ⟨1, Nat.le_refl 1⟩).enter cutChunk)) := by
  refine ⟨by simp [World.NoFail, cutChunk], ?_⟩
  decide +kernel

/-! ## The stored copy -/

/-- A relay in which one `recvChar` took more bytes than its `int total` counts, so that the
addition overflowed. -/
def Outgrown (server : List Recv) : Prop :=
  ∃ input rest, takeRecv 65536 server = (.data input, rest) ∧ chunkMarked input = true ∧
    ∃ block ∈ relayed rest, ¬ FitsInt block.length

/-- An object is returned when all that was received parses; then nothing was sent twice. -/
theorem delivered_of_parsed {libc : Libc} {input : Bytes} {rest : List Recv} {obj : HttpResponse}
    (hne : input ≠ []) (hlen : input.length ≤ 65536)
    (parsed : parseResponse libc (fetched input rest) = .ok (some obj))
    (fits : chunkMarked input = true → ∀ block ∈ relayed rest, FitsInt block.length) :
    delivered libc input rest = fetched input rest := by
  refine (delivered_eq_fetched_iff hne hlen).mpr fun marked => ⟨?_, fits marked⟩
  rw [← Bool.not_eq_true, parseFails_iff, parsed]
  simp

/-- When no send fails and no receive overflows, the object that a fetch returns holds the
bytes that the client was sent. -/
theorem stored_is_sent {req : HttpRequest} {s t : St} {r : Ref} (hf : s.world.NoFail)
    (h : proxyFetch req s = .ok (some r) t) :
    r.obj.lineRecv = bytesTo .client (ran (proxyFetch req) s) ∨ Outgrown s.world.server := by
  by_cases outgrown : Outgrown s.world.server
  · exact .inr outgrown
  · refine .inl ?_
    obtain ⟨w, evs, hw, _, quiet, ⟨run, _⟩ | ⟨run, _⟩ | ⟨input, ht, _, run⟩⟩ := proxyFetch_begin req s
    · cases h.symm.trans run
    · cases h.symm.trans run
    · cases hend : check502 input with
      | true =>
        obtain ⟨w', evs', refused, _⟩ := proxyERROR_run .badGateway502 (s.after w evs)
        rw [fetchReply, hend, if_pos rfl, bind_ok _ refused] at run
        cases h.symm.trans run
      | false =>
        obtain ⟨u, evs', frame, _, _, res, sent⟩ :=
          fetchReply_run hend (takeRecv_length ht) (s.after w evs)
        rw [← run, h] at res
        rcases res with found | ⟨none, _⟩
        · cases found with
          | found parsed =>
            obtain ⟨_, _, line, _⟩ := parseResponse_ok parsed
            have fits : chunkMarked input = true → ∀ b ∈ relayed w.server, FitsInt b.length := by
              intro marked block hb
              by_contra long
              exact outgrown ⟨input, w.server, ht, marked, block, hb, long⟩
            have once := delivered_of_parsed (ne_nil_of_headerEnd hend) (takeRecv_length ht) parsed fits
            have trace : ran (proxyFetch req) s = evs ++ evs' := by
              apply ran_eq
              rw [h, finalSt_ok, frame.trace, after_trace, List.append_assoc]
            rw [trace, bytesTo_append, quiet, sent (hf.agrees hw), line, after_world]
            exact once.symm
        · cases none

/-- A server that sends a chunked response in two segments. -/
def twoSegments : World where
  server := [.data (str "HTTP/1.1 200 OK\r\nTransfer-Encoding: chunked\r\n\r\n2\r\nhi\r\n0\r\n"),
    .data (str "\r\n")]

theorem stored_is_sent_twoSegments :
    ∃ r, returned (proxyFetch AcceptedRequest.home.toHttpRequest
        ((St.initial ⟨1, Nat.le_refl 1⟩).enter twoSegments)) = some r ∧
      (r.obj.lineRecv = bytesTo .client (ran (proxyFetch AcceptedRequest.home.toHttpRequest)
          ((St.initial ⟨1, Nat.le_refl 1⟩).enter twoSegments)) ∨ Outgrown twoSegments.server) := by
  have some : (returned (proxyFetch AcceptedRequest.home.toHttpRequest
      ((St.initial ⟨1, Nat.le_refl 1⟩).enter twoSegments))).isSome = true := by decide +kernel
  obtain ⟨r, found⟩ := Option.isSome_iff_exists.mp some
  have silent : twoSegments.NoFail := by simp [World.NoFail, twoSegments]
  exact ⟨r, found, stored_is_sent silent (returned_some found)⟩

end HttpProxy
