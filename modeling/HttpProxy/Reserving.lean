import HttpProxy.RequestLine
import HttpProxy.ResponseParser

/-!
# The memory that a parse asks for

Both parsers reserve the body before they read it: a Content-Length at its header, a chunk at
its size line. With less memory than `demanded` the reservation throws and the parse is
over; otherwise memory plays no part. What completes with some memory therefore completes
without any limit (`parse_unlimited`), and a request whose framing headers are not read
completes with any memory (`parse_unframed`).
-/

namespace HttpProxy

open Scan (Step)

/-- The number of bytes that the last header announces, if it does. -/
def lastLength (m : Message) : Nat :=
  match m.headers.getLast? with
  | none => 0
  | some h => if strcasecmpEq h.name (str "Content-Length") then toSizeT (atoi h.value) else 0

/-- What this byte asks `reserve` for. -/
def demanded (framed : Bool) (st : BodyState) (m : Message) (input : UInt8) : Nat :=
  match st with
  | .headerValue => if framed ∧ input = ch '\r' then lastLength m else 0
  | .chunkSizeNewLine =>
    if input = ch '\n' then m.content.length + toSizeT (strtol 16 m.chunkSizeStr) else 0
  | _ => 0

theorem reserve_ok_iff {memory n : Nat} : reserve memory n = .ok () ↔ n ≤ min memory maxSize := by
  unfold reserve
  split_ifs with large much
  · exact iff_of_false (by simp) (by omega)
  · exact iff_of_false (by simp) (by omega)
  · exact iff_of_true rfl (by omega)

theorem reserve_of_le {memory n : Nat} (h : n ≤ memory) : reserve memory n = reserve maxSize n := by
  unfold reserve
  rw [if_neg (Nat.not_lt.mpr h)]
  split_ifs <;> rfl

theorem reserve_or (memory n : Nat) :
    reserve memory n = reserve maxSize n ∨ reserve memory n = .error .badAlloc := by
  unfold reserve
  split_ifs <;> simp

section
variable {memory : Nat} {framed : Bool} {st : BodyState} {m : Message} {input : UInt8}

theorem readFraming_of_le (h : framed = true → lastLength m ≤ memory) :
    readFraming memory framed m = readFraming maxSize framed m := by
  cases framed with
  | false =>
    unfold readFraming
    cases m.headers.getLast? <;> rfl
  | true =>
    have room := h rfl
    unfold lastLength at room
    unfold readFraming
    cases hl : m.headers.getLast? with
    | none => rfl
    | some it =>
      simp only [hl] at room
      by_cases length : strcasecmpEq it.name (str "Content-Length") = true
      · rw [if_pos length] at room
        simp only [length, if_true, reserve_of_le room]
      · dsimp only
        rw [if_neg length, if_neg length]

theorem readFraming_or (memory : Nat) (framed : Bool) (m : Message) :
    readFraming memory framed m = readFraming maxSize framed m ∨
      readFraming memory framed m = .error .badAlloc := by
  unfold readFraming
  cases m.headers.getLast? with
  | none => exact .inl rfl
  | some it =>
    dsimp only
    split_ifs
    · exact .inl rfl
    · rcases reserve_or memory (toSizeT (atoi it.value)) with same | fails
      · exact .inl (by rw [same])
      · exact .inr (by rw [fails]; rfl)
    · exact .inl rfl
    · exact .inl rfl

/-- Memory makes no difference to a byte that asks for no more than there is. -/
theorem bodyStep_of_demanded_le (h : demanded framed st m input ≤ memory) :
    bodyStep memory framed st m input = bodyStep maxSize framed st m input := by
  cases st with
  | headerValue =>
    by_cases hr : input = ch '\r'
    · have room (hf : framed = true) : lastLength m ≤ memory := by simpa [demanded, hf, hr] using h
      simp only [bodyStep, hr, if_true, readFraming_of_le room]
    · simp only [bodyStep, hr, if_false]
  | chunkSizeNewLine =>
    by_cases hn : input = ch '\n'
    · simp only [demanded, hn, if_true] at h
      simp only [bodyStep, hn, if_true, readChunkSize, reserve_of_le h]
    · simp only [bodyStep, hn, if_false]
  | _ => rfl

/-- A byte does what it does without a limit, or its reservation fails. -/
theorem bodyStep_or (memory : Nat) (framed : Bool) (st : BodyState) (m : Message) (input : UInt8) :
    bodyStep memory framed st m input = bodyStep maxSize framed st m input ∨
      bodyStep memory framed st m input = .halt (.threw .badAlloc) := by
  cases st with
  | headerValue =>
    by_cases hr : input = ch '\r'
    · simp only [bodyStep, hr, if_true]
      rcases readFraming_or memory framed m with same | fails
      · exact .inl (by rw [same])
      · exact .inr (by rw [fails])
    · simp only [bodyStep, hr, if_false, true_or]
  | chunkSizeNewLine =>
    by_cases hn : input = ch '\n'
    · simp only [bodyStep, hn, if_true, readChunkSize]
      rcases reserve_or memory (m.content.length + toSizeT (strtol 16 m.chunkSizeStr)) with
        same | fails
      · exact .inl (by rw [same])
      · exact .inr (by rw [fails]; rfl)
    · simp only [bodyStep, hn, if_false, true_or]
  | _ => exact .inl rfl

end

namespace ResponseParser

theorem step_or (memory : Nat) (s : State × Response) (input : UInt8) :
    step memory s input = step maxSize s input ∨ step memory s input = .halt (.threw .badAlloc) := by
  obtain ⟨st, r⟩ := s
  cases st with
  | body b =>
    simp only [step]
    rcases bodyStep_or memory true b r.msg input with same | fails
    · exact .inl (by rw [same])
    · exact .inr (by rw [fails])
  | _ => exact .inl rfl

/-- What completes does not need the limit. -/
theorem parse_unlimited {memory : Nat} {bytes : Bytes} {p : Response}
    (h : parse memory bytes = .halt (.completed p)) : parse maxSize bytes = .halt (.completed p) := by
  rcases Scan.run_or_halt (step_or memory) init bytes with ⟨same, _⟩ | fails
  · exact same.symm.trans h
  · cases h.symm.trans fails

end ResponseParser

namespace RequestParser

theorem step_or (memory : Nat) (s : State × ParsedRequest) (input : UInt8) :
    step memory s input = step maxSize s input ∨ step memory s input = .halt (.threw .badAlloc) := by
  obtain ⟨st, r⟩ := s
  cases st with
  | body b =>
    simp only [step]
    rcases bodyStep_or memory (framed r) b r.msg input with same | fails
    · exact .inl (by rw [same])
    · exact .inr (by rw [fails])
  | _ => exact .inl rfl

theorem parse_unlimited {memory : Nat} {bytes : Bytes} {p : ParsedRequest}
    (h : parse memory bytes = .halt (.completed p)) : parse maxSize bytes = .halt (.completed p) := by
  rcases Scan.run_or_halt (step_or memory) init bytes with ⟨same, _⟩ | fails
  · exact same.symm.trans h
  · cases h.symm.trans fails

/-! ## Requests without framing -/

theorem method_of_run {memory : Nat} {b : BodyState} {r p : ParsedRequest} {bytes : Bytes}
    (h : Scan.run (step memory) (.body b, r) bytes = .halt (.completed p)) : p.method = r.method := by
  induction bytes generalizing b r with
  | nil => cases h
  | cons c bytes ih =>
    simp only [Scan.run, step] at h
    split at h
    · next hs =>
      split at hs
      · cases hs
        exact (ih h).trans rfl
      all_goals cases hs
    · next hs =>
      cases h
      split at hs
      · cases hs
      · cases hs
        rfl
      all_goals cases hs

/-- The states in front of the body, and the one for a body without chunks. -/
def unchunked : List BodyState :=
  [.headerLineStart, .headerLws, .headerName, .spaceBeforeHeaderValue, .headerValue,
    .expectingNewline2, .expectingNewline3, .post]

/-- No chunk has been announced. -/
def Unchunked (s : State × ParsedRequest) : Prop :=
  s.2.msg.chunked = false ∧ ∀ b, s.1 = .body b → b ∈ unchunked

theorem readFraming_unframed (memory : Nat) (m : Message) : readFraming memory false m = .ok m := by
  unfold readFraming
  cases m.headers.getLast? <;> rfl

theorem demanded_unchunked {b : BodyState} (h : b ∈ unchunked) (m : Message) (input : UInt8) :
    demanded false b m input = 0 := by
  cases b <;> first | rfl | exact absurd h (by decide)

theorem chunked_setKeepAlive (m : Message) : (setKeepAlive m).chunked = m.chunked := by
  unfold setKeepAlive
  split
  · rfl
  · split_ifs <;> rfl

theorem bodyStep_unchunked {memory : Nat} {b b' : BodyState} {m m' : Message} {input : UInt8}
    (early : b ∈ unchunked) (plain : m.chunked = false)
    (h : bodyStep memory false b m input = .more (b', m')) :
    b' ∈ unchunked ∧ m'.chunked = false := by
  cases b with
  | expectingNewline3 =>
    have keeps : (setKeepAlive m).chunked = false := (chunked_setKeepAlive m).trans plain
    simp only [bodyStep, keeps, Bool.false_eq_true, if_false] at h
    split_ifs at h
    cases h
    exact ⟨by decide, keeps⟩
  | headerValue =>
    simp only [bodyStep, readFraming_unframed] at h
    split_ifs at h <;> cases h <;> exact ⟨by decide, plain⟩
  | headerLineStart | headerLws | headerName | spaceBeforeHeaderValue | expectingNewline2 | post =>
    simp only [bodyStep] at h
    split_ifs at h <;> cases h <;> exact ⟨by decide, plain⟩
  | _ => exact absurd early (by decide)

theorem step_unchunked {memory : Nat} {s t : State × ParsedRequest} {input : UInt8}
    (h : Unchunked s) (unframed : ∀ b, s.1 = .body b → framed s.2 = false)
    (hs : step memory s input = .more t) : Unchunked t := by
  obtain ⟨st, r⟩ := s
  cases st with
  | body b =>
    simp only [step, unframed b rfl] at hs
    split at hs
    · next b' m' hb =>
      cases hs
      obtain ⟨early, plain⟩ := bodyStep_unchunked (h.2 b rfl) h.1 hb
      exact ⟨plain, fun b'' e => State.body.inj e ▸ early⟩
    all_goals cases hs
  | responseHttpVersionNewLine =>
    simp only [step, expect] at hs
    split_ifs at hs
    cases hs
    exact ⟨h.1, fun b e => State.body.inj e ▸ by decide⟩
  | _ =>
    simp only [step, expect] at hs
    split_ifs at hs
    all_goals
      cases hs
      exact ⟨h.1, fun b e => by cases e⟩

/-- A request that completes, and whose framing headers are not read, does so with any memory. -/
theorem parse_unframed {memory : Nat} {bytes : Bytes} {p : ParsedRequest}
    (h : parse memory bytes = .halt (.completed p)) (unframed : framed p = false) (memory' : Nat) :
    parse memory' bytes = .halt (.completed p) := by
  have plain {b : BodyState} {r : ParsedRequest} {left : Bytes}
      (run : Scan.run (step memory) (.body b, r) left = .halt (.completed p)) : framed r = false := by
    rw [← unframed, framed, framed, method_of_run run]
  have same : Scan.run (step memory') init bytes = Scan.run (step memory) init bytes ∧
      Scan.rest (step memory') init bytes = Scan.rest (step memory) init bytes := by
    refine Scan.run_congr
      (P := fun s left => Unchunked s ∧ Scan.run (step memory) s left = .halt (.completed p))
      ?_ ?_ ⟨⟨rfl, fun b e => by cases e⟩, h⟩
    · rintro ⟨st, r⟩ c left ⟨clear, run⟩
      cases st with
      | body b =>
        have any (memory : Nat) : bodyStep memory (framed r) b r.msg c =
            bodyStep maxSize (framed r) b r.msg c := by
          apply bodyStep_of_demanded_le
          rw [plain run, demanded_unchunked (clear.2 b rfl)]
          exact Nat.zero_le _
        simp only [step, any memory, any memory']
      | _ => rfl
    · rintro s c left t ⟨clear, run⟩ hs
      refine ⟨step_unchunked clear ?_ hs, ?_⟩
      · rintro b hb
        rw [show s = (.body b, s.2) from Prod.ext hb rfl] at run
        exact plain run
      · rwa [Scan.run_cons_more (step memory) left hs] at run
  exact same.1.trans h

end RequestParser

end HttpProxy
