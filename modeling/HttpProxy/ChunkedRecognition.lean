import HttpProxy.Recognition

/-!
# The language of the body states

`completes_ending` says what the parser has to read behind the header lines, as `Ending`
has it; with the lines of `Recognition` it gives `completes_iff`, for whole messages.
-/

namespace HttpProxy

open Scan (Step Exactly)

section
variable {memory : Nat} {framed : Bool} {st : BodyState} {m m' : Message} {x : Bytes}

/-- A state that skips bytes of one kind up to one byte of another. -/
theorem completes_skip {p : UInt8 → Bool} {k : UInt8} {s : BodyState} (ends : p k = false)
    (step : ∀ m c, bodyStep memory framed st m c =
      if p c then .more (st, m) else if c = k then .more (s, m) else .halt .error) :
    Completes memory framed st m x m' ↔ ∃ v rest, (∀ c ∈ v, p c = true) ∧ x = v ++ k :: rest ∧
      Completes memory framed s m rest m' := by
  have stay (m : Message) (c : UInt8) (hc : p c = true) :
      bodyStep memory framed st m c = .more (st, m) := by
    rw [step, if_pos hc]
  have stop : bodyStep memory framed st m k = .more (s, m) := by
    rw [step, if_neg (by simp [ends]), if_pos rfl]
  rw [completes_span stay]
  constructor
  · rintro ⟨v, c, rest, rfl, all, hc, done⟩
    have last : c = k := by
      by_contra hne
      have halts : bodyStep memory framed st m c = .halt .error := by
        rw [step, if_neg (by simp [hc]), if_neg hne]
      exact not_completes_error halts done
    subst last
    exact ⟨v, rest, all, rfl, (completes_more stop).mp done⟩
  · rintro ⟨v, rest, all, rfl, done⟩
    exact ⟨v, k, rest, rfl, all, ends, (completes_more stop).mpr done⟩

/-- A body of announced length. -/
theorem completes_post (some : 0 < m.contentSize) : Completes memory framed .post m x m' ↔
    x.length = m.contentSize ∧ m' = { m with content := m.content ++ x, contentSize := 0 } := by
  induction x generalizing m with
  | nil =>
    constructor
    · exact fun h => absurd h not_completes_nil
    · rintro ⟨e, _⟩
      rw [List.length_nil] at e
      omega
  | cons c x ih =>
    by_cases last : m.contentSize = 1
    · have step : bodyStep memory framed .post m c =
          .halt (.completed { m with content := m.content ++ [c], contentSize := 0 }) := by
        simp [bodyStep, Message.pushContent, last]
      rw [completes_completed step, last, List.length_cons]
      constructor
      · rintro ⟨rfl, rfl⟩
        exact ⟨rfl, rfl⟩
      · rintro ⟨e, rfl⟩
        have hx : x = [] := List.length_eq_zero_iff.mp (by omega)
        exact ⟨hx, by rw [hx]⟩
    · have step : bodyStep memory framed .post m c =
          .more (.post, { m with content := m.content ++ [c], contentSize := m.contentSize - 1 }) := by
        have left : m.contentSize - 1 ≠ 0 := by omega
        simp [bodyStep, Message.pushContent, left]
      rw [completes_more step, ih (by dsimp only; omega), List.length_cons]
      dsimp only
      rw [List.append_assoc]
      constructor
      · rintro ⟨e, rfl⟩
        exact ⟨by omega, rfl⟩
      · rintro ⟨e, rfl⟩
        exact ⟨by omega, rfl⟩

/-! ## Size lines -/

theorem completes_chunkExtensionValue : Completes memory framed .chunkExtensionValue m x m' ↔
    ∃ v rest, (∀ c ∈ v, isWord c = true) ∧ x = v ++ ch '\r' :: rest ∧
      Completes memory framed .chunkSizeNewLine m rest m' :=
  completes_skip (by decide) fun m c => by simp [bodyStep, isWord]

theorem completes_chunkExtensionName : Completes memory framed .chunkExtensionName m x m' ↔
    ∃ (e : ChunkExt) (rest : Bytes), e.Proper ∧ ch ';' :: x = e.text ++ ch '\r' :: rest ∧
      Completes memory framed .chunkSizeNewLine m rest m' := by
  have stay (m : Message) (c : UInt8) (hc : isWord c = true) :
      bodyStep memory framed .chunkExtensionName m c = .more (.chunkExtensionName, m) := by
    have word : isAlnum c = true ∨ c = ch ' ' := by simpa [isWord] using hc
    simp [bodyStep, word]
  rw [completes_span stay]
  constructor
  · rintro ⟨n, c, rest, rfl, all, hc, done⟩
    have other : ¬ (isAlnum c = true ∨ c = ch ' ') := by simpa [isWord] using hc
    by_cases equal : c = ch '='
    · subst equal
      rw [completes_more rfl, completes_chunkExtensionValue] at done
      obtain ⟨v, rest, hv, rfl, done⟩ := done
      exact ⟨.value n v, rest, ⟨all, hv⟩, by simp [ChunkExt.text], done⟩
    · have cr : c = ch '\r' := by
        by_contra hne
        exact not_completes_error (by simp [bodyStep, hne, equal, other]) done
      subst cr
      exact ⟨.name n, rest, all, by simp [ChunkExt.text], (completes_more rfl).mp done⟩
  · rintro ⟨e, rest, proper, text, done⟩
    cases e with
    | none =>
      have := List.cons.inj text
      exact absurd this.1 (by decide)
    | name n =>
      obtain rfl := (List.cons.inj text).2
      exact ⟨n, ch '\r', rest, rfl, proper, by decide, (completes_more rfl).mpr done⟩
    | value n v =>
      obtain ⟨hn, hv⟩ := proper
      obtain rfl := (List.cons.inj text).2
      refine ⟨n, ch '=', v ++ ch '\r' :: rest, by simp, hn, by decide, (completes_more rfl).mpr ?_⟩
      exact completes_chunkExtensionValue.mpr ⟨v, rest, hv, rfl, done⟩

/-- A size with its extension, up to the newline. -/
theorem completes_chunkSize : Completes memory framed .chunkSize m x m' ↔
    ∃ (size : Bytes) (e : ChunkExt) (rest : Bytes), (∀ c ∈ size, isAlnum c = true) ∧ e.Proper ∧
      x = size ++ e.text ++ ch '\r' :: rest ∧
      Completes memory framed .chunkSizeNewLine { m with chunkSizeStr := m.chunkSizeStr ++ size }
        rest m' := by
  have stay (m : Message) (c : UInt8) (hc : isAlnum c = true) :
      bodyScan memory framed (.chunkSize, m) c =
        .more (.chunkSize, { m with chunkSizeStr := m.chunkSizeStr ++ [c] }) := by
    simp [bodyScan, bodyStep, hc]
  have begun (t : Bytes) (m : Message) :
      t.foldl (fun (m : Message) c => { m with chunkSizeStr := m.chunkSizeStr ++ [c] }) m =
        { m with chunkSizeStr := m.chunkSizeStr ++ t } := by
    induction t generalizing m with
    | nil => simp
    | cons c t ih => rw [List.foldl_cons, ih]; simp
  rw [Completes, Scan.exactly_span stay]
  simp only [begun]
  constructor
  · rintro ⟨size, c, rest, rfl, all, hc, done⟩
    change Completes memory framed .chunkSize _ _ m' at done
    by_cases semicolon : c = ch ';'
    · subst semicolon
      rw [completes_more rfl, completes_chunkExtensionName] at done
      obtain ⟨e, rest', proper, text, done⟩ := done
      exact ⟨size, e, rest', all, proper, by rw [text, List.append_assoc], done⟩
    · have cr : c = ch '\r' := by
        by_contra hne
        exact not_completes_error (by simp [bodyStep, hne, semicolon, hc]) done
      subst cr
      exact ⟨size, .none, rest, all, trivial, by simp [ChunkExt.text], (completes_more rfl).mp done⟩
  · rintro ⟨size, e, rest, all, proper, rfl, done⟩
    cases e with
    | none =>
      refine ⟨size, ch '\r', rest, by simp [ChunkExt.text], all, by decide, ?_⟩
      exact (completes_more rfl).mpr done
    | name n =>
      refine ⟨size, ch ';', n ++ ch '\r' :: rest, by simp [ChunkExt.text], all, by decide, ?_⟩
      apply (completes_more rfl).mpr
      exact completes_chunkExtensionName.mpr ⟨.name n, rest, proper, rfl, done⟩
    | value n v =>
      refine ⟨size, ch ';', n ++ ch '=' :: v ++ ch '\r' :: rest, by simp [ChunkExt.text], all,
        by decide, ?_⟩
      apply (completes_more rfl).mpr
      exact completes_chunkExtensionName.mpr ⟨.value n v, rest, proper, by simp [ChunkExt.text], done⟩

theorem completes_chunkSizeNewLine : Completes memory framed .chunkSizeNewLine m x m' ↔
    ∃ rest, x = ch '\n' :: rest ∧
      m.content.length + chunkNumber m.chunkSizeStr ≤ min memory maxSize ∧
      Completes memory framed
        (if chunkNumber m.chunkSizeStr = 0 then .chunkSizeNewLine2 else .chunkData)
        { m with chunkSize := chunkNumber m.chunkSizeStr, chunkSizeStr := [] } rest m' := by
  cases x with
  | nil => simp [not_completes_nil]
  | cons c x =>
    by_cases hc : c = ch '\n'
    · subst hc
      cases room : reserve memory (m.content.length + chunkNumber m.chunkSizeStr) with
      | error e =>
        have halts : bodyStep memory framed .chunkSizeNewLine m (ch '\n') = .halt (.threw e) := by
          rw [chunkNumber] at room
          simp only [bodyStep, readChunkSize, room, if_true]
          rfl
        constructor
        · exact fun h => absurd h (not_completes_threw halts)
        · rintro ⟨_, _, fits, _⟩
          rw [reserve_ok_iff.mpr fits] at room
          cases room
      | ok =>
        have step : bodyStep memory framed .chunkSizeNewLine m (ch '\n') =
            .more (if chunkNumber m.chunkSizeStr = 0 then .chunkSizeNewLine2 else .chunkData,
              { m with chunkSize := chunkNumber m.chunkSizeStr, chunkSizeStr := [] }) := by
          rw [chunkNumber] at room ⊢
          simp only [bodyStep, readChunkSize, room, if_true]
          rfl
        rw [completes_more step]
        constructor
        · exact fun done => ⟨x, rfl, reserve_ok_iff.mp room, done⟩
        · rintro ⟨rest, e, _, done⟩
          cases e
          exact done
    · constructor
      · exact fun h => absurd h (not_completes_error (by simp [bodyStep, hc]))
      · rintro ⟨rest, e, _⟩
        exact absurd (List.cons.inj e).1 hc

/-! ## Chunks -/

theorem completes_chunkData (some : 0 < m.chunkSize) : Completes memory framed .chunkData m x m' ↔
    ∃ data rest, data.length = m.chunkSize ∧ x = data ++ crlf ++ rest ∧
      Completes memory framed .chunkSize { m with content := m.content ++ data, chunkSize := 0 }
        rest m' := by
  have lineEnd (m : Message) (x : Bytes) : Completes memory framed .chunkDataNewLine1 m x m' ↔
      ∃ rest, x = crlf ++ rest ∧ Completes memory framed .chunkSize m rest m' := by
    have feed (x : Bytes) : Completes memory framed .chunkDataNewLine2 m x m' ↔
        ∃ rest, x = ch '\n' :: rest ∧ Completes memory framed .chunkSize m rest m' :=
      completes_expected fun _ => rfl
    rw [completes_expected (k := ch '\r') fun _ => rfl]
    simp only [feed]
    constructor
    · rintro ⟨_, rfl, rest, rfl, done⟩
      exact ⟨rest, rfl, done⟩
    · rintro ⟨rest, rfl, done⟩
      exact ⟨_, rfl, rest, rfl, done⟩
  induction hn : m.chunkSize generalizing m x with
  | zero => omega
  | succ n ih =>
    cases x with
    | nil =>
      constructor
      · exact fun h => absurd h not_completes_nil
      · rintro ⟨data, rest, _, e, _⟩
        simp [crlf, str] at e
    | cons c x =>
      have step : bodyStep memory framed .chunkData m c =
          .more (if n = 0 then .chunkDataNewLine1 else .chunkData,
            { m with content := m.content ++ [c], chunkSize := n }) := by
        simp [bodyStep, Message.pushContent, hn]
      rw [completes_more step]
      by_cases last : n = 0
      · subst last
        rw [if_pos rfl, lineEnd]
        constructor
        · rintro ⟨rest, rfl, done⟩
          exact ⟨[c], rest, rfl, rfl, done⟩
        · rintro ⟨data, rest, one, e, done⟩
          obtain ⟨d, rfl⟩ := List.length_eq_one_iff.mp one
          cases e
          exact ⟨rest, rfl, done⟩
      · have behind := ih (m := { m with content := m.content ++ [c], chunkSize := n }) (x := x)
          (Nat.pos_of_ne_zero last) rfl
        rw [if_neg last]
        refine behind.trans ?_
        constructor
        · rintro ⟨data, rest, length, rfl, done⟩
          exact ⟨c :: data, rest, by simp [length], rfl, by simpa using done⟩
        · rintro ⟨data, rest, length, e, done⟩
          cases data with
          | nil => cases length
          | cons d data =>
            cases e
            exact ⟨data, rest, by simpa using length, rfl, by simpa using done⟩

theorem completes_trailerName : Completes memory framed .chunkTrailerName m x m' ↔
    ∃ n v rest, (∀ c ∈ n, isAlnum c = true) ∧ (∀ c ∈ v, isWord c = true) ∧
      x = n ++ ch ':' :: (v ++ ch '\r' :: rest) ∧
      Completes memory framed .chunkSizeNewLine m rest m' := by
  have value (x : Bytes) : Completes memory framed .chunkTrailerValue m x m' ↔
      ∃ v rest, (∀ c ∈ v, isWord c = true) ∧ x = v ++ ch '\r' :: rest ∧
        Completes memory framed .chunkSizeNewLine m rest m' :=
    completes_skip (by decide) fun m c => by simp [bodyStep, isWord]
  rw [completes_skip (p := isAlnum) (k := ch ':') (by decide) fun m c => rfl]
  simp only [value]
  constructor
  · rintro ⟨n, _, hn, rfl, v, rest, hv, rfl, done⟩
    exact ⟨n, v, rest, hn, hv, rfl, done⟩
  · rintro ⟨n, v, rest, hn, hv, rfl, done⟩
    exact ⟨n, _, hn, rfl, v, rest, hv, rfl, done⟩

/-- Behind the line of the last chunk: the end, or a trailer. A trailer ends in the state of
a size line, and the size that is read there has no digits. -/
theorem completes_trailer (none : m.chunkSizeStr = []) (zero : m.chunkSize = 0)
    (fits : m.content.length ≤ min memory maxSize) :
    Completes memory framed .chunkSizeNewLine2 m x m' ↔
      x = crlf ∧ m' = m ∨ ∃ (t : Trailer) (rest : Bytes), t.Proper ∧ x = t.text ++ rest ∧
        Completes memory framed .chunkSizeNewLine2 m rest m' := by
  have number : chunkNumber m.chunkSizeStr = 0 := by rw [none]; decide
  have same : ({ m with chunkSize := 0, chunkSizeStr := [] } : Message) = m := by
    cases m
    simp_all
  have lineEnd (x : Bytes) : Completes memory framed .chunkSizeNewLine m x m' ↔
      ∃ rest, x = ch '\n' :: rest ∧ Completes memory framed .chunkSizeNewLine2 m rest m' := by
    rw [completes_chunkSizeNewLine, number, if_pos rfl, same]
    simp [fits]
  constructor
  · intro h
    cases x with
    | nil => exact absurd h not_completes_nil
    | cons c x =>
      by_cases cr : c = ch '\r'
      · subst cr
        rw [completes_more rfl] at h
        cases x with
        | nil => exact absurd h not_completes_nil
        | cons c x =>
          by_cases nl : c = ch '\n'
          · subst nl
            obtain ⟨rfl, rfl⟩ := (completes_completed rfl).mp h
            exact .inl ⟨rfl, rfl⟩
          · exact absurd h (not_completes_error (by simp [bodyStep, nl]))
      · cases alpha : isAlpha c with
        | false => exact absurd h (not_completes_error (by simp [bodyStep, cr, alpha]))
        | true =>
          have step :
              bodyStep memory framed .chunkSizeNewLine2 m c = .more (.chunkTrailerName, m) := by
            simp [bodyStep, cr, alpha]
          rw [completes_more step, completes_trailerName] at h
          obtain ⟨n, v, _, hn, hv, rfl, closed⟩ := h
          obtain ⟨rest, rfl, done⟩ := (lineEnd _).mp closed
          exact .inr ⟨⟨c :: n, v⟩, rest, ⟨⟨c, n, rfl, alpha, hn⟩, hv⟩,
            by simp [Trailer.text, crlf, str], done⟩
  · rintro (⟨rfl, rfl⟩ | ⟨⟨name, v⟩, rest, ⟨⟨c, n, rfl, alpha, hn⟩, hv⟩, rfl, done⟩)
    · exact (completes_more rfl).mpr ((completes_completed rfl).mpr ⟨rfl, rfl⟩)
    · have cr : c ≠ ch '\r' := by
        rintro rfl
        revert alpha
        decide
      have step : bodyStep memory framed .chunkSizeNewLine2 m c = .more (.chunkTrailerName, m) := by
        simp [bodyStep, cr, alpha]
      have text : (Trailer.mk (c :: n) v).text ++ rest =
          c :: (n ++ ch ':' :: (v ++ ch '\r' :: ch '\n' :: rest)) := by
        simp [Trailer.text, crlf, str]
      rw [text, completes_more step, completes_trailerName]
      exact ⟨n, v, _, hn, hv, rfl, (lineEnd _).mpr ⟨rest, rfl, done⟩⟩

theorem completes_trailers (none : m.chunkSizeStr = []) (zero : m.chunkSize = 0)
    (fits : m.content.length ≤ min memory maxSize) :
    Completes memory framed .chunkSizeNewLine2 m x m' ↔
      ∃ trailers : List Trailer, (∀ t ∈ trailers, t.Proper) ∧
        x = trailers.flatMap Trailer.text ++ crlf ∧ m' = m := by
  constructor
  · intro h
    induction hn : x.length using Nat.strongRecOn generalizing x with
    | _ n ih =>
      rcases (completes_trailer none zero fits).mp h with ⟨rfl, rfl⟩ | ⟨t, rest, proper, rfl, done⟩
      · exact ⟨[], by simp, rfl, rfl⟩
      · have shorter : rest.length < n := by
          have some : t.text ≠ [] := by simp [Trailer.text, crlf, str]
          have := List.length_pos_iff.mpr some
          rw [← hn, List.length_append]
          omega
        obtain ⟨trailers, all, rfl, rfl⟩ := ih rest.length shorter done rfl
        exact ⟨t :: trailers, List.forall_mem_cons.mpr ⟨proper, all⟩, by simp, rfl⟩
  · rintro ⟨trailers, all, rfl, rfl⟩
    induction trailers with
    | nil => exact (completes_trailer none zero fits).mpr (.inl ⟨rfl, rfl⟩)
    | cons t trailers ih =>
      obtain ⟨proper, all⟩ := List.forall_mem_cons.mp all
      exact (completes_trailer none zero fits).mpr (.inr ⟨t, _, proper, by simp, ih all⟩)

/-- At the start of a size line: a chunk, or the last size with what follows it. -/
theorem completes_chunk : Completes memory framed .chunkSize { m with chunkSizeStr := [] } x m' ↔
    (∃ (size : Bytes) (e : ChunkExt) (trailers : List Trailer), (∀ c ∈ size, isAlnum c = true) ∧
      chunkNumber size = 0 ∧ e.Proper ∧ (∀ t ∈ trailers, t.Proper) ∧
      m.content.length ≤ min memory maxSize ∧
      x = size ++ e.text ++ crlf ++ (trailers.flatMap Trailer.text ++ crlf) ∧
      m' = { m with chunkSize := 0, chunkSizeStr := [] }) ∨
    ∃ (k : Chunk) (rest : Bytes), k.Proper ∧ m.content.length + k.data.length ≤ min memory maxSize ∧
      x = k.text ++ rest ∧ Completes memory framed .chunkSize
        { m with content := m.content ++ k.data, chunkSize := 0, chunkSizeStr := [] } rest m' := by
  have last (fits : m.content.length ≤ min memory maxSize) (rest : Bytes) :
      Completes memory framed .chunkSizeNewLine2 { m with chunkSize := 0, chunkSizeStr := [] }
        rest m' ↔ _ := completes_trailers rfl rfl fits
  have next (n : Nat) (some : 0 < n) (rest : Bytes) : Completes memory framed .chunkData
      { m with chunkSize := n, chunkSizeStr := [] } rest m' ↔ _ := completes_chunkData some
  rw [completes_chunkSize]
  simp only [List.nil_append, completes_chunkSizeNewLine]
  constructor
  · rintro ⟨size, e, _, hs, he, rfl, rest, rfl, fits, done⟩
    by_cases zero : chunkNumber size = 0
    · rw [if_pos zero, zero] at done
      rw [zero] at fits
      obtain ⟨trailers, ht, rfl, rfl⟩ := (last fits _).mp done
      exact .inl ⟨size, e, trailers, hs, zero, he, ht, fits, by simp [crlf, str], rfl⟩
    · rw [if_neg zero] at done
      obtain ⟨data, rest, length, rfl, behind⟩ := (next _ (Nat.pos_of_ne_zero zero) _).mp done
      have length : data.length = chunkNumber size := length
      have some : data ≠ [] := by
        rintro rfl
        exact zero length.symm
      exact .inr ⟨⟨size, e, data⟩, rest, ⟨hs, he, some, length.symm⟩, by rw [length]; exact fits,
        by simp [Chunk.text, crlf, str], behind⟩
  · rintro (⟨size, e, trailers, hs, zero, he, ht, fits, rfl, rfl⟩ |
      ⟨⟨size, e, data⟩, rest, ⟨hs, he, some, number⟩, fits, rfl, done⟩)
    · refine ⟨size, e, ch '\n' :: (trailers.flatMap Trailer.text ++ crlf), hs, he,
        by simp [crlf, str], _, rfl, by rw [zero]; exact fits, ?_⟩
      rw [if_pos zero, zero]
      exact (last fits _).mpr ⟨trailers, ht, rfl, rfl⟩
    · dsimp only at some number fits
      refine ⟨size, e, ch '\n' :: (data ++ crlf ++ rest), hs, he,
        by simp [Chunk.text, crlf, str], _, rfl, by rw [number]; exact fits, ?_⟩
      have positive : 0 < data.length := List.length_pos_iff.mpr some
      rw [number, if_neg (by omega)]
      exact (next _ positive _).mpr ⟨data, rest, rfl, rfl, done⟩

theorem completes_chunked : Completes memory framed .chunkSize { m with chunkSizeStr := [] } x m' ↔
    ∃ b : ChunkedText, b.Proper ∧ m.content.length + b.content.length ≤ min memory maxSize ∧
      x = b.text ∧
        m' = { m with content := m.content ++ b.content, chunkSize := 0, chunkSizeStr := [] } := by
  constructor
  · intro h
    induction hn : x.length using Nat.strongRecOn generalizing x m with
    | _ n ih =>
      rcases completes_chunk.mp h with
        ⟨size, e, trailers, hs, zero, he, ht, fits, rfl, rfl⟩ | ⟨k, rest, proper, fits, rfl, done⟩
      · exact ⟨⟨[], size, e, trailers⟩, ⟨by simp, hs, zero, he, ht⟩,
          by simpa [ChunkedText.content] using fits, by simp [ChunkedText.text],
          by simp [ChunkedText.content]⟩
      · have shorter : rest.length < n := by
          have some : k.text ≠ [] := by simp [Chunk.text, crlf, str]
          have := List.length_pos_iff.mpr some
          rw [← hn, List.length_append]
          omega
        obtain ⟨b, ⟨hk, hs, zero, he, ht⟩, room, rfl, rfl⟩ := @ih rest.length shorter
          { m with content := m.content ++ k.data, chunkSize := 0 } rest done rfl
        refine ⟨{ b with chunks := k :: b.chunks },
          ⟨List.forall_mem_cons.mpr ⟨proper, hk⟩, hs, zero, he, ht⟩, ?_,
          by simp [ChunkedText.text], by simp [ChunkedText.content]⟩
        simpa [ChunkedText.content, Nat.add_assoc] using room
  · rintro ⟨⟨chunks, size, e, trailers⟩, ⟨hk, hs, zero, he, ht⟩, fits, rfl, rfl⟩
    induction chunks generalizing m with
    | nil =>
      refine completes_chunk.mpr (.inl ⟨size, e, trailers, hs, zero, he, ht, ?_, ?_, ?_⟩)
      · simpa [ChunkedText.content] using fits
      · simp [ChunkedText.text]
      · simp [ChunkedText.content]
    | cons k chunks ih =>
      obtain ⟨proper, hk⟩ := List.forall_mem_cons.mp hk
      have room : m.content.length + k.data.length + (chunks.flatMap Chunk.data).length ≤
          min memory maxSize := by
        simpa [ChunkedText.content, Nat.add_assoc] using fits
      have behind := ih (m := { m with content := m.content ++ k.data, chunkSize := 0 }) hk hs zero he
        ht (by simpa [ChunkedText.content, Nat.add_assoc] using room)
      refine completes_chunk.mpr (.inr ⟨k, (ChunkedText.mk chunks size e trailers).text, proper,
        by omega, by simp [ChunkedText.text], ?_⟩)
      simpa [ChunkedText.content] using behind

/-! ## The whole text -/

theorem setKeepAlive_sets (m : Message) : ∃ k, setKeepAlive m = { m with keepAlive := k } := by
  unfold setKeepAlive
  split
  · exact ⟨_, rfl⟩
  · split_ifs
    · exact ⟨_, rfl⟩
    · exact ⟨_, rfl⟩

/-- The newline of the empty line, and the body. -/
theorem completes_ending (size : m.chunkSizeStr = []) :
    Completes memory framed .expectingNewline3 m x m' ↔
    ∃ e : Ending, e.Fits memory (setKeepAlive m) ∧ x = e.text ∧ m' = e.read (setKeepAlive m) := by
  obtain ⟨k, hk⟩ := setKeepAlive_sets m
  have unread : (setKeepAlive m).chunkSizeStr = [] := by rw [hk, ← size]
  generalize hm : setKeepAlive m = m₁ at unread ⊢
  have same : ({ m₁ with chunkSizeStr := [] } : Message) = m₁ := by rw [← unread]
  cases x with
  | nil =>
    constructor
    · exact fun h => absurd h not_completes_nil
    · rintro ⟨e, _, text, _⟩
      cases e <;> simp [Ending.text, str] at text
  | cons c x =>
    by_cases chunked : m₁.chunked = true
    · have step : bodyStep memory framed .expectingNewline3 m c = .more (.chunkSize, m₁) := by
        simp [bodyStep, hm, chunked]
      have whole : Completes memory framed .chunkSize { m₁ with chunkSizeStr := [] } x m' ↔ _ :=
        completes_chunked
      rw [same] at whole
      rw [completes_more step, whole]
      constructor
      · rintro ⟨b, proper, fits, rfl, rfl⟩
        exact ⟨.chunked c b, ⟨chunked, proper, fits⟩, rfl, rfl⟩
      · rintro ⟨e, fits, text, rfl⟩
        cases e with
        | bare => exact absurd (fits.1.symm.trans chunked) (by decide)
        | sized newline content => exact absurd (fits.1.symm.trans chunked) (by decide)
        | chunked newline b =>
          cases text
          exact ⟨b, fits.2.1, fits.2.2, rfl, rfl⟩
    · have chunked : m₁.chunked = false := by simpa using chunked
      by_cases none : m₁.contentSize = 0
      · have step :
            bodyStep memory framed .expectingNewline3 m (ch '\n') = .halt (.completed m₁) := by
          simp [bodyStep, hm, chunked, none]
        constructor
        · intro h
          by_cases nl : c = ch '\n'
          · subst nl
            obtain ⟨rfl, rfl⟩ := (completes_completed step).mp h
            exact ⟨.bare, ⟨chunked, none⟩, rfl, rfl⟩
          · exact absurd h (not_completes_error (by simp [bodyStep, hm, chunked, none, nl]))
        · rintro ⟨e, fits, text, rfl⟩
          cases e with
          | bare =>
            obtain ⟨rfl, rfl⟩ : c = ch '\n' ∧ x = [] := List.cons.inj text
            exact (completes_completed step).mpr ⟨rfl, rfl⟩
          | sized newline content =>
            obtain ⟨_, some, length⟩ := fits
            exact absurd (List.length_eq_zero_iff.mp (length.symm.trans none)) some
          | chunked newline b => exact absurd (chunked.symm.trans fits.1) (by decide)
      · have step : bodyStep memory framed .expectingNewline3 m c = .more (.post, m₁) := by
          simp [bodyStep, hm, chunked, none]
        rw [completes_more step, completes_post (Nat.pos_of_ne_zero none)]
        constructor
        · rintro ⟨length, rfl⟩
          have some : x ≠ [] := by
            rintro rfl
            exact none length.symm
          exact ⟨.sized c x, ⟨chunked, some, length.symm⟩, rfl, rfl⟩
        · rintro ⟨e, fits, text, rfl⟩
          cases e with
          | bare => exact absurd fits.2 none
          | sized newline content =>
            cases text
            exact ⟨fits.2.2.symm, rfl⟩
          | chunked newline b => exact absurd (chunked.symm.trans fits.1) (by decide)

/-- From the first header line on, the parser completes on the texts of messages and on no
other input, with what the text says. -/
theorem completes_iff (fresh : m.headers = []) (size : m.chunkSizeStr = []) :
    Completes memory framed .headerLineStart m x m' ↔
      ∃ t : MessageText, t.Proper ∧ x = t.text ∧ t.Reads memory framed m m' := by
  have kept {lines : List FieldLine} {head : Message}
      (read : lines.foldlM (FieldLine.read memory framed) m = .ok head) :
      head.chunkSizeStr = [] := by
    obtain ⟨_, _, _, rfl⟩ := FieldLine.lines_set read
    exact size
  rw [completes_lines]
  constructor
  · rintro ⟨lines, head, rest, all, starts, rfl, read, done⟩
    obtain ⟨e, fits, rfl, rfl⟩ := (completes_ending (kept read)).mp done
    exact ⟨⟨lines, e⟩, ⟨all, starts fresh⟩, rfl, head, read, fits, rfl⟩
  · rintro ⟨⟨lines, e⟩, ⟨all, starts⟩, rfl, head, read, fits, rfl⟩
    refine ⟨lines, head, e.text, all, fun _ => starts, rfl, read, ?_⟩
    exact (completes_ending (kept read)).mpr ⟨e, fits, rfl, rfl⟩

end

end HttpProxy
