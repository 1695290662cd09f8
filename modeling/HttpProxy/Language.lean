import HttpProxy.ChunkedRecognition

/-!
# The languages of the two parsers

What `parse` completes on is a text of `ResponseText`, or of `RequestText`, with anything
behind it.
-/

namespace HttpProxy

open Scan (Exactly)

/-! ## Numbers -/

section
variable {σ β ρ : Type} {step : σ → UInt8 → Scan.Step σ ρ}

/-- A state that takes a digit, and the one that takes the digits behind it. They keep the
number as `wrap` does, after every digit. -/
theorem exactly_digits {start : σ} (loop : β → σ) (wrap : Nat → β) (next : β → UInt8 → β) {e r : ρ}
    {x : Bytes} (other : e ≠ r)
    (first : ∀ c, step start c =
      if isDigit c then .more (loop (wrap (c.toNat - 48))) else .halt e)
    (more : ∀ b c, isDigit c = true → step (loop b) c = .more (loop (next b c)))
    (wraps : ∀ n c, next (wrap n) c = wrap (n * 10 + (c.toNat - 48))) :
    Exactly step start x r ↔ ∃ t c rest, x = t ++ c :: rest ∧ Digits t ∧ isDigit c = false ∧
      Exactly step (loop (wrap (decimal t))) (c :: rest) r := by
  have fold (t : Bytes) (n : Nat) : t.foldl next (wrap n) =
      wrap (t.foldl (fun n c => n * 10 + (c.toNat - 48)) n) := by
    induction t generalizing n with
    | nil => rfl
    | cons c t ih => rw [List.foldl_cons, wraps, ih, List.foldl_cons]
  have decimal_cons (c : UInt8) (t : Bytes) :
      decimal (c :: t) = t.foldl (fun n c => n * 10 + (c.toNat - 48)) (c.toNat - 48) := by
    rw [decimal, List.foldl_cons, Nat.zero_mul, Nat.zero_add]
  constructor
  · intro h
    cases x with
    | nil => exact absurd h Scan.not_exactly_nil
    | cons d x =>
      have hd := first d
      cases digit : isDigit d with
      | false =>
        rw [digit, if_neg (by decide)] at hd
        exact absurd ((Scan.exactly_halt hd).mp h).1 other
      | true =>
        rw [digit, if_pos rfl] at hd
        rw [Scan.exactly_more hd, Scan.exactly_span more] at h
        obtain ⟨t, c, rest, rfl, all, hc, h⟩ := h
        rw [fold, ← decimal_cons] at h
        exact ⟨d :: t, c, rest, rfl, ⟨by simp, List.forall_mem_cons.mpr ⟨digit, all⟩⟩, hc, h⟩
  · rintro ⟨t, c, rest, rfl, ⟨some, all⟩, hc, h⟩
    obtain ⟨d, t, rfl⟩ := List.exists_cons_of_ne_nil some
    obtain ⟨digit, all⟩ := List.forall_mem_cons.mp all
    have hd := first d
    rw [digit, if_pos rfl] at hd
    rw [List.cons_append, Scan.exactly_more hd, Scan.exactly_span more]
    rw [decimal_cons, ← fold] at h
    exact ⟨t, c, rest, rfl, all, hc, h⟩

/-- The next digit of an `int`. -/
theorem toInt32_digit (n d : Nat) : toInt32 (toInt32 n * 10 + d) = toInt32 (n * 10 + d : Nat) := by
  rw [toInt32, toInt32, ← Int.bmod_add_bmod, Int.bmod_mul_bmod, Int.bmod_add_bmod]
  rfl

theorem toInt32_small {n : Nat} (h : n < 256) : toInt32 n = n := by
  rw [toInt32, Int.bmod_eq_of_le (by omega) (by omega)]

variable (step) in
/-- A number that is kept in an `int`, and the byte that ends it. -/
theorem exactly_int (start : σ) (loop after : Int → σ) {k : UInt8} {e r : ρ} {x : Bytes}
    (other : e ≠ r) (ends : isDigit k = false)
    (first : ∀ c, step start c = if isDigit c then .more (loop (c.toNat - 48 : Nat)) else .halt e)
    (more : ∀ v c, step (loop v) c = if c = k then .more (after v)
      else if isDigit c then .more (loop (toInt32 (v * 10 + (c.toNat - 48 : Nat)))) else .halt e) :
    Exactly step start x r ↔ ∃ t rest, Digits t ∧ x = t ++ k :: rest ∧
      Exactly step (after (toInt32 (decimal t))) rest r := by
  have begins (c : UInt8) : step start c =
      if isDigit c then .more (loop (toInt32 (c.toNat - 48 : Nat))) else .halt e := by
    have small : c.toNat - 48 < 256 := by
      have := c.toNat_lt
      omega
    rw [first, toInt32_small small]
  have goes (v : Int) (c : UInt8) (digit : isDigit c = true) :
      step (loop v) c = .more (loop (toInt32 (v * 10 + (c.toNat - 48 : Nat)))) := by
    have hk : c ≠ k := by
      rintro rfl
      rw [ends] at digit
      cases digit
    rw [more, if_neg hk, if_pos digit]
  have stops (v : Int) : step (loop v) k = .more (after v) := by rw [more, if_pos rfl]
  rw [exactly_digits loop (fun n => toInt32 n) _ other begins goes fun n c => toInt32_digit n _]
  constructor
  · rintro ⟨t, c, rest, rfl, ht, hc, h⟩
    have last : c = k := by
      by_contra hk
      have halts : step (loop (toInt32 (decimal t))) c = .halt e := by
        rw [more, if_neg hk, hc, if_neg (by decide)]
      exact other ((Scan.exactly_halt halts).mp h).1
    subst last
    exact ⟨t, rest, ht, rfl, (Scan.exactly_more (stops _)).mp h⟩
  · rintro ⟨t, rest, ht, rfl, h⟩
    exact ⟨t, k, rest, rfl, ht, ends, (Scan.exactly_more (stops _)).mpr h⟩

end

/-! ## Responses -/

namespace ResponseParser

variable {memory : Nat} {r r' : Response} {x : Bytes}

theorem exactly_expect {st next : State} {c : Char} {r₁ : Response}
    (h : ∀ input, step memory (st, r) input = expect input c next r₁) :
    Exactly (step memory) (st, r) x (.completed r') ↔
      ∃ rest, x = ch c :: rest ∧ Exactly (step memory) (next, r₁) rest (.completed r') :=
  Scan.exactly_expected (e := Halt.error) (by simp) h

/-- The version and the blank behind it. -/
theorem exactly_version : Exactly (step memory) (.responseStatusStart, {}) x (.completed r') ↔
    ∃ major minor rest, Digits major ∧ Digits minor ∧
      x = versionText major minor ++ str " " ++ rest ∧
      Exactly (step memory) (.responseHttpVersionStatusCodeStart, { msg := versioned major minor })
        rest (.completed r') := by
  have literal (x : Bytes) : Exactly (step memory) (.responseStatusStart, {}) x (.completed r') ↔
      ∃ rest, x = str "HTTP/" ++ rest ∧
        Exactly (step memory) (.responseHttpVersionMajorStart, {}) rest (.completed r') := by
    constructor
    · intro h₀
      obtain ⟨_, rfl, h₁⟩ := (exactly_expect fun _ => rfl).mp h₀
      obtain ⟨_, rfl, h₂⟩ := (exactly_expect fun _ => rfl).mp h₁
      obtain ⟨_, rfl, h₃⟩ := (exactly_expect fun _ => rfl).mp h₂
      obtain ⟨_, rfl, h₄⟩ := (exactly_expect fun _ => rfl).mp h₃
      obtain ⟨rest, rfl, h₅⟩ := (exactly_expect fun _ => rfl).mp h₄
      exact ⟨rest, rfl, h₅⟩
    · rintro ⟨rest, rfl, h⟩
      refine (exactly_expect fun _ => rfl).mpr ⟨_, rfl, ?_⟩
      refine (exactly_expect fun _ => rfl).mpr ⟨_, rfl, ?_⟩
      refine (exactly_expect fun _ => rfl).mpr ⟨_, rfl, ?_⟩
      refine (exactly_expect fun _ => rfl).mpr ⟨_, rfl, ?_⟩
      exact (exactly_expect fun _ => rfl).mpr ⟨rest, rfl, h⟩
  have majors (x : Bytes) := exactly_int (step memory) (x := x)
    (.responseHttpVersionMajorStart, {})
    (fun v => (.responseHttpVersionMajor, { msg := { versionMajor := v } }))
    (fun v => (.responseHttpVersionMinorStart, { msg := { versionMajor := v } }))
    (k := ch '.') (e := .error) (r := .completed r') (by simp) (by decide)
    (fun _ => rfl) fun _ _ => rfl
  have minors (v : Int) (x : Bytes) := exactly_int (step memory) (x := x)
    (.responseHttpVersionMinorStart, { msg := { versionMajor := v } })
    (fun w => (.responseHttpVersionMinor, { msg := { versionMajor := v, versionMinor := w } }))
    (fun w => (.responseHttpVersionStatusCodeStart,
      { msg := { versionMajor := v, versionMinor := w } }))
    (k := ch ' ') (e := .error) (r := .completed r') (by simp) (by decide)
    (fun _ => rfl) fun _ _ => rfl
  simp only [literal, majors, minors]
  constructor
  · rintro ⟨_, rfl, major, _, hmajor, rfl, minor, rest, hminor, rfl, h⟩
    exact ⟨major, minor, rest, hmajor, hminor, by simp [versionText, str], h⟩
  · rintro ⟨major, minor, rest, hmajor, hminor, rfl, h⟩
    exact ⟨_, by simp [versionText, str], major, _, hmajor, rfl, minor, rest, hminor, rfl, h⟩

/-- The status code, in its range, and the blank behind it. -/
theorem exactly_code (m : Message) :
    Exactly (step memory) (.responseHttpVersionStatusCodeStart, { msg := m }) x (.completed r') ↔
      ∃ code rest, Digits code ∧ (100 ≤ decimal code % 2 ^ 32 ∧ decimal code % 2 ^ 32 ≤ 999) ∧
        x = code ++ str " " ++ rest ∧
        Exactly (step memory) (.responseHttpVersionStatusTextStart,
          { msg := m, statusCode := decimal code % 2 ^ 32 }) rest (.completed r') := by
  have begins (c : UInt8) : step memory (.responseHttpVersionStatusCodeStart, { msg := m }) c =
      if isDigit c then .more (.responseHttpVersionStatusCode,
        { msg := m, statusCode := (c.toNat - 48) % 2 ^ 32 }) else .halt .error := by
    have small : (c.toNat - 48) % 2 ^ 32 = c.toNat - 48 := by
      have := c.toNat_lt
      omega
    rw [small]
    rfl
  have goes (n : Nat) (c : UInt8) (digit : isDigit c = true) :
      step memory (.responseHttpVersionStatusCode, { msg := m, statusCode := n }) c =
        .more (.responseHttpVersionStatusCode,
          { msg := m, statusCode := (n * 10 + (c.toNat - 48)) % 2 ^ 32 }) := by
    simp only [step, digit, if_true]
    rfl
  have stops {n : Nat} (range : 100 ≤ n ∧ n ≤ 999) :
      step memory (.responseHttpVersionStatusCode, { msg := m, statusCode := n }) (ch ' ') =
        .more (.responseHttpVersionStatusTextStart, { msg := m, statusCode := n }) := by
    have inside : ¬ (n < 100 ∨ 999 < n) := by omega
    simp only [step, inside, if_false]
    rfl
  rw [exactly_digits (fun n => (State.responseHttpVersionStatusCode, { msg := m, statusCode := n }))
    (fun n => n % 2 ^ 32) _ (by simp) begins goes (fun n c => by omega)]
  constructor
  · rintro ⟨code, c, rest, rfl, digits, hc, h⟩
    by_cases range : 100 ≤ decimal code % 2 ^ 32 ∧ decimal code % 2 ^ 32 ≤ 999
    · have last : c = ch ' ' := by
        by_contra hne
        have halts : step memory (.responseHttpVersionStatusCode,
            { msg := m, statusCode := decimal code % 2 ^ 32 }) c = .halt .error := by
          simp [step, hc, hne]
        cases ((Scan.exactly_halt halts).mp h).1
      subst last
      exact ⟨code, rest, digits, range, by simp [str], (Scan.exactly_more (stops range)).mp h⟩
    · have outside : decimal code % 2 ^ 32 < 100 ∨ 999 < decimal code % 2 ^ 32 := by omega
      have halts : step memory (.responseHttpVersionStatusCode,
          { msg := m, statusCode := decimal code % 2 ^ 32 }) c = .halt .error := by
        simp only [step, hc, outside, if_true]
        rfl
      cases ((Scan.exactly_halt halts).mp h).1
  · rintro ⟨code, rest, digits, range, rfl, h⟩
    exact ⟨code, ch ' ', rest, by simp [str], digits, by decide,
      (Scan.exactly_more (stops range)).mpr h⟩

/-- The status text and its line end. -/
theorem exactly_status (m : Message) (n : Nat) : Exactly (step memory)
    (.responseHttpVersionStatusTextStart, { msg := m, statusCode := n }) x (.completed r') ↔
      ∃ c t rest, isChar c = true ∧ (∀ d ∈ t, isChar d = true ∧ d ≠ ch '\r') ∧
        x = c :: t ++ crlf ++ rest ∧
        Exactly (step memory) (.body .headerLineStart, { msg := m, statusCode := n, status := c :: t })
          rest (.completed r') := by
  have first (c : UInt8) :
      step memory (.responseHttpVersionStatusTextStart, { msg := m, statusCode := n }) c =
        if isChar c then .more
          (.responseHttpVersionStatusText, { msg := m, statusCode := n, status := [c] })
        else .halt .error := rfl
  have goes (s : Bytes) (c : UInt8) (hc : (isChar c && c != ch '\r') = true) :
      step memory (.responseHttpVersionStatusText, { msg := m, statusCode := n, status := s }) c =
        .more (.responseHttpVersionStatusText, { msg := m, statusCode := n, status := s ++ [c] }) := by
    obtain ⟨char, cr⟩ : isChar c = true ∧ c ≠ ch '\r' := by simpa using hc
    simp [step, char, cr]
  rw [Scan.exactly_collected
    (f := fun s => (State.responseHttpVersionStatusText, { msg := m, statusCode := n, status := s }))
    (by simp) first goes]
  constructor
  · rintro ⟨c, t, d, rest, char, all, hd, rfl, h₀⟩
    have last : d = ch '\r' := by
      by_contra hne
      have char : isChar d = false := by simpa [hne] using hd
      have halts : step memory
          (.responseHttpVersionStatusText, { msg := m, statusCode := n, status := c :: t }) d =
            .halt .error := by simp [step, hne, char]
      cases ((Scan.exactly_halt halts).mp h₀).1
    subst last
    obtain ⟨rest, rfl, h₁⟩ := (exactly_expect fun _ => rfl).mp ((Scan.exactly_more rfl).mp h₀)
    exact ⟨c, t, rest, char, by simpa using all, by simp [crlf, str], h₁⟩
  · rintro ⟨c, t, rest, char, all, rfl, h⟩
    refine ⟨c, t, ch '\r', ch '\n' :: rest, char, by simpa using all, by decide,
      by simp [crlf, str], ?_⟩
    exact (Scan.exactly_more rfl).mpr ((exactly_expect fun _ => rfl).mpr ⟨rest, rfl, h⟩)

/-- The shared states, inside this parser. -/
theorem exactly_body (b : BodyState) : Exactly (step memory) (.body b, r) x (.completed r') ↔
    ∃ m', Completes memory true b r.msg x m' ∧ r' = { r with msg := m' } := by
  refine exactly_inside (fun s => (State.body s.1, ({ r with msg := s.2 } : Response)))
    (fun m => ({ r with msg := m } : Response)) (fun s c => ?_)
  simp only [step, bodyScan]
  cases bodyStep memory true s.1 s.2 c with
  | more s' => rfl
  | halt h => cases h <;> rfl

/-- What the parser reads to the end is the text of a response. -/
theorem exactly_response : Exactly (step memory) init x (.completed r) ↔
    ∃ t : ResponseText, t.Proper ∧ t.Reads memory r ∧ x = t.text := by
  rw [init, exactly_version]
  simp only [exactly_code, exactly_status, exactly_body]
  constructor
  · rintro ⟨major, minor, _, hmajor, hminor, rfl, code, _, hcode, range, rfl, c, t, rest, char, all,
      rfl, m, done, rfl⟩
    obtain ⟨message, proper, rfl, reads⟩ := (completes_iff rfl rfl).mp done
    exact ⟨⟨major, minor, code, c :: t, message⟩,
      ⟨hmajor, hminor, hcode, range, ⟨c, t, rfl, char, all⟩, proper⟩, ⟨rfl, rfl, reads⟩,
      by simp [ResponseText.text]⟩
  · rintro ⟨⟨major, minor, code, status, message⟩, ⟨hmajor, hminor, hcode, range, ⟨c, t, hs, char, all⟩,
      proper⟩, ⟨hn, hs', reads⟩, rfl⟩
    subst hs
    refine ⟨major, minor, code ++ str " " ++ (c :: t ++ crlf ++ message.text), hmajor, hminor,
      by simp [ResponseText.text], code, c :: t ++ crlf ++ message.text, hcode, range, rfl,
      c, t, message.text, char, all, rfl, r.msg, ?_, ?_⟩
    · exact (completes_iff rfl rfl).mpr ⟨message, proper, rfl, reads⟩
    · cases r
      cases hn
      cases hs'
      rfl

/-- With any memory, the response parser completes on the texts of responses that fit in it,
whatever follows them, and on nothing else. -/
theorem parse_response_iff (memory : Nat) (bytes : Bytes) (r : Response) :
    parse memory bytes = .halt (.completed r) ↔
      ∃ (t : ResponseText) (left : Bytes), t.Proper ∧ t.Reads memory r ∧ bytes = t.text ++ left := by
  rw [parse, Scan.run_halt_iff_exactly]
  simp only [exactly_response]
  constructor
  · rintro ⟨_, left, rfl, t, proper, reads, rfl⟩
    exact ⟨t, left, proper, reads, rfl⟩
  · rintro ⟨t, left, proper, reads, rfl⟩
    exact ⟨t.text, left, rfl, t, proper, reads, rfl⟩

/-- A stream of responses can be taken apart in one way only. What one sender begins with
another one repeats, text by text and with the same meaning. -/
theorem responses_apart {ts us : List (ResponseText × Response)}
    (ht : ∀ p ∈ ts, p.1.Proper ∧ p.1.Reads memory p.2)
    (hu : ∀ p ∈ us, p.1.Proper ∧ p.1.Reads memory p.2)
    (begins : ts.flatMap (fun p => p.1.text) <+: us.flatMap fun p => p.1.text) :
    ts.map (fun p => (p.1.text, p.2)) <+: us.map fun p => (p.1.text, p.2) := by
  have read {ps : List (ResponseText × Response)} (h : ∀ p ∈ ps, p.1.Proper ∧ p.1.Reads memory p.2) :
      ∀ q ∈ ps.map fun p => (p.1.text, Halt.completed p.2), Exactly (step memory) init q.1 q.2 := by
    intro q hq
    obtain ⟨p, hp, rfl⟩ := List.mem_map.mp hq
    exact exactly_response.mpr ⟨p.1, (h p hp).1, (h p hp).2, rfl⟩
  have cut := Scan.Exactly.cut (read ht) (read hu) (by simpa [List.flatMap_map] using begins)
  have same (ps : List (ResponseText × Response)) :
      (ps.map fun p => (p.1.text, Halt.completed p.2)) =
        (ps.map fun p => (p.1.text, p.2)).map (Prod.map id Halt.completed) := by simp
  have injective : Function.Injective (Prod.map id Halt.completed : Bytes × Response → _) :=
    Function.injective_id.prodMap fun _ _ h => Halt.completed.inj h
  rw [same, same, List.prefix_map_iff_of_injective injective] at cut
  exact cut

/-- A response of two bytes, and the same bytes in a chunk. -/
def sizedHi : ResponseText × Response :=
  (⟨str "1", str "1", str "200", str "OK",
      ⟨[.field (str "Content-Length") (str "2")], .sized (ch '\n') (str "hi")⟩⟩,
    { msg :=
        { versionMajor := 1, versionMinor := 1, headers := [⟨str "Content-Length", str "2"⟩],
          content := str "hi", keepAlive := true }
      statusCode := 200
      status := str "OK" })

def chunkedHi : ResponseText × Response :=
  (⟨str "1", str "1", str "200", str "OK",
      ⟨[.field (str "Transfer-Encoding") (str "chunked")],
        .chunked (ch '\n') ⟨[⟨str "2", .none, str "hi"⟩], str "0", .none, []⟩⟩⟩,
    { msg :=
        { versionMajor := 1, versionMinor := 1,
          headers := [⟨str "Transfer-Encoding", str "chunked"⟩]
          content := str "hi", keepAlive := true, chunked := true }
      statusCode := 200
      status := str "OK" })

theorem proper_ok {message : MessageText} (h : message.Proper) :
    ResponseText.Proper ⟨str "1", str "1", str "200", str "OK", message⟩ := by
  have one : Digits (str "1") := by decide +kernel
  have code : Digits (str "200") ∧ decimal (str "200") % 2 ^ 32 = 200 := by decide +kernel
  refine ⟨one, one, code.1, ?_, ⟨ch 'O', str "K", rfl, by decide +kernel, by decide +kernel⟩, h⟩
  rw [ResponseText.number, code.2]
  decide

theorem sizedHi_reads : sizedHi.1.Proper ∧ sizedHi.1.Reads 2 sizedHi.2 := by
  constructor
  · exact proper_ok ⟨by decide +kernel, by decide +kernel⟩
  · exact ⟨by decide +kernel, rfl, _, rfl, ⟨rfl, by decide +kernel, rfl⟩, by decide +kernel⟩

theorem chunkedHi_reads : chunkedHi.1.Proper ∧ chunkedHi.1.Reads 2 chunkedHi.2 := by
  have body : ChunkedText.Proper ⟨[⟨str "2", .none, str "hi"⟩], str "0", .none, []⟩ := by
    refine ⟨?_, by decide +kernel, by decide +kernel, trivial, by simp⟩
    intro k hk
    obtain rfl := List.mem_singleton.mp hk
    exact ⟨by decide +kernel, trivial, by decide +kernel, by decide +kernel⟩
  constructor
  · exact proper_ok ⟨by decide +kernel, by decide +kernel⟩
  · exact ⟨by decide +kernel, rfl, _, rfl, ⟨rfl, body, by decide +kernel⟩, by decide +kernel⟩

theorem responses_apart_pair : [sizedHi, chunkedHi].map (fun p => (p.1.text, p.2)) <+:
    [sizedHi, chunkedHi, sizedHi].map fun p => (p.1.text, p.2) := by
  have reads : ∀ p ∈ [sizedHi, chunkedHi, sizedHi], p.1.Proper ∧ p.1.Reads 2 p.2 := by
    intro p hp
    rcases (by simpa using hp : p = sizedHi ∨ p = chunkedHi ∨ p = sizedHi) with rfl | rfl | rfl
    · exact sizedHi_reads
    · exact chunkedHi_reads
    · exact sizedHi_reads
  refine responses_apart (fun p hp => reads p ?_) reads ⟨sizedHi.1.text, ?_⟩
  · exact List.mem_of_mem_take (i := 2) hp
  · simp

end ResponseParser

/-! ## Requests -/

namespace RequestParser

variable {memory : Nat} {r r' : ParsedRequest} {x : Bytes}

theorem exactly_expect {st next : State} {c : Char} {r₁ : ParsedRequest}
    (h : ∀ input, step memory (st, r) input = expect input c next r₁) :
    Exactly (step memory) (st, r) x (.completed r') ↔
      ∃ rest, x = ch c :: rest ∧ Exactly (step memory) (next, r₁) rest (.completed r') :=
  Scan.exactly_expected (e := Halt.error) (by simp) h

/-- The method and the blank behind it. -/
theorem exactly_method : Exactly (step memory) init x (.completed r') ↔
    ∃ method rest, method ≠ [] ∧ (∀ c ∈ method, isToken c = true) ∧ x = method ++ str " " ++ rest ∧
      Exactly (step memory) (.requestUriStart, { method := method }) rest (.completed r') := by
  have first (c : UInt8) : step memory init c =
      if isToken c then .more (.requestMethod, { method := [c] }) else .halt .error := by
    cases token : notToken c <;> simp [init, step, isToken, token]
  have goes (s : Bytes) (c : UInt8) (hc : isToken c = true) :
      step memory (.requestMethod, { method := s }) c =
        .more (.requestMethod, { method := s ++ [c] }) := by
    have blank : c ≠ ch ' ' := by
      rintro rfl
      revert hc
      decide
    have token : notToken c = false := by simpa [isToken] using hc
    simp [step, blank, token]
  rw [Scan.exactly_collected (f := fun s => (State.requestMethod, { method := s })) (by simp) first goes]
  constructor
  · rintro ⟨c, t, d, rest, hc, all, hd, rfl, h⟩
    have last : d = ch ' ' := by
      by_contra hne
      have token : notToken d = true := by simpa [isToken] using hd
      have halts : step memory (.requestMethod, { method := c :: t }) d = .halt .error := by
        simp [step, hne, token]
      cases ((Scan.exactly_halt halts).mp h).1
    subst last
    exact ⟨c :: t, rest, by simp, List.forall_mem_cons.mpr ⟨hc, all⟩, by simp [str],
      (Scan.exactly_more rfl).mp h⟩
  · rintro ⟨method, rest, some, all, rfl, h⟩
    obtain ⟨c, t, rfl⟩ := List.exists_cons_of_ne_nil some
    obtain ⟨hc, all⟩ := List.forall_mem_cons.mp all
    exact ⟨c, t, ch ' ', rest, hc, all, by decide, by simp [str], (Scan.exactly_more rfl).mpr h⟩

/-- The URI. A carriage return behind it ends an HTTP/0.9 request. -/
theorem exactly_uri (method : Bytes) :
    Exactly (step memory) (.requestUriStart, { method := method }) x (.completed r') ↔
      ∃ c t, isPlain c = true ∧ (∀ d ∈ t, isPlain d = true ∧ d ≠ ch ' ') ∧
        (x = c :: t ++ str "\r" ∧
            r' = { msg := { versionMajor := 0, versionMinor := 9 }, method := method, uri := c :: t } ∨
          ∃ rest, x = c :: t ++ str " " ++ rest ∧ Exactly (step memory)
            (.requestHttpVersionH, { method := method, uri := c :: t }) rest (.completed r')) := by
  have first (c : UInt8) : step memory (.requestUriStart, { method := method }) c =
      if isPlain c then .more (.requestUri, { method := method, uri := [c] }) else .halt .error := by
    cases plain : isControl c <;> simp [step, isPlain, plain]
  have goes (s : Bytes) (c : UInt8) (hc : (isPlain c && c != ch ' ') = true) :
      step memory (.requestUri, { method := method, uri := s }) c =
        .more (.requestUri, { method := method, uri := s ++ [c] }) := by
    obtain ⟨plain, blank⟩ : isControl c = false ∧ c ≠ ch ' ' := by simpa [isPlain] using hc
    have cr : c ≠ ch '\r' := by
      rintro rfl
      revert plain
      decide
    simp [step, blank, cr, plain]
  rw [Scan.exactly_collected (f := fun s => (State.requestUri, { method := method, uri := s }))
    (by simp) first goes]
  constructor
  · rintro ⟨c, t, d, rest, hc, all, hd, rfl, h⟩
    refine ⟨c, t, hc, by simpa using all, ?_⟩
    by_cases blank : d = ch ' '
    · subst blank
      exact .inr ⟨rest, by simp [str], (Scan.exactly_more rfl).mp h⟩
    · by_cases cr : d = ch '\r'
      · subst cr
        obtain ⟨e, rfl⟩ := (Scan.exactly_halt rfl).mp h
        cases e
        exact .inl ⟨by simp [str], rfl⟩
      · have control : isControl d = true := by simpa [isPlain, blank] using hd
        have halts :
            step memory (.requestUri, { method := method, uri := c :: t }) d = .halt .error := by
          simp [step, blank, cr, control]
        cases ((Scan.exactly_halt halts).mp h).1
  · rintro ⟨c, t, hc, all, ⟨rfl, rfl⟩ | ⟨rest, rfl, h⟩⟩
    · exact ⟨c, t, ch '\r', [], hc, by simpa using all, by decide, by simp [str],
        (Scan.exactly_halt rfl).mpr ⟨rfl, rfl⟩⟩
    · exact ⟨c, t, ch ' ', rest, hc, by simpa using all, by decide, by simp [str],
        (Scan.exactly_more rfl).mpr h⟩

/-- The version and the line end. -/
theorem exactly_version (method uri : Bytes) :
    Exactly (step memory) (.requestHttpVersionH, { method := method, uri := uri }) x
      (.completed r') ↔
      ∃ major minor rest, Digits major ∧ Digits minor ∧
        x = versionText major minor ++ crlf ++ rest ∧
        Exactly (step memory) (.body .headerLineStart,
          { msg := versioned major minor, method := method, uri := uri }) rest (.completed r') := by
  have literal (x : Bytes) :
      Exactly (step memory) (.requestHttpVersionH, { method := method, uri := uri }) x
        (.completed r') ↔
        ∃ rest, x = str "HTTP/" ++ rest ∧ Exactly (step memory)
          (.requestHttpVersionMajorStart, { method := method, uri := uri }) rest (.completed r') := by
    constructor
    · intro h₀
      obtain ⟨_, rfl, h₁⟩ := (exactly_expect fun _ => rfl).mp h₀
      obtain ⟨_, rfl, h₂⟩ := (exactly_expect fun _ => rfl).mp h₁
      obtain ⟨_, rfl, h₃⟩ := (exactly_expect fun _ => rfl).mp h₂
      obtain ⟨_, rfl, h₄⟩ := (exactly_expect fun _ => rfl).mp h₃
      obtain ⟨rest, rfl, h₅⟩ := (exactly_expect fun _ => rfl).mp h₄
      exact ⟨rest, rfl, h₅⟩
    · rintro ⟨rest, rfl, h⟩
      refine (exactly_expect fun _ => rfl).mpr ⟨_, rfl, ?_⟩
      refine (exactly_expect fun _ => rfl).mpr ⟨_, rfl, ?_⟩
      refine (exactly_expect fun _ => rfl).mpr ⟨_, rfl, ?_⟩
      refine (exactly_expect fun _ => rfl).mpr ⟨_, rfl, ?_⟩
      exact (exactly_expect fun _ => rfl).mpr ⟨rest, rfl, h⟩
  have majors (x : Bytes) := exactly_int (step memory) (x := x)
    (.requestHttpVersionMajorStart, { method := method, uri := uri })
    (fun v => (.requestHttpVersionMajor, { msg := { versionMajor := v }, method := method, uri := uri }))
    (fun v =>
      (.requestHttpVersionMinorStart, { msg := { versionMajor := v }, method := method, uri := uri }))
    (k := ch '.') (e := .error) (r := .completed r') (by simp) (by decide)
    (fun _ => rfl) fun _ _ => rfl
  have minors (v : Int) (x : Bytes) := exactly_int (step memory) (x := x)
    (.requestHttpVersionMinorStart, { msg := { versionMajor := v }, method := method, uri := uri })
    (fun w => (.requestHttpVersionMinor,
      { msg := { versionMajor := v, versionMinor := w }, method := method, uri := uri }))
    (fun w => (.responseHttpVersionNewLine,
      { msg := { versionMajor := v, versionMinor := w }, method := method, uri := uri }))
    (k := ch '\r') (e := .error) (r := .completed r') (by simp) (by decide)
    (fun _ => rfl) fun _ _ => rfl
  simp only [literal, majors, minors]
  constructor
  · rintro ⟨_, rfl, major, _, hmajor, rfl, minor, _, hminor, rfl, h₀⟩
    obtain ⟨rest, rfl, h₁⟩ := (exactly_expect fun _ => rfl).mp h₀
    exact ⟨major, minor, rest, hmajor, hminor, by simp [versionText, crlf, str], h₁⟩
  · rintro ⟨major, minor, rest, hmajor, hminor, rfl, h⟩
    exact ⟨_, by simp [versionText, crlf, str], major, _, hmajor, rfl, minor, ch '\n' :: rest, hminor,
      rfl, (exactly_expect fun _ => rfl).mpr ⟨rest, rfl, h⟩⟩

/-- The shared states, inside this parser. -/
theorem exactly_body (b : BodyState) : Exactly (step memory) (.body b, r) x (.completed r') ↔
    ∃ m', Completes memory (framed r) b r.msg x m' ∧ r' = { r with msg := m' } := by
  refine exactly_inside (fun s => (State.body s.1, ({ r with msg := s.2 } : ParsedRequest)))
    (fun m => ({ r with msg := m } : ParsedRequest)) (fun s c => ?_)
  have same : framed { r with msg := s.2 } = framed r := rfl
  simp only [step, bodyScan, same]
  cases bodyStep memory (framed r) s.1 s.2 c with
  | more s' => rfl
  | halt h => cases h <;> rfl

/-- What the parser reads to the end is the text of a request. -/
theorem exactly_request : Exactly (step memory) init x (.completed r) ↔
    ∃ t : RequestText, t.Proper ∧ t.Reads memory r ∧ x = t.text := by
  rw [exactly_method]
  simp only [exactly_uri, exactly_version, exactly_body]
  constructor
  · rintro ⟨method, _, some, tokens, rfl, c, t, plain, all, ⟨rfl, rfl⟩ | ⟨_, rfl, major, minor, _, hmajor,
      hminor, rfl, m, done, rfl⟩⟩
    · exact ⟨.simple method (c :: t), ⟨some, tokens, c, t, rfl, plain, all⟩, rfl,
        by simp [RequestText.text]⟩
    · obtain ⟨message, proper, rfl, reads⟩ := (completes_iff rfl rfl).mp done
      exact ⟨.full method (c :: t) major minor message,
        ⟨⟨some, tokens, c, t, rfl, plain, all⟩, hmajor, hminor, proper⟩, ⟨rfl, rfl, reads⟩,
        by simp [RequestText.text]⟩
  · rintro ⟨t, proper, reads, rfl⟩
    cases t with
    | simple method uri =>
      obtain ⟨some, tokens, c, t, rfl, plain, all⟩ := proper
      exact ⟨method, c :: t ++ str "\r", some, tokens, by simp [RequestText.text], c, t, plain, all,
        .inl ⟨rfl, reads⟩⟩
    | full method uri major minor message =>
      obtain ⟨⟨some, tokens, c, t, rfl, plain, all⟩, hmajor, hminor, proper⟩ := proper
      obtain ⟨hm, hu, reads⟩ := reads
      refine ⟨method, c :: t ++ str " " ++ (versionText major minor ++ crlf ++ message.text), some,
        tokens, by simp [RequestText.text], c, t, plain, all, .inr ⟨_, rfl, major, minor, message.text,
        hmajor, hminor, rfl, r.msg, ?_, ?_⟩⟩
      · exact (completes_iff rfl rfl).mpr ⟨message, proper, rfl, reads⟩
      · cases r
        cases hm
        cases hu
        rfl

/-- With any memory, the request parser completes on the texts of requests that fit in it,
whatever follows them, and on nothing else. -/
theorem parse_request_iff (memory : Nat) (bytes : Bytes) (r : ParsedRequest) :
    parse memory bytes = .halt (.completed r) ↔
      ∃ (t : RequestText) (left : Bytes), t.Proper ∧ t.Reads memory r ∧ bytes = t.text ++ left := by
  rw [parse, Scan.run_halt_iff_exactly]
  simp only [exactly_request]
  constructor
  · rintro ⟨_, left, rfl, t, proper, reads, rfl⟩
    exact ⟨t, left, proper, reads, rfl⟩
  · rintro ⟨t, left, proper, reads, rfl⟩
    exact ⟨t.text, left, rfl, t, proper, reads, rfl⟩

end RequestParser

end HttpProxy
