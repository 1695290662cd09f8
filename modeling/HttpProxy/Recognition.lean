import HttpProxy.Reserving
import HttpProxy.Wire

/-!
# The language of the shared parser states

From the first header line on both parsers accept the texts of `MessageText` and no others,
and read them as the tree says (`completes_iff`). Each state has one equivalence: what the
parser has to read from there on.
-/

namespace HttpProxy

open Scan (Step Exactly)

/-- The shared states as a scanner of their own. -/
def bodyScan (memory : Nat) (framed : Bool) (s : BodyState × Message) (c : UInt8) :
    Step (BodyState × Message) (Halt Message) := bodyStep memory framed s.1 s.2 c

/-- From this state the parser completes at the last byte of `x`, with the message `m'`. -/
def Completes (memory : Nat) (framed : Bool) (st : BodyState) (m : Message) (x : Bytes)
    (m' : Message) : Prop :=
  Exactly (bodyScan memory framed) (st, m) x (.completed m')

section
variable {memory : Nat} {framed : Bool} {st st' : BodyState} {m m₁ m' : Message} {c : UInt8}
  {x : Bytes}

theorem not_completes_nil : ¬ Completes memory framed st m [] m' := Scan.not_exactly_nil

theorem completes_more (h : bodyStep memory framed st m c = .more (st', m₁)) :
    Completes memory framed st m (c :: x) m' ↔ Completes memory framed st' m₁ x m' :=
  Scan.exactly_more (show bodyScan memory framed (st, m) c = _ from h)

theorem completes_completed (h : bodyStep memory framed st m c = .halt (.completed m₁)) :
    Completes memory framed st m (c :: x) m' ↔ x = [] ∧ m' = m₁ := by
  have scan : bodyScan memory framed (st, m) c = _ := h
  rw [Completes, Scan.exactly_halt scan, Halt.completed.injEq]
  exact ⟨fun ⟨e, hx⟩ => ⟨hx, e.symm⟩, fun ⟨hx, e⟩ => ⟨e.symm, hx⟩⟩

theorem not_completes_error (h : bodyStep memory framed st m c = .halt .error) :
    ¬ Completes memory framed st m (c :: x) m' := by
  have scan : bodyScan memory framed (st, m) c = _ := h
  rw [Completes, Scan.exactly_halt scan]
  rintro ⟨e, _⟩
  cases e

theorem not_completes_threw {e : Exn} (h : bodyStep memory framed st m c = .halt (.threw e)) :
    ¬ Completes memory framed st m (c :: x) m' := by
  have scan : bodyScan memory framed (st, m) c = _ := h
  rw [Completes, Scan.exactly_halt scan]
  rintro ⟨e, _⟩
  cases e

/-- A state in which one byte is expected. -/
theorem completes_expected {k : UInt8} {s : BodyState}
    (step : ∀ c, bodyStep memory framed st m c = if c = k then .more (s, m₁) else .halt .error) :
    Completes memory framed st m x m' ↔
      ∃ rest, x = k :: rest ∧ Completes memory framed s m₁ rest m' :=
  Scan.exactly_expected (by simp) fun c => show bodyScan memory framed (st, m) c = _ from step c

/-- What halts the shared states halts the parser around them. -/
def Halt.map {ρ ρ' : Type} (f : ρ → ρ') : Halt ρ → Halt ρ'
  | .completed r => .completed (f r)
  | .error => .error
  | .threw e => .threw e

/-- A parser that runs the shared states inside its own ones. -/
theorem exactly_inside {τ ρ : Type} {outer : τ → UInt8 → Step τ (Halt ρ)}
    (inj : BodyState × Message → τ) (f : Message → ρ)
    (within : ∀ s a, outer (inj s) a = (bodyScan memory framed s a).map inj (Halt.map f)) {r : ρ} :
    Exactly outer (inj (st, m)) x (.completed r) ↔
      ∃ m', Completes memory framed st m x m' ∧ r = f m' := by
  rw [Scan.exactly_within inj (Halt.map f) within]
  constructor
  · rintro ⟨h, whole, e⟩
    cases h <;> cases e
    exact ⟨_, whole, rfl⟩
  · rintro ⟨m', whole, rfl⟩
    exact ⟨_, whole, rfl⟩

/-! ## Header lines -/

theorem completes_newline2 : Completes memory framed .expectingNewline2 m x m' ↔
    ∃ rest, x = ch '\n' :: rest ∧ Completes memory framed .headerLineStart m rest m' :=
  completes_expected fun _ => rfl

theorem foldl_pushName {its : List HeaderItem} {n v : Bytes} (t : Bytes)
    (h : m.headers = its ++ [⟨n, v⟩]) :
    t.foldl Message.pushName m = { m with headers := its ++ [⟨n ++ t, v⟩] } := by
  induction t generalizing m n with
  | nil => simp [← h]
  | cons c t ih =>
    have next : (m.pushName c).headers = its ++ [⟨n ++ [c], v⟩] := by
      rw [Message.pushName, h, modifyBack_append]
    rw [List.foldl_cons, ih next]
    simp [Message.pushName]

theorem modifyBack_self {α : Type} (l : List α) : modifyBack (fun a => a) l = l := by
  rcases l.eq_nil_or_concat with rfl | ⟨s, a, rfl⟩
  · rfl
  · simp

theorem modifyBack_twice {α : Type} (f g : α → α) (l : List α) :
    modifyBack f (modifyBack g l) = modifyBack (fun a => f (g a)) l := by
  rcases l.eq_nil_or_concat with rfl | ⟨s, a, rfl⟩
  · rfl
  · simp

theorem foldl_pushValue (t : Bytes) (m : Message) : t.foldl Message.pushValue m = m.extendValue t := by
  induction t generalizing m with
  | nil =>
    have same : (fun h : HeaderItem => { h with value := h.value ++ [] }) = fun h => h := by
      funext h
      rw [List.append_nil]
    rw [Message.extendValue, same, modifyBack_self]
    rfl
  | cons c t ih =>
    rw [List.foldl_cons, ih]
    simp [Message.extendValue, Message.pushValue, modifyBack_twice]

variable {its : List HeaderItem}

theorem completes_headerName {n v : Bytes}
    (h : m.headers = its ++ [⟨n, v⟩]) : Completes memory framed .headerName m x m' ↔
      ∃ t rest, (∀ c ∈ t, isToken c = true) ∧ x = t ++ ch ':' :: rest ∧
        Completes memory framed .spaceBeforeHeaderValue
          { m with headers := its ++ [⟨n ++ t, v⟩] } rest m' := by
  have stay (m : Message) (c : UInt8) (hc : isToken c = true) :
      bodyScan memory framed (.headerName, m) c = .more (.headerName, m.pushName c) := by
    have colon : c ≠ ch ':' := by
      rintro rfl
      revert hc
      decide
    have token : notToken c = false := by simpa [isToken] using hc
    simp [bodyScan, bodyStep, colon, token]
  rw [Completes, Scan.exactly_span stay]
  constructor
  · rintro ⟨t, c, rest, rfl, all, hc, done⟩
    change Completes memory framed .headerName _ _ m' at done
    have colon : c = ch ':' := by
      by_contra hne
      have token : notToken c = true := by simpa [isToken] using hc
      exact not_completes_error (by simp [bodyStep, hne, token]) done
    subst colon
    rw [foldl_pushName t h, completes_more rfl] at done
    exact ⟨t, rest, all, rfl, done⟩
  · rintro ⟨t, rest, all, rfl, done⟩
    refine ⟨t, ch ':', rest, rfl, all, by decide, ?_⟩
    change Completes memory framed .headerName _ _ m'
    rw [foldl_pushName t h, completes_more rfl]
    exact done

theorem completes_headerValue : Completes memory framed .headerValue m x m' ↔
    ∃ t m₁ rest, (∀ c ∈ t, isPlain c = true) ∧ x = t ++ crlf ++ rest ∧
      readFraming memory framed (m.extendValue t) = .ok m₁ ∧
      Completes memory framed .headerLineStart m₁ rest m' := by
  have stay (m : Message) (c : UInt8) (hc : isPlain c = true) :
      bodyScan memory framed (.headerValue, m) c = .more (.headerValue, m.pushValue c) := by
    have cr : c ≠ ch '\r' := by
      rintro rfl
      revert hc
      decide
    have plain : isControl c = false := by simpa [isPlain] using hc
    simp [bodyScan, bodyStep, cr, plain]
  rw [Completes, Scan.exactly_span stay]
  constructor
  · rintro ⟨t, c, rest, rfl, all, hc, done⟩
    change Completes memory framed .headerValue _ _ m' at done
    rw [foldl_pushValue] at done
    have cr : c = ch '\r' := by
      by_contra hne
      have control : isControl c = true := by simpa [isPlain] using hc
      exact not_completes_error (by simp [bodyStep, hne, control]) done
    subst cr
    cases hr : readFraming memory framed (m.extendValue t) with
    | error e =>
      have halts : bodyStep memory framed .headerValue (m.extendValue t) (ch '\r') =
          .halt (.threw e) := by simp [bodyStep, hr]
      exact absurd done (not_completes_threw halts)
    | ok m₁ =>
      have step : bodyStep memory framed .headerValue (m.extendValue t) (ch '\r') =
          .more (.expectingNewline2, m₁) := by simp [bodyStep, hr]
      rw [completes_more step, completes_newline2] at done
      obtain ⟨rest, rfl, done⟩ := done
      exact ⟨t, m₁, rest, all, by simp [crlf, str], hr, done⟩
  · rintro ⟨t, m₁, rest, all, rfl, hr, done⟩
    refine ⟨t, ch '\r', ch '\n' :: rest, by simp [crlf, str], all, by decide, ?_⟩
    change Completes memory framed .headerValue _ _ m'
    have step : bodyStep memory framed .headerValue (m.extendValue t) (ch '\r') =
        .more (.expectingNewline2, m₁) := by simp [bodyStep, hr]
    rw [foldl_pushValue, completes_more step, completes_newline2]
    exact ⟨rest, rfl, done⟩

theorem completes_field {n : Bytes} (h : m.headers = its ++ [⟨n, []⟩]) :
    Completes memory framed .headerName m x m' ↔
      ∃ t value m₁ rest, (∀ c ∈ t, isToken c = true) ∧ (∀ c ∈ value, isPlain c = true) ∧
        x = t ++ str ": " ++ value ++ crlf ++ rest ∧
        readFraming memory framed { m with headers := its ++ [⟨n ++ t, value⟩] } = .ok m₁ ∧
        Completes memory framed .headerLineStart m₁ rest m' := by
  have value (t v : Bytes) : ({ m with headers := its ++ [⟨n ++ t, []⟩] } : Message).extendValue v =
      { m with headers := its ++ [⟨n ++ t, v⟩] } := by simp [Message.extendValue]
  rw [completes_headerName h]
  constructor
  · rintro ⟨t, rest, ht, rfl, done⟩
    obtain ⟨rest, rfl, done⟩ := (completes_expected fun _ => rfl).mp done
    obtain ⟨v, m₁, rest, hv, rfl, hr, done⟩ := completes_headerValue.mp done
    exact ⟨t, v, m₁, rest, ht, hv, by simp [str], value t v ▸ hr, done⟩
  · rintro ⟨t, v, m₁, rest, ht, hv, rfl, hr, done⟩
    refine ⟨t, ch ' ' :: (v ++ crlf ++ rest), ht, by simp [str], ?_⟩
    apply (completes_expected fun _ => rfl).mpr
    exact ⟨v ++ crlf ++ rest, rfl,
      completes_headerValue.mpr ⟨v, m₁, rest, hv, rfl, value t v ▸ hr, done⟩⟩

/-- A state that the parser stays in, and that changes nothing. -/
theorem completes_span {p : UInt8 → Bool}
    (stay : ∀ m c, p c = true → bodyStep memory framed st m c = .more (st, m)) :
    Completes memory framed st m x m' ↔ ∃ t c rest, x = t ++ c :: rest ∧ (∀ c ∈ t, p c = true) ∧
      p c = false ∧ Completes memory framed st m (c :: rest) m' := by
  have same (t : Bytes) : t.foldl (fun m _ => m) m = m := by
    induction t with
    | nil => rfl
    | cons _ t ih => exact ih
  have scan (m : Message) (c : UInt8) (hc : p c = true) :
      bodyScan memory framed (st, m) c = .more (st, m) := stay m c hc
  rw [Completes, Scan.exactly_span scan]
  simp only [same]
  rfl

theorem completes_headerLws : Completes memory framed .headerLws m x m' ↔
    ∃ blanks value m₁ rest, (∀ c ∈ blanks, isBlank c = true) ∧ (∀ c ∈ value, isPlain c = true) ∧
      (∀ c ∈ value.head?, isBlank c = false) ∧ x = blanks ++ value ++ crlf ++ rest ∧
      (if value = [] then .ok m else readFraming memory framed (m.extendValue value)) = .ok m₁ ∧
      Completes memory framed .headerLineStart m₁ rest m' := by
  have stay (m : Message) (c : UInt8) (hc : isBlank c = true) :
      bodyStep memory framed .headerLws m c = .more (.headerLws, m) := by
    have cr : c ≠ ch '\r' := by
      rintro rfl
      revert hc
      decide
    have blank : c = ch ' ' ∨ c = ch '\t' := by simpa [isBlank] using hc
    simp [bodyStep, cr, blank]
  rw [completes_span stay]
  constructor
  · rintro ⟨blanks, c, rest, rfl, all, hc, done⟩
    have nonblank : ¬ (c = ch ' ' ∨ c = ch '\t') := by simpa [isBlank] using hc
    by_cases cr : c = ch '\r'
    · subst cr
      rw [completes_more rfl, completes_newline2] at done
      obtain ⟨rest, rfl, done⟩ := done
      exact ⟨blanks, [], m, rest, all, by simp, by simp, by simp [crlf, str], rfl, done⟩
    · cases control : isControl c with
      | true => exact absurd done (not_completes_error (by simp [bodyStep, cr, nonblank, control]))
      | false =>
        have step : bodyStep memory framed .headerLws m c = .more (.headerValue, m.pushValue c) := by
          simp [bodyStep, cr, nonblank, control]
        rw [completes_more step, completes_headerValue] at done
        obtain ⟨t, m₁, rest, ht, rfl, hr, done⟩ := done
        rw [← foldl_pushValue] at hr
        refine ⟨blanks, c :: t, m₁, rest, all, ?_, by simpa using hc, by simp, ?_, done⟩
        · exact List.forall_mem_cons.mpr ⟨by simp [isPlain, control], ht⟩
        · rw [if_neg (by simp), ← foldl_pushValue]
          exact hr
  · rintro ⟨blanks, value, m₁, rest, all, hv, first, rfl, hr, done⟩
    cases value with
    | nil =>
      cases hr
      refine ⟨blanks, ch '\r', ch '\n' :: rest, by simp [crlf, str], all, by decide, ?_⟩
      rw [completes_more rfl, completes_newline2]
      exact ⟨rest, rfl, done⟩
    | cons c t =>
      have hc : isBlank c = false := by simpa using first
      have nonblank : ¬ (c = ch ' ' ∨ c = ch '\t') := by simpa [isBlank] using hc
      obtain ⟨plain, ht⟩ := List.forall_mem_cons.mp hv
      have control : isControl c = false := by simpa [isPlain] using plain
      have cr : c ≠ ch '\r' := by
        rintro rfl
        revert control
        decide
      refine ⟨blanks, c, t ++ crlf ++ rest, by simp, all, hc, ?_⟩
      have step : bodyStep memory framed .headerLws m c = .more (.headerValue, m.pushValue c) := by
        simp [bodyStep, cr, nonblank, control]
      rw [completes_more step, completes_headerValue]
      refine ⟨t, m₁, rest, ht, rfl, ?_, done⟩
      rw [if_neg (by simp), ← foldl_pushValue] at hr
      rw [← foldl_pushValue]
      exact hr

/-- At the start of a line: the end of the header block, or a line. -/
theorem completes_line : Completes memory framed .headerLineStart m x m' ↔
    (∃ rest, x = ch '\r' :: rest ∧ Completes memory framed .expectingNewline3 m rest m') ∨
      ∃ (l : FieldLine) (m₁ : Message) (rest : Bytes), l.Proper ∧
        (m.headers = [] → l.isFold = false) ∧ x = l.text ++ rest ∧
        l.read memory framed m = .ok m₁ ∧ Completes memory framed .headerLineStart m₁ rest m' := by
  have begun (c : UInt8) (rest : Bytes) :
      Completes memory framed .headerName (m.pushHeader c) rest m' ↔
      ∃ t value m₁ rest', (∀ c ∈ t, isToken c = true) ∧ (∀ c ∈ value, isPlain c = true) ∧
        rest = t ++ str ": " ++ value ++ crlf ++ rest' ∧
        (FieldLine.field (c :: t) value).read memory framed m = .ok m₁ ∧
        Completes memory framed .headerLineStart m₁ rest' m' := by
    have last : (m.pushHeader c).headers = m.headers ++ [⟨[c], []⟩] := rfl
    exact completes_field last
  constructor
  · intro h
    cases x with
    | nil => exact absurd h not_completes_nil
    | cons c x =>
      by_cases cr : c = ch '\r'
      · subst cr
        exact .inl ⟨x, rfl, (completes_more rfl).mp h⟩
      · by_cases blank : m.headers ≠ [] ∧ (c = ch ' ' ∨ c = ch '\t')
        · have step : bodyStep memory framed .headerLineStart m c = .more (.headerLws, m) := by
            simp [bodyStep, cr, blank]
          rw [completes_more step, completes_headerLws] at h
          obtain ⟨blanks, value, m₁, rest, hb, hv, first, rfl, hr, done⟩ := h
          refine .inr ⟨.fold (c :: blanks) value, m₁, rest, ⟨by simp, ?_, hv, first⟩,
            fun none => absurd none blank.1, by simp [FieldLine.text], hr, done⟩
          exact List.forall_mem_cons.mpr ⟨by simpa [isBlank] using blank.2, hb⟩
        · cases token : notToken c with
          | true => exact absurd h (not_completes_error (by simp [bodyStep, cr, blank, token]))
          | false =>
            have step :
                bodyStep memory framed .headerLineStart m c = .more (.headerName, m.pushHeader c) := by
              simp [bodyStep, cr, blank, token]
            rw [completes_more step, begun] at h
            obtain ⟨t, value, m₁, rest, ht, hv, rfl, hr, done⟩ := h
            refine .inr ⟨.field (c :: t) value, m₁, rest, ⟨by simp, ?_, hv⟩, fun _ => rfl,
              by simp [FieldLine.text], hr, done⟩
            exact List.forall_mem_cons.mpr ⟨by simp [isToken, token], ht⟩
  · rintro (⟨rest, rfl, done⟩ | ⟨l, m₁, rest, proper, starts, rfl, hr, done⟩)
    · exact (completes_more rfl).mpr done
    · cases l with
      | field name value =>
        obtain ⟨some, ht, hv⟩ := proper
        obtain ⟨c, t, rfl⟩ := List.exists_cons_of_ne_nil some
        obtain ⟨hc, ht⟩ := List.forall_mem_cons.mp ht
        have token : notToken c = false := by simpa [isToken] using hc
        have cr : c ≠ ch '\r' := by
          rintro rfl
          revert token
          decide
        have blank : ¬ (c = ch ' ' ∨ c = ch '\t') := by
          rintro (rfl | rfl)
          all_goals
            revert token
            decide
        have step :
            bodyStep memory framed .headerLineStart m c = .more (.headerName, m.pushHeader c) := by
          simp [bodyStep, cr, blank, token]
        have text : (FieldLine.field (c :: t) value).text ++ rest =
            c :: (t ++ str ": " ++ value ++ crlf ++ rest) := by simp [FieldLine.text]
        rw [text, completes_more step, begun]
        exact ⟨t, value, m₁, rest, ht, hv, rfl, hr, done⟩
      | fold blanks value =>
        obtain ⟨some, hb, hv, first⟩ := proper
        obtain ⟨c, blanks, rfl⟩ := List.exists_cons_of_ne_nil some
        obtain ⟨hc, hb⟩ := List.forall_mem_cons.mp hb
        have blank : c = ch ' ' ∨ c = ch '\t' := by simpa [isBlank] using hc
        have cr : c ≠ ch '\r' := by
          rintro rfl
          revert hc
          decide
        have headers : m.headers ≠ [] := fun none => by cases starts none
        have step : bodyStep memory framed .headerLineStart m c = .more (.headerLws, m) := by
          simp [bodyStep, cr, blank, headers]
        have text : (FieldLine.fold (c :: blanks) value).text ++ rest =
            c :: (blanks ++ value ++ crlf ++ rest) := by simp [FieldLine.text]
        rw [text, completes_more step, completes_headerLws]
        exact ⟨blanks, value, m₁, rest, hb, hv, first, rfl, hr, done⟩

theorem headers_readFraming (h : readFraming memory framed m = .ok m₁) : m₁.headers = m.headers := by
  obtain ⟨_, _, rfl⟩ := readFraming_sets h
  rfl

/-- A line writes into the headers and the framing. -/
theorem FieldLine.read_sets {l : FieldLine} (h : l.read memory framed m = .ok m₁) :
    ∃ its n b, m₁ = { m with headers := its, contentSize := n, chunked := b } := by
  cases l with
  | field name value =>
    obtain ⟨_, _, rfl⟩ := readFraming_sets h
    exact ⟨_, _, _, rfl⟩
  | fold blanks value =>
    rw [FieldLine.read] at h
    split_ifs at h
    · cases h
      exact ⟨_, _, _, rfl⟩
    · obtain ⟨_, _, rfl⟩ := readFraming_sets h
      exact ⟨_, _, _, rfl⟩

theorem FieldLine.lines_set {lines : List FieldLine}
    (h : lines.foldlM (FieldLine.read memory framed) m = .ok m₁) :
    ∃ its n b, m₁ = { m with headers := its, contentSize := n, chunked := b } := by
  induction lines generalizing m with
  | nil =>
    cases h
    exact ⟨_, _, _, rfl⟩
  | cons l lines ih =>
    rw [List.foldlM_cons] at h
    cases hr : l.read memory framed m with
    | error e => rw [hr] at h; cases h
    | ok m₂ =>
      rw [hr] at h
      obtain ⟨_, _, _, rfl⟩ := FieldLine.read_sets hr
      obtain ⟨_, _, _, rfl⟩ := ih h
      exact ⟨_, _, _, rfl⟩

theorem headers_read {l : FieldLine} (starts : m.headers = [] → l.isFold = false)
    (h : l.read memory framed m = .ok m₁) : m₁.headers ≠ [] := by
  cases l with
  | field name value => rw [headers_readFraming h]; simp
  | fold blanks value =>
    have headers : m.headers ≠ [] := fun none => by cases starts none
    rw [FieldLine.read] at h
    split_ifs at h
    · cases h
      exact headers
    · rw [headers_readFraming h, Message.extendValue]
      rcases m.headers.eq_nil_or_concat with hn | ⟨s, a, hs⟩
      · exact absurd hn headers
      · simp [hs]

theorem FieldLine.text_length (l : FieldLine) : 0 < l.text.length := by
  have some : l.text ≠ [] := by cases l <;> simp [FieldLine.text, crlf, str]
  exact List.length_pos_iff.mpr some

/-- The lines of the header block, and what is behind them. -/
theorem completes_lines : Completes memory framed .headerLineStart m x m' ↔
    ∃ (lines : List FieldLine) (head : Message) (rest : Bytes), (∀ l ∈ lines, l.Proper) ∧
      (m.headers = [] → ∀ l ∈ lines.head?, l.isFold = false) ∧
      x = lines.flatMap FieldLine.text ++ ch '\r' :: rest ∧
      lines.foldlM (FieldLine.read memory framed) m = .ok head ∧
      Completes memory framed .expectingNewline3 head rest m' := by
  constructor
  · intro h
    induction hn : x.length using Nat.strongRecOn generalizing x m with
    | _ n ih =>
      rcases completes_line.mp h with ⟨rest, rfl, done⟩ | ⟨l, m₁, rest, proper, starts, rfl, hr, done⟩
      · exact ⟨[], m, rest, by simp, by simp, rfl, rfl, done⟩
      · have shorter : rest.length < n := by
          have := l.text_length
          rw [← hn, List.length_append]
          omega
        obtain ⟨lines, head, rest', all, _, rfl, hrs, done⟩ := ih rest.length shorter done rfl
        refine ⟨l :: lines, head, rest', List.forall_mem_cons.mpr ⟨proper, all⟩, ?_, by simp, ?_, done⟩
        · intro none l' hl'
          cases hl'
          exact starts none
        · rw [List.foldlM_cons, hr]
          exact hrs
  · rintro ⟨lines, head, rest, all, starts, rfl, hrs, done⟩
    induction lines generalizing m with
    | nil =>
      cases hrs
      exact completes_line.mpr (.inl ⟨rest, rfl, done⟩)
    | cons l lines ih =>
      obtain ⟨proper, all⟩ := List.forall_mem_cons.mp all
      have first : m.headers = [] → l.isFold = false := fun none => starts none l rfl
      rw [List.foldlM_cons] at hrs
      cases hr : l.read memory framed m with
      | error e => rw [hr] at hrs; cases hrs
      | ok m₁ =>
        rw [hr] at hrs
        have done := ih all (fun none => absurd none (headers_read first hr)) hrs
        exact completes_line.mpr (.inr ⟨l, m₁, _, proper, first, by simp, hr, done⟩)

end

end HttpProxy
