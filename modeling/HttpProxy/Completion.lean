import HttpProxy.Base.Fold
import HttpProxy.Framing
import HttpProxy.ResponseParser

/-!
# What the response parser has read

`ReadsBody` says for each state of the parser which text it has read so far. It holds as
long as the parser is no more lenient than HTTP (`Proper`), and when the parser completes
it has read a header block and the body that its own account of the headers delimits.
-/

namespace HttpProxy

open Scan (Step)

/-! ## Numbers -/

theorem alnum_of_digit {base : Nat} {c : UInt8} (h : (digitVal base c).isSome = true) :
    isAlnum c = true := by
  unfold digitVal at h
  unfold isAlnum
  cases hd : isDigit c with
  | true => simp
  | false =>
    cases ha : isAlpha c with
    | true => simp
    | false => simp [hd, ha] at h

theorem skipHexMark_unmarked {base : Nat} {t : Bytes} (h : ∀ c ∈ t, toLower c ≠ ch 'x' ∨ base ≠ 16) :
    skipHexMark base t = t := by
  unfold skipHexMark
  split
  · next a b c s =>
    split_ifs with hx
    · obtain ⟨h16, _, hb, _⟩ := hx
      rcases h b (by simp) with hne | hne
      · exact absurd hb hne
      · exact absurd h16 hne
    · rfl
  · rfl

theorem leadingDigits_append {base : Nat} {w : Bytes} (hw : leadingDigits base w = []) (t : Bytes)
    (ht : ∀ c ∈ t, (digitVal base c).isSome = true) :
    leadingDigits base (t ++ w) = leadingDigits base t := by
  induction t with
  | nil => exact hw
  | cons c t ih =>
    obtain ⟨d, hd⟩ := Option.isSome_iff_exists.mp (ht c List.mem_cons_self)
    simp only [List.cons_append, leadingDigits, hd, ih fun c hc => ht c (List.mem_cons_of_mem _ hc)]

/-- The C library reads a numeral with blanks behind it as its number. -/
theorem numeral_append {base : Nat} {t w : Bytes} {n : Nat} (h : Numeral base t n)
    (hw : ∀ c ∈ w, isSpace c = true) : numeral base (t ++ w) = some (n : Int) := by
  obtain ⟨hne, digits, rfl⟩ := h
  have alnum (c : UInt8) (hc : c ∈ t) : isAlnum c = true := alnum_of_digit (digits c hc)
  have unlike : ∀ c, isAlnum c = true → isSpace c = false ∧ c ≠ ch '-' ∧ c ≠ ch '+' :=
    forall_byte (by decide +kernel)
  have letter : ∀ c, isSpace c = true → isAlnum c = false ∧ toLower c ≠ ch 'x' :=
    forall_byte (by decide +kernel)
  have mark : ∀ c, (digitVal 16 c).isSome = true → toLower c ≠ ch 'x' :=
    forall_byte (by decide +kernel)
  have behind : leadingDigits base w = [] := by
    cases w with
    | nil => rfl
    | cons c w =>
      cases hd : digitVal base c with
      | none => rw [leadingDigits, hd]
      | some d =>
        have := alnum_of_digit (show (digitVal base c).isSome = true by rw [hd]; rfl)
        rw [(letter c (hw c List.mem_cons_self)).1] at this
        cases this
  have unmarked : ∀ c ∈ t ++ w, toLower c ≠ ch 'x' ∨ base ≠ 16 := by
    intro c hc
    rcases List.mem_append.mp hc with hc | hc
    · by_cases h16 : base = 16
      · exact .inl (mark c (h16 ▸ digits c hc))
      · exact .inr h16
    · exact .inl (letter c (hw c hc)).2
  have first := leadingDigits_append behind t digits
  cases t with
  | nil => exact absurd rfl hne
  | cons c t =>
    obtain ⟨blank, minus, plus⟩ := unlike c (alnum c List.mem_cons_self)
    have whole : splitSign ((c :: t ++ w).dropWhile isSpace) = (false, c :: t ++ w) := by
      rw [List.cons_append, List.dropWhile_cons_of_neg (by simp [blank]), splitSign, if_neg minus,
        if_neg plus]
    obtain ⟨d, hd⟩ := Option.isSome_iff_exists.mp (digits c List.mem_cons_self)
    rw [numeral, whole]
    dsimp only
    rw [skipHexMark_unmarked unmarked, first, leadingDigits, hd]
    rfl

theorem numeral_trim {base : Nat} {t : Bytes} {n : Nat} (h : Numeral base (trim t) n) :
    numeral base t = some (n : Int) := by
  have read := numeral_append h (w := (t.dropWhile isSpace).rtakeWhile isSpace)
    fun c hc => List.mem_rtakeWhile_imp hc
  rw [trim, List.rdropWhile_append_rtakeWhile] at read
  rw [← read, numeral, numeral, List.dropWhile_idempotent]

theorem strtol_numeral {base : Nat} {t : Bytes} {n : Nat} (h : Numeral base t n) (hn : n ≤ maxSize) :
    toSizeT (strtol base t) = n := by
  have read := numeral_append h (w := []) (by simp)
  unfold maxSize at hn
  rw [strtol, ← List.append_nil t, read]
  unfold toSizeT
  dsimp only
  omega

theorem atoi_numeral {t : Bytes} {n : Nat} (h : Numeral 10 (trim t) n) (hn : n < 2 ^ 31) :
    toSizeT (atoi t) = n := by
  rw [atoi, strtol, numeral_trim h]
  unfold toInt32 toSizeT
  dsimp only
  have saturated : max (-2 ^ 63 : Int) (min (n : Int) (2 ^ 63 - 1)) = n := by omega
  rw [saturated, Int.bmod_eq_of_le (by omega) (by omega)]
  omega

/-! ## The states of the parser -/

/-- The number of body bytes that the last Content-Length announces, as the parser reads it. -/
def announced (its : List HeaderItem) : Nat :=
  match (its.filter isContentLength).getLast? with
  | none => 0
  | some it => toSizeT (atoi it.value)

theorem announced_snoc (its : List HeaderItem) (it : HeaderItem) :
    announced (its ++ [it]) =
      if isContentLength it = true then toSizeT (atoi it.value) else announced its := by
  unfold announced
  rw [List.filter_append]
  split_ifs with h
  · simp [h]
  · simp [h]

/-- The parser's own account agrees with its headers, and no chunk size is begun. -/
structure Sized (m : Message) (its : List HeaderItem) : Prop where
  size : m.contentSize = announced its
  cleared : m.chunkSizeStr = []

/-- The name of the last header is being read. -/
def Named (m : Message) (x : Bytes) : Prop :=
  ∃ its name before, m.headers = its ++ [⟨name, []⟩] ∧ Sized m its ∧ Lined its before ∧
    Inline name ∧ ch ':' ∉ name ∧ x = before ++ name

/-- The value of the last header is being read. -/
def Valued (m : Message) (x : Bytes) : Prop :=
  ∃ its it before text, m.headers = its ++ [it] ∧ Lined its before ∧ HeaderText it text ∧
    x = before ++ text

/-- While a value is read, the account does not have to know it yet. -/
structure Pending (m : Message) : Prop where
  size : ∀ its it, m.headers = its ++ [it] → isContentLength it = false →
    m.contentSize = announced its
  cleared : m.chunkSizeStr = []

/-- The header block and chunks with data. -/
def Chunked (m : Message) (x : Bytes) : Prop :=
  m.chunked = true ∧ ∃ head done, Head m.headers head ∧ Chunks done ∧ x = head ++ done

/-- Behind them the start of a size line. -/
def SizeBegun (m : Message) (tail x : Bytes) : Prop :=
  ∃ y, Chunked m y ∧ (∀ c ∈ m.chunkSizeStr, isHex c = true) ∧ x = y ++ m.chunkSizeStr ++ tail

/-- The header block and the chunks, the last one with its trailers. -/
def Ended (m : Message) (x : Bytes) : Prop :=
  m.chunkSizeStr = [] ∧ ∃ y line trailers, Chunked m y ∧ SizeLine 0 line ∧ Trailers trailers ∧
    x = y ++ line ++ trailers

/-- A chunk with some of its data, `left` bytes of which are to come. -/
def ChunkBegun (m : Message) (left : Nat) (x : Bytes) : Prop :=
  m.chunkSizeStr = [] ∧ ∃ y line data, Chunked m y ∧ SizeLine (data.length + left) line ∧
    x = y ++ line ++ data

/-- What the parser has read when it is in this state. -/
def ReadsBody : BodyState → Message → Bytes → Prop
  | .headerLineStart, m, x => Sized m m.headers ∧ Lined m.headers x
  | .headerLws, m, x => Sized m m.headers ∧ ∃ y blanks, Valued m y ∧ blanks ≠ [] ∧
      (∀ c ∈ blanks, c = ch ' ' ∨ c = ch '\t') ∧ x = y ++ crlf ++ blanks
  | .headerName, m, x => Named m x
  | .spaceBeforeHeaderValue, m, x => ∃ y, Named m y ∧ x = y ++ str ":"
  | .headerValue, m, x => Pending m ∧ Valued m x
  | .expectingNewline2, m, x => Sized m m.headers ∧ ∃ y, Valued m y ∧ x = y ++ str "\r"
  | .expectingNewline3, m, x => Sized m m.headers ∧ ∃ y, Lined m.headers y ∧ x = y ++ str "\r"
  | .post, m, x => m.chunked = false ∧ 0 < m.contentSize ∧ ∃ head body, Head m.headers head ∧
      body.length + m.contentSize = announced m.headers ∧ x = head ++ body
  | .chunkSize, m, x => SizeBegun m [] x
  | .chunkExtensionName, m, x => m.chunkSizeStr ≠ [] ∧ ∃ tail, Inline tail ∧
      tail.head? = some (ch ';') ∧ SizeBegun m tail x
  | .chunkExtensionValue, m, x => m.chunkSizeStr ≠ [] ∧ ∃ tail, Inline tail ∧
      tail.head? = some (ch ';') ∧ SizeBegun m tail x
  | .chunkSizeNewLine, m, x =>
      (m.chunkSizeStr ≠ [] ∧ ∃ tail y, Extension tail ∧ SizeBegun m tail y ∧ x = y ++ str "\r") ∨
        ∃ y name value, Ended m y ∧ Inline name ∧ Inline value ∧
          x = y ++ name ++ str ":" ++ value ++ str "\r"
  | .chunkSizeNewLine2, m, x => Ended m x
  | .chunkSizeNewLine3, m, x => ∃ y, Ended m y ∧ x = y ++ str "\r"
  | .chunkTrailerName, m, x => ∃ y name, Ended m y ∧ Inline name ∧ x = y ++ name
  | .chunkTrailerValue, m, x => ∃ y name value, Ended m y ∧ Inline name ∧ Inline value ∧
      x = y ++ name ++ str ":" ++ value
  | .chunkData, m, x => 0 < m.chunkSize ∧ ChunkBegun m m.chunkSize x
  | .chunkDataNewLine1, m, x => ∃ y line data, m.chunkSizeStr = [] ∧ Chunked m y ∧
      SizeLine data.length line ∧ data ≠ [] ∧ x = y ++ line ++ data
  | .chunkDataNewLine2, m, x => ∃ y line data, m.chunkSizeStr = [] ∧ Chunked m y ∧
      SizeLine data.length line ∧ data ≠ [] ∧ x = y ++ line ++ data ++ str "\r"

/-- What the parser has read when it completes. -/
def Completed (m : Message) (x : Bytes) : Prop :=
  ∃ head body, x = head ++ body ∧ Head m.headers head ∧
    (m.chunked = true → ChunkedBody body) ∧ (m.chunked = false → body.length = announced m.headers)

/-- The bytes that the parser takes in this state and HTTP does not allow: anything for
the newline behind the header block, and a chunk size that is empty, or holds more than
hexadecimal digits, or is too large for a vector. -/
def BodyProper (st : BodyState) (m : Message) (c : UInt8) : Prop :=
  match st with
  | .expectingNewline3 => c = ch '\n'
  | .chunkSize => (isAlnum c = true → isHex c = true) ∧ (m.chunkSizeStr = [] → isAlnum c = true)
  | .chunkSizeNewLine => digitsValue 16 (leadingDigits 16 m.chunkSizeStr) ≤ maxSize
  | _ => True

instance (st : BodyState) (m : Message) (c : UInt8) : Decidable (BodyProper st m c) := by
  cases st
  case expectingNewline3 => exact inferInstanceAs (Decidable (c = _))
  case chunkSize => exact inferInstanceAs (Decidable (_ ∧ _))
  case chunkSizeNewLine => exact inferInstanceAs (Decidable (_ ≤ maxSize))
  all_goals exact isTrue trivial

/-- Where a byte leads. -/
def BodyLeads (x : Bytes) : Step (BodyState × Message) (Halt Message) → Prop
  | .more (st, m) => ReadsBody st m x
  | .halt (.completed m) => Completed m x
  | .halt _ => True

/-! ## The header block -/

theorem inline_of {p : UInt8 → Bool} {c : UInt8} (h : p c = true) (hr : p (ch '\r') = false)
    (hl : p (ch '\n') = false) : Inline [c] := by
  constructor
  · intro hm
    rw [← List.mem_singleton.mp hm, hr] at h
    cases h
  · intro hm
    rw [← List.mem_singleton.mp hm, hl] at h
    cases h

theorem Inline.append {t t' : Bytes} (h : Inline t) (h' : Inline t') : Inline (t ++ t') := by
  constructor
  · intro hm
    rcases List.mem_append.mp hm with hm | hm
    · exact h.1 hm
    · exact h'.1 hm
  · intro hm
    rcases List.mem_append.mp hm with hm | hm
    · exact h.2 hm
    · exact h'.2 hm

theorem Sized.pending {m : Message} (h : Sized m m.headers) : Pending m := by
  constructor
  · intro its it hs hc
    rw [h.size, hs, announced_snoc, hc, if_neg Bool.false_ne_true]
  · exact h.cleared

/-- The last of some header lines can be gone on with. -/
theorem Lined.reopen {m : Message} {x : Bytes} (h : Lined m.headers x) (hne : m.headers ≠ []) :
    ∃ y, Valued m y ∧ x = y ++ crlf := by
  obtain ⟨start, lines, hbegin, hstart, hlines, rfl⟩ := h
  generalize hs : m.headers = its at hlines hne
  cases hlines with
  | nil => exact absurd rfl hne
  | @snoc its it before text hbefore line =>
    refine ⟨start ++ crlf ++ before ++ text, ?_, by simp⟩
    exact ⟨its, it, start ++ crlf ++ before, text, hs, ⟨start, before, hbegin, hstart, hbefore, rfl⟩,
      line, rfl⟩

theorem Valued.lined {m : Message} {x : Bytes} (h : Valued m x) : Lined m.headers (x ++ crlf) := by
  obtain ⟨its, it, before, text, hs, ⟨start, lines, hbegin, hstart, hlines, rfl⟩, line, rfl⟩ := h
  rw [hs]
  exact ⟨start, lines ++ text ++ crlf, hbegin, hstart, hlines.snoc line, by simp⟩

theorem Valued.fold {m : Message} {x blanks : Bytes} (h : Valued m x) (hne : blanks ≠ [])
    (hb : ∀ c ∈ blanks, c = ch ' ' ∨ c = ch '\t') : Valued m (x ++ crlf ++ blanks) := by
  obtain ⟨its, it, before, text, hs, lined, ⟨hin, hcolon, value, spells, rfl⟩, rfl⟩ := h
  exact ⟨its, it, before, _, hs, lined, ⟨hin, hcolon, _, spells.fold hne hb, rfl⟩, by simp⟩

theorem Valued.pushValue {m : Message} {x : Bytes} {c : UInt8} (h : Valued m x)
    (hc : Inline [c]) : Valued (m.pushValue c) (x ++ [c]) := by
  obtain ⟨its, it, before, text, hs, lined, ⟨hin, hcolon, value, spells, rfl⟩, rfl⟩ := h
  refine ⟨its, { it with value := it.value ++ [c] }, before, _, ?_, lined,
    ⟨hin, hcolon, _, spells.char hc, rfl⟩, by simp⟩
  rw [Message.pushValue, hs, modifyBack_append]

theorem Pending.pushValue {m : Message} (h : Pending m) (c : UInt8) : Pending (m.pushValue c) := by
  constructor
  · intro its it hs hc
    rcases List.eq_nil_or_concat m.headers with hnil | ⟨its', it', hm⟩
    · rw [Message.pushValue, hnil] at hs
      simp [modifyBack] at hs
    · rw [List.concat_eq_append] at hm
      have same : its' = its ∧ ({ it' with value := it'.value ++ [c] } : HeaderItem) = it := by
        rw [Message.pushValue, hm, modifyBack_append] at hs
        simpa using hs
      obtain ⟨rfl, rfl⟩ := same
      exact h.size its' it' hm hc
  · exact h.cleared

/-- At the end of a header line the parser takes note of the framing. -/
theorem readFraming_sized {memory : Nat} {m m' : Message} {x : Bytes} (hp : Pending m)
    (hv : Valued m x) (h : readFraming memory true m = .ok m') : Sized m' m'.headers ∧ Valued m' x := by
  obtain ⟨its, it, before, text, hs, rest⟩ := hv
  have last : m.headers.getLast? = some it := by rw [hs]; simp
  have valued (e : m'.headers = m.headers) : Valued m' x := ⟨its, it, before, text, e.trans hs, rest⟩
  rw [readFraming, last] at h
  by_cases hc : isContentLength it = true
  · have named : strcasecmpEq it.name (str "Content-Length") = true := hc
    simp only [named, Bool.not_true, Bool.false_eq_true, if_false, if_true] at h
    obtain ⟨_, _, h⟩ := Fold.bind_ok h
    cases h
    refine ⟨⟨?_, hp.cleared⟩, valued rfl⟩
    rw [hs, announced_snoc, if_pos hc]
  · have other : isContentLength it = false := by simpa using hc
    have named : strcasecmpEq it.name (str "Content-Length") = false := other
    have size := hp.size its it hs other
    simp only [named, Bool.not_true, Bool.false_eq_true, if_false] at h
    split_ifs at h <;> cases h
    all_goals
      refine ⟨⟨?_, hp.cleared⟩, valued rfl⟩
      rw [hs, announced_snoc, if_neg hc]
      exact size

section
variable {memory : Nat} {m : Message} {x : Bytes} {c : UInt8}

theorem reads_headerLineStart (h : ReadsBody .headerLineStart m x) :
    BodyLeads (x ++ [c]) (bodyStep memory true .headerLineStart m c) := by
  obtain ⟨sized, lined⟩ := h
  simp only [bodyStep]
  split_ifs with hr hblank htoken
  · rw [hr]
    exact ⟨sized, x, lined, rfl⟩
  · simp only [Bool.and_eq_true, Bool.not_eq_true', Bool.or_eq_true, decide_eq_true_eq] at hblank
    obtain ⟨y, valued, rfl⟩ := lined.reopen (by simpa using hblank.1)
    exact ⟨sized, y, [c], valued, by simp, by simpa using hblank.2, rfl⟩
  · trivial
  · have token : notToken c = false := by simpa using htoken
    refine ⟨m.headers, [c], x, rfl, ⟨sized.size, sized.cleared⟩, lined, ?_, ?_, rfl⟩
    · exact inline_of (p := fun c => !notToken c) (by simp [token]) (by decide) (by decide)
    · intro hm
      rw [← List.mem_singleton.mp hm] at token
      exact absurd token (by decide)

theorem reads_headerName (h : ReadsBody .headerName m x) :
    BodyLeads (x ++ [c]) (bodyStep memory true .headerName m c) := by
  simp only [bodyStep]
  split_ifs with hcolon htoken
  · rw [hcolon]
    exact ⟨x, h, rfl⟩
  · trivial
  · have token : notToken c = false := by simpa using htoken
    obtain ⟨its, name, before, hs, sized, lined, hin, hname, rfl⟩ := h
    refine ⟨its, name ++ [c], before, ?_, ⟨sized.size, sized.cleared⟩, lined, hin.append ?_, ?_,
      by simp⟩
    · rw [Message.pushName, hs, modifyBack_append]
    · exact inline_of (p := fun c => !notToken c) (by simp [token]) (by decide) (by decide)
    · intro hm
      rcases List.mem_append.mp hm with hm | hm
      · exact hname hm
      · exact hcolon (List.mem_singleton.mp hm).symm

theorem reads_spaceBeforeHeaderValue (h : ReadsBody .spaceBeforeHeaderValue m x) :
    BodyLeads (x ++ [c]) (bodyStep memory true .spaceBeforeHeaderValue m c) := by
  simp only [bodyStep]
  split_ifs with hspace
  · obtain ⟨y, ⟨its, name, before, hs, sized, lined, hin, hname, rfl⟩, rfl⟩ := h
    refine ⟨⟨?_, sized.cleared⟩, its, ⟨name, []⟩, before, name ++ str ": ", hs, lined,
      ⟨hin, hname, [], .nil, by simp⟩, ?_⟩
    · intro its' it hs' _
      rw [hs] at hs'
      rw [sized.size, (List.append_inj' hs' rfl).1]
    · rw [hspace]
      simp [str]
  · trivial

theorem reads_headerValue (h : ReadsBody .headerValue m x) :
    BodyLeads (x ++ [c]) (bodyStep memory true .headerValue m c) := by
  obtain ⟨pending, valued⟩ := h
  simp only [bodyStep]
  split_ifs with hr hcontrol
  · cases hf : readFraming memory true m with
    | error e => trivial
    | ok m' =>
      obtain ⟨sized, valued'⟩ := readFraming_sized pending valued hf
      rw [hr]
      exact ⟨sized, x, valued', rfl⟩
  · trivial
  · have plain : isControl c = false := by simpa using hcontrol
    exact ⟨pending.pushValue c, valued.pushValue (inline_of (p := fun c => !isControl c)
      (by simp [plain]) (by decide) (by decide))⟩

theorem reads_expectingNewline2 (h : ReadsBody .expectingNewline2 m x) :
    BodyLeads (x ++ [c]) (bodyStep memory true .expectingNewline2 m c) := by
  simp only [bodyStep]
  split_ifs with hn
  · obtain ⟨sized, y, valued, rfl⟩ := h
    rw [hn]
    refine ⟨sized, ?_⟩
    have lined := valued.lined
    simpa [crlf, str] using lined
  · trivial

theorem reads_headerLws (h : ReadsBody .headerLws m x) :
    BodyLeads (x ++ [c]) (bodyStep memory true .headerLws m c) := by
  obtain ⟨sized, y, blanks, valued, hne, hb, rfl⟩ := h
  have folded := valued.fold hne hb
  simp only [bodyStep]
  split_ifs with hr hblank hcontrol
  · rw [hr]
    exact ⟨sized, _, folded, rfl⟩
  · simp only [Bool.or_eq_true, decide_eq_true_eq] at hblank
    refine ⟨sized, y, blanks ++ [c], valued, by simp, ?_, by simp⟩
    intro d hd
    rcases List.mem_append.mp hd with hd | hd
    · exact hb d hd
    · rw [List.mem_singleton.mp hd]
      exact hblank
  · trivial
  · have plain : isControl c = false := by simpa using hcontrol
    exact ⟨sized.pending.pushValue c, folded.pushValue (inline_of (p := fun c => !isControl c)
      (by simp [plain]) (by decide) (by decide))⟩

end

/-! ## The body -/

section
variable (m : Message)

theorem setKeepAlive_same : (setKeepAlive m).headers = m.headers ∧
    (setKeepAlive m).contentSize = m.contentSize ∧ (setKeepAlive m).chunked = m.chunked ∧
    (setKeepAlive m).chunkSizeStr = m.chunkSizeStr := by
  unfold setKeepAlive
  split
  · exact ⟨rfl, rfl, rfl, rfl⟩
  · split_ifs <;> exact ⟨rfl, rfl, rfl, rfl⟩

end

section
variable {memory : Nat} {m : Message} {x : Bytes} {c : UInt8}

theorem reads_expectingNewline3 (h : ReadsBody .expectingNewline3 m x) (hp : c = ch '\n') :
    BodyLeads (x ++ [c]) (bodyStep memory true .expectingNewline3 m c) := by
  obtain ⟨sized, y, lined, rfl⟩ := h
  obtain ⟨hheaders, hsize, hchunked, hcleared⟩ := setKeepAlive_same m
  have head : Head (setKeepAlive m).headers (y ++ str "\r" ++ [c]) :=
    ⟨y, hheaders ▸ lined, by rw [hp]; simp [crlf, str]⟩
  have total := sized.size
  rw [← hsize, ← hheaders] at total
  simp only [bodyStep]
  split_ifs with hc h0
  · refine ⟨_, ⟨hc, _, [], head, .nil, rfl⟩, ?_, ?_⟩
    · rw [hcleared, sized.cleared]
      simp
    · rw [hcleared, sized.cleared]
      simp
  · have unmarked : (setKeepAlive m).chunked = false := by simpa using hc
    refine ⟨_, [], (List.append_nil _).symm, head, fun hm => absurd hm hc, fun _ => ?_⟩
    rw [← total, h0]
    rfl
  · refine ⟨by simpa using hc, by omega, _, [], head, ?_, (List.append_nil _).symm⟩
    simpa using total

theorem reads_post (h : ReadsBody .post m x) :
    BodyLeads (x ++ [c]) (bodyStep memory true .post m c) := by
  obtain ⟨unmarked, hpos, head, body, hhead, total, rfl⟩ := h
  simp only [bodyStep]
  split_ifs with h0
  · refine ⟨head, body ++ [c], by simp, hhead, fun hm => ?_, fun _ => ?_⟩
    · have marked : m.chunked = true := hm
      rw [unmarked] at marked
      cases marked
    · change (body ++ [c]).length = announced m.headers
      rw [List.length_append, List.length_singleton]
      omega
  · refine ⟨unmarked, Nat.pos_of_ne_zero h0, head, body ++ [c], hhead, ?_, by simp⟩
    change (body ++ [c]).length + (m.contentSize - 1) = announced m.headers
    rw [List.length_append, List.length_singleton]
    omega

theorem reads_chunkSize (h : ReadsBody .chunkSize m x) (hp : BodyProper .chunkSize m c) :
    BodyLeads (x ++ [c]) (bodyStep memory true .chunkSize m c) := by
  obtain ⟨y, chunked, hex, rfl⟩ := h
  have sized (hc : isAlnum c = false) : m.chunkSizeStr ≠ [] := by
    intro hnil
    rw [hp.2 hnil] at hc
    cases hc
  simp only [bodyStep]
  split_ifs with halnum htail hr
  · refine ⟨y, chunked, ?_, by simp⟩
    intro d hd
    rcases List.mem_append.mp hd with hd | hd
    · exact hex d hd
    · rw [List.mem_singleton.mp hd]
      exact hp.1 halnum
  · refine ⟨sized (by rw [htail]; decide), [c], inline_of (p := (· == c)) (by simp) ?_ ?_, ?_, y,
      chunked, hex, by simp⟩
    · rw [htail]; decide
    · rw [htail]; decide
    · rw [htail]; rfl
  · refine .inl ⟨sized (by rw [hr]; decide), [], _, .inl rfl, ⟨y, chunked, hex, rfl⟩, ?_⟩
    rw [hr]
    rfl
  · trivial

/-- A text that begins an extension stays one. -/
theorem head?_append {tail : Bytes} (h : tail.head? = some (ch ';')) (t : Bytes) :
    (tail ++ t).head? = some (ch ';') := by
  rw [List.head?_append, h]
  rfl

theorem SizeBegun.append {tail : Bytes} (h : SizeBegun m tail x) (c : UInt8) :
    SizeBegun m (tail ++ [c]) (x ++ [c]) := by
  obtain ⟨y, chunked, hex, rfl⟩ := h
  exact ⟨y, chunked, hex, by simp⟩

theorem inline_plain (h : (isAlnum c || c = ch ' ') = true) : Inline [c] :=
  inline_of (p := fun c => isAlnum c || c = ch ' ') h (by decide) (by decide)

theorem reads_chunkExtension {tail : Bytes} (hs : m.chunkSizeStr ≠ []) (hin : Inline tail)
    (hhead : tail.head? = some (ch ';')) (h : SizeBegun m tail x) :
    (Inline [c] → m.chunkSizeStr ≠ [] ∧ ∃ tail, Inline tail ∧ tail.head? = some (ch ';') ∧
      SizeBegun m tail (x ++ [c])) ∧
    (c = ch '\r' → ReadsBody .chunkSizeNewLine m (x ++ [c])) := by
  constructor
  · intro hc
    exact ⟨hs, tail ++ [c], hin.append hc, head?_append hhead [c], h.append c⟩
  · intro hr
    rw [hr]
    exact .inl ⟨hs, tail, x, .inr ⟨hin, hhead⟩, h, rfl⟩

theorem reads_chunkExtensionName (h : ReadsBody .chunkExtensionName m x) :
    BodyLeads (x ++ [c]) (bodyStep memory true .chunkExtensionName m c) := by
  obtain ⟨hs, tail, hin, hhead, hbegun⟩ := h
  have next := reads_chunkExtension (c := c) hs hin hhead hbegun
  simp only [bodyStep]
  split_ifs with hc heq hr
  · exact next.1 (inline_plain hc)
  · exact next.1 (inline_of (p := (· == ch '=')) (by simp [heq]) (by decide) (by decide))
  · exact next.2 hr
  · trivial

theorem reads_chunkExtensionValue (h : ReadsBody .chunkExtensionValue m x) :
    BodyLeads (x ++ [c]) (bodyStep memory true .chunkExtensionValue m c) := by
  obtain ⟨hs, tail, hin, hhead, hbegun⟩ := h
  have next := reads_chunkExtension (c := c) hs hin hhead hbegun
  simp only [bodyStep]
  split_ifs with hc hr
  · exact next.1 (inline_plain hc)
  · exact next.2 hr
  · trivial

/-- The size line ends: the chunk's data begins, or the chunk is the last one. -/
theorem reads_chunkSizeNewLine (h : ReadsBody .chunkSizeNewLine m x)
    (hp : BodyProper .chunkSizeNewLine m c) :
    BodyLeads (x ++ [c]) (bodyStep memory true .chunkSizeNewLine m c) := by
  simp only [bodyStep]
  split_ifs with hn
  · cases hr : readChunkSize memory m with
    | error e => trivial
    | ok m' =>
      obtain ⟨_, _, hr⟩ := Fold.bind_ok hr
      cases hr
      dsimp only
      rcases h with ⟨hs, tail, y, htail, ⟨before, chunked, hex, rfl⟩, rfl⟩ |
          ⟨y, name, value, ⟨hs, before, line, trailers, chunked, hline, ht, rfl⟩, hname, hvalue, rfl⟩
      · have read := strtol_numeral ⟨hs, hex, rfl⟩ hp
        have line : SizeLine (toSizeT (strtol 16 m.chunkSizeStr)) (m.chunkSizeStr ++ tail ++ crlf) :=
          ⟨m.chunkSizeStr, tail, ⟨hs, hex, read.symm⟩, htail, rfl⟩
        have whole : before ++ m.chunkSizeStr ++ tail ++ str "\r" ++ [c] =
            before ++ (m.chunkSizeStr ++ tail ++ crlf) := by
          rw [hn]
          simp [crlf, str]
        rw [whole]
        split_ifs with h0
        · rw [h0] at line
          exact ⟨rfl, before, _, [], chunked, line, .nil, by simp⟩
        · exact ⟨Nat.pos_of_ne_zero h0, rfl, before, _, [], chunked, by simpa using line, by simp⟩
      · have zero : toSizeT (strtol 16 m.chunkSizeStr) = 0 := by
          rw [hs]
          rfl
        rw [if_pos zero]
        refine ⟨rfl, before, line, _, chunked, hline, ht.snoc hname hvalue, ?_⟩
        rw [hn]
        simp [crlf, str]
  · trivial

theorem reads_chunkSizeNewLine2 (h : ReadsBody .chunkSizeNewLine2 m x) :
    BodyLeads (x ++ [c]) (bodyStep memory true .chunkSizeNewLine2 m c) := by
  simp only [bodyStep]
  split_ifs with hr halpha
  · rw [hr]
    exact ⟨x, h, rfl⟩
  · exact ⟨x, [c], h, inline_of halpha (by decide) (by decide), rfl⟩
  · trivial

theorem reads_chunkSizeNewLine3 (h : ReadsBody .chunkSizeNewLine3 m x) :
    BodyLeads (x ++ [c]) (bodyStep memory true .chunkSizeNewLine3 m c) := by
  simp only [bodyStep]
  split_ifs with hn
  · obtain ⟨y, ⟨_, before, line, trailers, ⟨marked, head, done, hhead, hdone, rfl⟩, hline, ht, rfl⟩,
      rfl⟩ := h
    refine ⟨head, done ++ line ++ trailers ++ crlf, ?_, hhead,
      fun _ => ⟨done, line, trailers, hdone, hline, ht, rfl⟩, fun hm => ?_⟩
    · rw [hn]
      simp [crlf, str]
    · rw [marked] at hm
      cases hm
  · trivial

theorem reads_chunkTrailerName (h : ReadsBody .chunkTrailerName m x) :
    BodyLeads (x ++ [c]) (bodyStep memory true .chunkTrailerName m c) := by
  obtain ⟨y, name, ended, hin, rfl⟩ := h
  simp only [bodyStep]
  split_ifs with halnum hcolon
  · exact ⟨y, name ++ [c], ended, hin.append (inline_of halnum (by decide) (by decide)), by simp⟩
  · rw [hcolon]
    exact ⟨y, name, [], ended, hin, by simp [Inline], by simp [str]⟩
  · trivial

theorem reads_chunkTrailerValue (h : ReadsBody .chunkTrailerValue m x) :
    BodyLeads (x ++ [c]) (bodyStep memory true .chunkTrailerValue m c) := by
  obtain ⟨y, name, value, ended, hin, hvalue, rfl⟩ := h
  simp only [bodyStep]
  split_ifs with hc hr
  · exact ⟨y, name, value ++ [c], ended, hin, hvalue.append (inline_plain hc), by simp⟩
  · rw [hr]
    exact .inr ⟨y, name, value, ended, hin, hvalue, rfl⟩
  · trivial

theorem reads_chunkData (h : ReadsBody .chunkData m x) :
    BodyLeads (x ++ [c]) (bodyStep memory true .chunkData m c) := by
  obtain ⟨hpos, hcleared, y, line, data, chunked, hline, rfl⟩ := h
  have longer : data.length + m.chunkSize = (data ++ [c]).length + (m.chunkSize - 1) := by
    rw [List.length_append, List.length_singleton]
    omega
  rw [longer] at hline
  simp only [bodyStep]
  change ReadsBody (if m.chunkSize - 1 = 0 then _ else _) _ _
  split_ifs with h0
  · rw [h0] at hline
    exact ⟨y, line, data ++ [c], hcleared, chunked, hline, by simp, by simp⟩
  · exact ⟨Nat.pos_of_ne_zero h0, hcleared, y, line, data ++ [c], chunked, hline, by simp⟩

theorem reads_chunkDataNewLine1 (h : ReadsBody .chunkDataNewLine1 m x) :
    BodyLeads (x ++ [c]) (bodyStep memory true .chunkDataNewLine1 m c) := by
  obtain ⟨y, line, data, hcleared, chunked, hline, hne, rfl⟩ := h
  simp only [bodyStep]
  split_ifs with hr
  · rw [hr]
    exact ⟨y, line, data, hcleared, chunked, hline, hne, rfl⟩
  · trivial

theorem reads_chunkDataNewLine2 (h : ReadsBody .chunkDataNewLine2 m x) :
    BodyLeads (x ++ [c]) (bodyStep memory true .chunkDataNewLine2 m c) := by
  obtain ⟨y, line, data, hcleared, ⟨marked, head, done, hhead, hdone, rfl⟩, hline, hne, rfl⟩ := h
  simp only [bodyStep]
  split_ifs with hn
  · refine ⟨head ++ (done ++ line ++ data ++ crlf), ⟨marked, head, _, hhead, hdone.snoc hline hne, rfl⟩,
      by rw [hcleared]; simp, ?_⟩
    rw [hn, hcleared]
    simp [crlf, str]
  · trivial

/-- A byte of the header block or the body, case by case. -/
theorem reads_bodyStep (memory : Nat) {st : BodyState} (h : ReadsBody st m x)
    (hp : BodyProper st m c) :
    BodyLeads (x ++ [c]) (bodyStep memory true st m c) := by
  cases st with
  | headerLineStart => exact reads_headerLineStart h
  | headerLws => exact reads_headerLws h
  | headerName => exact reads_headerName h
  | spaceBeforeHeaderValue => exact reads_spaceBeforeHeaderValue h
  | headerValue => exact reads_headerValue h
  | expectingNewline2 => exact reads_expectingNewline2 h
  | expectingNewline3 => exact reads_expectingNewline3 h hp
  | post => exact reads_post h
  | chunkSize => exact reads_chunkSize h hp
  | chunkExtensionName => exact reads_chunkExtensionName h
  | chunkExtensionValue => exact reads_chunkExtensionValue h
  | chunkSizeNewLine => exact reads_chunkSizeNewLine h hp
  | chunkSizeNewLine2 => exact reads_chunkSizeNewLine2 h
  | chunkSizeNewLine3 => exact reads_chunkSizeNewLine3 h
  | chunkTrailerName => exact reads_chunkTrailerName h
  | chunkTrailerValue => exact reads_chunkTrailerValue h
  | chunkDataNewLine1 => exact reads_chunkDataNewLine1 h
  | chunkDataNewLine2 => exact reads_chunkDataNewLine2 h
  | chunkData => exact reads_chunkData h

end

/-! ## The status line -/

namespace ResponseParser

/-- What of `HTTP/` is still to come. -/
def ahead : State → Bytes
  | .responseStatusStart => str "HTTP/"
  | .responseHttpVersionHt => str "TTP/"
  | .responseHttpVersionHtt => str "TP/"
  | .responseHttpVersionHttp => str "P/"
  | .responseHttpVersionSlash => str "/"
  | _ => []

/-- No header has been read. -/
def Fresh (m : Message) : Prop := m.headers = [] ∧ m.contentSize = 0 ∧ m.chunkSizeStr = []

/-- What the parser has read when it is in this state. -/
def Reads : State → Response → Bytes → Prop
  | .body b, r, x => ReadsBody b r.msg x
  | .responseHttpVersionNewLine, r, x =>
      Fresh r.msg ∧ ∃ start, str "HTTP/" <+: start ∧ Inline start ∧ x = start ++ str "\r"
  | st, r, x => Fresh r.msg ∧ Inline x ∧ str "HTTP/" <+: x ++ ahead st

/-- The parser is no more lenient than HTTP on this byte. In the status line it would
take a line end for text of the reason phrase. -/
def Proper : State × Response → UInt8 → Prop
  | (.responseHttpVersionStatusTextStart, _), c => c ≠ ch '\r' ∧ c ≠ ch '\n'
  | (.responseHttpVersionStatusText, _), c => c ≠ ch '\n'
  | (.body b, r), c => BodyProper b r.msg c
  | _, _ => True

instance (st : State × Response) (c : UInt8) : Decidable (Proper st c) := by
  obtain ⟨st, r⟩ := st
  cases st
  case responseHttpVersionStatusTextStart => exact inferInstanceAs (Decidable (_ ∧ _))
  case responseHttpVersionStatusText => exact inferInstanceAs (Decidable (c ≠ _))
  case body b => exact inferInstanceAs (Decidable (BodyProper b r.msg c))
  all_goals exact isTrue trivial

/-- Where a byte leads. -/
def Leads (x : Bytes) : Step (State × Response) (Halt Response) → Prop
  | .more (st, r) => Reads st r x
  | .halt (.completed r) => Completed r.msg x
  | .halt _ => True

section
variable {memory : Nat} {r : Response} {x : Bytes} {c : UInt8}

theorem leads_expect {t : Bytes} {k : Char} {next : State} (hk : Inline [ch k])
    (hx : Fresh r.msg ∧ Inline x ∧ str "HTTP/" <+: x ++ ch k :: t)
    (goes : Fresh r.msg ∧ Inline (x ++ [ch k]) ∧ str "HTTP/" <+: x ++ [ch k] ++ t →
      Reads next r (x ++ [ch k])) : Leads (x ++ [c]) (expect c k next r) := by
  obtain ⟨fresh, hin, begins⟩ := hx
  unfold expect
  split_ifs with hc
  · rw [hc]
    exact goes ⟨fresh, hin.append hk, by simpa using begins⟩
  · trivial

/-- One more byte of the status line. -/
theorem lined_append (hx : Inline x ∧ str "HTTP/" <+: x ++ []) (hc : Inline [c]) :
    Inline (x ++ [c]) ∧ str "HTTP/" <+: x ++ [c] ++ [] := by
  refine ⟨hx.1.append hc, ?_⟩
  rw [List.append_nil] at hx ⊢
  exact hx.2.trans (List.prefix_append ..)

theorem inline_digit (h : isDigit c = true) : Inline [c] := inline_of h (by decide) (by decide)

theorem inline_eq {k : UInt8} (h : c = k) (hk : Inline [k]) : Inline [c] := h ▸ hk

theorem inline_ne (hr : c ≠ ch '\r') (hl : c ≠ ch '\n') : Inline [c] :=
  ⟨fun hm => hr (List.mem_singleton.mp hm).symm, fun hm => hl (List.mem_singleton.mp hm).symm⟩

theorem reads_statusText (h : Reads .responseHttpVersionStatusText r x)
    (hp : Proper (.responseHttpVersionStatusText, r) c) :
    Leads (x ++ [c]) (step memory (.responseHttpVersionStatusText, r) c) := by
  obtain ⟨fresh, hin, begins⟩ := h
  simp only [step]
  split_ifs with hr
  · rw [hr]
    refine ⟨fresh, x, ?_, hin, rfl⟩
    simpa [ahead] using begins
  · exact ⟨fresh, lined_append ⟨hin, begins⟩ (inline_ne hr hp)⟩
  · trivial

theorem reads_newLine (h : Reads .responseHttpVersionNewLine r x) :
    Leads (x ++ [c]) (step memory (.responseHttpVersionNewLine, r) c) := by
  obtain ⟨⟨hnil, hsize, hcleared⟩, start, begins, hin, rfl⟩ := h
  simp only [step, expect]
  split_ifs with hn
  · rw [hn]
    refine ⟨⟨by rw [hnil, hsize]; rfl, hcleared⟩, start, [], begins, hin, hnil.symm ▸ .nil, ?_⟩
    simp [crlf, str]
  · trivial

/-- A byte of a response, case by case. -/
theorem reads_step (memory : Nat) {st : State} (h : Reads st r x) (hp : Proper (st, r) c) :
    Leads (x ++ [c]) (step memory (st, r) c) := by
  cases st with
  | responseStatusStart => exact leads_expect (by decide) h id
  | responseHttpVersionHt => exact leads_expect (by decide) h id
  | responseHttpVersionHtt => exact leads_expect (by decide) h id
  | responseHttpVersionHttp => exact leads_expect (by decide) h id
  | responseHttpVersionSlash => exact leads_expect (by decide) h id
  | responseHttpVersionMajorStart =>
    simp only [step]
    split_ifs with hd
    · exact ⟨h.1, lined_append h.2 (inline_digit hd)⟩
    · trivial
  | responseHttpVersionMajor =>
    simp only [step]
    split_ifs with hdot hd
    · exact ⟨h.1, lined_append h.2 (inline_eq hdot (by decide))⟩
    · exact ⟨h.1, lined_append h.2 (inline_digit hd)⟩
    · trivial
  | responseHttpVersionMinorStart =>
    simp only [step]
    split_ifs with hd
    · exact ⟨h.1, lined_append h.2 (inline_digit hd)⟩
    · trivial
  | responseHttpVersionMinor =>
    simp only [step]
    split_ifs with hspace hd
    · exact ⟨h.1, lined_append h.2 (inline_eq hspace (by decide))⟩
    · exact ⟨h.1, lined_append h.2 (inline_digit hd)⟩
    · trivial
  | responseHttpVersionStatusCodeStart =>
    simp only [step]
    split_ifs with hd
    · exact ⟨h.1, lined_append h.2 (inline_digit hd)⟩
    · trivial
  | responseHttpVersionStatusCode =>
    simp only [step]
    split_ifs with hd _ hspace
    · exact ⟨h.1, lined_append h.2 (inline_digit hd)⟩
    · trivial
    · exact ⟨h.1, lined_append h.2 (inline_eq hspace (by decide))⟩
    · trivial
  | responseHttpVersionStatusTextStart =>
    simp only [step]
    split_ifs
    · exact ⟨h.1, lined_append h.2 (inline_ne hp.1 hp.2)⟩
    · trivial
  | responseHttpVersionStatusText => exact reads_statusText h hp
  | responseHttpVersionNewLine => exact reads_newLine h
  | body b =>
    have next := reads_bodyStep memory h hp
    simp only [step]
    generalize bodyStep memory true b r.msg c = res at next
    match res with
    | .more (b', m) => exact next
    | .halt (.completed m) => exact next
    | .halt .error => trivial
    | .halt (.threw e) => trivial

end

/-- What completes the parser, never more leniently than HTTP allows, is a header block with
the body that the parser's account delimits. -/
theorem completed_of_parse {memory : Nat} {got : Bytes} {p : Response}
    (h : parse memory got = .halt (.completed p))
    (proper : Scan.Throughout (step memory) Proper init got) :
    ∃ read left, got = read ++ left ∧ Scan.rest (step memory) init got = some left ∧
      Completed p.msg read := by
  have start : Reads init.1 init.2 [] :=
    ⟨⟨rfl, rfl, rfl⟩, ⟨List.not_mem_nil, List.not_mem_nil⟩, List.prefix_rfl⟩
  obtain ⟨read, left, hgot, hleft, completed⟩ := Scan.run_halt_invariant (step memory)
    (P := Proper) (I := fun s x => Reads s.1 s.2 x)
    (Q := fun r x => ∀ p, r = .completed p → Completed p.msg x)
    (fun s s' x a hI hP hs => by
      have next := reads_step memory hI hP
      rw [hs] at next
      exact next)
    (fun s r x a hI hP hs => by
      have next := reads_step memory hI hP
      rw [hs] at next
      rintro p rfl
      exact next)
    start proper h
  exact ⟨read, left, hgot, hleft, completed p rfl⟩

end ResponseParser

/-- The headers of a completed response that announce a number of bytes announce what
they declare. -/
theorem announced_of_declares {its : List HeaderItem} {n : Nat} (h : DeclaresLength its n)
    (hn : n < 2 ^ 31) : announced its = n := by
  obtain ⟨⟨it, hit, hc⟩, all⟩ := h
  unfold announced
  cases hl : (its.filter isContentLength).getLast? with
  | none =>
    have some_left : it ∈ its.filter isContentLength := List.mem_filter.mpr ⟨hit, hc⟩
    rw [List.getLast?_eq_none_iff.mp hl] at some_left
    cases some_left
  | some last =>
    obtain ⟨hlast, hc'⟩ := List.mem_filter.mp (List.mem_of_getLast? hl)
    exact atoi_numeral (all last hlast hc') hn

/-! ## Whole responses -/

/-- The headers say where the body ends: by chunks, or by a length. -/
def Sealed (m : Message) : Prop :=
  m.chunked = true ∨ ∃ it ∈ m.headers, isContentLength it = true

/-- The parser, complete with the message `m`, has read exactly what the headers delimit of
the received bytes: all of them where the headers say where the body ends, never more
leniently than HTTP allows, with the chunked mark that Transfer-Encoding calls for and a
Content-Length that an `int` holds. What has neither is all that the server sends. -/
structure ReadExactly (memory : Nat) (sent got : Bytes) (m : Message) : Prop where
  read : Sealed m → Scan.rest (ResponseParser.step memory) ResponseParser.init got = some []
  proper : Scan.Throughout (ResponseParser.step memory) ResponseParser.Proper ResponseParser.init got
  marked : m.chunked = true ↔ DeclaresChunked m.headers
  sized : m.chunked = false → (∃ it ∈ m.headers, isContentLength it = true) →
    ∃ n < 2 ^ 31, DeclaresLength m.headers n
  all : m.chunked = false → (∀ it ∈ m.headers, isContentLength it = false) → got = sent

theorem whole_of_readExactly {memory : Nat} {sent got : Bytes} {p : Response}
    (h : ResponseParser.parse memory got = .halt (.completed p))
    (exactly : ReadExactly memory sent got p.msg) : Whole sent got := by
  obtain ⟨read, left, hgot, hleft, head, body, hread, hhead, hchunks, hlength⟩ :=
    ResponseParser.completed_of_parse h exactly.proper
  have ends (sealed : Sealed p.msg) : got = head ++ body := by
    rw [exactly.read sealed] at hleft
    cases hleft
    rw [hgot, List.append_nil, hread]
  cases hm : p.msg.chunked with
  | true =>
    exact ⟨p.msg.headers, head, body, ends (.inl hm), hhead,
      .chunked (exactly.marked.mp hm) (hchunks hm)⟩
  | false =>
    have undeclared : ¬ DeclaresChunked p.msg.headers := by
      intro hd
      rw [exactly.marked.mpr hd] at hm
      cases hm
    by_cases hc : ∃ it ∈ p.msg.headers, isContentLength it = true
    · obtain ⟨n, hn, declared⟩ := exactly.sized hm hc
      refine ⟨p.msg.headers, head, body, ends (.inr hc), hhead, .length undeclared ?_⟩
      rw [hlength hm, announced_of_declares declared hn]
      exact declared
    · have none : ∀ it ∈ p.msg.headers, isContentLength it = false := by
        intro it hit
        cases hit' : isContentLength it with
        | false => rfl
        | true => exact absurd ⟨it, hit, hit'⟩ hc
      -- the parser stops at the end of the header block, and the body goes on to the close
      refine ⟨p.msg.headers, head, body ++ left, ?_, hhead,
        .untilClose undeclared none (exactly.all hm none)⟩
      rw [hgot, hread, List.append_assoc]

/-- A response of two bytes, in one segment. -/
def twoBytes : Bytes := str "HTTP/1.1 200 OK\r\nContent-Length: 2\r\n\r\nhi"

theorem twoBytes_readExactly {p : Response}
    (h : ResponseParser.parse (2 ^ 40) twoBytes = .halt (.completed p)) :
    ReadExactly (2 ^ 40) twoBytes twoBytes p.msg := by
  have read : ResponseParser.parse (2 ^ 40) twoBytes = .halt (.completed
      { statusCode := 200, status := str "OK",
        msg :=
          { versionMajor := 1, versionMinor := 1, keepAlive := true, contentSize := 0,
            headers := [⟨str "Content-Length", str "2"⟩], content := str "hi" } }) := by
    decide +kernel
  cases h.symm.trans read
  refine ⟨fun _ => by decide +kernel, by decide +kernel, by decide +kernel, ?_, fun _ _ => rfl⟩
  intro _ _
  exact ⟨2, by omega, by decide +kernel⟩

end HttpProxy
