import HttpProxy.Language
import HttpProxy.Completion

/-!
# Writing a message and reading it

What a sender has to say, and the text that says it: plain header lines, and a body that is
announced by its length or cut into chunks. The parsers read back what was said.
-/

namespace HttpProxy

/-! ## Numbers -/

theorem Numeral.snoc {base : Nat} {t : Bytes} {n d : Nat} {c : UInt8} (h : Numeral base t n)
    (hc : digitVal base c = some d) : Numeral base (t ++ [c]) (n * base + d) := by
  obtain ⟨_, digits, rfl⟩ := h
  have apart : leadingDigits base (t ++ [c]) = leadingDigits base t ++ [d] := by
    clear * - digits hc
    induction t with
    | nil => simp [leadingDigits, hc]
    | cons a t ih =>
      obtain ⟨ha, ht⟩ := List.forall_mem_cons.mp digits
      obtain ⟨v, hv⟩ := Option.isSome_iff_exists.mp ha
      simp [leadingDigits, hv, ih ht]
  refine ⟨by simp, ?_, by rw [apart, digitsValue, digitsValue, List.foldl_append]; rfl⟩
  intro b hb
  rcases List.mem_append.mp hb with hb | hb
  · exact digits b hb
  · rw [List.mem_singleton.mp hb, hc]
    rfl

/-- The text of a number in decimal or in hexadecimal digits is a numeral of it. -/
theorem numeral_toDigits {base : Nat} (hb : base = 10 ∨ base = 16) (n : Nat) :
    Numeral base ((Nat.toDigits base n).map ch) n := by
  have digit : ∀ d < base, digitVal base (ch d.digitChar) = some d := by
    rcases hb with rfl | rfl
    · decide
    · decide
  have large : 1 < base := by omega
  induction n using Nat.strongRecOn with
  | _ n ih =>
    by_cases small : n < base
    · rw [Nat.toDigits_of_lt_base small]
      have hd := digit n small
      exact ⟨by simp, by simp [hd], by simp [leadingDigits, hd, digitsValue]⟩
    · have shorter : n / base < n := Nat.div_lt_self (by omega) large
      have last := (ih _ shorter).snoc (digit (n % base) (Nat.mod_lt n (by omega)))
      rw [Nat.div_add_mod'] at last
      rw [Nat.toDigits_of_base_le large (by omega), List.map_append]
      exact last

theorem numeral_showNat (n : Nat) : Numeral 10 (showNat n) n := numeral_toDigits (.inl rfl) n

def showHex (n : Nat) : Bytes := (Nat.toDigits 16 n).map ch

theorem digits_decimal {t : Bytes} {n : Nat} (h : Numeral 10 t n) : Digits t ∧ decimal t = n := by
  obtain ⟨some, digits, rfl⟩ := h
  have plain : ∀ c, (digitVal 10 c).isSome = true →
      isDigit c = true ∧ digitVal 10 c = Option.some (c.toNat - 48) := forall_byte (by decide +kernel)
  refine ⟨⟨some, fun c hc => (plain c (digits c hc)).1⟩, ?_⟩
  have fold (acc : Nat) : t.foldl (fun n c => n * 10 + (c.toNat - 48)) acc =
      (leadingDigits 10 t).foldl (fun n d => n * 10 + d) acc := by
    clear some
    induction t generalizing acc with
    | nil => rfl
    | cons c t ih =>
      obtain ⟨hc, ht⟩ := List.forall_mem_cons.mp digits
      rw [leadingDigits, (plain c hc).2, List.foldl_cons, List.foldl_cons, ih ht]
  exact fold 0

/-! ## What a sender has to say -/

/-- A header that says nothing about the body. -/
structure PlainHeader (it : HeaderItem) : Prop where
  some : it.name ≠ []
  name : ∀ c ∈ it.name, isToken c = true
  value : ∀ c ∈ it.value, isPlain c = true
  length : isContentLength it = false
  coding : isTransferEncoding it = false

/-- A body, and how it is announced. -/
inductive BodyForm where
  | none
  | sized (content : Bytes)
  | chunked (pieces : List Bytes)
  deriving DecidableEq, Repr

namespace BodyForm

def content : BodyForm → Bytes
  | .none => []
  | .sized content => content
  | .chunked pieces => pieces.flatten

def isChunked : BodyForm → Bool
  | .chunked _ => true
  | _ => false

/-- The header that announces the body. -/
def announcement : BodyForm → List HeaderItem
  | .none => []
  | .sized content => [⟨str "Content-Length", showNat content.length⟩]
  | .chunked _ => [⟨str "Transfer-Encoding", str "chunked"⟩]

def chunk (piece : Bytes) : Chunk := ⟨showHex piece.length, .none, piece⟩

def ending : BodyForm → Ending
  | .none => .bare
  | .sized content => if content = [] then .bare else .sized (ch '\n') content
  | .chunked pieces => .chunked (ch '\n') ⟨pieces.map chunk, str "0", .none, []⟩

/-- A length is kept in an `int`, and an empty chunk would be the last one. -/
def Sendable : BodyForm → Prop
  | .none => True
  | .sized content => content.length < 2 ^ 31
  | .chunked pieces => (∀ d ∈ pieces, d ≠ []) ∧ pieces.flatten.length ≤ maxSize

end BodyForm

/-- What stands behind the start line. -/
structure Outgoing where
  major : Nat
  minor : Nat
  headers : List HeaderItem
  payload : BodyForm
  version : major < 2 ^ 31 ∧ minor < 2 ^ 31
  plain : ∀ it ∈ headers, PlainHeader it
  sendable : payload.Sendable

namespace Outgoing

def all (o : Outgoing) : List HeaderItem := o.headers ++ o.payload.announcement

def message (o : Outgoing) : MessageText :=
  ⟨o.all.map fun it => .field it.name it.value, o.payload.ending⟩

/-- The message as it is to be understood. -/
def received (o : Outgoing) : Message :=
  { setKeepAlive { versionMajor := o.major, versionMinor := o.minor, headers := o.all } with
    content := o.payload.content, chunked := o.payload.isChunked }

end Outgoing

/-! ## The header block -/

section
variable {memory : Nat} {framed : Bool} {m : Message}

theorem readFraming_snoc (its : List HeaderItem) (it : HeaderItem) :
    readFraming memory framed { m with headers := its ++ [it] } =
      if !framed then .ok { m with headers := its ++ [it] }
      else if isContentLength it then do
        reserve memory (toSizeT (atoi it.value))
        return { m with headers := its ++ [it], contentSize := toSizeT (atoi it.value) }
      else if isTransferEncoding it && strcasecmpEq it.value (str "chunked") then
        .ok { m with headers := its ++ [it], chunked := true }
      else .ok { m with headers := its ++ [it] } := by
  rw [readFraming]
  simp only [List.getLast?_append_of_ne_nil, List.getLast?_singleton, ne_eq, List.cons_ne_nil,
    not_false_eq_true]
  rfl

theorem read_plain {it : HeaderItem} (h : PlainHeader it) :
    (FieldLine.field it.name it.value).read memory framed m =
      .ok { m with headers := m.headers ++ [it] } := by
  rw [FieldLine.read, readFraming_snoc]
  simp [h.length, h.coding]

theorem read_plains {its : List HeaderItem} (h : ∀ it ∈ its, PlainHeader it) :
    (its.map fun it => FieldLine.field it.name it.value).foldlM (FieldLine.read memory framed) m =
      .ok { m with headers := m.headers ++ its } := by
  induction its generalizing m with
  | nil => simp; rfl
  | cons it its ih =>
    obtain ⟨plain, rest⟩ := List.forall_mem_cons.mp h
    rw [List.map_cons, List.foldlM_cons, read_plain plain]
    change List.foldlM (FieldLine.read memory framed) { m with headers := m.headers ++ [it] } _ = _
    rw [ih rest]
    simp

theorem atoi_showNat {n : Nat} (small : n < 2 ^ 31) : toSizeT (atoi (showNat n)) = n := by
  have digits := numeral_showNat n
  have solid : ∀ c, (digitVal 10 c).isSome = true → isSpace c = false := forall_byte (by decide +kernel)
  have trimmed : trim (showNat n) = showNat n := by
    have front : (showNat n).dropWhile isSpace = showNat n := by
      rw [List.dropWhile_eq_self_iff]
      intro some
      simp [solid _ (digits.2.1 _ (List.getElem_mem some))]
    rw [trim, front, List.rdropWhile_eq_self_iff]
    intro some
    simp [solid _ (digits.2.1 _ (List.getLast_mem some))]
  exact atoi_numeral (trimmed.symm ▸ digits) small

/-- The framing that an announced body leaves in the message, whether the parser looks for
a body or there is none. -/
theorem read_announcement {b : BodyForm} (looks : framed = true ∨ b = .none) (h : b.Sendable)
    (room : b.content.length ≤ memory) (fresh : m.contentSize = 0) (unchunked : m.chunked = false) :
    (b.announcement.map fun it => FieldLine.field it.name it.value).foldlM
        (FieldLine.read memory framed) m =
      .ok { m with
        headers := m.headers ++ b.announcement
        contentSize := if b.isChunked then 0 else b.content.length
        chunked := b.isChunked } := by
  cases b with
  | none =>
    simp only [BodyForm.announcement, BodyForm.isChunked, BodyForm.content, List.append_nil]
    cases m
    cases fresh
    cases unchunked
    rfl
  | sized content =>
    obtain rfl : framed = true := by simpa using looks
    have length : isContentLength ⟨str "Content-Length", showNat content.length⟩ = true := by
      simp only [isContentLength]
      decide
    have small : content.length < 2 ^ 31 := h
    have fits : reserve memory content.length = .ok () := by
      apply reserve_ok_iff.mpr
      change content.length ≤ memory at room
      unfold maxSize
      omega
    simp only [BodyForm.announcement, List.map_cons, List.map_nil, List.foldlM_cons, List.foldlM_nil,
      FieldLine.read, readFraming_snoc, length, atoi_showNat small, fits]
    cases m
    cases unchunked
    rfl
  | chunked pieces =>
    obtain rfl : framed = true := by simpa using looks
    have coding : isContentLength ⟨str "Transfer-Encoding", str "chunked"⟩ = false ∧
        (isTransferEncoding ⟨str "Transfer-Encoding", str "chunked"⟩ &&
          strcasecmpEq (str "chunked") (str "chunked")) = true := by decide
    simp only [BodyForm.announcement, List.map_cons, List.map_nil, List.foldlM_cons, List.foldlM_nil,
      FieldLine.read, readFraming_snoc, coding.1, coding.2]
    cases m
    cases fresh
    rfl

theorem setKeepAlive_framing (n : Nat) (b : Bool) :
    setKeepAlive { m with contentSize := n, chunked := b } =
      { setKeepAlive m with contentSize := n, chunked := b } := by
  unfold setKeepAlive
  dsimp only
  split
  · rfl
  · split_ifs
    · rfl
    · rfl

end

/-! ## The body -/

namespace BodyForm

variable {b : BodyForm}

theorem chunk_proper {d : Bytes} (some : d ≠ []) (fits : d.length ≤ maxSize) : (chunk d).Proper := by
  have hex : Numeral 16 (showHex d.length) d.length := numeral_toDigits (.inr rfl) _
  exact ⟨fun c hc => alnum_of_digit (hex.2.1 c hc), trivial, some, strtol_numeral hex fits⟩

theorem content_chunks (pieces : List Bytes) :
    (pieces.map chunk).flatMap Chunk.data = pieces.flatten := by
  induction pieces with
  | nil => rfl
  | cons d pieces ih => rw [List.map_cons, List.flatMap_cons, ih]; rfl

section
variable {m : Message} (fresh : m.content = []) (chunked : m.chunked = b.isChunked)
  (length : m.contentSize = if b.isChunked then 0 else b.content.length)

include fresh chunked length

/-- The body is what its header has announced. -/
theorem fits {memory : Nat} (h : b.Sendable) (enough : b.content.length ≤ memory) :
    b.ending.Fits memory m := by
  cases b with
  | none => exact ⟨chunked, length⟩
  | sized content =>
    rw [ending]
    split_ifs with none
    · exact ⟨chunked, by rw [length, none]; rfl⟩
    · exact ⟨chunked, none, length⟩
  | chunked pieces =>
    obtain ⟨some, room⟩ := h
    have each : ∀ d ∈ pieces, d.length ≤ maxSize := by
      intro d hd
      exact (List.sublist_flatten_of_mem hd).length_le.trans room
    have zero : (∀ c ∈ str "0", isAlnum c = true) ∧ chunkNumber (str "0") = 0 := by
      decide +kernel
    refine ⟨chunked, ⟨?_, zero.1, zero.2, trivial, by simp⟩, ?_⟩
    · intro k hk
      obtain ⟨d, hd, rfl⟩ := List.mem_map.mp hk
      exact chunk_proper (some d hd) (each d hd)
    · rw [fresh, ChunkedText.content, content_chunks, List.length_nil, Nat.zero_add]
      exact le_min enough room

theorem read_ending (size : m.chunkSize = 0) (unread : m.chunkSizeStr = []) :
    b.ending.read m = { m with content := b.content, contentSize := 0 } := by
  cases m
  cases fresh
  cases size
  cases unread
  cases b with
  | none =>
    cases length
    rfl
  | sized content =>
    rw [ending]
    split_ifs with none
    · cases none
      cases length
      rfl
    · rfl
  | chunked pieces =>
    cases length
    simp [ending, Ending.read, ChunkedText.content, content_chunks, content]

end

end BodyForm

/-! ## The message -/

namespace Outgoing

variable (o : Outgoing)

theorem announcement_proper : ∀ it ∈ o.payload.announcement,
    (FieldLine.field it.name it.value).Proper := by
  intro it hit
  cases hb : o.payload with
  | none => simp [hb, BodyForm.announcement] at hit
  | sized content =>
    obtain rfl : it = ⟨str "Content-Length", showNat content.length⟩ := by
      simpa [hb, BodyForm.announcement] using hit
    have plain : ∀ c, (digitVal 10 c).isSome = true → isPlain c = true :=
      forall_byte (by decide +kernel)
    have name : str "Content-Length" ≠ [] ∧ ∀ c ∈ str "Content-Length", isToken c = true := by
      decide +kernel
    exact ⟨name.1, name.2, fun c hc => plain c ((numeral_showNat _).2.1 c hc)⟩
  | chunked pieces =>
    obtain rfl : it = ⟨str "Transfer-Encoding", str "chunked"⟩ := by
      simpa [hb, BodyForm.announcement] using hit
    exact ⟨by decide, by decide +kernel, by decide +kernel⟩

theorem message_proper : o.message.Proper := by
  constructor
  · intro l hl
    obtain ⟨it, hit, rfl⟩ := List.mem_map.mp hl
    rcases List.mem_append.mp hit with hit | hit
    · have plain := o.plain it hit
      exact ⟨plain.some, plain.name, plain.value⟩
    · exact o.announcement_proper it hit
  · intro l hl
    obtain ⟨it, _, rfl⟩ := List.mem_map.mp (List.mem_of_mem_head? hl)
    rfl

/-- The parser understands the message as it was meant. -/
theorem message_reads {memory : Nat} {framed : Bool} (looks : framed = true ∨ o.payload = .none)
    (room : o.payload.content.length ≤ memory) :
    o.message.Reads memory framed { versionMajor := o.major, versionMinor := o.minor }
      o.received := by
  let start : Message := { versionMajor := o.major, versionMinor := o.minor }
  let size : Nat := if o.payload.isChunked then 0 else o.payload.content.length
  have head : o.message.lines.foldlM (FieldLine.read memory framed) start =
      .ok { start with headers := o.all, contentSize := size, chunked := o.payload.isChunked } := by
    rw [message, all, List.map_append, List.foldlM_append, read_plains o.plain]
    exact read_announcement looks o.sendable room rfl rfl
  obtain ⟨k, hk⟩ := setKeepAlive_sets { start with headers := o.all }
  have behind := setKeepAlive_framing (m := { start with headers := o.all }) size o.payload.isChunked
  rw [hk] at behind
  refine ⟨_, head, ?_, ?_⟩
  · rw [behind]
    exact BodyForm.fits rfl rfl rfl o.sendable room
  · rw [behind]
    have read := BodyForm.read_ending (b := o.payload) (m := { start with
      headers := o.all, keepAlive := k, contentSize := size, chunked := o.payload.isChunked })
      rfl rfl rfl rfl rfl
    have meant : o.received = { start with
        headers := o.all, keepAlive := k, content := o.payload.content
        chunked := o.payload.isChunked } :=
      congrArg (fun m : Message =>
        { m with content := o.payload.content, chunked := o.payload.isChunked }) hk
    exact meant.trans read.symm

end Outgoing

/-! ## Responses and requests -/

structure OutgoingResponse extends Outgoing where
  code : Nat
  status : Bytes
  range : 100 ≤ code ∧ code ≤ 999
  text : status ≠ [] ∧ ∀ c ∈ status, isChar c = true ∧ c ≠ ch '\r'

namespace OutgoingResponse

def print (o : OutgoingResponse) : Bytes :=
  str "HTTP/" ++ showNat o.major ++ str "." ++ showNat o.minor ++ str " " ++ showNat o.code ++
    str " " ++ o.status ++ crlf ++ o.message.text

def meant (o : OutgoingResponse) : Response :=
  { msg := o.received, statusCode := o.code, status := o.status }

end OutgoingResponse

theorem versioned_showNat {major minor : Nat} (small : major < 2 ^ 31 ∧ minor < 2 ^ 31) :
    versioned (showNat major) (showNat minor) = { versionMajor := major, versionMinor := minor } := by
  have number {n : Nat} (h : n < 2 ^ 31) : toInt32 (decimal (showNat n)) = n := by
    rw [(digits_decimal (numeral_showNat n)).2, toInt32, Int.bmod_eq_of_le (by omega) (by omega)]
  rw [versioned, number small.1, number small.2]

/-- A chunked response of five bytes. -/
def greeting : OutgoingResponse where
  major := 1
  minor := 1
  headers := [⟨str "Server", str "x"⟩]
  payload := .chunked [str "he", str "llo"]
  version := by decide
  plain := by
    intro it hit
    obtain rfl := List.mem_singleton.mp hit
    exact ⟨by decide, by decide +kernel, by decide +kernel, by decide, by decide⟩
  sendable := ⟨by decide, by decide⟩
  code := 200
  status := str "OK"
  range := by decide
  text := by decide +kernel

example : greeting.print = str ("HTTP/1.1 200 OK\r\nServer: x\r\nTransfer-Encoding: chunked\r\n\r\n" ++
    "2\r\nhe\r\n3\r\nllo\r\n0\r\n\r\n") := by decide +kernel

structure OutgoingRequest extends Outgoing where
  method : Bytes
  uri : Bytes
  token : method ≠ [] ∧ ∀ c ∈ method, isToken c = true
  target : uri ≠ [] ∧ ∀ c ∈ uri, isPlain c = true ∧ c ≠ ch ' '
  /-- Only these methods have a body. -/
  carries : (method == str "POST" || method == str "PUT") = true ∨ payload = .none

namespace OutgoingRequest

def print (o : OutgoingRequest) : Bytes :=
  o.method ++ str " " ++ o.uri ++ str " HTTP/" ++ showNat o.major ++ str "." ++ showNat o.minor ++
    crlf ++ o.message.text

def meant (o : OutgoingRequest) : ParsedRequest :=
  { msg := o.received, method := o.method, uri := o.uri }

end OutgoingRequest

/-- A POST with a body of two bytes. -/
def submission : OutgoingRequest where
  major := 1
  minor := 1
  headers := [⟨str "Host", str "h"⟩]
  payload := .sized (str "hi")
  version := by decide
  plain := by
    intro it hit
    obtain rfl := List.mem_singleton.mp hit
    exact ⟨by decide, by decide +kernel, by decide +kernel, by decide, by decide⟩
  sendable := show (str "hi").length < 2 ^ 31 by decide
  method := str "POST"
  uri := str "/"
  token := by decide +kernel
  target := by decide +kernel
  carries := .inl (by decide)

example : submission.print = str "POST / HTTP/1.1\r\nHost: h\r\nContent-Length: 2\r\n\r\nhi" := by
  decide +kernel

end HttpProxy
