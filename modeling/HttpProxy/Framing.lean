import HttpProxy.Message
import HttpProxy.Net
import Mathlib.Data.List.DropRight

/-!
# What a whole response is

The text of an HTTP response, without reference to the parser. `Head` says which headers
a header block spells out, `ChunkedBody` which bytes are a chunked body up to and with
its terminating chunk, and `Framed` how the headers delimit the body: by chunks, by a
length, or by the close of the connection.
-/

namespace HttpProxy

def crlf : Bytes := str "\r\n"

/-- Text within one line. -/
def Inline (t : Bytes) : Prop := ch '\r' ∉ t ∧ ch '\n' ∉ t

instance (t : Bytes) : Decidable (Inline t) := inferInstanceAs (Decidable (_ ∧ _))

/-! ## The header block -/

/-- The value that a text spells. A line end with blanks behind it continues the value. -/
inductive Spells : Bytes → Bytes → Prop
  | nil : Spells [] []
  | char {value text : Bytes} {c : UInt8} (h : Spells value text) (hc : Inline [c]) :
      Spells (value ++ [c]) (text ++ [c])
  | fold {value text blanks : Bytes} (h : Spells value text) (some : blanks ≠ [])
      (hb : ∀ c ∈ blanks, c = ch ' ' ∨ c = ch '\t') : Spells value (text ++ crlf ++ blanks)

/-- A header with its text up to the end of its last line. -/
def HeaderText (it : HeaderItem) (text : Bytes) : Prop :=
  Inline it.name ∧ ch ':' ∉ it.name ∧
    ∃ value, Spells it.value value ∧ text = it.name ++ str ": " ++ value

inductive HeaderLines : List HeaderItem → Bytes → Prop
  | nil : HeaderLines [] []
  | snoc {its : List HeaderItem} {it : HeaderItem} {lines text : Bytes} (h : HeaderLines its lines)
      (line : HeaderText it text) : HeaderLines (its ++ [it]) (lines ++ text ++ crlf)

/-- A status line and complete header lines. -/
def Lined (its : List HeaderItem) (x : Bytes) : Prop :=
  ∃ start lines, str "HTTP/" <+: start ∧ Inline start ∧ HeaderLines its lines ∧
    x = start ++ crlf ++ lines

/-- A header block. -/
def Head (its : List HeaderItem) (head : Bytes) : Prop := ∃ x, Lined its x ∧ head = x ++ crlf

/-! ## A chunked body -/

def isHex (c : UInt8) : Bool := (digitVal 16 c).isSome

/-- A text of digits with its number. -/
def Numeral (base : Nat) (t : Bytes) (n : Nat) : Prop :=
  t ≠ [] ∧ (∀ c ∈ t, (digitVal base c).isSome = true) ∧ digitsValue base (leadingDigits base t) = n

/-- What may stand between a chunk size and the end of its line. -/
def Extension (t : Bytes) : Prop := t = [] ∨ Inline t ∧ t.head? = some (ch ';')

/-- The line that announces a chunk of `n` bytes. -/
def SizeLine (n : Nat) (line : Bytes) : Prop :=
  ∃ size tail, Numeral 16 size n ∧ Extension tail ∧ line = size ++ tail ++ crlf

/-- Chunks that hold data. -/
inductive Chunks : Bytes → Prop
  | nil : Chunks []
  | snoc {done line data : Bytes} (h : Chunks done) (size : SizeLine data.length line)
      (some : data ≠ []) : Chunks (done ++ line ++ data ++ crlf)

inductive Trailers : Bytes → Prop
  | nil : Trailers []
  | snoc {done name value : Bytes} (h : Trailers done) (hn : Inline name) (hv : Inline value) :
      Trailers (done ++ name ++ str ":" ++ value ++ crlf)

def ChunkedBody (body : Bytes) : Prop :=
  ∃ chunks line trailers, Chunks chunks ∧ SizeLine 0 line ∧ Trailers trailers ∧
    body = chunks ++ line ++ trailers ++ crlf

/-! ## The end of the body -/

def isContentLength (it : HeaderItem) : Bool := strcasecmpEq it.name (str "Content-Length")

def isTransferEncoding (it : HeaderItem) : Bool := strcasecmpEq it.name (str "Transfer-Encoding")

/-- A value without the blanks around it. -/
def trim (t : Bytes) : Bytes := (t.dropWhile isSpace).rdropWhile isSpace

/-- The last of the codings that a Transfer-Encoding value lists. -/
def lastCoding (value : Bytes) : Bytes := trim (value.rtakeWhile (· != ch ','))

def DeclaresChunked (its : List HeaderItem) : Prop :=
  ∃ it ∈ its, isTransferEncoding it = true ∧
    strcasecmpEq (lastCoding it.value) (str "chunked") = true

/-- There is a Content-Length, and all there are name this number. -/
def DeclaresLength (its : List HeaderItem) (n : Nat) : Prop :=
  (∃ it ∈ its, isContentLength it = true) ∧
    ∀ it ∈ its, isContentLength it = true → Numeral 10 (trim it.value) n

/-- `body` is what the headers delimit. Where they delimit nothing, the message `got` is
all that the server sent. -/
inductive Framed (its : List HeaderItem) (body got sent : Bytes) : Prop
  | chunked (h : DeclaresChunked its) (whole : ChunkedBody body)
  | length (h : ¬ DeclaresChunked its) (whole : DeclaresLength its body.length)
  | untilClose (h : ¬ DeclaresChunked its) (none : ∀ it ∈ its, isContentLength it = false)
      (whole : got = sent)

/-- What a server sends before it closes. -/
def sentBeforeClose : List Recv → Bytes
  | [] => []
  | .fail :: _ => []
  | .data bs :: l => if bs = [] then [] else bs ++ sentBeforeClose l

/-- `got` is one complete response, as framed by its own headers, of a server that sends
`sent` before it closes. -/
def Whole (sent got : Bytes) : Prop :=
  ∃ its head body, got = head ++ body ∧ Head its head ∧ Framed its body got sent

instance (base : Nat) (t : Bytes) (n : Nat) : Decidable (Numeral base t n) :=
  inferInstanceAs (Decidable (_ ∧ _))

instance (its : List HeaderItem) : Decidable (DeclaresChunked its) :=
  inferInstanceAs (Decidable (∃ it ∈ its, _))

instance (its : List HeaderItem) (n : Nat) : Decidable (DeclaresLength its n) :=
  inferInstanceAs (Decidable (_ ∧ _))

example : DeclaresChunked [⟨str "transfer-encoding", str "gzip, chunked "⟩] := by decide

/-- No text without a colon spells out a header. -/
theorem Head.headers_eq_nil {its : List HeaderItem} {head : Bytes} (h : Head its head)
    (hc : ch ':' ∉ head) : its = [] := by
  obtain ⟨_, ⟨start, lines, _, _, hlines, rfl⟩, rfl⟩ := h
  cases hlines with
  | nil => rfl
  | snoc _ line =>
    obtain ⟨_, _, _, _, rfl⟩ := line
    simp [str] at hc

end HttpProxy
