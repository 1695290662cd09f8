import HttpProxy.Framing
import HttpProxy.RequestParser
import HttpProxy.ResponseParser

/-!
# The text of a message

What a message is made of from its first header line on: the lines of the header block and
the body behind it, each as a tree with its `text` and with what it makes of the message
that is read. The trees are those of the language that both parsers accept, which is a
little wider than HTTP.
-/

namespace HttpProxy

def isBlank (c : UInt8) : Bool := decide (c = ch ' ' ∨ c = ch '\t')

def isToken (c : UInt8) : Bool := !notToken c

/-- What a value is made of. -/
def isPlain (c : UInt8) : Bool := !isControl c

/-- What may stand in the extensions of a chunk and in a trailer. -/
def isWord (c : UInt8) : Bool := isAlnum c || c == ch ' '

/-! ## The header block -/

/-- A line of a header block: a field, or the continuation of the field before it. -/
inductive FieldLine where
  | field (name value : Bytes)
  | fold (blanks value : Bytes)
  deriving DecidableEq, Repr

namespace FieldLine

def Proper : FieldLine → Prop
  | .field name value => name ≠ [] ∧ (∀ c ∈ name, isToken c = true) ∧ ∀ c ∈ value, isPlain c = true
  | .fold blanks value => blanks ≠ [] ∧ (∀ c ∈ blanks, isBlank c = true) ∧
      (∀ c ∈ value, isPlain c = true) ∧ ∀ c ∈ value.head?, isBlank c = false

instance : DecidablePred Proper
  | .field _ _ => inferInstanceAs (Decidable (_ ∧ _))
  | .fold _ _ => inferInstanceAs (Decidable (_ ∧ _))

def text : FieldLine → Bytes
  | .field name value => name ++ str ": " ++ value ++ crlf
  | .fold blanks value => blanks ++ value ++ crlf

def isFold : FieldLine → Bool
  | .field _ _ => false
  | .fold _ _ => true

end FieldLine

/-- More of the value of the last header. -/
def Message.extendValue (m : Message) (value : Bytes) : Message :=
  { m with headers := modifyBack (fun h => { h with value := h.value ++ value }) m.headers }

/-- What a line makes of the message. The framing is looked at where a value ends, so also
before a continuation, and not again where the continuation is blank. -/
def FieldLine.read (memory : Nat) (framed : Bool) (m : Message) : FieldLine → Except Exn Message
  | .field name value => readFraming memory framed { m with headers := m.headers ++ [⟨name, value⟩] }
  | .fold _ value => if value = [] then .ok m else readFraming memory framed (m.extendValue value)

/-! ## A chunked body -/

/-- What follows a chunk size: nothing, or a name with or without a value. -/
inductive ChunkExt where
  | none
  | name (n : Bytes)
  | value (n v : Bytes)
  deriving DecidableEq, Repr

namespace ChunkExt

def Proper : ChunkExt → Prop
  | .none => True
  | .name n => ∀ c ∈ n, isWord c = true
  | .value n v => (∀ c ∈ n, isWord c = true) ∧ ∀ c ∈ v, isWord c = true

instance : DecidablePred Proper
  | .none => isTrue trivial
  | .name _ => inferInstanceAs (Decidable (∀ _ ∈ _, _))
  | .value _ _ => inferInstanceAs (Decidable (_ ∧ _))

def text : ChunkExt → Bytes
  | .none => []
  | .name n => ch ';' :: n
  | .value n v => ch ';' :: n ++ ch '=' :: v

end ChunkExt

/-- The number that the parser reads in a chunk size; one without digits is zero. -/
def chunkNumber (size : Bytes) : Nat := toSizeT (strtol 16 size)

structure Chunk where
  size : Bytes
  ext : ChunkExt
  data : Bytes
  deriving DecidableEq, Repr

namespace Chunk

structure Proper (k : Chunk) : Prop where
  size : ∀ c ∈ k.size, isAlnum c = true
  ext : k.ext.Proper
  some : k.data ≠ []
  number : chunkNumber k.size = k.data.length

def text (k : Chunk) : Bytes := k.size ++ k.ext.text ++ crlf ++ k.data ++ crlf

end Chunk

structure Trailer where
  name : Bytes
  value : Bytes
  deriving DecidableEq, Repr

namespace Trailer

structure Proper (t : Trailer) : Prop where
  first : ∃ c rest, t.name = c :: rest ∧ isAlpha c = true ∧ ∀ d ∈ rest, isAlnum d = true
  value : ∀ c ∈ t.value, isWord c = true

def text (t : Trailer) : Bytes := t.name ++ str ":" ++ t.value ++ crlf

end Trailer

/-- The chunks, the size line of the last one, and the trailers. -/
structure ChunkedText where
  chunks : List Chunk
  size : Bytes
  ext : ChunkExt
  trailers : List Trailer
  deriving DecidableEq, Repr

namespace ChunkedText

structure Proper (b : ChunkedText) : Prop where
  chunks : ∀ k ∈ b.chunks, k.Proper
  size : ∀ c ∈ b.size, isAlnum c = true
  zero : chunkNumber b.size = 0
  ext : b.ext.Proper
  trailers : ∀ t ∈ b.trailers, t.Proper

def text (b : ChunkedText) : Bytes :=
  b.chunks.flatMap Chunk.text ++ (b.size ++ b.ext.text ++ crlf ++
    (b.trailers.flatMap Trailer.text ++ crlf))

def content (b : ChunkedText) : Bytes := b.chunks.flatMap Chunk.data

end ChunkedText

/-! ## What follows the header lines -/

/-- From the newline of the empty line on. The parser takes any byte for that newline where
a body follows. -/
inductive Ending where
  | bare
  | sized (newline : UInt8) (content : Bytes)
  | chunked (newline : UInt8) (body : ChunkedText)
  deriving DecidableEq, Repr

namespace Ending

def text : Ending → Bytes
  | .bare => str "\n"
  | .sized newline content => newline :: content
  | .chunked newline body => newline :: body.text

/-- The ending is what the header block has announced, and there is room for its chunks. -/
def Fits (memory : Nat) (m : Message) : Ending → Prop
  | .bare => m.chunked = false ∧ m.contentSize = 0
  | .sized _ content => m.chunked = false ∧ content ≠ [] ∧ m.contentSize = content.length
  | .chunked _ body => m.chunked = true ∧ body.Proper ∧
      m.content.length + body.content.length ≤ min memory maxSize

def read (m : Message) : Ending → Message
  | .bare => m
  | .sized _ content => { m with content := m.content ++ content, contentSize := 0 }
  | .chunked _ body =>
    { m with content := m.content ++ body.content, chunkSize := 0, chunkSizeStr := [] }

end Ending

/-- A message from its first header line on. -/
structure MessageText where
  lines : List FieldLine
  ending : Ending
  deriving DecidableEq, Repr

namespace MessageText

def text (t : MessageText) : Bytes :=
  t.lines.flatMap FieldLine.text ++ ch '\r' :: t.ending.text

/-- No line continues a header that is not there. -/
structure Proper (t : MessageText) : Prop where
  lines : ∀ l ∈ t.lines, l.Proper
  starts : ∀ l ∈ t.lines.head?, l.isFold = false

/-- What the text makes of the message: line by line, then the ending that was announced. -/
def Reads (memory : Nat) (framed : Bool) (m : Message) (t : MessageText) (m' : Message) : Prop :=
  ∃ head, t.lines.foldlM (FieldLine.read memory framed) m = .ok head ∧
    t.ending.Fits memory (setKeepAlive head) ∧ m' = t.ending.read (setKeepAlive head)

end MessageText

/-! ## Start lines -/

/-- The value of a run of decimal digits, of any length. -/
def decimal (t : Bytes) : Nat := t.foldl (fun n c => n * 10 + (c.toNat - 48)) 0

/-- Digits, at least one. -/
def Digits (t : Bytes) : Prop := t ≠ [] ∧ ∀ c ∈ t, isDigit c = true

instance : DecidablePred Digits := fun _ => inferInstanceAs (Decidable (_ ∧ _))

/-- `HTTP/` and the two version numbers. -/
def versionText (major minor : Bytes) : Bytes := str "HTTP/" ++ major ++ str "." ++ minor

/-- The message behind a start line of this version, before its first header line. The
numbers are kept as an `int`. -/
def versioned (major minor : Bytes) : Message :=
  { versionMajor := toInt32 (decimal major), versionMinor := toInt32 (decimal minor) }

structure ResponseText where
  major : Bytes
  minor : Bytes
  code : Bytes
  status : Bytes
  message : MessageText
  deriving DecidableEq, Repr

namespace ResponseText

/-- The status code as the parser keeps it, in an `unsigned int`. -/
def number (t : ResponseText) : Nat := decimal t.code % 2 ^ 32

structure Proper (t : ResponseText) : Prop where
  major : Digits t.major
  minor : Digits t.minor
  code : Digits t.code
  range : 100 ≤ t.number ∧ t.number ≤ 999
  /-- The first byte of the status text may be a carriage return. -/
  status : ∃ c rest, t.status = c :: rest ∧ isChar c = true ∧
    ∀ d ∈ rest, isChar d = true ∧ d ≠ ch '\r'
  message : t.message.Proper

def text (t : ResponseText) : Bytes :=
  versionText t.major t.minor ++ str " " ++ t.code ++ str " " ++ t.status ++ crlf ++ t.message.text

def Reads (memory : Nat) (t : ResponseText) (r : Response) : Prop :=
  r.statusCode = t.number ∧ r.status = t.status ∧
    t.message.Reads memory true (versioned t.major t.minor) r.msg

end ResponseText

/-- A request is an HTTP/0.9 one, with no more than a method and a URI, or has a version and
a message behind it. -/
inductive RequestText where
  | simple (method uri : Bytes)
  | full (method uri major minor : Bytes) (message : MessageText)
  deriving DecidableEq, Repr

namespace RequestText

/-- The URI may begin with a blank. -/
def ProperTarget (method uri : Bytes) : Prop :=
  method ≠ [] ∧ (∀ c ∈ method, isToken c = true) ∧
    ∃ c rest, uri = c :: rest ∧ isPlain c = true ∧ ∀ d ∈ rest, isPlain d = true ∧ d ≠ ch ' '

def Proper : RequestText → Prop
  | .simple method uri => ProperTarget method uri
  | .full method uri major minor message =>
    ProperTarget method uri ∧ Digits major ∧ Digits minor ∧ message.Proper

def text : RequestText → Bytes
  | .simple method uri => method ++ str " " ++ uri ++ str "\r"
  | .full method uri major minor message =>
    method ++ str " " ++ uri ++ str " " ++ versionText major minor ++ crlf ++ message.text

def Reads (memory : Nat) (r : ParsedRequest) : RequestText → Prop
  | .simple method uri =>
    r = { msg := { versionMajor := 0, versionMinor := 9 }, method := method, uri := uri }
  | .full method uri major minor message =>
    r.method = method ∧ r.uri = uri ∧
      message.Reads memory (method == str "POST" || method == str "PUT") (versioned major minor)
        r.msg

end RequestText

end HttpProxy
