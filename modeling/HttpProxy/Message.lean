import HttpProxy.Base.Scan
import HttpProxy.Bytes

/-!
# Header block and body, as both parsers read them

`HttpRequestParser` and `HttpResponseParser` each carry their own copy of the
states from `HeaderLineStart` on. The copies differ in one place: the request
parser looks at Content-Length and Transfer-Encoding only when the method is
POST or PUT. `bodyStep` is the shared switch, with that test as its argument.
-/

namespace HttpProxy

structure HeaderItem where
  name : Bytes
  value : Bytes
  deriving DecidableEq, Repr

/-- The states of both parsers from the first header line on. -/
inductive BodyState where
  | headerLineStart
  | headerLws
  | headerName
  | spaceBeforeHeaderValue
  | headerValue
  | expectingNewline2
  | expectingNewline3
  | post
  | chunkSize
  | chunkExtensionName
  | chunkExtensionValue
  | chunkSizeNewLine
  | chunkSizeNewLine2
  | chunkSizeNewLine3
  | chunkTrailerName
  | chunkTrailerValue
  | chunkDataNewLine1
  | chunkDataNewLine2
  | chunkData
  deriving DecidableEq, Repr

/-- The fields that `Request` and `Response` share, and the parser's own
`contentSize`, `chunkSizeStr`, `chunkSize` and `chunked`. -/
structure Message where
  versionMajor : Int := 0
  versionMinor : Int := 0
  headers : List HeaderItem := []
  content : Bytes := []
  keepAlive : Bool := false
  contentSize : Nat := 0
  chunkSizeStr : Bytes := []
  chunkSize : Nat := 0
  chunked : Bool := false
  deriving DecidableEq, Repr

/-- How a parser stops: `ParsingCompleted`, `ParsingError`, or an exception out
of `reserve`. -/
inductive Halt (ρ : Type) where
  | completed (r : ρ)
  | error
  | threw (e : Exn)
  deriving DecidableEq, Repr

open Scan (Step)

/-! ## Byte classes of the parsers -/

def isChar (c : UInt8) : Bool := decide (c ≤ 127)

def isControl (c : UInt8) : Bool := decide (c ≤ 31 ∨ c = 127)

def isSpecial (c : UInt8) : Bool := (str "()<>@,;:\\\"/[]?=\x7b\x7d \t").contains c

/-- The test that opens every token: not a character, a control or a special. -/
def notToken (c : UInt8) : Bool := !isChar c || isControl c || isSpecial c

/-! ## Writing into the last header -/

def modifyBack {α : Type} (f : α → α) : List α → List α
  | [] => []
  | [a] => [f a]
  | a :: b :: l => a :: modifyBack f (b :: l)

@[simp] theorem modifyBack_append {α : Type} (f : α → α) (l : List α) (a : α) :
    modifyBack f (l ++ [a]) = l ++ [f a] := by
  induction l with
  | nil => rfl
  | cons b l ih =>
    cases l with
    | nil => rfl
    | cons c l => simpa [modifyBack] using ih

namespace Message

def pushHeader (m : Message) (c : UInt8) : Message :=
  { m with headers := m.headers ++ [⟨[c], []⟩] }

def pushName (m : Message) (c : UInt8) : Message :=
  { m with headers := modifyBack (fun h => { h with name := h.name ++ [c] }) m.headers }

def pushValue (m : Message) (c : UInt8) : Message :=
  { m with headers := modifyBack (fun h => { h with value := h.value ++ [c] }) m.headers }

def pushContent (m : Message) (c : UInt8) : Message := { m with content := m.content ++ [c] }

end Message

/-! ## Reservations -/

/-- `std::vector<char>::max_size()`. -/
def maxSize : Nat := 2 ^ 63 - 1

section
variable (memory : Nat)

/-- `content.reserve(n)`, where `memory` is the largest size that can be allocated. -/
def reserve (n : Nat) : Except Exn Unit :=
  if maxSize < n then .error .lengthError
  else if memory < n then .error .badAlloc
  else .ok ()

/-- The last header is complete: does it say how the body is framed? -/
def readFraming (framed : Bool) (m : Message) : Except Exn Message :=
  match m.headers.getLast? with
  | none => .ok m
  | some h =>
    if !framed then .ok m
    else if strcasecmpEq h.name (str "Content-Length") then do
      let n := toSizeT (atoi h.value)
      reserve memory n
      return { m with contentSize := n }
    else if strcasecmpEq h.name (str "Transfer-Encoding")
        && strcasecmpEq h.value (str "chunked") then
      .ok { m with chunked := true }
    else .ok m

def checkIfConnection (h : HeaderItem) : Bool := strcasecmpEq h.name (str "Connection")

/-- `keepAlive`, decided when the header block ends. -/
def setKeepAlive (m : Message) : Message :=
  match m.headers.find? checkIfConnection with
  | some h => { m with keepAlive := strcasecmpEq h.value (str "Keep-Alive") }
  | none =>
    if 1 < m.versionMajor ∨ m.versionMajor = 1 ∧ m.versionMinor = 1 then
      { m with keepAlive := true }
    else m

/-- The chunk size has been read up to its line end. -/
def readChunkSize (m : Message) : Except Exn Message := do
  let n := toSizeT (strtol 16 m.chunkSizeStr)
  reserve memory (m.content.length + n)
  return { m with chunkSize := n, chunkSizeStr := [] }

/-- One byte of the header block or the body. -/
def bodyStep (framed : Bool) (st : BodyState) (m : Message) (input : UInt8) :
    Step (BodyState × Message) (Halt Message) :=
  match st with
  | .headerLineStart =>
    if input = ch '\r' then .more (.expectingNewline3, m)
    else if !m.headers.isEmpty && (input = ch ' ' || input = ch '\t') then .more (.headerLws, m)
    else if notToken input then .halt .error
    else .more (.headerName, m.pushHeader input)
  | .headerLws =>
    if input = ch '\r' then .more (.expectingNewline2, m)
    else if input = ch ' ' || input = ch '\t' then .more (.headerLws, m)
    else if isControl input then .halt .error
    else .more (.headerValue, m.pushValue input)
  | .headerName =>
    if input = ch ':' then .more (.spaceBeforeHeaderValue, m)
    else if notToken input then .halt .error
    else .more (.headerName, m.pushName input)
  | .spaceBeforeHeaderValue =>
    if input = ch ' ' then .more (.headerValue, m) else .halt .error
  | .headerValue =>
    if input = ch '\r' then
      match readFraming memory framed m with
      | .ok m' => .more (.expectingNewline2, m')
      | .error e => .halt (.threw e)
    else if isControl input then .halt .error
    else .more (.headerValue, m.pushValue input)
  | .expectingNewline2 =>
    if input = ch '\n' then .more (.headerLineStart, m) else .halt .error
  | .expectingNewline3 =>
    let m' := setKeepAlive m
    if m'.chunked then .more (.chunkSize, m')
    else if m'.contentSize = 0 then
      if input = ch '\n' then .halt (.completed m') else .halt .error
    else .more (.post, m')
  | .post =>
    let m' := { m.pushContent input with contentSize := m.contentSize - 1 }
    if m'.contentSize = 0 then .halt (.completed m') else .more (.post, m')
  | .chunkSize =>
    if isAlnum input then
      .more (.chunkSize, { m with chunkSizeStr := m.chunkSizeStr ++ [input] })
    else if input = ch ';' then .more (.chunkExtensionName, m)
    else if input = ch '\r' then .more (.chunkSizeNewLine, m)
    else .halt .error
  | .chunkExtensionName =>
    if isAlnum input || input = ch ' ' then .more (.chunkExtensionName, m)
    else if input = ch '=' then .more (.chunkExtensionValue, m)
    else if input = ch '\r' then .more (.chunkSizeNewLine, m)
    else .halt .error
  | .chunkExtensionValue =>
    if isAlnum input || input = ch ' ' then .more (.chunkExtensionValue, m)
    else if input = ch '\r' then .more (.chunkSizeNewLine, m)
    else .halt .error
  | .chunkSizeNewLine =>
    if input = ch '\n' then
      match readChunkSize memory m with
      | .ok m' => .more (if m'.chunkSize = 0 then .chunkSizeNewLine2 else .chunkData, m')
      | .error e => .halt (.threw e)
    else .halt .error
  | .chunkSizeNewLine2 =>
    if input = ch '\r' then .more (.chunkSizeNewLine3, m)
    else if isAlpha input then .more (.chunkTrailerName, m)
    else .halt .error
  | .chunkSizeNewLine3 =>
    if input = ch '\n' then .halt (.completed m) else .halt .error
  | .chunkTrailerName =>
    if isAlnum input then .more (.chunkTrailerName, m)
    else if input = ch ':' then .more (.chunkTrailerValue, m)
    else .halt .error
  | .chunkTrailerValue =>
    if isAlnum input || input = ch ' ' then .more (.chunkTrailerValue, m)
    else if input = ch '\r' then .more (.chunkSizeNewLine, m)
    else .halt .error
  | .chunkData =>
    let m' := { m.pushContent input with chunkSize := m.chunkSize - 1 }
    .more (if m'.chunkSize = 0 then .chunkDataNewLine1 else .chunkData, m')
  | .chunkDataNewLine1 =>
    if input = ch '\r' then .more (.chunkDataNewLine2, m) else .halt .error
  | .chunkDataNewLine2 =>
    if input = ch '\n' then .more (.chunkSize, m) else .halt .error

end

end HttpProxy
