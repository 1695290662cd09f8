import HttpProxy.Message

/-!
# `HttpResponseParser`

The status line, byte by byte, then the shared header and body states.
-/

namespace HttpProxy

open Scan (Step)

namespace ResponseParser

inductive State where
  | responseStatusStart
  | responseHttpVersionHt
  | responseHttpVersionHtt
  | responseHttpVersionHttp
  | responseHttpVersionSlash
  | responseHttpVersionMajorStart
  | responseHttpVersionMajor
  | responseHttpVersionMinorStart
  | responseHttpVersionMinor
  | responseHttpVersionStatusCodeStart
  | responseHttpVersionStatusCode
  | responseHttpVersionStatusTextStart
  | responseHttpVersionStatusText
  | responseHttpVersionNewLine
  | body (s : BodyState)
  deriving DecidableEq, Repr

end ResponseParser

/-- `httpparser::Response` under construction. `statusCode` is an `unsigned int`. -/
structure Response where
  msg : Message := {}
  statusCode : Nat := 0
  status : Bytes := []
  deriving DecidableEq, Repr

namespace ResponseParser

/-- The value of a digit as the parser computes it, `input - '0'`. -/
def digit (input : UInt8) : Nat := input.toNat - 48

/-- One byte of a literal: the expected one, or an error. -/
def expect (input : UInt8) (c : Char) (next : State) (r : Response) :
    Step (State × Response) (Halt Response) :=
  if input = ch c then .more (next, r) else .halt .error

def step (memory : Nat) : State × Response → UInt8 → Step (State × Response) (Halt Response)
  | (st, r), input =>
    match st with
    | .responseStatusStart => expect input 'H' .responseHttpVersionHt r
    | .responseHttpVersionHt => expect input 'T' .responseHttpVersionHtt r
    | .responseHttpVersionHtt => expect input 'T' .responseHttpVersionHttp r
    | .responseHttpVersionHttp => expect input 'P' .responseHttpVersionSlash r
    | .responseHttpVersionSlash =>
      expect input '/' .responseHttpVersionMajorStart
        { r with msg := { r.msg with versionMajor := 0, versionMinor := 0 } }
    | .responseHttpVersionMajorStart =>
      if isDigit input then
        .more (.responseHttpVersionMajor,
          { r with msg := { r.msg with versionMajor := digit input } })
      else .halt .error
    | .responseHttpVersionMajor =>
      if input = ch '.' then .more (.responseHttpVersionMinorStart, r)
      else if isDigit input then
        .more (.responseHttpVersionMajor,
          { r with msg := { r.msg with
            versionMajor := toInt32 (r.msg.versionMajor * 10 + digit input) } })
      else .halt .error
    | .responseHttpVersionMinorStart =>
      if isDigit input then
        .more (.responseHttpVersionMinor,
          { r with msg := { r.msg with versionMinor := digit input } })
      else .halt .error
    | .responseHttpVersionMinor =>
      if input = ch ' ' then
        .more (.responseHttpVersionStatusCodeStart, { r with statusCode := 0 })
      else if isDigit input then
        .more (.responseHttpVersionMinor,
          { r with msg := { r.msg with
            versionMinor := toInt32 (r.msg.versionMinor * 10 + digit input) } })
      else .halt .error
    | .responseHttpVersionStatusCodeStart =>
      if isDigit input then
        .more (.responseHttpVersionStatusCode, { r with statusCode := digit input })
      else .halt .error
    | .responseHttpVersionStatusCode =>
      if isDigit input then
        -- unsigned arithmetic wraps, so a long run of digits can come back to 200
        .more (.responseHttpVersionStatusCode,
          { r with statusCode := (r.statusCode * 10 + digit input) % 2 ^ 32 })
      else if r.statusCode < 100 ∨ 999 < r.statusCode then .halt .error
      else if input = ch ' ' then .more (.responseHttpVersionStatusTextStart, r)
      else .halt .error
    | .responseHttpVersionStatusTextStart =>
      if isChar input then
        .more (.responseHttpVersionStatusText, { r with status := r.status ++ [input] })
      else .halt .error
    | .responseHttpVersionStatusText =>
      if input = ch '\r' then .more (.responseHttpVersionNewLine, r)
      else if isChar input then
        .more (.responseHttpVersionStatusText, { r with status := r.status ++ [input] })
      else .halt .error
    | .responseHttpVersionNewLine => expect input '\n' (.body .headerLineStart) r
    | .body b =>
      match bodyStep memory true b r.msg input with
      | .more (b', m) => .more (.body b', { r with msg := m })
      | .halt (.completed m) => .halt (.completed { r with msg := m })
      | .halt .error => .halt .error
      | .halt (.threw e) => .halt (.threw e)

def init : State × Response := (.responseStatusStart, {})

/-- `parse`: `more` is `ParsingIncompleted`. -/
def parse (memory : Nat) (bytes : Bytes) : Step (State × Response) (Halt Response) :=
  Scan.run (step memory) init bytes

/-- Completion is decided by the bytes read so far. -/
theorem parse_append_halt {memory : Nat} {bytes : Bytes} {r : Halt Response} (more : Bytes)
    (h : parse memory bytes = .halt r) : parse memory (bytes ++ more) = .halt r :=
  Scan.run_append_halt (step memory) more h

example : (match parse 2 (str "HTTP/1.1 200 OK\r\nContent-Length: 2\r\n\r\nhi") with
    | .halt (.completed r) => some (r.statusCode, r.msg.content)
    | _ => none) = some (200, str "hi") := by decide +kernel

example : (match parse (2 ^ 40)
      (str "HTTP/1.1 200 OK\r\nTransfer-Encoding: chunked\r\n\r\n7fffffffffff\r\n") with
    | .halt (.threw e) => some e
    | _ => none) = some .badAlloc := by decide +kernel

end ResponseParser

end HttpProxy
