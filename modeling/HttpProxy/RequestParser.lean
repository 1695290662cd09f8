import HttpProxy.Message

/-!
# `HttpRequestParser`

The request line, byte by byte, then the shared header and body states. A
request line that ends after the URI is an HTTP/0.9 request and complete at its
carriage return.
-/

namespace HttpProxy

open Scan (Step)

namespace RequestParser

/-- The `Response*` members that the source's enumeration also lists are reached
by no transition, `ResponseHttpVersion_newLine` apart. -/
inductive State where
  | requestMethodStart
  | requestMethod
  | requestUriStart
  | requestUri
  | requestHttpVersionH
  | requestHttpVersionHt
  | requestHttpVersionHtt
  | requestHttpVersionHttp
  | requestHttpVersionSlash
  | requestHttpVersionMajorStart
  | requestHttpVersionMajor
  | requestHttpVersionMinorStart
  | requestHttpVersionMinor
  | responseHttpVersionNewLine
  | body (s : BodyState)
  deriving DecidableEq, Repr

end RequestParser

/-- `httpparser::Request` under construction. -/
structure ParsedRequest where
  msg : Message := {}
  method : Bytes := []
  uri : Bytes := []
  deriving DecidableEq, Repr

namespace RequestParser

def digit (input : UInt8) : Nat := input.toNat - 48

def expect (input : UInt8) (c : Char) (next : State) (r : ParsedRequest) :
    Step (State × ParsedRequest) (Halt ParsedRequest) :=
  if input = ch c then .more (next, r) else .halt .error

/-- Only these methods have their framing headers read. -/
def framed (r : ParsedRequest) : Bool := r.method == str "POST" || r.method == str "PUT"

def step (memory : Nat) :
    State × ParsedRequest → UInt8 → Step (State × ParsedRequest) (Halt ParsedRequest)
  | (st, r), input =>
    match st with
    | .requestMethodStart =>
      if notToken input then .halt .error
      else .more (.requestMethod, { r with method := r.method ++ [input] })
    | .requestMethod =>
      if input = ch ' ' then .more (.requestUriStart, r)
      else if notToken input then .halt .error
      else .more (.requestMethod, { r with method := r.method ++ [input] })
    | .requestUriStart =>
      if isControl input then .halt .error
      else .more (.requestUri, { r with uri := r.uri ++ [input] })
    | .requestUri =>
      if input = ch ' ' then .more (.requestHttpVersionH, r)
      else if input = ch '\r' then
        .halt (.completed { r with msg := { r.msg with versionMajor := 0, versionMinor := 9 } })
      else if isControl input then .halt .error
      else .more (.requestUri, { r with uri := r.uri ++ [input] })
    | .requestHttpVersionH => expect input 'H' .requestHttpVersionHt r
    | .requestHttpVersionHt => expect input 'T' .requestHttpVersionHtt r
    | .requestHttpVersionHtt => expect input 'T' .requestHttpVersionHttp r
    | .requestHttpVersionHttp => expect input 'P' .requestHttpVersionSlash r
    | .requestHttpVersionSlash =>
      expect input '/' .requestHttpVersionMajorStart
        { r with msg := { r.msg with versionMajor := 0, versionMinor := 0 } }
    | .requestHttpVersionMajorStart =>
      if isDigit input then
        .more (.requestHttpVersionMajor,
          { r with msg := { r.msg with versionMajor := digit input } })
      else .halt .error
    | .requestHttpVersionMajor =>
      if input = ch '.' then .more (.requestHttpVersionMinorStart, r)
      else if isDigit input then
        .more (.requestHttpVersionMajor,
          { r with msg := { r.msg with
            versionMajor := toInt32 (r.msg.versionMajor * 10 + digit input) } })
      else .halt .error
    | .requestHttpVersionMinorStart =>
      if isDigit input then
        .more (.requestHttpVersionMinor,
          { r with msg := { r.msg with versionMinor := digit input } })
      else .halt .error
    | .requestHttpVersionMinor =>
      if input = ch '\r' then .more (.responseHttpVersionNewLine, r)
      else if isDigit input then
        .more (.requestHttpVersionMinor,
          { r with msg := { r.msg with
            versionMinor := toInt32 (r.msg.versionMinor * 10 + digit input) } })
      else .halt .error
    | .responseHttpVersionNewLine => expect input '\n' (.body .headerLineStart) r
    | .body b =>
      match bodyStep memory (framed r) b r.msg input with
      | .more (b', m) => .more (.body b', { r with msg := m })
      | .halt (.completed m) => .halt (.completed { r with msg := m })
      | .halt .error => .halt .error
      | .halt (.threw e) => .halt (.threw e)

def init : State × ParsedRequest := (.requestMethodStart, {})

/-- `parse`: `more` is `ParsingIncompleted`. -/
def parse (memory : Nat) (bytes : Bytes) : Step (State × ParsedRequest) (Halt ParsedRequest) :=
  Scan.run (step memory) init bytes

end RequestParser

end HttpProxy
