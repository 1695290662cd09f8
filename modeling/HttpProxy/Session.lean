import HttpProxy.Proxy

/-!
# `Proxy`: from the accepted connection to its end

`runProxy1` with what it calls besides the GET and POST paths: `setRequest`,
`judgeRequest` and the tunnel of `proxyCONNECT`. The rounds of `select` are given in
advance, each with what it reports as readable; after the last of them `select` fails.
-/

namespace HttpProxy

/-- `setRequest`; the request it returns is the member `request`. -/
def setRequest (lineSend : Bytes) : M HttpRequest := do
  let s ← get
  match HttpRequest.constructRequest s.world.libc.memory lineSend with
  | .error e => throw e
  | .ok none =>
    logWhen (4 < lineSend.length) .invalidRequest
    proxyERROR .badRequest400
    throw .exception
  | .ok (some request) =>
    log (.accepted request.request)
    return request

/-- The numbers of the two descriptors. Both are open while `select` runs. -/
structure Descriptors where
  client : Nat
  server : Nat
  apart : client ≠ server

/-- Which of its two descriptors `select` reports. -/
structure Ready where
  client : Bool
  server : Bool

namespace Descriptors

variable (fds : Descriptors)

/-- `maxdes`. -/
def max : Nat := if fds.server < fds.client then fds.client else fds.server

/-- `FD_ISSET(i, &listen_ports)`. -/
def isset (ready : Ready) (i : Nat) : Bool :=
  i == fds.client && ready.client || i == fds.server && ready.server

/-- The connection behind a descriptor that is set. -/
def sock (i : Nat) : Sock := if i = fds.client then .client else .server

end Descriptors

/-- `recvChar` where the number of bytes may outgrow its `int total`: the addition is then
undefined, and the run is given up. -/
def recvBlock (src : Sock) : M Bytes := do
  let data ← recvChar src
  if data.length < 2 ^ 31 then return data else throw .lengthError

/-- The `for` loop over the descriptors `select` may have reported. `false` is its `return`
on an empty receive. -/
def tunnelScan (fds : Descriptors) (ready : Ready) : List Nat → M Bool
  | [] => return true
  | i :: is => do
    if fds.isset ready i then
      let data ← recvBlock (fds.sock i)
      if data.length = 0 then return false
      else
        let _ ← sendVector (if i = fds.server then .client else .server) .tunnel data
        tunnelScan fds ready is
    else tunnelScan fds ready is

/-- The `while` loop, over the rounds in which `select` succeeds: is it still running? -/
def tunnelLoop (fds : Descriptors) : List Ready → M Bool
  | [] => return true
  | ready :: rounds => do
    if ← tunnelScan fds ready (List.range (fds.max + 1)) then tunnelLoop fds rounds
    else return false

def proxyCONNECT (fds : Descriptors) (rounds : List Ready) (req : HttpRequest) : M Unit := do
  connectServer req
  let error ← send .client .established (str "HTTP/1.1 200 OK\r\n\r\n")
  if error < 0 then log .cannotSendBack
  else
    log (.responding (str "HTTP/1.1 200 OK"))
    if ← tunnelLoop fds rounds then
      log .cannotSelect
      throw .exception

def judgeRequest (fds : Descriptors) (rounds : List Ready) (req : HttpRequest) : M Unit := do
  if req.method = str "CONNECT" then
    proxyCONNECT fds rounds req
    log .tunnelClosed
  else if req.method = str "POST" then proxyPOST req
  else if req.method = str "GET" then proxyGET req
  else proxyERROR .badRequest400

/-- `runProxy1`, which catches every exception. -/
def runProxy1 (fds : Descriptors) (rounds : List Ready) : M Unit := do
  try
    let data ← recvBuff .client
    let request ← setRequest data
    judgeRequest fds rounds request
  catch _ => pure ()

end HttpProxy
