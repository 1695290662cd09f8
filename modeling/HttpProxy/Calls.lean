import HttpProxy.Base.Noting
import HttpProxy.Session

/-!
# The calls of `sendall`

The functions that call `sendall`, directly or through others, each with a note of the
buffer and the `int` at every call. A call with a length of 0 or less leaves nothing in the
trace, so what a run was asked to send is only seen here. Whatever calls no `sendall` is
lifted as it is.
-/

namespace HttpProxy

open Noting

/-- A call of `sendall`, with what `*len` holds. -/
structure Call where
  dst : Sock
  what : Payload
  buf : Bytes
  len : Int
  deriving DecidableEq

abbrev Calling := EStateM Exn (Noted St Call)

namespace Calls

def sendall (dst : Sock) (what : Payload) (buf : Bytes) (len : Int) : Calling (Int × Int) := do
  note ⟨dst, what, buf, len⟩
  lift (HttpProxy.sendall dst what buf len)

def sendVector (dst : Sock) (what : Payload) (buf : Bytes) : Calling Int := do
  let r ← sendall dst what buf (toInt32 buf.length)
  return r.1

def relayLoop : Nat → Bytes → Calling Bytes
  | 0, total => return total
  | fuel + 1, total => do
    let chunkMsg ← lift (recvChar .server)
    if chunkMsg.length = 0 then return total
    else
      let _ ← sendVector .client .reply chunkMsg
      relayLoop fuel (total ++ chunkMsg)

def chunkHandle (input : Bytes) : Calling (Option Ref) := do
  if chunkMarked input then
    let _ ← sendVector .client .reply input
    lift (log (.responding (firstLine input)))
    let s ← lift get
    let total ← relayLoop ((pendingBytes s.world.server).length + 1) input
    lift (newResponse total)
  else return none

def forwardSegment (input : Bytes) : Calling (Option Ref) := do
  if input.length ≠ 0 then
    let error ← sendVector .client .reply input
    if error = 0 then
      match ← lift (newResponse input) with
      | some r =>
        lift (log (.responding r.obj.returnResponse))
        return some r
      | none => return none
    else return none
  else return none

def fetchReply (input : Bytes) : Calling (Option Ref) := do
  if check502 input then
    lift (proxyERROR .badGateway502)
    throw .exception
  else
    match ← chunkHandle input with
    | some r => return some r
    | none => forwardSegment input

def proxyFetch (req : HttpRequest) : Calling (Option Ref) := do
  let error ← sendVector .server .request req.lineSend
  if error = 0 then
    lift (log (.requesting req.request req.hostName))
    let input ← lift (recvBuff .server)
    lift (log (.received (firstLine input) req.hostName))
    fetchReply input
  else return none

def validationReply (cached : Ref) (url reply : Bytes) : Calling Unit := do
  match ← lift (newResponse reply) with
  | none => return ()
  | some new =>
    lift (log (.responding new.obj.returnResponse))
    if new.obj.statusCode = 200 then
      let removed ← lift (cachePut url new)
      lift (logWhen (removed.length ≠ 0) (.evicted removed))
      let _ ← sendVector .client .reply reply
    else if new.obj.statusCode = 304 then
      let _ ← sendVector .client (.cached cached.addr) cached.obj.lineRecv
    else
      let _ ← sendVector .client .reply reply

def handleValidation (req : HttpRequest) (cached : Ref) (url : Bytes) : Calling Unit := do
  lift (connectServer req)
  lift (log (.requesting req.request req.hostName))
  let _ ← sendVector .server .validation (constructValidation req cached.obj)
  let reply ← lift (recvBuff .server)
  lift (log (.received (firstLine reply) req.hostName))
  validationReply cached url reply

def serveMiss (req : HttpRequest) : Calling Unit := do
  lift (log .notInCache)
  lift (connectServer req)
  match ← proxyFetch req with
  | some r => lift (storeFetched req.uri r)
  | none => return ()

def serveHit (req : HttpRequest) (resp : Ref) : Calling Unit := do
  let s ← lift get
  if s.cache.checkExpire req.uri req.maxAge s.world.now then
    lift (log (.expiredAt (if resp.obj.expires ≠ 0 then resp.obj.expires
      else resp.obj.date + minMaxAge resp.obj.maxAge req.maxAge)))
    handleValidation req resp req.uri
  else if needsValidation req resp.obj s.world.now then
    lift (log .requiresValidation)
    handleValidation req resp req.uri
  else
    lift (log .valid)
    let _ ← sendVector .client (.cached resp.addr) resp.obj.lineRecv

def proxyGET (req : HttpRequest) : Calling Unit := do
  match ← lift (cacheGet req.uri) with
  | none => serveMiss req
  | some resp => serveHit req resp

def proxyPOST (req : HttpRequest) : Calling Unit := do
  lift (connectServer req)
  match ← proxyFetch req with
  | some r => lift (deleteResponse r)
  | none => return ()

def tunnelScan (fds : Descriptors) (ready : Ready) : List Nat → Calling Bool
  | [] => return true
  | i :: is => do
    if fds.isset ready i then
      let data ← lift (recvBlock (fds.sock i))
      if data.length = 0 then return false
      else
        let _ ← sendVector (if i = fds.server then .client else .server) .tunnel data
        tunnelScan fds ready is
    else tunnelScan fds ready is

def tunnelLoop (fds : Descriptors) : List Ready → Calling Bool
  | [] => return true
  | ready :: rounds => do
    if ← tunnelScan fds ready (List.range (fds.max + 1)) then tunnelLoop fds rounds
    else return false

def proxyCONNECT (fds : Descriptors) (rounds : List Ready) (req : HttpRequest) : Calling Unit := do
  lift (connectServer req)
  let error ← lift (send .client .established (str "HTTP/1.1 200 OK\r\n\r\n"))
  if error < 0 then lift (log .cannotSendBack)
  else
    lift (log (.responding (str "HTTP/1.1 200 OK")))
    if ← tunnelLoop fds rounds then
      lift (log .cannotSelect)
      throw .exception

def judgeRequest (fds : Descriptors) (rounds : List Ready) (req : HttpRequest) : Calling Unit := do
  if req.method = str "CONNECT" then
    proxyCONNECT fds rounds req
    lift (log .tunnelClosed)
  else if req.method = str "POST" then proxyPOST req
  else if req.method = str "GET" then proxyGET req
  else lift (proxyERROR .badRequest400)

def runProxy1 (fds : Descriptors) (rounds : List Ready) : Calling Unit := do
  try
    let data ← lift (recvBuff .client)
    let request ← lift (setRequest data)
    judgeRequest fds rounds request
  catch _ => pure ()

end Calls

end HttpProxy
