import HttpProxy.Net

/-!
# `Proxy`: the GET and POST paths

The functions of `proxy.cpp` that serve a request, one for one. Console output
is left out.
-/

namespace HttpProxy

def errorLine : ErrorCode → Bytes
  | .badRequest400 => str "HTTP/1.1 400 Bad Request\r\n\r\n"
  | .notFound404 => str "HTTP/1.1 404 Not Found\r\n\r\n"
  | .badGateway502 => str "HTTP/1.1 502 Bad Gateway\r\n\r\n"

/-- `if (c) log(line)`. -/
def logWhen (c : Prop) [Decidable c] (line : LogLine) : M Unit :=
  if c then log line else return ()

def proxyERROR (code : ErrorCode) : M Unit := do
  let resp := errorLine code
  let _ ← send .client (.errorLine code) resp
  log (.responding (resp.take (resp.length - 4)))

/-- `connectServer`; the descriptor it returns is `Sock.server`. -/
def connectServer (req : HttpRequest) : M Unit := do
  emit (.lookup req.hostName req.hostPort)
  match (← get).world.connect with
  | .noAddress =>
    log .noAddressInfo
    proxyERROR .notFound404
    throw .exception
  | .noSocket =>
    log .noSocket
    proxyERROR .notFound404
    throw .exception
  | .refused =>
    emit .opened
    log .cannotConnect
    proxyERROR .notFound404
    throw .exception
  | .connected =>
    emit .opened
    emit .connected

/-- `check502`: is there no end of a header block? -/
def check502 (input : Bytes) : Bool := !Search.contains (str "\r\n\r\n") input

/-- The first line of a message, as the log shows it. -/
def firstLine (input : Bytes) : Bytes := upTo input (Search.find (str "\r\n") input)

/-- `chunkHandle`'s test. The second argument of `substr` is a length, and the
code passes the position of the newline. -/
def chunkMarked (input : Bytes) : Bool :=
  match Search.find (str "Transfer-Encoding:") input with
  | none => false
  | some start =>
    Search.contains (str "chunked") (upTo (input.drop start) (findFrom (str "\n") input start))

/-- The receiving and forwarding loop of `chunkHandle`; `total` at its end. Every
round but the last receives a byte. -/
def relayLoop : Nat → Bytes → M Bytes
  | 0, total => return total
  | fuel + 1, total => do
    let chunkMsg ← recvChar .server
    if chunkMsg.length = 0 then return total
    else
      let _ ← sendVector .client .reply chunkMsg
      relayLoop fuel (total ++ chunkMsg)

def chunkHandle (input : Bytes) : M (Option Ref) := do
  if chunkMarked input then
    let _ ← sendVector .client .reply input
    log (.responding (firstLine input))
    let s ← get
    let total ← relayLoop ((pendingBytes s.world.server).length + 1) input
    newResponse total
  else return none

/-- The end of `proxyFetch`, for a reply that `chunkHandle` returned NULL for. -/
def forwardSegment (input : Bytes) : M (Option Ref) := do
  if input.length ≠ 0 then
    let error ← sendVector .client .reply input
    if error = 0 then
      match ← newResponse input with
      | some r =>
        log (.responding r.obj.returnResponse)
        return some r
      | none => return none
    else return none
  else return none

/-- `proxyFetch` from `check502` on. -/
def fetchReply (input : Bytes) : M (Option Ref) := do
  if check502 input then
    proxyERROR .badGateway502
    throw .exception
  else
    match ← chunkHandle input with
    | some r => return some r
    | none => forwardSegment input

def proxyFetch (req : HttpRequest) : M (Option Ref) := do
  let error ← sendVector .server .request req.lineSend
  if error = 0 then
    log (.requesting req.request req.hostName)
    let input ← recvBuff .server
    log (.received (firstLine input) req.hostName)
    fetchReply input
  else return none

def constructValidation (req : HttpRequest) (r : HttpResponse) : Bytes :=
  if r.lastStr.length ≠ 0 ∨ r.etags.length ≠ 0 then
    req.request ++ str "\r\n" ++ str "Host:" ++ req.hostLine ++ str "\r\n"
      ++ (if r.lastStr.length ≠ 0 then str "If-Modified-Since: " ++ r.lastStr ++ str "\r\n" else [])
      ++ (if r.etags.length ≠ 0 then str "If-None-Match: " ++ r.etags ++ str "\r\n" else [])
      ++ str "\r\n"
  else req.lineSend

/-- `HandleValidation` once the reply is there. -/
def validationReply (cached : Ref) (url reply : Bytes) : M Unit := do
  match ← newResponse reply with
  | none => return ()
  | some new =>
    log (.responding new.obj.returnResponse)
    if new.obj.statusCode = 200 then
      let removed ← cachePut url new
      logWhen (removed.length ≠ 0) (.evicted removed)
      let _ ← sendVector .client .reply reply
    else if new.obj.statusCode = 304 then
      let _ ← sendVector .client (.cached cached.addr) cached.obj.lineRecv
    else
      let _ ← sendVector .client .reply reply

def handleValidation (req : HttpRequest) (cached : Ref) (url : Bytes) : M Unit := do
  connectServer req
  log (.requesting req.request req.hostName)
  let _ ← sendVector .server .validation (constructValidation req cached.obj)
  let reply ← recvBuff .server
  log (.received (firstLine reply) req.hostName)
  validationReply cached url reply

/-- The smaller of two max-ages that are present, the present one, or -1. -/
def minMaxAge (maxAge rmaxAge : Int) : Int :=
  if maxAge ≠ -1 ∧ rmaxAge ≠ -1 then (if rmaxAge < maxAge then rmaxAge else maxAge)
  else (if maxAge < rmaxAge then rmaxAge else maxAge)

/-- The formula of `checkExpire`. -/
def expired (resp : HttpResponse) (rmaxAge currTime : Int) : Bool :=
  !((decide (currTime - resp.date < minMaxAge resp.maxAge rmaxAge)
      || decide (minMaxAge resp.maxAge rmaxAge = -1))
    && (decide (currTime < resp.expires) || decide (resp.expires = 0)))

def LruCache.checkExpire (c : LruCache Ref) (url : Bytes) (rmaxAge currTime : Int) : Bool :=
  match c.find url with
  | some (some resp) => expired resp.obj rmaxAge currTime
  | _ => true

/-- `proxyGET`'s test for an unexpired response. -/
def needsValidation (req : HttpRequest) (r : HttpResponse) (now : Int) : Bool :=
  req.noCache || r.noCache || decide (now < r.maxAge + req.calFresh + r.date)

def receiveLog (r : HttpResponse) : M Unit := do
  logWhen (r.etags.length ≠ 0) (.noteEtags r.etags)
  logWhen (r.cacheCtrl ≠ []) (.noteCacheControl r.cacheCtrl)
  if r.noCacheReason.length ≠ 0 then log (.notCacheable r.noCacheReason)
  else if r.noCache then log .cachedRevalidate
  else if r.maxAge = -1 ∧ r.expires = 0 then log .cachedNoExpiry
  else if r.maxAge ≠ -1 then log (.cachedExpiresAt (r.date + r.maxAge))
  else log (.cachedExpiresAt r.expires)

/-- The store decision of `proxyGET` after a fetch. -/
def storeFetched (url : Bytes) (r : Ref) : M Unit := do
  if r.obj.statusCode = 200 then
    receiveLog r.obj
    if r.obj.noStore = false then
      let removed ← cachePut url r
      logWhen (removed.length ≠ 0) (.evicted removed)

/-- `proxyGET` when the key is not in the cache. -/
def serveMiss (req : HttpRequest) : M Unit := do
  log .notInCache
  connectServer req
  match ← proxyFetch req with
  | some r => storeFetched req.uri r
  | none => return ()

/-- `proxyGET` when the key is in the cache. -/
def serveHit (req : HttpRequest) (resp : Ref) : M Unit := do
  let s ← get
  if s.cache.checkExpire req.uri req.maxAge s.world.now then
    log (.expiredAt (if resp.obj.expires ≠ 0 then resp.obj.expires
      else resp.obj.date + minMaxAge resp.obj.maxAge req.maxAge))
    handleValidation req resp req.uri
  else if needsValidation req resp.obj s.world.now then
    log .requiresValidation
    handleValidation req resp req.uri
  else
    log .valid
    let _ ← sendVector .client (.cached resp.addr) resp.obj.lineRecv

def proxyGET (req : HttpRequest) : M Unit := do
  match ← cacheGet req.uri with
  | none => serveMiss req
  | some resp => serveHit req resp

def proxyPOST (req : HttpRequest) : M Unit := do
  connectServer req
  match ← proxyFetch req with
  | some r => deleteResponse r
  | none => return ()

end HttpProxy
