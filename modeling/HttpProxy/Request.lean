import HttpProxy.RequestParser
import HttpProxy.Response

/-!
# `http_Request`

What `setRequest` builds from the client's bytes: the target taken from the Host
headers, the request's own Cache-Control, and the cache key.
-/

namespace HttpProxy

/-- The fields some function of the proxy reads. `Line` and `line_send` hold the
same bytes. `uri` is the cache key once `parseRequest` is through. -/
structure HttpRequest where
  lineSend : Bytes
  request : Bytes := []
  uri : Bytes := []
  method : Bytes := []
  httpVer : Bytes := []
  hostLine : Bytes := []
  hostName : Bytes := []
  hostPort : Bytes := []
  noCache : Bool := false
  maxAge : Int := -1
  maxStale : Int := 0
  minFresh : Int := 0
  deriving DecidableEq, Repr

namespace HttpRequest

/-- The Host branch of the loop in `getHostIp`. -/
def readHost (r : HttpRequest) (hostLine : Bytes) : HttpRequest :=
  match findFirstOf (str ":\r") hostLine with
  | some portStart =>
    { r with hostName := hostLine.take portStart, hostPort := hostLine.drop (portStart + 1) }
  | none => { r with hostName := hostLine, hostPort := str "80" }

/-- The Cache-Control branch of the loop in `getHostIp`. -/
def readCacheControl (r : HttpRequest) (cacheCtrl : Bytes) : Except Exn HttpRequest := do
  let r := if Search.contains (str "no-cache") cacheCtrl then { r with noCache := true } else r
  let maxAge ← findNumber (str "max-age=") cacheCtrl
  let r := if 0 ≤ maxAge then { r with maxAge := maxAge } else r
  let maxStale ← findNumber (str "max-stale=") cacheCtrl
  let r := if 0 ≤ maxStale then { r with maxStale := maxStale } else r
  let minFresh ← findNumber (str "min-fresh=") cacheCtrl
  let r := if 0 ≤ minFresh then { r with minFresh := minFresh } else r
  let r := if Search.contains (str "must-revalidate") cacheCtrl then { r with noCache := true }
    else r
  return r

/-- One header in the loop of `getHostIp`. -/
def readHeader (r : HttpRequest) (it : HeaderItem) : Except Exn HttpRequest :=
  if it.name = str "Host" then .ok (r.readHost it.value)
  else if it.name = str "Cache-Control" then r.readCacheControl it.value
  else .ok r

/-- `getHostIp`. -/
def getHostIp (r : HttpRequest) (headers : List HeaderItem) : Except Exn HttpRequest :=
  headers.foldlM readHeader r

/-- `parseRequest`; `none` is its -1. -/
def parseRequest (memory : Nat) (r : HttpRequest) : Except Exn (Option HttpRequest) :=
  match RequestParser.parse memory r.lineSend with
  | .halt (.completed p) => do
    let r := { r with method := p.method, uri := p.uri, httpVer := httpVersion p.msg }
    let r ← r.getHostIp p.msg.headers
    return some { r with uri := r.hostName ++ r.hostPort ++ r.uri }
  | .halt (.threw e) => .error e
  | .halt .error => .ok none
  | .more _ => .ok none

/-- `getRequestLine`. `find_first_of` looks for one of the characters of its
argument, so the host line starts at the first of `H`, `o`, `s`, `t`, `:` or the
blank. The remainder after the request line is cut out and never used; the cut
can throw. -/
def getRequestLine (r : HttpRequest) : Except Exn HttpRequest := do
  let line := r.lineSend
  let requestLineEnd := findFirstOf (str "\r\n") line
  let request := upTo line requestLineEnd
  let _headerData ← substr line (match requestLineEnd with
    | some i => i + 2
    | none => 1) none
  let hostLineWhole ← (match findFirstOf (str "Host: ") line with
    | some i => substr line i none
    | none => Except.error Exn.outOfRange)
  let hostLineEnd := findFirstOf (str "\r\n") hostLineWhole
  return { r with request := request, hostLine := upTo hostLineWhole hostLineEnd }

/-- `constructRequest` on a new object over the received bytes; `none` is its -1. -/
def constructRequest (memory : Nat) (line : Bytes) : Except Exn (Option HttpRequest) := do
  match ← parseRequest memory { lineSend := line } with
  | none => return none
  | some r => return some (← r.getRequestLine)

/-- What `setRequest` accepts of the client's bytes: the request, if there is one. -/
def accepted (memory : Nat) (line : Bytes) : Option HttpRequest :=
  match constructRequest memory line with
  | .ok o => o
  | .error _ => none

/-- `calFresh`. -/
def calFresh (r : HttpRequest) : Int := r.maxStale - r.minFresh

end HttpRequest

end HttpProxy
