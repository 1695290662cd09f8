import HttpProxy.ResponseParser

/-!
# `http_Response`

The object the proxy keeps for a reply: the bytes as received, and what
`get_cache_expire` reads out of the headers. Nothing writes to it after
`parseResponse` has returned.
-/

namespace HttpProxy

/-- What a run has from the C library: the reading of `time(0)`, `strptime` with the
proxy's format followed by `mktime`, `none` where `strptime` finds no date, and the
largest size that can be allocated. -/
structure Libc where
  time : Int
  strptime : Bytes → Option Int
  memory : Nat

/-- The fields some function of the proxy reads. `Line` repeats `lineRecv` as a
string and `socket_server` is never read. -/
structure HttpResponse where
  lineRecv : Bytes
  httpVer : Bytes := []
  statusCode : Nat := 0
  status : Bytes := []
  cacheCtrl : Bytes := []
  etags : Bytes := []
  lastStr : Bytes := []
  noCacheReason : Bytes := []
  date : Int := 0
  expires : Int := 0
  maxAge : Int := -1
  noStore : Bool := false
  noCache : Bool := false
  ifChunk : Bool := false
  deriving DecidableEq, Repr

/-- `findNumber`, the same in `http_Request` and `http_Response`: the number
after the first `header` in `cacheCtrl`, up to a comma; -1 when there is none. -/
def findNumber (header cacheCtrl : Bytes) : Except Exn Int :=
  match Search.find header cacheCtrl with
  | none => .ok (-1)
  | some filedStart => do
    let filedWhole ← substr cacheCtrl (filedStart + header.length) none
    let filedEnd := match Search.find (str ",") filedWhole with
      | some i => some i
      | none => Search.find (str "\r\n") filedWhole
    stoi (upTo filedWhole filedEnd)

namespace HttpResponse

/-- `stringTotime`. -/
def stringTotime (libc : Libc) (timeStr : Bytes) : Int :=
  match libc.strptime timeStr with
  | none => -1
  | some ti => ti

/-- The Cache-Control branch of the loop in `get_cache_expire`. -/
def readCacheControl (r : HttpResponse) (value : Bytes) : Except Exn HttpResponse := do
  let r := { r with cacheCtrl := value }
  let n ← findNumber (str "max-age=") value
  let r := if 0 ≤ n then { r with maxAge := n } else r
  let r := if Search.contains (str "no-store") value then
      { r with noCacheReason := r.noCacheReason ++ str "no-store", noStore := true }
    else r
  let r := if Search.contains (str "no-cache") value then { r with noCache := true } else r
  let r := if Search.contains (str "must-revalidate") value then { r with noCache := true } else r
  let r := if Search.contains (str "private") value then
      { r with
        noCacheReason := (if r.noCacheReason.length ≠ 0 then r.noCacheReason ++ str " "
          else r.noCacheReason) ++ str "private"
        noStore := true }
    else r
  return r

/-- One header in the loop of `get_cache_expire`. -/
def readHeader (libc : Libc) (r : HttpResponse) (it : HeaderItem) : Except Exn HttpResponse :=
  if it.name = str "Cache-Control" then r.readCacheControl it.value
  else if it.name = str "Expires" then
    if it.value = str "-1" then .ok { r with expires := -1 }
    else .ok { r with expires := stringTotime libc it.value }
  else if it.name = str "Date" then .ok { r with date := libc.time }
  else if it.name = str "Last-Modified" then .ok { r with lastStr := it.value }
  else if it.name = str "ETag" then .ok { r with etags := it.value }
  else if it.name = str "Transfer-Encoding" then
    .ok (if Search.contains (str "chunked") it.value then { r with ifChunk := true } else r)
  else .ok r

/-- `get_cache_expire`. -/
def getCacheExpire (libc : Libc) (r : HttpResponse) (headers : List HeaderItem) :
    Except Exn HttpResponse :=
  headers.foldlM (readHeader libc) r

/-- `return_response`. -/
def returnResponse (r : HttpResponse) : Bytes :=
  r.httpVer ++ str " " ++ showNat r.statusCode ++ str " " ++ r.status

end HttpResponse

/-- `http_ver` as both classes print it. -/
def httpVersion (m : Message) : Bytes :=
  str "HTTP/" ++ showInt m.versionMajor ++ str "." ++ showInt m.versionMinor

/-- `parseResponse` on a new object over `lr`: the object it leaves, `none` for
its -1, or the exception it lets through. -/
def parseResponse (libc : Libc) (lr : Bytes) : Except Exn (Option HttpResponse) :=
  match ResponseParser.parse libc.memory lr with
  | .halt (.completed p) => do
    let r : HttpResponse :=
      { lineRecv := lr, status := p.status, statusCode := p.statusCode, httpVer := httpVersion p.msg }
    some <$> r.getCacheExpire libc p.msg.headers
  | .halt (.threw e) => .error e
  | .halt .error => .ok none
  | .more _ => .ok none

end HttpProxy
