import HttpProxy.Cache
import HttpProxy.Request
import Mathlib.Data.Finset.Insert
import Mathlib.Data.Finset.Erase

/-!
# Sockets, the heap and the run of one proxy

A run is a program over `St`: the shared cache and heap of response objects, what
the operating system will still answer (`World`), and the trace of what the run
has done. `send` and `recv` take their results from the world: a `send` may
accept part of its range or fail, a `recv` gives at most what it asks for and
leaves the rest. After its last entry the peer has closed the connection.
-/

namespace HttpProxy

/-- The two descriptors of a proxy. An open one is never handed out again, so
they differ. -/
inductive Sock where
  | client
  | server
  deriving DecidableEq, Repr

inductive ErrorCode where
  | badRequest400
  | notFound404
  | badGateway502
  deriving DecidableEq, Repr

/-- Which buffer a `send` reads from. -/
inductive Payload where
  | errorLine (code : ErrorCode)
  | request
  | validation
  | reply
  | cached (addr : Nat)
  | established
  | tunnel
  deriving DecidableEq, Repr

/-- One result of `recv`: some bytes, none of them at the end of the stream, or -1. -/
inductive Recv where
  | data (bs : Bytes)
  | fail
  deriving DecidableEq, Repr

/-- One result of `send`: a positive number of bytes, cut to what is asked, or -1. -/
inductive SendResult where
  | took (n : Nat)
  | fail
  deriving DecidableEq, Repr

/-- How `getaddrinfo`, `socket` and `connect` turn out. -/
inductive ConnectResult where
  | noAddress
  | noSocket
  | refused
  | connected
  deriving DecidableEq, Repr

/-- What the operating system answers in a run. `now` is the reading of `time(0)`
while a cached response is judged, `libc` what a reply is parsed against, and
`uninit` what `sendall` finds in its uninitialised `n`. -/
structure World where
  connect : ConnectResult := .connected
  client : List Recv := []
  server : List Recv := []
  sends : List SendResult := []
  now : Int := 0
  libc : Libc := ⟨0, fun _ => none, 2 ^ 40⟩
  uninit : Int := 0

/-- A pointer to a response object, with the object: it is complete before the
pointer is shared and never written afterwards. -/
structure Ref where
  addr : Nat
  obj : HttpResponse
  deriving DecidableEq, Repr

/-- The lines of the log file, without the request number they start with and the
client's address. -/
inductive LogLine where
  | noAddressInfo
  | noSocket
  | cannotConnect
  | responding (line : Bytes)
  | requesting (line host : Bytes)
  | received (line host : Bytes)
  | notInCache
  | expiredAt (t : Int)
  | requiresValidation
  | valid
  | evicted (url : Bytes)
  | noteEtags (etags : Bytes)
  | noteCacheControl (value : Bytes)
  | notCacheable (reason : Bytes)
  | cachedRevalidate
  | cachedNoExpiry
  | cachedExpiresAt (t : Int)
  | invalidRequest
  | accepted (line : Bytes)
  | cannotSendBack
  | cannotSelect
  | tunnelClosed
  deriving DecidableEq, Repr

/-- What a run does: log, look a host up, get a descriptor, connect, and each call
of `send` with its range and result and of `recv` with its result. -/
inductive Event where
  | log (line : LogLine)
  | lookup (host port : Bytes)
  | opened
  | connected
  | send (dst : Sock) (what : Payload) (range : Bytes) (n : Int)
  | recv (src : Sock) (r : Recv)
  deriving DecidableEq, Repr

/-- The state of a run. `ledger` holds the response objects that exist. -/
structure St where
  cache : LruCache Ref
  ledger : Finset Nat
  next : Nat
  world : World
  trace : List Event

abbrev M := EStateM Exn St

/-! ## What a trace says -/

namespace Event

/-- The bytes this event put on the socket. -/
def sentTo (dst : Sock) : Event → Bytes
  | .send dst' _ range n => if dst' = dst then range.take n.toNat else []
  | _ => []

/-- The bytes this event took from the socket. -/
def gotFrom (src : Sock) : Event → Bytes
  | .recv src' (.data bs) => if src' = src then bs else []
  | _ => []

@[simp] theorem sentTo_log (dst : Sock) (line : LogLine) : sentTo dst (.log line) = [] := rfl
@[simp] theorem sentTo_recv (dst src : Sock) (r : Recv) : sentTo dst (.recv src r) = [] := rfl
@[simp] theorem gotFrom_log (src : Sock) (line : LogLine) : gotFrom src (.log line) = [] := rfl
@[simp] theorem gotFrom_send (src dst : Sock) (what : Payload) (range : Bytes) (n : Int) :
    gotFrom src (.send dst what range n) = [] := rfl
@[simp] theorem gotFrom_data (src : Sock) (bs : Bytes) :
    gotFrom src (.recv src (.data bs)) = bs := if_pos rfl
@[simp] theorem gotFrom_fail (src src' : Sock) : gotFrom src (.recv src' .fail) = [] := rfl

end Event

def bytesTo (dst : Sock) (t : List Event) : Bytes := t.flatMap (Event.sentTo dst)

def bytesFrom (src : Sock) (t : List Event) : Bytes := t.flatMap (Event.gotFrom src)

@[simp] theorem bytesTo_nil (dst : Sock) : bytesTo dst [] = [] := rfl

@[simp] theorem bytesTo_append (dst : Sock) (s t : List Event) :
    bytesTo dst (s ++ t) = bytesTo dst s ++ bytesTo dst t := List.flatMap_append

@[simp] theorem bytesTo_cons (dst : Sock) (e : Event) (t : List Event) :
    bytesTo dst (e :: t) = e.sentTo dst ++ bytesTo dst t := List.flatMap_cons

theorem bytesTo_singleton (dst : Sock) (e : Event) : bytesTo dst [e] = e.sentTo dst := by
  simp [bytesTo]

@[simp] theorem bytesFrom_nil (src : Sock) : bytesFrom src [] = [] := rfl

@[simp] theorem bytesFrom_append (src : Sock) (s t : List Event) :
    bytesFrom src (s ++ t) = bytesFrom src s ++ bytesFrom src t := List.flatMap_append

@[simp] theorem bytesFrom_cons (src : Sock) (e : Event) (t : List Event) :
    bytesFrom src (e :: t) = e.gotFrom src ++ bytesFrom src t := List.flatMap_cons

/-! ## Primitives -/

def emit (e : Event) : M Unit := modify fun s => { s with trace := s.trace ++ [e] }

def log (line : LogLine) : M Unit := emit (.log line)

def takeSend (len : Nat) : List SendResult → Int × List SendResult
  | [] => (len, [])
  | .fail :: rest => (-1, rest)
  | .took n :: rest => ((min len (max 1 n) : Nat), rest)

/-- `send(s, range, length, 0)`. -/
def send (dst : Sock) (what : Payload) (range : Bytes) : M Int := do
  let s ← get
  let r := takeSend range.length s.world.sends
  set { s with world := { s.world with sends := r.2 } }
  emit (.send dst what range r.1)
  return r.1

def takeRecv (n : Nat) : List Recv → Recv × List Recv
  | [] => (.data [], [])
  | .fail :: rest => (.fail, rest)
  | .data bs :: rest =>
    if bs.length ≤ n then (.data bs, rest) else (.data (bs.take n), .data (bs.drop n) :: rest)

def World.pending (w : World) : Sock → List Recv
  | .client => w.client
  | .server => w.server

def World.setPending (w : World) (src : Sock) (rest : List Recv) : World :=
  match src with
  | .client => { w with client := rest }
  | .server => { w with server := rest }

/-- `recv(src, buffer, n, 0)`. -/
def recv (src : Sock) (n : Nat) : M Recv := do
  let s ← get
  let r := takeRecv n (s.world.pending src)
  set { s with world := s.world.setPending src r.2 }
  emit (.recv src r.1)
  return r.1

/-- `new http_Response` and `parseResponse` on it. The object is in the ledger
whatever the parse says. -/
def newResponse (lineRecv : Bytes) : M (Option Ref) := do
  let s ← get
  set { s with next := s.next + 1, ledger := insert s.next s.ledger }
  match parseResponse s.world.libc lineRecv with
  | .ok (some r) => return some ⟨s.next, r⟩
  | .ok none => return none
  | .error e => throw e

/-- `delete`. -/
def deleteResponse (r : Ref) : M Unit := modify fun s => { s with ledger := s.ledger.erase r.addr }

def cacheGet (url : Bytes) : M (Option Ref) :=
  modifyGet fun s => ((s.cache.get url).1, { s with cache := (s.cache.get url).2 })

/-- `myCache->put`, with the `delete` inside it. -/
def cachePut (url : Bytes) (r : Ref) : M Bytes := do
  let s ← get
  set { s with cache := (s.cache.put url r).2.2 }
  match (s.cache.put url r).2.1 with
  | some old => deleteResponse old
  | none => pure ()
  return (s.cache.put url r).1

/-! ## `sendall`, `recvBuff`, `recvChar` -/

/-- The loop of `sendall`, with its `total`, `bytesleft` and `n`; `n` and `total`
at its end. Every round sends a byte or leaves, so `len` rounds are enough. -/
def sendLoop (dst : Sock) (what : Payload) (buf : Bytes) (len : Int) :
    Nat → Int → Int → Int → M (Int × Int)
  | 0, total, _, n => return (n, total)
  | fuel + 1, total, bytesleft, n =>
    if total < len then do
      let n ← send dst what ((buf.drop total.toNat).take bytesleft.toNat)
      if n = -1 then return (n, total)
      else sendLoop dst what buf len fuel (total + n) (bytesleft - n) n
    else return (n, total)

/-- `sendall(s, buf, len)`: its result and the value it leaves in `*len`. -/
def sendall (dst : Sock) (what : Payload) (buf : Bytes) (len : Int) : M (Int × Int) := do
  let s ← get
  let r ← sendLoop dst what buf len len.toNat 0 len s.world.uninit
  return (if r.1 = -1 then -1 else 0, r.2)

/-- `int length = buf.size(); sendall(s, &buf[0], &length)`. -/
def sendVector (dst : Sock) (what : Payload) (buf : Bytes) : M Int := do
  let r ← sendall dst what buf (toInt32 buf.length)
  return r.1

/-- `recvBuff`. A failed `recv` asks `resize` for -1 bytes. -/
def recvBuff (src : Sock) : M Bytes := do
  match ← recv src 65536 with
  | .data bs => return bs
  | .fail => throw .lengthError

/-- `data_buff.resize(n)`. -/
def resize (buf : Bytes) (n : Nat) : Bytes := (buf ++ List.replicate (n - buf.length) 0).take n

/-- The bytes of one `recv` at `data_buff[start]`. -/
def writeAt (buf : Bytes) (start : Nat) (bs : Bytes) : Bytes :=
  buf.take start ++ bs ++ buf.drop (start + bs.length)

def increment : Nat := 20480

/-- The loop of `recvChar`: `data_buff` and `total` at its end. It reads again only
after a full window, so it needs no more rounds than there are bytes. -/
def recvCharLoop (src : Sock) : Nat → Bytes → Nat → Nat → M (Bytes × Nat)
  | 0, buf, _, total => return (buf, total)
  | fuel + 1, buf, start, total => do
    match ← recv src increment with
    | .fail => return (buf, total)
    | .data bs =>
      if bs.length = 0 then return (buf, total)
      else
        let buf := writeAt buf start bs
        let total := total + bs.length
        if bs.length < increment then return (buf, total)
        else recvCharLoop src fuel (resize buf (buf.length + increment)) (start + bs.length) total

/-- How many bytes a list of results holds. -/
def Recv.bytes : Recv → Bytes
  | .data bs => bs
  | .fail => []

def pendingBytes (l : List Recv) : Bytes := l.flatMap Recv.bytes

/-- `recvChar`. -/
def recvChar (src : Sock) : M Bytes := do
  let s ← get
  let r ← recvCharLoop src ((pendingBytes (s.world.pending src)).length + 1)
    (List.replicate increment 0) 0 0
  return resize r.1 r.2

end HttpProxy
