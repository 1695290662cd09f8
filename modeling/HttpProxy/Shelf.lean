import HttpProxy.Get
import HttpProxy.Relay
import HttpProxy.Visits

/-!
# What the proxy is for

A shelf of responses, the one used last in front, and what a visit finds there: what its
client and its server are sent and what is kept afterwards. There is no heap here, no
descriptor and no event, and the network does its job: a `send` takes all it is given and
the server's bytes come until it closes.
-/

namespace HttpProxy

/-- The responses that are kept, with the URIs they are kept for. -/
abbrev Shelf := List (Bytes × HttpResponse)

structure Handling where
  client : Bytes
  server : Bytes
  kept : Option HttpResponse

/-- The first segment of the server, and what comes after it. -/
def World.reply (w : World) : Bytes := (takeRecv 65536 w.server).1.bytes

def World.later (w : World) : List Recv := (takeRecv 65536 w.server).2

/-- The answer of a proxy that has not turned to the server. -/
def Handling.refusal (code : ErrorCode) : Handling := ⟨errorLine code, [], none⟩

/-- A fetched response is worth keeping. -/
def worth (parsed : Except Exn (Option HttpResponse)) : Option HttpResponse :=
  match parsed with
  | .ok (some r) => if r.statusCode = 200 ∧ r.noStore = false then some r else none
  | _ => none

/-- A question that the shelf has no response to. -/
def Handling.fetch (req : HttpRequest) (w : World) : Handling :=
  if w.connect = .connected then
    if check502 w.reply then ⟨errorLine .badGateway502, req.lineSend, none⟩
    else ⟨delivered w.libc w.reply w.later, req.lineSend,
      worth (parseResponse w.libc (fetched w.reply w.later))⟩
  else refusal .notFound404

/-- The server is asked whether the response that is kept still holds. -/
def Handling.renew (req : HttpRequest) (held : HttpResponse) (w : World) : Handling :=
  if w.connect = .connected then
    let question := sendable (constructValidation req held)
    match parseResponse w.libc w.reply with
    | .ok (some r) =>
      if r.statusCode = 200 then ⟨w.reply, question, some r⟩
      else if r.statusCode = 304 then ⟨sendable held.lineRecv, question, none⟩
      else ⟨w.reply, question, none⟩
    | _ => ⟨[], question, none⟩
  else refusal .notFound404

def Handling.get (shelf : Shelf) (req : HttpRequest) (w : World) : Handling :=
  match Recency.lookup req.uri shelf with
  | none => fetch req w
  | some held =>
    if revalidates req held w.now then renew req held w else ⟨sendable held.lineRecv, [], none⟩

theorem worth_iff {parsed : Except Exn (Option HttpResponse)} {r : HttpResponse} :
    worth parsed = some r ↔ parsed = .ok (some r) ∧ r.statusCode = 200 ∧ r.noStore = false := by
  constructor
  · intro h
    unfold worth at h
    split at h
    · split_ifs at h with good
      cases h
      exact ⟨rfl, good⟩
    · cases h
  · rintro ⟨rfl, good⟩
    exact if_pos good

theorem Handling.renew_server (req : HttpRequest) (held : HttpResponse) (w : World) :
    (renew req held w).server =
      if w.connect = .connected then sendable (constructValidation req held) else [] := by
  rw [renew]
  split_ifs
  · dsimp only
    split
    · split_ifs <;> rfl
    · rfl
  · rfl

theorem Handling.renew_kept_iff {req : HttpRequest} {held r : HttpResponse} {w : World} :
    (renew req held w).kept = some r ↔ w.connect = .connected ∧ r.statusCode = 200 ∧
      parseResponse w.libc w.reply = .ok (some r) := by
  constructor
  · intro h
    rw [renew] at h
    split_ifs at h with connected
    · dsimp only at h
      split at h
      · next r' parsed =>
        split_ifs at h with ok
        cases h
        exact ⟨connected, ok, parsed⟩
      · cases h
    · cases h
  · rintro ⟨connected, ok, parsed⟩
    rw [renew, if_pos connected, parsed]
    exact congrArg Handling.kept (if_pos ok)

/-- What is kept was fetched for a URI without a response, or renews the one there is. -/
theorem Handling.get_kept_iff {shelf : Shelf} {req : HttpRequest} {w : World} {r : HttpResponse} :
    (Handling.get shelf req w).kept = some r ↔ w.connect = .connected ∧ r.statusCode = 200 ∧
      (Recency.lookup req.uri shelf = none ∧ check502 w.reply = false ∧ r.noStore = false ∧
          parseResponse w.libc (fetched w.reply w.later) = .ok (some r) ∨
        ∃ held, Recency.lookup req.uri shelf = some held ∧ revalidates req held w.now = true ∧
          parseResponse w.libc w.reply = .ok (some r)) := by
  rw [Handling.get]
  cases Recency.lookup req.uri shelf with
  | none =>
    rw [Handling.fetch]
    split_ifs with connected ended
    · simp [ended]
    · refine worth_iff.trans ?_
      constructor
      · rintro ⟨parsed, ok, allowed⟩
        exact ⟨connected, ok, .inl ⟨rfl, by simpa using ended, allowed, parsed⟩⟩
      · rintro ⟨_, ok, ⟨_, _, allowed, parsed⟩ | ⟨held, none, _⟩⟩
        · exact ⟨parsed, ok, allowed⟩
        · cases none
    · simp [connected, Handling.refusal]
  | some held =>
    dsimp only
    split_ifs with stale
    · rw [renew_kept_iff]
      constructor
      · rintro ⟨connected, ok, parsed⟩
        exact ⟨connected, ok, .inr ⟨held, rfl, stale, parsed⟩⟩
      · rintro ⟨connected, ok, ⟨none, _⟩ | ⟨_, same, _, parsed⟩⟩
        · cases none
        · exact ⟨connected, ok, parsed⟩
    · constructor
      · rintro ⟨⟩
      · rintro ⟨_, _, ⟨none, _⟩ | ⟨held', same, stale', _⟩⟩
        · cases none
        · cases same
          exact absurd stale' stale

/-- The request that a visit brings, if it is accepted. -/
def Visit.asks (v : Visit) : Option HttpRequest :=
  match (takeRecv 65536 v.world.client).1 with
  | .fail => none
  | .data line =>
    match HttpRequest.constructRequest v.world.libc.memory line with
    | .ok (some req) => some req
    | _ => none

/-- A client whose bytes are read and not accepted. -/
def Visit.rejected (v : Visit) : Bool :=
  match (takeRecv 65536 v.world.client).1 with
  | .fail => false
  | .data line =>
    match HttpRequest.constructRequest v.world.libc.memory line with
    | .ok none => true
    | _ => false

/-- An accepted request for no tunnel. -/
def Handling.judge (shelf : Shelf) (req : HttpRequest) (w : World) : Handling :=
  if req.method = str "POST" then { Handling.fetch req w with kept := none }
  else if req.method = str "GET" then .get shelf req w
  else .refusal .badRequest400

namespace Shelf

/-- The answer to a visit that asks for no tunnel. -/
def answer (shelf : Shelf) (v : Visit) : Handling :=
  match v.asks with
  | none => if v.rejected then .refusal .badRequest400 else ⟨[], [], none⟩
  | some req => .judge shelf req v.world

/-- The shelf that a visit leaves: a response that was asked for comes to the front, and one
that is kept takes its place. -/
def visit (size : Nat) (shelf : Shelf) (v : Visit) : Shelf :=
  match v.asks with
  | none => shelf
  | some req =>
    if req.method = str "GET" then
      match (Handling.get shelf req v.world).kept with
      | none => Recency.touch req.uri shelf
      | some r => Recency.insert size req.uri r (Recency.touch req.uri shelf)
    else shelf

def visits (size : Nat) (vs : List Visit) : Shelf := vs.foldl (visit size) []

theorem visits_snoc (size : Nat) (vs : List Visit) (v : Visit) :
    visits size (vs ++ [v]) = (visits size vs).visit size v := Run.foldl_snoc vs v _

end Shelf

/-! ## Pages that do not change -/

theorem World.length_reply (w : World) : w.reply.length ≤ 65536 := by
  obtain ⟨⟨r, rest⟩, read⟩ : ∃ p, takeRecv 65536 w.server = p := ⟨_, rfl⟩
  rw [World.reply, read]
  cases r with
  | fail => exact Nat.zero_le _
  | data bs => exact takeRecv_length read

/-- The server has this page, which parses, for what it is asked. A fetch receives all of it:
in the first segment, or, when that is marked as chunked, in the segments that are relayed.
When a response is held already, the server sends the page in one segment or says that the
response still holds. -/
structure World.Serves (w : World) (page : Bytes) (held : Prop) : Prop where
  connected : w.connect = .connected
  parses : ∃ r, parseResponse w.libc page = .ok (some r)
  fits : FitsInt page.length
  fetches : ¬ held → check502 w.reply = false ∧ fetched w.reply w.later = page
  renews : held → w.reply = page ∨
    ∃ r, parseResponse w.libc w.reply = .ok (some r) ∧ r.statusCode = 304

theorem length_le_of_relayed {input block : Bytes} {rest : List Recv}
    (marked : chunkMarked input = true) (mem : block ∈ relayed rest) :
    block.length ≤ (fetched input rest).length := by
  rw [fetched, if_pos marked, List.length_append]
  have part := (List.sublist_flatten_of_mem mem).length_le
  omega

section
variable {page : Bytes → Bytes} {shelf : Shelf}

/-- Each response on the shelf is the page of its URI. -/
def Shelf.Holds (page : Bytes → Bytes) (shelf : Shelf) : Prop :=
  ∀ k r, Recency.lookup k shelf = some r → r.lineRecv = page k ∧ FitsInt (page k).length

/-- A visit whose GET, if it makes one, meets a server with these pages. -/
def Visit.Served (page : Bytes → Bytes) (shelf : Shelf) (v : Visit) : Prop :=
  ∀ req, v.asks = some req → req.method = str "GET" →
    v.world.Serves (page req.uri) (∃ held, Recency.lookup req.uri shelf = some held)

variable {req : HttpRequest} {w : World}
  (serves : w.Serves (page req.uri) (∃ held, Recency.lookup req.uri shelf = some held))
include serves

/-- Fetched, renewed or as it was kept, the client gets the page. -/
theorem Handling.get_page (holds : shelf.Holds page) :
    (Handling.get shelf req w).client = page req.uri := by
  obtain ⟨r, parses⟩ := serves.parses
  rw [Handling.get]
  cases found : Recency.lookup req.uri shelf with
  | none =>
    obtain ⟨headed, whole⟩ := serves.fetches (by simp [found])
    have parsed : parseResponse w.libc (fetched w.reply w.later) = .ok (some r) := by
      rw [whole, parses]
    have fits (marked : chunkMarked w.reply = true) : ∀ b ∈ relayed w.later, FitsInt b.length := by
      intro block mem
      have short := length_le_of_relayed marked mem
      have all := serves.fits
      rw [whole] at short
      unfold FitsInt at all ⊢
      omega
    dsimp only
    rw [Handling.fetch, if_pos serves.connected, headed]
    exact (delivered_of_parsed (ne_nil_of_headerEnd headed) w.length_reply parsed fits).trans whole
  | some held =>
    obtain ⟨same, short⟩ := holds _ _ found
    have kept : sendable held.lineRecv = page req.uri := by
      rw [same]
      exact sendable_of_fits short
    dsimp only
    split_ifs
    · rw [Handling.renew, if_pos serves.connected]
      rcases serves.renews ⟨held, found⟩ with reply | ⟨r', unmodified, code⟩
      · rw [reply, parses]
        dsimp only
        split_ifs
        · rfl
        · exact kept
        · rfl
      · rw [unmodified]
        dsimp only
        rw [if_neg (by rw [code]; decide), if_pos code]
        exact kept
    · exact kept

theorem Handling.get_kept_page {r : HttpResponse} (kept : (Handling.get shelf req w).kept = some r) :
    r.lineRecv = page req.uri := by
  obtain ⟨_, ok, ⟨absent, _, _, parsed⟩ | ⟨held, found, _, parsed⟩⟩ := get_kept_iff.mp kept
  · obtain ⟨_, _, line, _⟩ := parseResponse_ok parsed
    rw [line, (serves.fetches (by simp [absent])).2]
  · obtain ⟨_, _, line, _⟩ := parseResponse_ok parsed
    rcases serves.renews ⟨held, found⟩ with reply | ⟨r', unmodified, code⟩
    · rw [line, reply]
    · -- a 304 is not kept
      rw [unmodified] at parsed
      cases parsed
      rw [code] at ok
      cases ok

end

section
variable {page : Bytes → Bytes}

theorem Shelf.Holds.visit {shelf : Shelf} (holds : shelf.Holds page) (size : Nat) {v : Visit}
    (served : v.Served page shelf) : (shelf.visit size v).Holds page := by
  intro k r found
  rw [Shelf.visit] at found
  cases asks : v.asks with
  | none =>
    rw [asks] at found
    exact holds k r found
  | some req =>
    rw [asks] at found
    dsimp only at found
    split_ifs at found with get
    · cases kept : (Handling.get shelf req v.world).kept with
      | none =>
        rw [kept] at found
        rw [Recency.lookup_touch] at found
        exact holds k r found
      | some new =>
        rw [kept] at found
        rcases Recency.lookup_insert_cases found with ⟨rfl, rfl⟩ | ⟨_, before⟩
        · have serves := served req asks get
          exact ⟨Handling.get_kept_page serves kept, serves.fits⟩
        · rw [Recency.lookup_touch] at before
          exact holds k r before
    · exact holds k r found

variable (size : Nat) {vs : List Visit}
  (served : ∀ p v, p ++ [v] <+: vs → v.Served page (Shelf.visits size p))
include served

theorem Shelf.visits_hold : (Shelf.visits size vs).Holds page := by
  induction vs using List.reverseRecOn with
  | nil =>
    intro k r found
    cases found
  | append_singleton vs v ih =>
    rw [Shelf.visits_snoc]
    exact (ih fun p u front => served p u (front.trans (List.prefix_append vs [v]))).visit size
      (served vs v List.prefix_rfl)

/-- A shelf shows nothing of itself: each GET is answered with the page. -/
theorem Shelf.answers_page {p : List Visit} {v : Visit} (front : p ++ [v] <+: vs) {req : HttpRequest}
    (asks : v.asks = some req) (get : req.method = str "GET") :
    ((Shelf.visits size p).answer v).client = page req.uri := by
  have before : (Shelf.visits size p).Holds page := Shelf.visits_hold size fun q u front' =>
    served q u (front'.trans ((List.prefix_append p [v]).trans front))
  have other : str "GET" ≠ str "POST" := by decide
  rw [Shelf.answer, asks]
  dsimp only
  rw [Handling.judge, if_neg (by rw [get]; exact other), if_pos get]
  exact Handling.get_page (served p v front req asks get) before

end

end HttpProxy
