import HttpProxy.Base.Run
import HttpProxy.Covered
import HttpProxy.Retention

/-!
# Runs of `runProxy1` one after another

Whatever its client asks for, a run leaves the cache alone or adds an entry that has bytes
(`runProxy1_stocks`), so the vectors that `sendall` is called with are never empty. Their
sizes are another matter: `visits_covered_iff` says for a list of runs when the `int` holds
all of them.
-/

namespace HttpProxy

open Noting

/-- One connection that is accepted, with what its run meets. -/
structure Visit where
  fds : Descriptors
  rounds : List Ready
  world : World

/-- The state after the run of one visit. -/
def St.visit (s : St) (v : Visit) : St := finalSt (runProxy1 v.fds v.rounds (s.enter v.world))

def visits (size : Capacity) (vs : List Visit) : St := vs.foldl St.visit (.initial size)

theorem visits_snoc (size : Capacity) (vs : List Visit) (v : Visit) :
    visits size (vs ++ [v]) = (visits size vs).visit v := Run.foldl_snoc vs v _

/-- The calls of `sendall` in the run of one more visit. -/
def calls (s : St) (v : Visit) : List Call :=
  taken (Calls.runProxy1 v.fds v.rounds) (s.enter v.world)

/-! ## What is in the cache -/

/-- However the program ends, it leaves no empty entry where there was none. -/
def Stocks {α : Type} (x : M α) : Prop := ∀ s, Stocked s.cache → Stocked (finalSt (x s)).cache

section
variable {α β : Type}

theorem Stocks.bind {x : M α} {f : α → M β} (hx : Stocks x) (hf : ∀ a, Stocks (f a)) :
    Stocks (x >>= f) := by
  intro s stocked
  have first := hx s stocked
  cases run : x s with
  | error e t =>
    rw [run] at first
    rwa [bind_error _ run]
  | ok a t =>
    rw [run] at first
    rw [bind_ok _ run]
    exact hf a t first

theorem Retains.stocks {x : M α} (retains : Retains x) : Stocks x := by
  intro s stocked
  rwa [retains]

end

/-- What `proxyGET` stores has been parsed, and no empty buffer parses. -/
theorem proxyGET_stocks (req : HttpRequest) : Stocks (proxyGET req) := by
  intro s stocked
  obtain ⟨t, evs, served⟩ := proxyGET_run req s
  generalize proxyGET req s = res at served
  cases served with
  | kept final frame =>
    intro u r bound
    rw [final, frame.cache, touched_cache, LruCache.lookup_get] at bound
    exact stocked u r bound
  | @stored new v frame final parsed =>
    intro u r bound
    rw [finalSt_ok, final, store_cache, frame.cache, touched_cache] at bound
    rcases LruCache.lookup_put_cases bound with ⟨_, rfl⟩ | ⟨_, before⟩
    · obtain ⟨p, complete, whole, _⟩ := parseResponse_ok parsed
      rw [whole]
      intro none
      rw [none] at complete
      cases complete
    · rw [LruCache.lookup_get] at before
      exact stocked u r before

theorem judgeRequest_stocks (fds : Descriptors) (rounds : List Ready) (req : HttpRequest) :
    Stocks (judgeRequest fds rounds req) := by
  by_cases get : req.method = str "GET"
  · rw [judgeRequest_get fds rounds get]
    exact proxyGET_stocks req
  · exact (judgeRequest_retains fds rounds get).stocks

theorem runProxy1_stocks (fds : Descriptors) (rounds : List Ready) :
    Stocks (runProxy1 fds rounds) := by
  have body : Stocks (recvBuff .client >>= fun data => setRequest data >>= fun request =>
      judgeRequest fds rounds request) := by
    apply (retains_recvBuff .client).stocks.bind
    intro data
    exact (setRequest_retains data).stocks.bind (judgeRequest_stocks fds rounds)
  intro s stocked
  rw [runProxy1, finalSt_catch]
  exact body s stocked

theorem visits_stocked (size : Capacity) (vs : List Visit) : Stocked (visits size vs).cache := by
  induction vs using List.reverseRecOn with
  | nil =>
    intro u r bound
    cases bound
  | append_singleton vs v ih =>
    rw [visits_snoc]
    exact runProxy1_stocks v.fds v.rounds _ ih

/-! ## The lengths -/

/-- The sizes that the run of one more visit meets. -/
def St.Fits (s : St) (v : Visit) : Prop :=
  ∀ req, Asks v.world req → SizesFit req s.cache v.world

/-- The calls are those of the run itself. -/
theorem calls_runs (size : Capacity) (vs : List Visit) (v : Visit) :
    Calls.runProxy1 v.fds v.rounds ⟨(visits size vs).enter v.world, []⟩ =
      withNotes (calls (visits size vs) v)
        (runProxy1 v.fds v.rounds ((visits size vs).enter v.world)) :=
  have stocked := visits_stocked size vs
  (runProxy1_meets v.fds v.rounds (s := (visits size vs).enter v.world) stocked).runs

theorem calls_covered_iff {s : St} (stocked : Stocked s.cache) (v : Visit) :
    (∀ c ∈ calls s v, c.Covered) ↔ s.Fits v :=
  (runProxy1_meets v.fds v.rounds (s := s.enter v.world) stocked).taken

/-- In every list of runs, each call of `sendall` has the true length just when no run meets
a size of 2^31 or more: in a block it relays, in a stored response it replays, or in a
conditional request it makes. -/
theorem visits_covered_iff (size : Capacity) (vs : List Visit) :
    (∀ p v, p ++ [v] <+: vs → ∀ c ∈ calls (visits size p) v, c.Covered) ↔
      ∀ p v, p ++ [v] <+: vs → (visits size p).Fits v :=
  forall₃_congr fun p v _ => calls_covered_iff (visits_stocked size p) v

/-! ## A response that outgrows the `int` -/

section
variable {b : Bytes} (nonempty : b ≠ []) (short : b.length < increment)
include short

theorem charTaken_short (l : List Recv) : charTaken (.data b :: l) = (b, l) :=
  charBlock_short (takeRecv_all (Nat.le_of_lt short) l) short

include nonempty

/-- Reads that are shorter than a window are relayed one by one. -/
theorem relayBlocks_short (k : Nat) {fuel : Nat} (h : k < fuel) :
    relayBlocks fuel (List.replicate k (.data b)) = List.replicate k b := by
  induction fuel generalizing k with
  | zero => omega
  | succ fuel ih =>
    cases k with
    | zero => rfl
    | succ k =>
      rw [List.replicate_succ, relayBlocks, charTaken_short short,
        if_neg (List.length_eq_zero_iff.not.mpr nonempty), ih k (by omega), List.replicate_succ]

theorem relayed_short (k : Nat) :
    relayed (List.replicate k (.data b)) = List.replicate k b := by
  apply relayBlocks_short nonempty short
  have pos := List.length_pos_of_ne_nil nonempty
  have pending : (pendingBytes (List.replicate k (.data b))).length = k * b.length := by
    rw [pendingBytes, List.length_flatMap, List.map_replicate, List.sum_replicate_nat]
    rfl
  have many := Nat.le_mul_of_pos_right k pos
  omega

end

/-- The run of an accepted GET is a run of `proxyGET`. -/
theorem visit_get (q : AcceptedRequest) (get : q.method = str "GET") (s : St) {v : Visit}
    {rest : List Recv} (ht : takeRecv 65536 v.world.client = (.data q.line, rest)) :
    ∃ evs, s.visit v = finalSt (proxyGET q.toHttpRequest
      ((s.enter v.world).after (v.world.setPending .client rest) evs)) := by
  have hrecv := recvBuff_run .client (s.enter v.world)
  simp only [enter_world, World.pending, ht] at hrecv
  have accepts := setRequest_accepts (s := (s.enter v.world).after
    (v.world.setPending .client rest) [.recv .client (.data q.line)])
    (q.accepts_get get _)
  refine ⟨[.recv .client (.data q.line), .log (.accepted q.request)], ?_⟩
  rw [St.visit, runProxy1, finalSt_catch, bind_ok _ hrecv, bind_ok _ accepts,
    judgeRequest_get v.fds v.rounds get, after_after]
  rfl

/-- The head of a response that is compressed and sent in chunks. The parser reads no body
behind it. -/
def compressed : Bytes := str "HTTP/1.1 200 OK\r\nTransfer-Encoding: gzip, chunked\r\n\r\n"

theorem parse_compressed (libc : Libc) (body : Bytes) :
    ∃ r, parseResponse libc (compressed ++ body) = .ok (some r) ∧
      r.lineRecv = compressed ++ body ∧ r.statusCode = 200 ∧ r.noStore = false ∧
      revalidates AcceptedRequest.home.toHttpRequest r 0 = false := by
  have plain {r : HttpResponse} (date : r.date = 0) (expires : r.expires = 0) (age : r.maxAge = -1)
      (cached : r.noCache = false) :
      revalidates AcceptedRequest.home.toHttpRequest r 0 = false := by
    rw [revalidates, expired, needsValidation, date, expires, age, cached]
    decide +kernel
  have head : ∃ p, ResponseParser.parse libc.memory compressed = .halt (.completed p) ∧
      p.statusCode = 200 ∧ p.msg.headers = [⟨str "Transfer-Encoding", str "gzip, chunked"⟩] := by
    refine ⟨_, rfl, ?_⟩
    decide
  obtain ⟨p, complete, ok, headers⟩ := head
  have whole := ResponseParser.parse_append_halt body complete
  unfold parseResponse
  rw [whole]
  dsimp only
  rw [headers]
  exact ⟨_, rfl, rfl, ok, rfl, plain rfl rfl rfl rfl⟩

/-- One read of its body. -/
def piece : Bytes := List.replicate 20479 0

/-- A GET for the root of host `h`, from a server that sends this many pieces. -/
def homeVisit (pieces : Nat) : Visit where
  fds := ⟨3, 4, by decide⟩
  rounds := []
  world :=
    { client := [.data AcceptedRequest.home.line]
      server := .data compressed :: List.replicate pieces (.data piece) }

/-- The first visit stores all that the server sends. -/
theorem homeVisit_stores (size : Capacity) (pieces : Nat) :
    ∃ r, (visits size [homeVisit pieces]).cache.lookup AcceptedRequest.home.uri = some r ∧
      r.obj.lineRecv.length = compressed.length + pieces * 20479 ∧
      revalidates AcceptedRequest.home.toHttpRequest r.obj 0 = false := by
  have size_piece : piece.length = 20479 := List.length_replicate
  have some : piece ≠ [] := List.ne_nil_of_length_pos (by omega)
  have short : piece.length < increment := by
    rw [size_piece]
    decide
  have marked : chunkMarked compressed = true := by decide
  have all : fetched compressed (List.replicate pieces (.data piece)) =
      compressed ++ (List.replicate pieces piece).flatten := by
    rw [fetched, if_pos marked, relayed_short some short]
  obtain ⟨r, parsed, whole, ok, allowed, valid⟩ :=
    parse_compressed ⟨0, fun _ => none, 2 ^ 40⟩ (List.replicate pieces piece).flatten
  rw [← all] at parsed
  have read : takeRecv 65536 (homeVisit pieces).world.client =
      (.data AcceptedRequest.home.line, []) := takeRecv_all AcceptedRequest.home.segment []
  obtain ⟨evs, run⟩ := visit_get .home (by decide +kernel) (.initial size) read
  have reply : takeRecv 65536 (homeVisit pieces).world.server =
      (.data compressed, List.replicate pieces (.data piece)) := takeRecv_all (by decide) _
  obtain ⟨addr, stored⟩ := proxyGET_fetches AcceptedRequest.home.toHttpRequest
    (s := ((St.initial size).enter (homeVisit pieces).world).after
      ((homeVisit pieces).world.setPending .client []) evs)
    rfl rfl (by simp [World.NoFail, homeVisit, World.setPending]) AcceptedRequest.home.sendable
    reply (by decide) parsed ok allowed
  refine ⟨⟨addr, r⟩, ?_, ?_, valid⟩
  · have first : visits size [homeVisit pieces] = (St.initial size).visit (homeVisit pieces) :=
      visits_snoc size [] _
    rw [first, run, stored]
    exact LruCache.lookup_put_self _ _ _
  · dsimp only
    rw [whole, List.length_append, List.length_flatten, List.map_replicate,
      List.sum_replicate_nat, size_piece]

/-- The replay of a stored response that is too long is one of the calls. -/
theorem replay_uncovered {s : St} (stocked : Stocked s.cache) {q : AcceptedRequest}
    (get : q.method = str "GET") {v : Visit} {rest : List Recv}
    (ht : takeRecv 65536 v.world.client = (.data q.line, rest)) {r : Ref}
    (bound : s.cache.lookup q.uri = some r)
    (valid : revalidates q.toHttpRequest r.obj v.world.now = false)
    (long : ¬ FitsInt r.obj.lineRecv.length) : ¬ ∀ c ∈ calls s v, c.Covered := by
  intro covered
  have fits := (calls_covered_iff stocked v).mp covered q.toHttpRequest
    ⟨q.line, rest, ht, q.accepts_get get _⟩
  have hit := fits.get get
  rw [GetFits, bound] at hit
  exact long (hit.replays valid)

/-- The second visit finds it valid, and passes a length that is not its size. -/
theorem homeVisit_uncovered (size : Capacity) {pieces : Nat} (many : 104863 ≤ pieces) :
    ¬ ∀ c ∈ calls (visits size [homeVisit pieces]) (homeVisit 0), c.Covered := by
  obtain ⟨r, bound, total, valid⟩ := homeVisit_stores size pieces
  have stocked := visits_stocked size [homeVisit pieces]
  generalize visits size [homeVisit pieces] = s at bound stocked
  have get : AcceptedRequest.home.method = str "GET" := by decide +kernel
  have long : ¬ FitsInt r.obj.lineRecv.length := by
    rw [FitsInt, total]
    omega
  exact replay_uncovered stocked get (takeRecv_all AcceptedRequest.home.segment []) bound valid long

theorem homeVisit_overflows :
    ¬ ∀ p v, p ++ [v] <+: [homeVisit 104863, homeVisit 0] →
      ∀ c ∈ calls (visits ⟨1, Nat.le_refl 1⟩ p) v, c.Covered := by
  intro covered
  apply homeVisit_uncovered ⟨1, Nat.le_refl 1⟩ (Nat.le_refl 104863)
  exact covered [homeVisit 104863] (homeVisit 0) List.prefix_rfl

end HttpProxy
