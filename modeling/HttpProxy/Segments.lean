import HttpProxy.Completion
import HttpProxy.Division
import HttpProxy.Relay

/-!
# Two divisions of one stream

`segmentation_iff` says for which two divisions of a stream a run sends the client the
same bytes and leaves the same replies in the cache. Only the first segment is looked
at, unless it is marked as chunked and the rest is relayed.
-/

namespace HttpProxy

/-- What a run sends the client, and the reply it binds its key to, if it binds it. -/
structure Outcome where
  sent : Bytes
  stored : Option Bytes

/-! ## A fetch -/

/-- The reply that `proxyGET` stores after a fetch that received `got`. -/
def storedFetch (libc : Libc) (got : Bytes) : Option Bytes :=
  match parseResponse libc got with
  | .ok (some r) => if r.statusCode = 200 ∧ r.noStore = false then some got else none
  | _ => none

def fetchOutcome (libc : Libc) (input : Bytes) (rest : List Recv) : Outcome :=
  if check502 input then ⟨errorLine .badGateway502, none⟩
  else ⟨delivered libc input rest, storedFetch libc (fetched input rest)⟩

/-- No block of the relay outgrows an `int`. -/
def Carried (rest : List Recv) : Prop := ∀ b ∈ relayed rest, FitsInt b.length

/-- What a relay makes of the stream: the first segment and the blocks, each cut to the
size that an `int` has for it. -/
def carriedBytes {stream : Bytes} (d : Division stream) : Bytes :=
  d.first ++ (relayed d.rest).flatMap sendable

/-- The first segment once more, when the stream does not parse. -/
def again {stream : Bytes} (libc : Libc) (d : Division stream) : Bytes :=
  if parseFails libc stream then d.first else []

/-- Two divisions that a fetch does not tell apart. The two `line` cases are of a stream
that is itself the line which answers a segment without the end of a header block. -/
inductive FetchedAlike {stream : Bytes} (libc : Libc) (d d' : Division stream) : Prop
  | headless (h : check502 d.first = true) (h' : check502 d'.first = true)
  | equal (h : d.first = d'.first) (unmarked : chunkMarked d.first = false)
  | relayed (h : check502 d.first = false ∧ chunkMarked d.first = true)
      (h' : check502 d'.first = false ∧ chunkMarked d'.first = true)
      (whole : Carried d.rest ∧ Carried d'.rest)
      (parses : parseFails libc stream = true → d.first = d'.first)
  | shorn (h : check502 d.first = false ∧ chunkMarked d.first = true)
      (h' : check502 d'.first = false ∧ chunkMarked d'.first = true)
      (lost : ¬ Carried d.rest ∧ ¬ Carried d'.rest)
      (left : carriedBytes d ++ again libc d = carriedBytes d' ++ again libc d')
  | line (h : check502 d.first = true) (h' : d'.first = errorLine .badGateway502)
  | line' (h : d.first = errorLine .badGateway502) (h' : check502 d'.first = true)

/-- A mark that is there stays there when the text grows. -/
theorem chunkMarked_append {input : Bytes} (more : Bytes) (h : chunkMarked input = true) :
    chunkMarked (input ++ more) = true := by
  unfold chunkMarked at h ⊢
  cases hs : Search.find (str "Transfer-Encoding:") input with
  | none => rw [hs] at h; cases h
  | some start =>
    rw [hs] at h
    rw [Search.find_append more hs]
    have inside := Search.find_bound hs
    have cut : (input ++ more).drop start = input.drop start ++ more :=
      List.drop_append_of_le_length (by omega)
    dsimp only at h ⊢
    rw [findFrom, if_neg (by omega)] at h
    rw [findFrom, if_neg (by rw [List.length_append]; omega), cut]
    cases hn : Search.find (str "\n") (input.drop start) with
    | some p =>
      rw [hn, Option.map_some, upTo] at h
      rw [Search.find_append more hn, Option.map_some, upTo, List.take_append]
      exact Search.contains_append _ h
    | none =>
      rw [hn, Option.map_none, upTo] at h
      cases hn' : Search.find (str "\n") (input.drop start ++ more) with
      | none =>
        rw [Option.map_none, upTo]
        exact Search.contains_append _ h
      | some p =>
        -- the first newline lies behind all of the shorter text
        have behind := Search.find_append_none hn hn'
        have one : (str "\n").length = 1 := rfl
        rw [Option.map_some, upTo, List.take_append, List.take_of_length_le (by omega)]
        exact Search.contains_append _ h

/-- No shorter part of the 502 line ends a header block. -/
theorem eq_errorLine_of_begins {input : Bytes} (hp : input <+: errorLine .badGateway502)
    (hend : check502 input = false) : input = errorLine .badGateway502 := by
  have shorter : ∀ n < (errorLine .badGateway502).length,
      check502 ((errorLine .badGateway502).take n) = true := by decide +kernel
  rw [List.prefix_iff_eq_take] at hp
  by_contra hne
  have hlt : input.length < (errorLine .badGateway502).length := by
    by_contra hge
    rw [List.take_of_length_le (by omega)] at hp
    exact hne hp
  have cut := shorter _ hlt
  rw [← hp, hend] at cut
  cases cut

theorem first_begins_delivered (libc : Libc) (input : Bytes) (rest : List Recv) :
    input <+: delivered libc input rest := by
  unfold delivered
  split_ifs with hm
  any_goals
    rw [List.append_assoc]
    exact List.prefix_append ..
  exact List.prefix_rfl

theorem fetchOutcome_line (libc : Libc) (rest : List Recv) :
    fetchOutcome libc (errorLine .badGateway502) rest = ⟨errorLine .badGateway502, none⟩ := by
  have hend : check502 (errorLine .badGateway502) = false := by decide +kernel
  have hm : chunkMarked (errorLine .badGateway502) = false := by decide +kernel
  have unstored : storedFetch libc (errorLine .badGateway502) = none := rfl
  rw [fetchOutcome, hend, if_neg Bool.false_ne_true, delivered, fetched, hm,
    if_neg Bool.false_ne_true, if_neg Bool.false_ne_true, unstored]

section
variable {stream : Bytes} {libc : Libc} {d d' : Division stream}

theorem delivered_marked (hm : chunkMarked d.first = true) :
    delivered libc d.first d.rest = carriedBytes d ++ again libc d := by
  rw [delivered, if_pos hm, d.fetched_marked hm, carriedBytes, again]

theorem delivered_carried (hm : chunkMarked d.first = true) (hc : Carried d.rest) :
    delivered libc d.first d.rest = stream ++ again libc d := by
  rw [delivered_marked hm, carriedBytes, flatMap_sendable_of_fits hc, d.first_relayed]

/-- A relay that loses bytes of a block sends less than the stream, whatever it repeats. -/
theorem length_delivered_lost (libc : Libc) (hm : chunkMarked d.first = true)
    (hc : ¬ Carried d.rest) : (delivered libc d.first d.rest).length < stream.length := by
  have lost := length_flatMap_sendable_lost hc
  have short := d.first_length
  have total := congrArg List.length d.first_relayed
  rw [List.length_append] at total
  have repeated : (again libc d).length ≤ d.first.length := by
    unfold again
    split_ifs
    · exact Nat.le_refl _
    · exact Nat.zero_le _
  rw [delivered_marked hm, carriedBytes, List.length_append, List.length_append]
  omega

theorem length_delivered_carried (libc : Libc) (hm : chunkMarked d.first = true)
    (hc : Carried d.rest) : stream.length ≤ (delivered libc d.first d.rest).length := by
  rw [delivered_carried hm hc, List.length_append]
  omega

theorem fetchOutcome_headless {input : Bytes} (h : check502 input = true) (rest : List Recv) :
    fetchOutcome libc input rest = ⟨errorLine .badGateway502, none⟩ := if_pos h

theorem fetchOutcome_headed (libc : Libc) {input : Bytes} (h : check502 input = false)
    (rest : List Recv) : fetchOutcome libc input rest =
      ⟨delivered libc input rest, storedFetch libc (fetched input rest)⟩ := by
  rw [fetchOutcome, h, if_neg Bool.false_ne_true]

theorem fetchOutcome_alike (h : FetchedAlike libc d d') :
    fetchOutcome libc d.first d.rest = fetchOutcome libc d'.first d'.rest := by
  cases h with
  | headless h h' => rw [fetchOutcome_headless h, fetchOutcome_headless h']
  | equal h unmarked =>
    have unmarked' : chunkMarked d'.first = false := h ▸ unmarked
    simp only [fetchOutcome, delivered, fetched, unmarked', Bool.false_eq_true, if_false, h]
  | relayed h h' whole parses =>
    rw [fetchOutcome_headed _ h.1, fetchOutcome_headed _ h'.1, d.fetched_marked h.2,
      d'.fetched_marked h'.2, delivered_carried h.2 whole.1, delivered_carried h'.2 whole.2]
    unfold again
    split_ifs with hf
    · rw [parses hf]
    · rfl
  | shorn h h' _ left =>
    rw [fetchOutcome_headed _ h.1, fetchOutcome_headed _ h'.1, d.fetched_marked h.2,
      d'.fetched_marked h'.2, delivered_marked h.2, delivered_marked h'.2, left]
  | line h h' => rw [fetchOutcome_headless h, h', fetchOutcome_line]
  | line' h h' => rw [fetchOutcome_headless h', h, fetchOutcome_line]

/-- Two first segments with header blocks: the client tells the divisions apart unless
they are alike. -/
theorem fetchedAlike_of_delivered (h : check502 d.first = false) (h' : check502 d'.first = false)
    (heq : delivered libc d.first d.rest = delivered libc d'.first d'.rest) :
    FetchedAlike libc d d' := by
  have unmarked {e e' : Division stream} (hm : chunkMarked e.first = true)
      (hm' : chunkMarked e'.first = false)
      (heq : delivered libc e.first e.rest = delivered libc e'.first e'.rest) : False := by
    -- the marked segment would begin the unmarked one
    have begins := first_begins_delivered libc e.first e.rest
    rw [heq, delivered, hm', if_neg Bool.false_ne_true] at begins
    obtain ⟨more, hmore⟩ := begins
    have grown := chunkMarked_append more hm
    rw [hmore, hm'] at grown
    cases grown
  cases hm : chunkMarked d.first with
  | false =>
    cases hm' : chunkMarked d'.first with
    | false =>
      apply FetchedAlike.equal _ hm
      simpa only [delivered, hm, hm', Bool.false_eq_true, if_false] using heq
    | true => exact (unmarked hm' hm heq.symm).elim
  | true =>
    cases hm' : chunkMarked d'.first with
    | false => exact (unmarked hm hm' heq).elim
    | true =>
      by_cases hc : Carried d.rest
      · by_cases hc' : Carried d'.rest
        · apply FetchedAlike.relayed ⟨h, hm⟩ ⟨h', hm'⟩ ⟨hc, hc'⟩
          intro hf
          rw [delivered_carried hm hc, delivered_carried hm' hc', again, again, if_pos hf,
            if_pos hf] at heq
          exact List.append_cancel_left heq
        · have long := length_delivered_carried libc hm hc
          have short := length_delivered_lost libc hm' hc'
          rw [heq] at long
          omega
      · by_cases hc' : Carried d'.rest
        · have long := length_delivered_carried libc hm' hc'
          have short := length_delivered_lost libc hm hc
          rw [heq] at short
          omega
        · rw [delivered_marked hm, delivered_marked hm'] at heq
          exact .shorn ⟨h, hm⟩ ⟨h', hm'⟩ ⟨hc, hc'⟩ heq

/-- The 502 line is sent for a segment without the end of a header block, and for nothing
else but itself. -/
theorem eq_line_of_delivered {input : Bytes} {rest : List Recv} (h : check502 input = false)
    (heq : delivered libc input rest = errorLine .badGateway502) :
    input = errorLine .badGateway502 :=
  eq_errorLine_of_begins (heq ▸ first_begins_delivered libc input rest) h

theorem fetchedAlike_of_sent
    (heq : (fetchOutcome libc d.first d.rest).sent = (fetchOutcome libc d'.first d'.rest).sent) :
    FetchedAlike libc d d' := by
  cases h : check502 d.first with
  | false =>
    rw [fetchOutcome_headed _ h] at heq
    cases h' : check502 d'.first with
    | false =>
      rw [fetchOutcome_headed _ h'] at heq
      exact fetchedAlike_of_delivered h h' heq
    | true =>
      rw [fetchOutcome_headless h'] at heq
      exact .line' (eq_line_of_delivered h heq) h'
  | true =>
    rw [fetchOutcome_headless h] at heq
    cases h' : check502 d'.first with
    | false =>
      rw [fetchOutcome_headed _ h'] at heq
      exact .line h (eq_line_of_delivered h' heq.symm)
    | true => exact .headless h h'

end

/-! ## A revalidation -/

def renewOutcome (libc : Libc) (cached reply : Bytes) : Outcome :=
  match parseResponse libc reply with
  | .ok (some r) =>
    if r.statusCode = 200 then ⟨reply, some reply⟩
    else if r.statusCode = 304 then ⟨sendable cached, none⟩
    else ⟨reply, none⟩
  | _ => ⟨[], none⟩

def NotModified (libc : Libc) (reply : Bytes) : Prop :=
  ∃ r, parseResponse libc reply = .ok (some r) ∧ r.statusCode = 304

/-- The client is sent nothing: the segment gives no object, or the cached reply it lets
stand has no bytes to send. -/
def Unanswered (libc : Libc) (cached reply : Bytes) : Prop :=
  (∀ r, parseResponse libc reply ≠ .ok (some r)) ∨ NotModified libc reply ∧ sendable cached = []

/-- Two first segments that a revalidation does not tell apart. -/
inductive RenewedAlike (libc : Libc) (cached reply reply' : Bytes) : Prop
  | equal (h : reply = reply')
  | unanswered (h : Unanswered libc cached reply) (h' : Unanswered libc cached reply')
  | notModified (h : NotModified libc reply) (h' : NotModified libc reply')

section
variable {libc : Libc} {cached reply reply' : Bytes}

theorem renewOutcome_notModified (h : NotModified libc reply) :
    renewOutcome libc cached reply = ⟨sendable cached, none⟩ := by
  obtain ⟨r, hp, h304⟩ := h
  simp [renewOutcome, hp, h304]

theorem renewOutcome_unanswered (h : Unanswered libc cached reply) :
    renewOutcome libc cached reply = ⟨[], none⟩ := by
  rcases h with hno | ⟨h304, hnil⟩
  · unfold renewOutcome
    split
    · next r hp => exact absurd hp (hno r)
    · rfl
  · rw [renewOutcome_notModified h304, hnil]

theorem unanswered_of_sent (h : (renewOutcome libc cached reply).sent = []) :
    Unanswered libc cached reply := by
  by_cases hp : ∃ r, parseResponse libc reply = .ok (some r)
  · obtain ⟨r, hp⟩ := hp
    have some_bytes : reply ≠ [] := by
      rintro rfl
      cases hp
    by_cases h304 : r.statusCode = 304
    · have same : NotModified libc reply := ⟨r, hp, h304⟩
      rw [renewOutcome_notModified same] at h
      exact .inr ⟨same, h⟩
    · -- the reply itself is sent
      unfold renewOutcome at h
      rw [hp] at h
      dsimp only at h
      rw [if_neg h304] at h
      split_ifs at h <;> exact absurd h some_bytes
  · exact .inl fun r hr => hp ⟨r, hr⟩

theorem renewOutcome_alike (h : RenewedAlike libc cached reply reply') :
    renewOutcome libc cached reply = renewOutcome libc cached reply' := by
  cases h with
  | equal h => rw [h]
  | unanswered h h' => rw [renewOutcome_unanswered h, renewOutcome_unanswered h']
  | notModified h h' => rw [renewOutcome_notModified h, renewOutcome_notModified h']

theorem RenewedAlike.symm (h : RenewedAlike libc cached reply reply') :
    RenewedAlike libc cached reply' reply := by
  cases h with
  | equal h => exact .equal h.symm
  | unanswered h h' => exact .unanswered h' h
  | notModified h h' => exact .notModified h' h

/-- When one segment begins the other, the client tells them apart unless they are alike. -/
theorem renewedAlike_of_begins (hpre : reply <+: reply')
    (heq : (renewOutcome libc cached reply).sent = (renewOutcome libc cached reply').sent) :
    RenewedAlike libc cached reply reply' := by
  by_cases hp : ∃ r, parseResponse libc reply = .ok (some r)
  · obtain ⟨r, hp⟩ := hp
    obtain ⟨more, rfl⟩ := hpre
    obtain ⟨r', hp', hst⟩ := parseResponse_append more hp
    by_cases h304 : r.statusCode = 304
    · exact .notModified ⟨r, hp, h304⟩ ⟨r', hp', hst.trans h304⟩
    · apply RenewedAlike.equal
      unfold renewOutcome at heq
      rw [hp, hp'] at heq
      dsimp only at heq
      rw [hst, if_neg h304, if_neg h304] at heq
      split_ifs at heq <;> exact heq
  · have silent : Unanswered libc cached reply := .inl fun r hr => hp ⟨r, hr⟩
    rw [renewOutcome_unanswered silent] at heq
    exact .unanswered silent (unanswered_of_sent heq.symm)

theorem renewedAlike_of_sent {stream : Bytes} (hpre : reply <+: stream) (hpre' : reply' <+: stream)
    (heq : (renewOutcome libc cached reply).sent = (renewOutcome libc cached reply').sent) :
    RenewedAlike libc cached reply reply' := by
  rcases List.prefix_or_prefix_of_prefix hpre hpre' with h | h
  · exact renewedAlike_of_begins h heq
  · exact (renewedAlike_of_begins h heq.symm).symm

end

/-! ## Whole runs -/

/-- The bytes of the reply bound to each key. -/
def LruCache.replies (c : LruCache Ref) (u : Bytes) : Option Bytes :=
  (c.lookup u).map (·.obj.lineRecv)

/-- The replies that `put` of a reply `line` leaves. -/
def LruCache.repliesPut (c : LruCache Ref) (key line u : Bytes) : Option Bytes :=
  if u = key then some line
  else if Recency.evicted c.capacity key c.entries = some u then none
  else c.replies u

theorem LruCache.replies_put (c : LruCache Ref) (key : Bytes) (r : Ref) :
    (c.put key r).2.2.replies = c.repliesPut key r.obj.lineRecv := by
  funext u
  unfold replies repliesPut
  by_cases hu : u = key
  · subst hu
    rw [lookup_put_self, if_pos rfl]
    rfl
  · rw [lookup_put_ne c r hu, if_neg hu]
    split_ifs <;> rfl

/-- The replies that a run with this outcome leaves. -/
def Outcome.replies (o : Outcome) (c : LruCache Ref) (key : Bytes) : Bytes → Option Bytes :=
  match o.stored with
  | none => c.replies
  | some line => (c.get key).2.repliesPut key line

/-- The run of `x` from `s` has this outcome. -/
structure Ends (x : M Unit) (s : St) (key : Bytes) (o : Outcome) : Prop where
  sent : bytesTo .client (ran x s) = o.sent
  replies : (finalSt (x s)).cache.replies = o.replies s.cache key

section
variable {x : M Unit} {s t : St} {evs : List Event} {key : Bytes} {o : Outcome}

theorem Ends.kept (final : finalSt (x s) = t) (trace : t.trace = s.trace ++ evs)
    (cache : ∀ u, t.cache.lookup u = s.cache.lookup u) (sent : bytesTo .client evs = o.sent)
    (unstored : o.stored = none) : Ends x s key o := by
  constructor
  · rw [ran_eq (by rw [final, trace]), sent]
  · funext u
    rw [final, Outcome.replies, unstored]
    exact congrArg _ (cache u)

theorem Ends.stored {r : Ref} (final : finalSt (x s) = t) (trace : t.trace = s.trace ++ evs)
    (cache : t.cache = ((s.cache.get key).2.put key r).2.2) (sent : bytesTo .client evs = o.sent)
    (stored : o.stored = some r.obj.lineRecv) : Ends x s key o := by
  constructor
  · rw [ran_eq (by rw [final, trace]), sent]
  · rw [final, cache, LruCache.replies_put, Outcome.replies, stored]

end

variable {stream : Bytes}

/-- `s` in a world whose server sends the stream, divided like this, and closes; every
`send` takes all it is given. -/
def St.facing (s : St) (d : Division stream) : St :=
  { s with world := { s.world with server := d.recvs, sends := [] } }

section
variable (s : St) (d : Division stream)

@[simp] theorem facing_cache : (s.facing d).cache = s.cache := rfl
@[simp] theorem facing_next : (s.facing d).next = s.next := rfl
@[simp] theorem facing_trace : (s.facing d).trace = s.trace := rfl
@[simp] theorem facing_connect : (s.facing d).world.connect = s.world.connect := rfl
@[simp] theorem facing_now : (s.facing d).world.now = s.world.now := rfl
@[simp] theorem facing_clock : (s.facing d).world.libc = s.world.libc := rfl
@[simp] theorem facing_server : (s.facing d).world.server = d.recvs := rfl
@[simp] theorem facing_sends : (s.facing d).world.sends = [] := rfl

end

theorem proxyFetch_outcome (req : AcceptedRequest) {s : St} (d : Division stream)
    (hserver : s.world.server = d.recvs) (hsends : s.world.sends = []) :
    ∃ t evs, Frame s t evs ∧
      bytesTo .client evs = (fetchOutcome s.world.libc d.first d.rest).sent ∧
      (check502 d.first = false ∧ Parsed s.world.libc (fetched d.first d.rest) s.next t
          (proxyFetch req.toHttpRequest s) ∨
        check502 d.first = true ∧ proxyFetch req.toHttpRequest s = .error .exception t) := by
  have hf : s.world.NoFail := by simp [World.NoFail, hsends]
  have ht : takeRecv 65536 s.world.server = (.data d.first, d.rest) := hserver ▸ d.take
  cases hend : check502 d.first with
  | false =>
    obtain ⟨t, evs, frame, _, _, hsent, hres⟩ := proxyFetch_relay hf req.sendable ht hend
    rw [fetchOutcome_headed _ hend]
    exact ⟨t, evs, frame, hsent, .inl ⟨rfl, hres⟩⟩
  | true =>
    obtain ⟨w, evs, hw, _, hquiet, ⟨_, _, hno⟩ | ⟨_, _, hno⟩ | ⟨input, ht', _, run⟩⟩ :=
      proxyFetch_begin req.toHttpRequest s
    · exact absurd ⟨hf, req.sendable⟩ hno
    · rw [ht] at hno; cases hno
    · rw [ht] at ht'
      obtain ⟨rfl, _⟩ : d.first = input ∧ d.rest = w.server := by simpa using ht'
      have prompt : w.sends = [] := by
        have := hw.sends
        rw [hsends] at this
        exact List.suffix_nil.mp this
      obtain ⟨w', evs', herr, hw', _, _, hsent⟩ :=
        proxyERROR_run .badGateway502 (s.after w evs)
      have frame := (Frame.after s hw evs).trans (Frame.after _ hw' evs')
      refine ⟨_, _, frame, ?_, .inr ⟨rfl, ?_⟩⟩
      · rw [fetchOutcome_headless hend, bytesTo_append, hquiet, hsent prompt]
        rfl
      · rw [run, fetchReply, hend, if_pos rfl, bind_ok _ herr]
        rfl

theorem proxyGET_ends_fetch (req : AcceptedRequest) {s : St} (d : Division stream)
    (hmiss : s.cache.lookup req.uri = none) (hc : s.world.connect = .connected) :
    Ends (proxyGET req.toHttpRequest) (s.facing d) req.uri
      (fetchOutcome s.world.libc d.first d.rest) := by
  have absent : (s.facing d).cache.lookup req.uri = none := hmiss
  have run := proxyGET_miss absent
  rw [serveMiss_connected req.toHttpRequest (s := (s.facing d).touched req.uri) hc] at run
  obtain ⟨t, evs, frame, sent, hres⟩ := proxyFetch_outcome req d
    (s := ((s.facing d).touched req.uri).after ((s.facing d).touched req.uri).world
      ([.log .notInCache] ++ connecting req.toHttpRequest)) rfl rfl
  obtain ⟨front, trace, quiet⟩ : ∃ front, t.trace = (s.facing d).trace ++ front ∧
      bytesTo .client front = (fetchOutcome s.world.libc d.first d.rest).sent := by
    refine ⟨[.log .notInCache] ++ connecting req.toHttpRequest ++ evs, ?_, ?_⟩
    · rw [frame.trace]
      simp
    · rw [bytesTo_append]
      exact sent
  have cache : t.cache = (s.cache.get req.uri).2 := frame.cache
  have same (u : Bytes) : t.cache.lookup u = (s.facing d).cache.lookup u := by
    rw [cache, LruCache.lookup_get, facing_cache]
  generalize hfetch : proxyFetch req.toHttpRequest _ = res at hres
  rcases hres with ⟨hend, hres⟩ | ⟨hend, rfl⟩
  · have stored := congrArg Outcome.stored (fetchOutcome_headed s.world.libc hend d.rest)
    cases hres with
    | @found r parsed ge lt =>
      rw [bind_ok _ hfetch] at run
      obtain ⟨_, _, hline, _⟩ := parseResponse_ok parsed
      have stored : (fetchOutcome s.world.libc d.first d.rest).stored =
          if r.obj.statusCode = 200 ∧ r.obj.noStore = false then some r.obj.lineRecv else none := by
        rw [stored, hline]
        unfold storedFetch
        rw [show parseResponse s.world.libc _ = _ from parsed]
      by_cases hstore : r.obj.statusCode = 200 ∧ r.obj.noStore = false
      · obtain ⟨evs', hput, hlogs⟩ := storeFetched_store req.uri hstore.1 hstore.2 t
        have final := congrArg finalSt (run.trans hput)
        rw [if_pos hstore] at stored
        have traced : ((t.store req.uri r).after t.world evs').trace =
            (s.facing d).trace ++ (front ++ evs') := by
          rw [after_trace, store_trace, trace, List.append_assoc]
        refine .stored final traced ?_ ?_ stored
        · rw [finalSt_ok, after_cache, store_cache, cache, facing_cache]
        · rw [bytesTo_append, quiet, hlogs.bytesTo, List.append_nil]
      · obtain ⟨evs', hskip, hlogs⟩ := storeFetched_skip req.uri hstore t
        have final := congrArg finalSt (run.trans hskip)
        rw [if_neg hstore] at stored
        have traced : (t.after t.world evs').trace = (s.facing d).trace ++ (front ++ evs') := by
          rw [after_trace, trace, List.append_assoc]
        refine .kept final traced same ?_ stored
        rw [bytesTo_append, quiet, hlogs.bytesTo, List.append_nil]
    | failed parsed =>
      refine .kept (by rw [run, bind_ok _ hfetch]; rfl) trace same quiet ?_
      rw [stored, storedFetch, show parseResponse s.world.libc _ = _ from parsed]
    | threw parsed =>
      refine .kept (by rw [run, bind_error _ hfetch]; rfl) trace same quiet ?_
      rw [stored, storedFetch, show parseResponse s.world.libc _ = _ from parsed]
  · refine .kept (by rw [run, bind_error _ hfetch]; rfl) trace same quiet ?_
    rw [fetchOutcome_headless hend]

theorem proxyGET_ends_refused (req : HttpRequest) {s : St} (d : Division stream)
    (hmiss : s.cache.lookup req.uri = none) (hc : s.world.connect ≠ .connected) :
    Ends (proxyGET req) (s.facing d) req.uri ⟨errorLine .notFound404, none⟩ := by
  obtain ⟨w, evs, hrun, _, _, _, hsent⟩ :=
    serveMiss_refused req (s := (s.facing d).touched req.uri) hc
  have run := (proxyGET_miss (s := s.facing d) hmiss).trans hrun
  refine .kept (congrArg finalSt run) (after_trace ..) (fun u => by simp) ?_ rfl
  rw [bytesTo_append, hsent rfl]
  rfl

theorem proxyGET_ends_fresh (req : HttpRequest) {s : St} {resp : Ref} (d : Division stream)
    (hit : s.cache.lookup req.uri = some resp)
    (hv : revalidates req resp.obj s.world.now = false) :
    Ends (proxyGET req) (s.facing d) req.uri ⟨sendable resp.obj.lineRecv, none⟩ := by
  obtain ⟨w, evs, hrun, _, _, hsent⟩ :=
    serveHit_fresh (s := (s.facing d).touched req.uri) (by simpa using hit) hv
  have run := (proxyGET_hit (s := s.facing d) hit).trans hrun
  refine .kept (congrArg finalSt run) (after_trace ..) (fun u => by simp) ?_ rfl
  rw [bytesTo_append, hsent (by simp [World.NoFail])]
  rfl

theorem proxyGET_ends_stale (req : HttpRequest) {s : St} {resp : Ref} (d : Division stream)
    (hit : s.cache.lookup req.uri = some resp)
    (hv : revalidates req resp.obj s.world.now = true) :
    Ends (proxyGET req) (s.facing d) req.uri
      (if s.world.connect = .connected then
        renewOutcome s.world.libc resp.obj.lineRecv d.first
      else ⟨errorLine .notFound404, none⟩) := by
  have run := serveHit_revalidated (s := (s.facing d).touched req.uri) (by simpa using hit) hv
  rw [← proxyGET_hit (s := s.facing d) hit] at run
  generalize hres : proxyGET req (s.facing d) = res at run
  cases run with
  | @refused w evs hc _ _ _ sent =>
    rw [touched_world, facing_connect] at hc
    rw [if_neg hc]
    exact .kept (congrArg finalSt hres) rfl (fun u => by simp) (sent rfl) rfl
  | unread _ _ _ failed =>
    rw [touched_world, facing_server, d.take] at failed
    cases failed
  | @answered w front reply hc hw reached ht =>
    rw [touched_world, facing_connect] at hc
    rw [touched_world, facing_server, d.take] at ht
    obtain ⟨rfl, _⟩ : d.first = reply ∧ d.rest = w.server := by simpa using ht
    rw [if_pos hc]
    have promptly : w.NoFail := by
      have prompt : w.sends = [] := List.suffix_nil.mp hw.sends
      simp [World.NoFail, prompt]
    have libc : s.world.libc = w.libc := hw.libc.symm
    have whole : sendable d.first = d.first := sendable_of_fits (by
      have := d.first_length
      unfold FitsInt
      omega)
    have ends := validationReply_answered resp req.uri d.first
      (((s.facing d).touched req.uri).after w front)
    rw [← hres] at ends
    generalize hres' : proxyGET req (s.facing d) = res at ends
    have final := congrArg finalSt hres'
    have sends {evs : List Event} {bs : Bytes} (h : bytesTo .client evs = bs) :
        bytesTo .client (front ++ evs) = bs := by
      rw [bytesTo_append, reached.quiet, h, List.nil_append]
    have same (u : Bytes) : ((s.facing d).touched req.uri).cache.lookup u = s.cache.lookup u := by
      simp
    unfold renewOutcome
    rw [libc]
    cases ends with
    | threw hp =>
      rw [show parseResponse w.libc d.first = _ from hp]
      exact .kept final rfl same reached.quiet rfl
    | failed hp =>
      rw [show parseResponse w.libc d.first = _ from hp]
      exact .kept final rfl same reached.quiet rfl
    | renewed hp h200 _ _ _ sent =>
      rw [show parseResponse w.libc d.first = _ from hp]
      obtain ⟨_, _, hline, _⟩ := parseResponse_ok hp
      simp only [if_pos h200]
      refine .stored final (List.append_assoc ..) rfl (sends ?_) (by rw [hline])
      rw [sent promptly, whole]
    | notModified hp h304 _ _ sent =>
      rw [show parseResponse w.libc d.first = _ from hp]
      simp only [h304, if_true, if_neg (show ¬ 304 = 200 by decide)]
      exact .kept final (List.append_assoc ..) same (sends (sent promptly)) rfl
    | passed hp h200 h304 _ _ _ sent =>
      rw [show parseResponse w.libc d.first = _ from hp]
      simp only [if_neg h200, if_neg h304]
      refine .kept final (List.append_assoc ..) same (sends ?_) rfl
      rw [sent promptly, whole]

def getOutcome (req : HttpRequest) (s : St) (d : Division stream) : Outcome :=
  match s.cache.lookup req.uri with
  | none =>
    if s.world.connect = .connected then fetchOutcome s.world.libc d.first d.rest
    else ⟨errorLine .notFound404, none⟩
  | some resp =>
    if revalidates req resp.obj s.world.now then
      if s.world.connect = .connected then
        renewOutcome s.world.libc resp.obj.lineRecv d.first
      else ⟨errorLine .notFound404, none⟩
    else ⟨sendable resp.obj.lineRecv, none⟩

theorem proxyGET_ends (req : AcceptedRequest) (s : St) (d : Division stream) :
    Ends (proxyGET req.toHttpRequest) (s.facing d) req.uri (getOutcome req.toHttpRequest s d) := by
  unfold getOutcome
  cases h : s.cache.lookup req.uri with
  | none =>
    dsimp only
    by_cases hc : s.world.connect = .connected
    · rw [if_pos hc]
      exact proxyGET_ends_fetch req d h hc
    · rw [if_neg hc]
      exact proxyGET_ends_refused req.toHttpRequest d h hc
  | some resp =>
    dsimp only
    cases hv : revalidates req.toHttpRequest resp.obj s.world.now with
    | true => exact proxyGET_ends_stale req.toHttpRequest d h hv
    | false => exact proxyGET_ends_fresh req.toHttpRequest d h hv

def postOutcome (s : St) (d : Division stream) : Outcome :=
  if s.world.connect = .connected then
    ⟨(fetchOutcome s.world.libc d.first d.rest).sent, none⟩
  else ⟨errorLine .notFound404, none⟩

theorem proxyPOST_ends (req : AcceptedRequest) (s : St) (d : Division stream) :
    Ends (proxyPOST req.toHttpRequest) (s.facing d) req.uri (postOutcome s d) := by
  unfold postOutcome
  by_cases hc : s.world.connect = .connected
  · rw [if_pos hc]
    have connected : connectServer req.toHttpRequest (s.facing d) =
        .ok () ((s.facing d).after (s.facing d).world (connecting req.toHttpRequest)) :=
      connectServer_ok req.toHttpRequest hc
    obtain ⟨t, evs, frame, sent, hres⟩ := proxyFetch_outcome req d
      (s := (s.facing d).after (s.facing d).world (connecting req.toHttpRequest)) rfl rfl
    have trace : t.trace = (s.facing d).trace ++ (connecting req.toHttpRequest ++ evs) := by
      rw [frame.trace, after_trace, List.append_assoc]
    have same (u : Bytes) : t.cache.lookup u = (s.facing d).cache.lookup u := by
      rw [frame.cache, after_cache]
    have quiet : bytesTo .client (connecting req.toHttpRequest ++ evs) =
        (fetchOutcome s.world.libc d.first d.rest).sent := by
      rw [bytesTo_append]
      exact sent
    generalize hfetch : proxyFetch req.toHttpRequest _ = res at hres
    rcases hres with ⟨_, hres⟩ | ⟨_, rfl⟩
    · cases hres with
      | @found r =>
        exact .kept (t := { t with ledger := t.ledger.erase r.addr })
          (by rw [proxyPOST, bind_ok _ connected, bind_ok _ hfetch]; rfl) trace same quiet rfl
      | failed =>
        exact .kept (by rw [proxyPOST, bind_ok _ connected, bind_ok _ hfetch]; rfl)
          trace same quiet rfl
      | threw =>
        exact .kept (by rw [proxyPOST, bind_ok _ connected, bind_error _ hfetch]; rfl)
          trace same quiet rfl
    · exact .kept (by rw [proxyPOST, bind_ok _ connected, bind_error _ hfetch]; rfl)
        trace same quiet rfl
  · rw [if_neg hc]
    obtain ⟨w, evs, hrun, _, _, _, _, hsent⟩ :=
      connectServer_fails req.toHttpRequest (s := s.facing d) hc
    have final : finalSt (proxyPOST req.toHttpRequest (s.facing d)) = (s.facing d).after w evs := by
      rw [proxyPOST, bind_error _ hrun, finalSt_error]
    exact .kept final (after_trace ..) (fun _ => rfl) (hsent rfl) rfl

/-! ## Two divisions -/

/-- The two divisions lead a run to the same bytes for the client and the same replies in
the cache. -/
def SameResult (x : M Unit) (s : St) (d d' : Division stream) : Prop :=
  bytesTo .client (ran x (s.facing d)) = bytesTo .client (ran x (s.facing d')) ∧
    (finalSt (x (s.facing d))).cache.replies = (finalSt (x (s.facing d'))).cache.replies

/-- Two divisions that a GET run does not tell apart: it does not turn to the server, or
does not reach it, or they are alike for what it does there. -/
def GetAlike (req : HttpRequest) (s : St) (d d' : Division stream) : Prop :=
  s.world.connect = .connected →
    match s.cache.lookup req.uri with
    | none => FetchedAlike s.world.libc d d'
    | some resp => revalidates req resp.obj s.world.now = true →
        RenewedAlike s.world.libc resp.obj.lineRecv d.first d'.first

theorem getOutcome_alike {req : HttpRequest} {s : St} {d d' : Division stream}
    (h : GetAlike req s d d') : getOutcome req s d = getOutcome req s d' := by
  unfold GetAlike at h
  unfold getOutcome
  cases hl : s.cache.lookup req.uri with
  | none =>
    dsimp only
    split_ifs with hc
    · rw [hl] at h
      exact fetchOutcome_alike (h hc)
    · rfl
  | some resp =>
    dsimp only
    split_ifs with hv hc
    · rw [hl] at h
      exact renewOutcome_alike (h hc hv)
    · rfl
    · rfl

theorem getAlike_of_sent {req : HttpRequest} {s : St} {d d' : Division stream}
    (heq : (getOutcome req s d).sent = (getOutcome req s d').sent) : GetAlike req s d d' := by
  intro hc
  unfold getOutcome at heq
  cases hl : s.cache.lookup req.uri with
  | none =>
    rw [hl] at heq
    simp only [if_pos hc] at heq
    exact fetchedAlike_of_sent heq
  | some resp =>
    intro hv
    rw [hl] at heq
    simp only [if_pos hc, if_pos hv] at heq
    exact renewedAlike_of_sent d.first_begins d'.first_begins heq

/-- For every request and cache, every stream and any two divisions of it: a GET run gives
the same result on both just when they are `GetAlike`, and a POST run just when they are
alike for a fetch or the server is not reached. -/
theorem segmentation_iff (req : AcceptedRequest) (s : St) (d d' : Division stream) :
    (SameResult (proxyGET req.toHttpRequest) s d d' ↔ GetAlike req.toHttpRequest s d d') ∧
      (SameResult (proxyPOST req.toHttpRequest) s d d' ↔
        (s.world.connect = .connected → FetchedAlike s.world.libc d d')) := by
  constructor
  · have ends := proxyGET_ends req s d
    have ends' := proxyGET_ends req s d'
    constructor
    · rintro ⟨sent, _⟩
      apply getAlike_of_sent
      rw [← ends.sent, sent, ends'.sent]
    · intro alike
      have same := getOutcome_alike alike
      exact ⟨by rw [ends.sent, ends'.sent, same], by rw [ends.replies, ends'.replies, same]; rfl⟩
  · have ends := proxyPOST_ends req s d
    have ends' := proxyPOST_ends req s d'
    constructor
    · rintro ⟨sent, _⟩ hc
      rw [ends.sent, ends'.sent] at sent
      simp only [postOutcome, if_pos hc] at sent
      exact fetchedAlike_of_sent sent
    · intro alike
      have same : postOutcome s d = postOutcome s d' := by
        unfold postOutcome
        split_ifs with hc
        · rw [fetchOutcome_alike (alike hc)]
        · rfl
      exact ⟨by rw [ends.sent, ends'.sent, same], by rw [ends.replies, ends'.replies, same]; rfl⟩

/-- `twoBytes` in one segment, and with its body in a segment of its own. -/
def atOnce : Division twoBytes := ⟨[twoBytes], by decide, by decide +kernel⟩

def bodyLater : Division twoBytes :=
  ⟨[str "HTTP/1.1 200 OK\r\nContent-Length: 2\r\n\r\n", str "hi"], by decide, by decide +kernel⟩

/-- One complete response; when its body comes later the client never gets it. -/
theorem bodyLater_differs : Whole twoBytes twoBytes ∧
    ¬ SameResult (proxyGET AcceptedRequest.home.toHttpRequest) (.initial ⟨1, Nat.le_refl 1⟩)
      atOnce bodyLater := by
  constructor
  · obtain ⟨p, hp⟩ : ∃ p, ResponseParser.parse (2 ^ 40) twoBytes = .halt (.completed p) := ⟨_, rfl⟩
    exact whole_of_readExactly hp (twoBytes_readExactly hp)
  · rintro ⟨sent, _⟩
    revert sent
    decide +kernel

end HttpProxy
