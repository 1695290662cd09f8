import HttpProxy.RequestLine
import HttpProxy.Runs

/-!
# The validation request as a request

`conditional_iff`: what `ConstructValidation` sends for an accepted GET parses, to the
same request line, and to the validators that the cached response has. Its Host is what
stands behind the method in the request line, not the Host of the client's request:
`getRequestLine` looks for one of the characters of `Host: `, and finds the first blank.
-/

namespace HttpProxy

open Scan (Step)

/-! ## Header lines, printed and read -/

/-- A name and a value that fit on one header line. -/
structure Printable (it : HeaderItem) : Prop where
  named : it.name ≠ []
  token : ∀ c ∈ it.name, notToken c = false
  plain : Plain it.value

def HeaderItem.line (it : HeaderItem) : Bytes := it.name ++ str ": " ++ it.value ++ str "\r\n"

namespace RequestParser

/-- The request `r` with these headers. -/
def withHeaders (r : ParsedRequest) (its : List HeaderItem) : ParsedRequest :=
  { r with msg := { r.msg with headers := its } }

section
variable {memory : Nat} {r : ParsedRequest} {its : List HeaderItem} (name value rest : Bytes)

theorem run_name (n : Bytes) (token : ∀ c ∈ name, notToken c = false) :
    Scan.run (step memory) (.body .headerName, withHeaders r (its ++ [⟨n, value⟩])) (name ++ rest) =
      Scan.run (step memory) (.body .headerName, withHeaders r (its ++ [⟨n ++ name, value⟩]))
        rest := by
  induction name generalizing n with
  | nil => simp
  | cons c name ih =>
    obtain ⟨hc, hname⟩ := List.forall_mem_cons.mp token
    have other : c ≠ ch ':' := by
      rintro rfl
      exact absurd hc (by decide)
    have push : step memory (.body .headerName, withHeaders r (its ++ [⟨n, value⟩])) c =
        .more (.body .headerName, withHeaders r (its ++ [⟨n ++ [c], value⟩])) := by
      simp [step, bodyStep, other, hc, withHeaders, Message.pushName]
    rw [List.cons_append, Scan.run_cons_more (step memory) _ push, ih _ hname]
    simp

theorem run_value (n v : Bytes) (plain : Plain value) :
    Scan.run (step memory) (.body .headerValue, withHeaders r (its ++ [⟨n, v⟩])) (value ++ rest) =
      Scan.run (step memory) (.body .headerValue, withHeaders r (its ++ [⟨n, v ++ value⟩])) rest := by
  induction value generalizing v with
  | nil => simp
  | cons c value ih =>
    obtain ⟨hc, hvalue⟩ := List.forall_mem_cons.mp plain
    have other : c ≠ ch '\r' := by
      rintro rfl
      exact absurd hc (by decide)
    have push : step memory (.body .headerValue, withHeaders r (its ++ [⟨n, v⟩])) c =
        .more (.body .headerValue, withHeaders r (its ++ [⟨n, v ++ [c]⟩])) := by
      simp [step, bodyStep, other, hc, withHeaders, Message.pushValue]
    rw [List.cons_append, Scan.run_cons_more (step memory) _ push, ih _ hvalue]
    simp

/-- A header line is read as the header it was printed from, and the parser is ready for
the next one. -/
theorem run_line {it : HeaderItem} (h : Printable it) (get : framed r = false) :
    Scan.run (step memory) (.body .headerLineStart, withHeaders r its) (it.line ++ rest) =
      Scan.run (step memory) (.body .headerLineStart, withHeaders r (its ++ [it])) rest := by
  obtain ⟨name, value⟩ := it
  have plain : Plain value := h.plain
  cases name with
  | nil => exact absurd rfl h.named
  | cons c name =>
    obtain ⟨hc, hname⟩ := List.forall_mem_cons.mp h.token
    have cr : c ≠ ch '\r' := by
      rintro rfl
      exact absurd hc (by decide)
    have blank : c ≠ ch ' ' ∧ c ≠ ch '\t' := by
      constructor <;> (rintro rfl; exact absurd hc (by decide))
    have first : step memory (.body .headerLineStart, withHeaders r its) c =
        .more (.body .headerName, withHeaders r (its ++ [⟨[c], []⟩])) := by
      simp [step, bodyStep, cr, blank.1, blank.2, hc, withHeaders, Message.pushHeader]
    have colon : step memory (.body .headerName, withHeaders r (its ++ [⟨c :: name, []⟩])) (ch ':') =
        .more (.body .spaceBeforeHeaderValue, withHeaders r (its ++ [⟨c :: name, []⟩])) := rfl
    have space : step memory (.body .spaceBeforeHeaderValue, withHeaders r (its ++ [⟨c :: name, []⟩]))
        (ch ' ') = .more (.body .headerValue, withHeaders r (its ++ [⟨c :: name, []⟩])) := rfl
    have ended (r' : ParsedRequest) (get' : framed r' = false) :
        step memory (.body .headerValue, r') (ch '\r') = .more (.body .expectingNewline2, r') := by
      simp [step, bodyStep, get', readFraming_unframed]
    have ended := ended (withHeaders r (its ++ [⟨c :: name, value⟩])) get
    have next : step memory (.body .expectingNewline2, withHeaders r (its ++ [⟨c :: name, value⟩]))
        (ch '\n') = .more (.body .headerLineStart, withHeaders r (its ++ [⟨c :: name, value⟩])) := rfl
    have text : HeaderItem.line ⟨c :: name, value⟩ ++ rest =
        c :: (name ++ ch ':' :: ch ' ' :: (value ++ ch '\r' :: ch '\n' :: rest)) := by
      simp [HeaderItem.line, str]
    rw [text, Scan.run_cons_more (step memory) _ first, run_name _ _ _ _ hname,
      List.singleton_append, Scan.run_cons_more (step memory) _ colon,
      Scan.run_cons_more (step memory) _ space, run_value _ _ _ _ plain, List.nil_append,
      Scan.run_cons_more (step memory) _ ended, Scan.run_cons_more (step memory) _ next]

theorem run_lines {items : List HeaderItem} (h : ∀ it ∈ items, Printable it)
    (get : framed r = false) :
    Scan.run (step memory) (.body .headerLineStart, withHeaders r its)
        (items.flatMap HeaderItem.line ++ rest) =
      Scan.run (step memory) (.body .headerLineStart, withHeaders r (its ++ items)) rest := by
  induction items generalizing its with
  | nil => simp
  | cons it items ih =>
    obtain ⟨hit, hitems⟩ := List.forall_mem_cons.mp h
    rw [List.flatMap_cons, List.append_assoc, run_line _ hit get, ih hitems]
    simp

/-- A blank line completes a request that announces no body. -/
theorem run_blankLine (size : r.msg.contentSize = 0) (chunked : r.msg.chunked = false) :
    Scan.run (step memory) (.body .headerLineStart, r) (str "\r\n") =
      .halt (.completed { r with msg := setKeepAlive r.msg }) := by
  have keeps : (setKeepAlive r.msg).contentSize = 0 ∧ (setKeepAlive r.msg).chunked = false := by
    unfold setKeepAlive
    split
    · exact ⟨size, chunked⟩
    · split_ifs
      · exact ⟨size, chunked⟩
      · exact ⟨size, chunked⟩
  have cr : step memory (.body .headerLineStart, r) (ch '\r') =
      .more (.body .expectingNewline3, r) := rfl
  have lf : step memory (.body .expectingNewline3, r) (ch '\n') =
      .halt (.completed { r with msg := setKeepAlive r.msg }) := by
    simp [step, bodyStep, keeps.1, keeps.2]
  rw [show str "\r\n" = [ch '\r', ch '\n'] from rfl, Scan.run_cons_more (step memory) _ cr,
    Scan.run_cons_halt (step memory) _ lf]

end

/-- Header lines behind a request line whose method has no body. -/
theorem parse_printed {memory : Nat} {method tail : Bytes} {r₀ : ParsedRequest}
    {items : List HeaderItem} (begun : Begun memory method tail r₀) (get : framed r₀ = false)
    (h : ∀ it ∈ items, Printable it) :
    ∃ q, parse memory
        (lineText method tail ++ str "\r\n" ++ (items.flatMap HeaderItem.line ++ str "\r\n")) =
          .halt (.completed q) ∧ q.method = method ∧ q.uri = r₀.uri ∧
      q.msg.versionMajor = r₀.msg.versionMajor ∧ q.msg.versionMinor = r₀.msg.versionMinor ∧
      q.msg.headers = items := by
  have fresh := begun.fresh
  have empty : r₀.msg.headers = [] := by rw [fresh]
  have start : withHeaders r₀ [] = r₀ := by rw [withHeaders, ← empty]
  have kept := kept_setKeepAlive (withHeaders r₀ items).msg
  have headers : (setKeepAlive (withHeaders r₀ items).msg).headers = items := by
    unfold setKeepAlive
    split
    · rfl
    · split_ifs <;> rfl
  refine ⟨{ withHeaders r₀ items with msg := setKeepAlive (withHeaders r₀ items).msg }, ?_,
    begun.named, rfl, kept.major, kept.minor, headers⟩
  rw [parse, Scan.run_append, begun.ran]
  dsimp only
  have lines : Scan.run (step memory) (.body .headerLineStart, withHeaders r₀ [])
        (items.flatMap HeaderItem.line ++ str "\r\n") =
      Scan.run (step memory) (.body .headerLineStart, withHeaders r₀ ([] ++ items)) (str "\r\n") :=
    run_lines (str "\r\n") h get
  rw [start, List.nil_append] at lines
  rw [lines, run_blankLine]
  · change r₀.msg.contentSize = 0
    rw [fresh]
  · change r₀.msg.chunked = false
    rw [fresh]

end RequestParser

/-! ## The values of a response -/

namespace ResponseParser

/-- Where a byte of a response leads. -/
def KeepsValues (r : Response) : Step (State × Response) (Halt Response) → Prop
  | .more (_, r') => PlainValues r.msg.headers → PlainValues r'.msg.headers
  | .halt (.completed r') => PlainValues r.msg.headers → PlainValues r'.msg.headers
  | .halt _ => True

theorem keepsValues_step (memory : Nat) (st : State) (r : Response) (c : UInt8) :
    KeepsValues r (step memory (st, r) c) := by
  cases st with
  | body b =>
    have keeps := keeps_bodyStep memory true b r.msg c
    simp only [step]
    generalize bodyStep memory true b r.msg c = res at keeps
    cases res with
    | more s => exact keeps.plain
    | halt res =>
      cases res with
      | completed m => exact keeps.plain
      | error => trivial
      | threw e => trivial
  | _ =>
    simp only [step, expect]
    split_ifs <;> first | trivial | exact id

theorem plainValues_of_parse {memory : Nat} {bytes : Bytes} {p : Response}
    (h : parse memory bytes = .halt (.completed p)) : PlainValues p.msg.headers := by
  obtain ⟨xs, c, _, ⟨st, r⟩, _, hrun, hs⟩ := Scan.run_halt_split (step memory) h
  have before : PlainValues r.msg.headers := by
    refine Scan.run_more_induction (step memory) (I := fun s _ => PlainValues s.2.msg.headers)
      (fun it hit => by cases hit) (fun _ s c t _ hI hstep => ?_) hrun
    have keeps := keepsValues_step memory s.1 s.2 c
    rw [hstep] at keeps
    exact keeps hI
  have keeps := keepsValues_step memory st r c
  rw [hs] at keeps
  exact keeps before

end ResponseParser

theorem plain_validators {libc : Libc} {bytes : Bytes} {r : HttpResponse}
    (h : parseResponse libc bytes = .ok (some r)) : Plain r.lastStr ∧ Plain r.etags := by
  unfold parseResponse at h
  split at h
  · next p hp =>
    obtain ⟨t, ht, heq⟩ := Fold.map_ok h
    cases heq
    refine Fold.foldlM_keeps_of (fun r : HttpResponse => Plain r.lastStr ∧ Plain r.etags)
      (fun it : HeaderItem => Plain it.value) ?_ ⟨Plain.nil, Plain.nil⟩
      (ResponseParser.plainValues_of_parse hp) ht
    intro s it t hs hit hstep
    unfold HttpResponse.readHeader at hstep
    by_cases hcc : it.name = str "Cache-Control"
    · rw [if_pos hcc] at hstep
      obtain ⟨n, _, hstep⟩ := Fold.bind_ok hstep
      cases hstep
      simpa only [apply_ite HttpResponse.lastStr, apply_ite HttpResponse.etags, ite_self] using hs
    · rw [if_neg hcc] at hstep
      split_ifs at hstep <;> cases hstep
      all_goals first | exact hs | exact ⟨hit, hs.2⟩ | exact ⟨hs.1, hit⟩
  all_goals cases h

/-! ## The request line of an accepted GET -/

theorem findFirstOf_append {set x y : Bytes} {c : UInt8} (h : ∀ d ∈ x, set.contains d = false)
    (hc : set.contains c = true) : findFirstOf set (x ++ c :: y) = some x.length := by
  induction x with
  | nil =>
    rw [List.nil_append, findFirstOf, List.findIdx?_cons, hc]
    rfl
  | cons d x ih =>
    obtain ⟨hd, hx⟩ := List.forall_mem_cons.mp h
    have later := ih hx
    unfold findFirstOf at later ⊢
    rw [List.cons_append, List.findIdx?_cons, hd, later]
    rfl

/-- No line end stands in plain text. -/
theorem Plain.endless {x : Bytes} (h : Plain x) : ∀ d ∈ x, (str "\r\n").contains d = false := by
  intro d hd
  cases he : (str "\r\n").contains d with
  | false => rfl
  | true =>
    have control : isControl d = true := by
      rcases (by simpa [str] using he : d = ch '\r' ∨ d = ch '\n') with rfl | rfl <;> decide
    rw [h d hd] at control
    cases control

/-- The two cuts of `getRequestLine` from a GET: the request line, and what stands in it
from its first blank on. -/
theorem getRequestLine_get {r r' : HttpRequest} {tail rest : Bytes} (plain : Plain tail)
    (text : r.lineSend = RequestParser.lineText (str "GET") tail ++ str "\r\n" ++ rest)
    (h : r.getRequestLine = .ok r') :
    r'.request = RequestParser.lineText (str "GET") tail ∧ r'.hostLine = ch ' ' :: tail := by
  have front : Plain (RequestParser.lineText (str "GET") tail) := by
    refine Plain.append (t := str "GET ") ?_ plain
    unfold Plain
    decide +kernel
  have hostPlain : Plain (ch ' ' :: tail) := Plain.append (t := [ch ' ']) (.single (by decide)) plain
  have lineEnd (x : Bytes) (hx : Plain x) (y : Bytes) :
      upTo (x ++ str "\r\n" ++ y) (findFirstOf (str "\r\n") (x ++ str "\r\n" ++ y)) = x := by
    have split : x ++ str "\r\n" ++ y = x ++ ch '\r' :: (ch '\n' :: y) := by simp [str]
    rw [split, findFirstOf_append hx.endless (by decide)]
    simp [upTo]
  have first : findFirstOf (str "Host: ") r.lineSend = some 3 := by
    rw [text]
    rfl
  obtain ⟨_, _, h⟩ := Fold.bind_ok h
  rw [first] at h
  obtain ⟨whole, hwhole, h⟩ := Fold.bind_ok h
  have hdrop : whole = ch ' ' :: tail ++ str "\r\n" ++ rest := by
    unfold substr at hwhole
    dsimp only at hwhole
    split_ifs at hwhole
    cases hwhole
    rw [text]
    rfl
  cases h
  refine ⟨?_, ?_⟩
  · dsimp only
    rw [text, lineEnd _ front]
  · dsimp only
    rw [hdrop, lineEnd _ hostPlain]

/-! ## `ConstructValidation` -/

/-- The headers of the validation request for a client's request with host `h`. -/
def conditionalHeaders (h : Bytes) (r : HttpResponse) : List HeaderItem :=
  ⟨str "Host", h⟩ ::
    ((if r.lastStr ≠ [] then [⟨str "If-Modified-Since", r.lastStr⟩] else []) ++
      (if r.etags ≠ [] then [⟨str "If-None-Match", r.etags⟩] else []))

/-- `sent` is a request like `p`, with the Host `h`, the validators of `r` and no other
header. -/
def Conditional (p : ParsedRequest) (h : Bytes) (r : HttpResponse) (sent : Bytes) : Prop :=
  ∃ q, (∀ memory, RequestParser.parse memory sent = .halt (.completed q)) ∧
    q.method = p.method ∧ q.uri = p.uri ∧
    q.msg.versionMajor = p.msg.versionMajor ∧ q.msg.versionMinor = p.msg.versionMinor ∧
    q.msg.headers.Perm (conditionalHeaders h r)

theorem printable {name value : Bytes} (named : name ≠ []) (token : ∀ c ∈ name, notToken c = false)
    (plain : Plain value) : Printable ⟨name, value⟩ := ⟨named, token, plain⟩

theorem printable_conditional {h : Bytes} {r : HttpResponse} (plain : Plain h)
    (validators : Plain r.lastStr ∧ Plain r.etags) :
    ∀ it ∈ conditionalHeaders h r, Printable it := by
  intro it hit
  rcases List.mem_cons.mp hit with rfl | hit
  · exact printable (by decide) (by decide +kernel) plain
  · rcases List.mem_append.mp hit with hit | hit
    · split_ifs at hit
      · rw [List.mem_singleton.mp hit]
        exact printable (by decide) (by decide +kernel) validators.1
      · cases hit
    · split_ifs at hit
      · rw [List.mem_singleton.mp hit]
        exact printable (by decide) (by decide +kernel) validators.2
      · cases hit

theorem constructValidation_text {req : HttpRequest} {r : HttpResponse} {tail : Bytes}
    (host : req.hostLine = ch ' ' :: tail) (some_validator : r.lastStr ≠ [] ∨ r.etags ≠ []) :
    constructValidation req r = req.request ++ str "\r\n" ++
      ((conditionalHeaders tail r).flatMap HeaderItem.line ++ str "\r\n") := by
  have nonempty (x : Bytes) : x.length ≠ 0 ↔ x ≠ [] := not_congr List.length_eq_zero_iff
  simp only [constructValidation, nonempty, if_pos some_validator, host, conditionalHeaders]
  split_ifs <;> simp [HeaderItem.line, str]

theorem host_of_mem {h h' : Bytes} {r : HttpResponse}
    (hm : ⟨str "Host", h⟩ ∈ conditionalHeaders h' r) : h = h' := by
  rcases List.mem_cons.mp hm with heq | hm
  · exact congrArg HeaderItem.value heq
  · -- the validators have other names
    rcases List.mem_append.mp hm with hm | hm
    · split_ifs at hm
      · have named := congrArg HeaderItem.name (List.mem_singleton.mp hm)
        exact absurd named (by decide : str "Host" ≠ str "If-Modified-Since")
      · cases hm
    · split_ifs at hm
      · have named := congrArg HeaderItem.name (List.mem_singleton.mp hm)
        exact absurd named (by decide : str "Host" ≠ str "If-None-Match")
      · cases hm

theorem constructRequest_cut {memory : Nat} {line : Bytes} {req : HttpRequest}
    (h : HttpRequest.constructRequest memory line = .ok (some req)) :
    ∃ mid : HttpRequest, mid.lineSend = line ∧ mid.getRequestLine = .ok req := by
  obtain ⟨o, hparse, h⟩ := Fold.bind_ok h
  cases o with
  | none => cases h
  | some mid =>
    obtain ⟨r, hline, h⟩ := Fold.bind_ok h
    cases h
    refine ⟨mid, ?_, hline⟩
    unfold HttpRequest.parseRequest at hparse
    split at hparse
    · obtain ⟨built, hbuilt, hmid⟩ := Fold.bind_ok hparse
      cases hmid
      exact (HttpRequest.getHostIp_keeps hbuilt).1
    all_goals cases hparse

/-- The validation request for an accepted GET with a Host header of value `h` is the
request with validators just when `h` is the rest of the request line behind its method. -/
theorem conditional_iff {memory : Nat} {line : Bytes} {req : HttpRequest} {p : ParsedRequest}
    {h : Bytes} {libc : Libc} {cached : Bytes} {r : HttpResponse}
    (accepted : HttpRequest.constructRequest memory line = .ok (some req))
    (parsed : RequestParser.parse memory line = .halt (.completed p)) (get : p.method = str "GET")
    (host : ⟨str "Host", h⟩ ∈ p.msg.headers) (built : parseResponse libc cached = .ok (some r))
    (some_validator : r.lastStr ≠ [] ∨ r.etags ≠ []) :
    Conditional p h r (constructValidation req r) ↔ h = req.request.drop 4 := by
  cases RequestParser.completed_of_parse parsed with
  | simple empty =>
    rw [empty] at host
    cases host
  | @full tail rest r₀ begun target kept text =>
    rw [get] at begun text
    obtain ⟨mid, hmid, hcut⟩ := constructRequest_cut accepted
    obtain ⟨request, hostLine⟩ := getRequestLine_get begun.plain.2 (hmid.trans text) hcut
    have behind : req.request.drop 4 = tail := by
      rw [request]
      rfl
    have unframed : RequestParser.framed r₀ = false := by
      rw [RequestParser.framed, begun.named]
      decide
    obtain ⟨q, hq, method, uri, major, minor, headers⟩ := RequestParser.parse_printed begun unframed
      (printable_conditional begun.plain.2 (plain_validators built))
    rw [← request, ← constructValidation_text hostLine some_validator] at hq
    have bodiless : RequestParser.framed q = false := by
      rw [RequestParser.framed, method]
      decide
    rw [behind]
    constructor
    · rintro ⟨q', hq', _, _, _, _, perm⟩
      cases hq.symm.trans (hq' memory)
      rw [headers] at perm
      exact host_of_mem (perm.mem_iff.mpr List.mem_cons_self)
    · rintro rfl
      exact ⟨q, RequestParser.parse_unframed hq bodiless, method.trans get.symm,
        uri.trans target, major.trans kept.major.symm, minor.trans kept.minor.symm, headers ▸ .refl _⟩

/-- What the parser makes of `AcceptedRequest.home`. -/
def homeParsed : ParsedRequest where
  method := str "GET"
  uri := str "/"
  msg :=
    { versionMajor := 1, versionMinor := 1, headers := [⟨str "Host", str "h"⟩], keepAlive := true }

/-- A response with an entity tag. -/
def taggedBytes : Bytes := str "HTTP/1.1 200 OK\r\nETag: x\r\n\r\n"

def tagged : HttpResponse where
  lineRecv := taggedBytes
  httpVer := str "HTTP/1.1"
  statusCode := 200
  status := str "OK"
  etags := str "x"

theorem conditional_iff_home :
    Conditional homeParsed (str "h") tagged
        (constructValidation AcceptedRequest.home.toHttpRequest tagged) ↔
      str "h" = AcceptedRequest.home.request.drop 4 := by
  have parsed : RequestParser.parse (2 ^ 40) AcceptedRequest.home.line =
      .halt (.completed homeParsed) := by
    decide +kernel
  have built : parseResponse ⟨0, fun _ => none, 2 ^ 40⟩ taggedBytes = .ok (some tagged) := by
    decide +kernel
  exact conditional_iff (AcceptedRequest.home.accepts_get (by decide +kernel) _) parsed rfl
    List.mem_cons_self built (.inr (by decide))

/-- The server is asked for host `/ HTTP/1.1`. -/
theorem home_misdirected :
    HttpRequest.constructRequest (2 ^ 40) AcceptedRequest.home.line =
        .ok (some AcceptedRequest.home.toHttpRequest) ∧
      RequestParser.parse (2 ^ 40) AcceptedRequest.home.line = .halt (.completed homeParsed) ∧
      parseResponse ⟨0, fun _ => none, 2 ^ 40⟩ taggedBytes = .ok (some tagged) ∧
      ¬ Conditional homeParsed (str "h") tagged
        (constructValidation AcceptedRequest.home.toHttpRequest tagged) := by
  refine ⟨AcceptedRequest.home.accepts_get (by decide +kernel) _, by decide +kernel,
    by decide +kernel, ?_⟩
  rintro ⟨q, hq, _, _, _, _, perm⟩
  have asked : RequestParser.parse (2 ^ 40)
      (constructValidation AcceptedRequest.home.toHttpRequest tagged) =
      .halt (.completed { homeParsed with
        msg := { homeParsed.msg with
          headers := [⟨str "Host", str "/ HTTP/1.1"⟩, ⟨str "If-None-Match", str "x"⟩] } }) := by
    decide +kernel
  cases (hq _).symm.trans asked
  have host := perm.mem_iff.mpr List.mem_cons_self
  revert host
  decide

end HttpProxy
