import HttpProxy.RequestLine
import HttpProxy.Runs
import HttpProxy.Session

/-!
# What `setRequest` makes of the client's bytes

`settled_iff`: it accepts the request, or answers 400 and throws, as long as the parser
makes no reservation that a vector or the memory refuses, every number in a Cache-Control
header is one that `stoi` takes, and the first line end does not begin at the last byte.
Otherwise an exception leaves `constructRequest` before anything is sent.
-/

namespace HttpProxy

/-- The directives whose value is read as a number. -/
def numbered : List Bytes := [str "max-age=", str "max-stale=", str "min-fresh="]

/-- `stoi` takes the numbers of the header, if it is one for Cache-Control. -/
def Numbered (it : HeaderItem) : Prop :=
  it.name = str "Cache-Control" → ∀ key ∈ numbered, ∃ n, findNumber key it.value = .ok n

/-- Nothing in `constructRequest` throws on these bytes, with this much memory: no reservation
of the parser, no number of a Cache-Control header, and no cut behind the request line. -/
def Readable (memory : Nat) (line : Bytes) : Prop :=
  match RequestParser.parse memory line with
  | .halt (.threw _) => False
  | .halt (.completed p) =>
    (∀ it ∈ p.msg.headers, Numbered it) ∧
      ∀ i, findFirstOf (str "\r\n") line = some i → i + 2 ≤ line.length
  | _ => True

namespace HttpRequest

theorem readCacheControl_ok_iff (r : HttpRequest) (value : Bytes) :
    (∃ t, r.readCacheControl value = .ok t) ↔ ∀ key ∈ numbered, ∃ n, findNumber key value = .ok n := by
  constructor
  · rintro ⟨t, h⟩
    obtain ⟨n₁, h₁, h⟩ := Fold.bind_ok h
    obtain ⟨n₂, h₂, h⟩ := Fold.bind_ok h
    obtain ⟨n₃, h₃, _⟩ := Fold.bind_ok h
    simpa [numbered] using ⟨⟨n₁, h₁⟩, ⟨n₂, h₂⟩, n₃, h₃⟩
  · intro h
    obtain ⟨⟨n₁, h₁⟩, ⟨n₂, h₂⟩, n₃, h₃⟩ : _ ∧ _ ∧ _ := by simpa [numbered] using h
    exact Fold.exists_bind_ok.mpr ⟨n₁, h₁, Fold.exists_bind_ok.mpr ⟨n₂, h₂,
      Fold.exists_bind_ok.mpr ⟨n₃, h₃, _, rfl⟩⟩⟩

theorem readHeader_ok_iff (r : HttpRequest) (it : HeaderItem) :
    (∃ t, r.readHeader it = .ok t) ↔ Numbered it := by
  unfold readHeader Numbered
  by_cases hhost : it.name = str "Host"
  · have other : it.name ≠ str "Cache-Control" := by rw [hhost]; decide
    rw [if_pos hhost]
    exact iff_of_true ⟨_, rfl⟩ fun hcc => absurd hcc other
  · rw [if_neg hhost]
    by_cases hcc : it.name = str "Cache-Control"
    · rw [if_pos hcc, readCacheControl_ok_iff]
      exact ⟨fun h _ => h, fun h => h hcc⟩
    · rw [if_neg hcc]
      exact iff_of_true ⟨_, rfl⟩ fun h => absurd h hcc

theorem getHostIp_ok_iff (r : HttpRequest) (its : List HeaderItem) :
    (∃ t, r.getHostIp its = .ok t) ↔ ∀ it ∈ its, Numbered it :=
  Fold.foldlM_ok_iff Numbered readHeader_ok_iff

theorem substr_ok_iff (s : Bytes) (pos : Nat) (n : Option Nat) :
    (∃ t, substr s pos n = .ok t) ↔ pos ≤ s.length := by
  unfold substr
  by_cases h : s.length < pos
  · rw [if_pos h]
    exact iff_of_false (by simp) (by omega)
  · rw [if_neg h]
    exact iff_of_true ⟨_, rfl⟩ (by omega)

/-- The cut behind the request line is the one that can throw: a completed line has a blank. -/
theorem getRequestLine_ok_iff {r : HttpRequest} (blank : ch ' ' ∈ r.lineSend) :
    (∃ t, r.getRequestLine = .ok t) ↔
      ∀ i, findFirstOf (str "\r\n") r.lineSend = some i → i + 2 ≤ r.lineSend.length := by
  obtain ⟨start, hstart⟩ : ∃ i, findFirstOf (str "Host: ") r.lineSend = some i := by
    cases h : findFirstOf (str "Host: ") r.lineSend with
    | some i => exact ⟨i, rfl⟩
    | none => exact absurd (List.findIdx?_eq_none_iff.mp h (ch ' ') blank) (by decide)
  have within : start ≤ r.lineSend.length := (List.findIdx?_eq_some_iff_findIdx_eq.mp hstart).1.le
  have one : 1 ≤ r.lineSend.length := List.length_pos_of_mem blank
  have whole : ∃ t, substr r.lineSend start none = .ok t := (substr_ok_iff ..).mpr within
  have cut (pos : Nat) (g : Bytes → Except Exn HttpRequest) (hg : ∀ data, ∃ t, g data = .ok t) :
      (∃ t, substr r.lineSend pos none >>= g = .ok t) ↔ pos ≤ r.lineSend.length := by
    rw [Fold.exists_bind_ok, ← substr_ok_iff r.lineSend pos none]
    exact ⟨fun ⟨data, h, _⟩ => ⟨data, h⟩, fun ⟨data, h⟩ => ⟨data, h, hg data⟩⟩
  dsimp only [getRequestLine]
  rw [hstart]
  cases hi : findFirstOf (str "\r\n") r.lineSend with
  | none =>
    refine (cut 1 _ fun _ => ?_).trans (iff_of_true one nofun)
    exact Fold.exists_bind_ok.mpr (whole.imp fun _ h => ⟨h, _, rfl⟩)
  | some i =>
    refine (cut (i + 2) _ fun _ => ?_).trans (by simp)
    exact Fold.exists_bind_ok.mpr (whole.imp fun _ h => ⟨h, _, rfl⟩)

theorem blank_mem_of_completed {memory : Nat} {line : Bytes} {p : ParsedRequest}
    (h : RequestParser.parse memory line = .halt (.completed p)) : ch ' ' ∈ line := by
  cases RequestParser.completed_of_parse h with
  | simple _ _ text => simp [text, RequestParser.lineText]
  | full _ _ _ text => simp [text, RequestParser.lineText]

theorem constructRequest_ok_iff (memory : Nat) (line : Bytes) :
    (∃ o, constructRequest memory line = .ok o) ↔ Readable memory line := by
  unfold constructRequest Readable
  rw [Fold.exists_bind_ok]
  unfold parseRequest
  cases hp : RequestParser.parse memory line with
  | more s => exact iff_of_true ⟨none, rfl, none, rfl⟩ trivial
  | halt o =>
    cases o with
    | error => exact iff_of_true ⟨none, rfl, none, rfl⟩ trivial
    | threw e => exact iff_of_false (by rintro ⟨_, h, _⟩; cases h) id
    | completed p =>
      have blank := blank_mem_of_completed hp
      dsimp only
      constructor
      · rintro ⟨o, hmid, t, ht⟩
        obtain ⟨built, hbuilt, hmid⟩ := Fold.bind_ok hmid
        cases hmid
        obtain ⟨t', ht', _⟩ := Fold.bind_ok ht
        have keeps : built.lineSend = line := (getHostIp_keeps hbuilt).1
        have line_ok := (getRequestLine_ok_iff (by rw [keeps]; exact blank)).mp ⟨t', ht'⟩
        rw [keeps] at line_ok
        exact ⟨(getHostIp_ok_iff ..).mp ⟨built, hbuilt⟩, line_ok⟩
      · rintro ⟨numbers, line_ok⟩
        obtain ⟨built, hbuilt⟩ := (getHostIp_ok_iff
          { lineSend := line, method := p.method, uri := p.uri, httpVer := httpVersion p.msg }
          _).mpr numbers
        have keeps : built.lineSend = line := (getHostIp_keeps hbuilt).1
        obtain ⟨t, ht⟩ := (getRequestLine_ok_iff
          (r := { built with uri := built.hostName ++ built.hostPort ++ built.uri })
          (by rw [keeps]; exact blank)).mpr (by rw [keeps]; exact line_ok)
        refine ⟨_, by rw [hbuilt]; rfl, ?_⟩
        exact Fold.exists_bind_ok.mpr ⟨t, ht, _, rfl⟩

end HttpRequest

/-! ## The run of `setRequest` -/

def Event.isSend : Event → Bool
  | .send _ _ _ _ => true
  | _ => false

/-- A run that accepts the request and sends nothing, or throws after one call of `send`,
the one for the 400. -/
inductive Settled (line : Bytes) (s : St) : EStateM.Result Exn St HttpRequest → Prop
  | accepted {request : HttpRequest} {t : St} {evs : List Event}
      (construct : HttpRequest.constructRequest s.world.libc.memory line = .ok (some request))
      (trace : t.trace = s.trace ++ evs) (quiet : evs.filter Event.isSend = []) :
      Settled line s (.ok request t)
  | refused {e : Exn} {t : St} {evs : List Event} {n : Int} (trace : t.trace = s.trace ++ evs)
      (once : evs.filter Event.isSend =
        [.send .client (.errorLine .badRequest400) (errorLine .badRequest400) n]) :
      Settled line s (.error e t)

theorem setRequest_accepts {line : Bytes} {request : HttpRequest} {s : St}
    (h : HttpRequest.constructRequest s.world.libc.memory line = .ok (some request)) :
    setRequest line s = .ok request (s.after s.world [.log (.accepted request.request)]) := by
  rw [setRequest, get_bind, h]
  rfl

theorem setRequest_throws {line : Bytes} {e : Exn} {s : St}
    (h : HttpRequest.constructRequest s.world.libc.memory line = .error e) :
    setRequest line s = .error e s := by
  rw [setRequest, get_bind, h]
  rfl

theorem setRequest_threw {line : Bytes} {e : Exn} {s : St}
    (h : HttpRequest.constructRequest s.world.libc.memory line = .error e) :
    ¬ Settled line s (setRequest line s) := by
  rw [setRequest_throws h]
  intro settled
  cases settled with
  | refused trace once =>
    rw [List.self_eq_append_right.mp trace] at once
    cases once

theorem setRequest_refuses {line : Bytes} {s : St}
    (h : HttpRequest.constructRequest s.world.libc.memory line = .ok none) :
    Settled line s (setRequest line s) := by
  obtain ⟨before, hlog, logs⟩ := onlyLogs_logWhen (4 < line.length) .invalidRequest s
  obtain ⟨n, l, _, herr⟩ := proxyERROR_events .badRequest400 (s.after s.world before)
  have quiet : before.filter Event.isSend = [] := by
    apply List.filter_eq_nil_iff.mpr
    intro e he
    obtain ⟨line, rfl⟩ := logs e he
    simp [Event.isSend]
  rw [setRequest, get_bind, h]
  simp only [bind_ok _ hlog, bind_ok _ herr, after_after]
  refine .refused (after_trace ..) (n := n) ?_
  rw [List.filter_append, quiet]
  rfl

/-- A line that is no request throws, after a 400 or at once. -/
theorem setRequest_fails {line : Bytes} {s : St}
    (h : ∀ req, HttpRequest.constructRequest s.world.libc.memory line ≠ .ok (some req)) :
    ∃ e t, setRequest line s = .error e t := by
  cases construct : HttpRequest.constructRequest s.world.libc.memory line with
  | error e => exact ⟨e, s, setRequest_throws construct⟩
  | ok o =>
    cases o with
    | some req => exact absurd construct (h req)
    | none =>
      have settled := setRequest_refuses construct
      generalize setRequest line s = res at settled
      cases settled with
      | accepted construct' => exact absurd construct' (h _)
      | @refused e t => exact ⟨e, t, rfl⟩

/-- `setRequest` accepts or answers 400 just when no number, no cut and no reservation in
`constructRequest` throws. -/
theorem settled_iff (line : Bytes) (s : St) :
    Settled line s (setRequest line s) ↔ Readable s.world.libc.memory line := by
  rw [← HttpRequest.constructRequest_ok_iff]
  cases h : HttpRequest.constructRequest s.world.libc.memory line with
  | error e => exact iff_of_false (setRequest_threw h) (by simp)
  | ok o =>
    refine iff_of_true ?_ ⟨o, rfl⟩
    cases o with
    | none => exact setRequest_refuses h
    | some request =>
      rw [setRequest_accepts h]
      exact .accepted h (after_trace ..) rfl

/-- A first chunk that only a larger memory has room for. -/
def hugeChunk : Bytes :=
  str "POST / HTTP/1.1\r\nHost: h\r\nTransfer-Encoding: chunked\r\n\r\n7fffffffffff\r\n"

example : HttpRequest.constructRequest (2 ^ 40) hugeChunk = .error .badAlloc := by decide +kernel
example : HttpRequest.constructRequest (2 ^ 50) hugeChunk = .ok none := by decide +kernel

/-- A max-age that is no number. -/
def soon : Bytes := str "GET / HTTP/1.1\r\nHost: h\r\nCache-Control: max-age=soon\r\n\r\n"

theorem soon_unsettled :
    ¬ Settled soon (.initial ⟨1, Nat.le_refl 1⟩) (setRequest soon (.initial ⟨1, Nat.le_refl 1⟩)) := by
  have threw : HttpRequest.constructRequest (2 ^ 40) soon = .error .invalidArgument := by
    decide +kernel
  exact setRequest_threw threw

end HttpProxy
