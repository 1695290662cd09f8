import HttpProxy.Base.Fold
import HttpProxy.RequestParser

/-!
# What the request parser has read

The request line it took, and what the rest of a request leaves of it:
`completed_of_parse` takes the text of a completed request apart. The header block and the
body change neither the method nor the target nor the version, and put no control character
into a value.
-/

namespace HttpProxy

open Scan (Step)

/-- No control characters, so all on one line. -/
def Plain (t : Bytes) : Prop := ∀ c ∈ t, isControl c = false

theorem Plain.nil : Plain [] := by simp [Plain]

theorem Plain.append {t t' : Bytes} (h : Plain t) (h' : Plain t') : Plain (t ++ t') :=
  List.forall_mem_append.mpr ⟨h, h'⟩

theorem Plain.single {c : UInt8} (h : isControl c = false) : Plain [c] := by
  intro d hd
  rwa [List.mem_singleton.mp hd]

theorem Plain.snoc {t : Bytes} {c : UInt8} (h : Plain t) (hc : isControl c = false) :
    Plain (t ++ [c]) := h.append (.single hc)

/-- The values of the headers are `Plain`. -/
def PlainValues (its : List HeaderItem) : Prop := ∀ it ∈ its, Plain it.value

/-! ## The header block and the body -/

/-- What no byte behind the first line changes of a message. -/
structure Kept (m m' : Message) : Prop where
  major : m'.versionMajor = m.versionMajor
  minor : m'.versionMinor = m.versionMinor
  plain : PlainValues m.headers → PlainValues m'.headers

theorem Kept.of_headers {m m' : Message} (major : m'.versionMajor = m.versionMajor)
    (minor : m'.versionMinor = m.versionMinor) (h : m'.headers = m.headers) : Kept m m' :=
  ⟨major, minor, fun hp => h ▸ hp⟩

theorem Kept.refl (m : Message) : Kept m m := ⟨rfl, rfl, id⟩

theorem Kept.trans {m m' m'' : Message} (h : Kept m m') (h' : Kept m' m'') : Kept m m'' :=
  ⟨h'.major.trans h.major, h'.minor.trans h.minor, fun hp => h'.plain (h.plain hp)⟩

theorem kept_pushHeader (m : Message) (c : UInt8) : Kept m (m.pushHeader c) := by
  refine ⟨rfl, rfl, fun hp it hit => ?_⟩
  rcases List.mem_append.mp hit with hit | hit
  · exact hp it hit
  · rw [List.mem_singleton.mp hit]
    exact Plain.nil

theorem mem_modifyBack {α : Type} {f : α → α} {l : List α} {b : α} (h : b ∈ modifyBack f l) :
    b ∈ l ∨ ∃ a ∈ l, b = f a := by
  rcases List.eq_nil_or_concat l with rfl | ⟨l', a, rfl⟩
  · cases h
  · rw [List.concat_eq_append, modifyBack_append] at h
    rw [List.concat_eq_append]
    rcases List.mem_append.mp h with h | h
    · exact .inl (List.mem_append_left _ h)
    · exact .inr ⟨a, by simp, List.mem_singleton.mp h⟩

theorem kept_pushName (m : Message) (c : UInt8) : Kept m (m.pushName c) := by
  refine ⟨rfl, rfl, fun hp it hit => ?_⟩
  rcases mem_modifyBack hit with hold | ⟨it', hold, rfl⟩
  · exact hp it hold
  · exact hp it' hold

theorem kept_pushValue (m : Message) {c : UInt8} (hc : isControl c = false) :
    Kept m (m.pushValue c) := by
  refine ⟨rfl, rfl, fun hp it hit => ?_⟩
  rcases mem_modifyBack hit with hold | ⟨it', hold, rfl⟩
  · exact hp it hold
  · exact (hp it' hold).snoc hc

section
variable {memory : Nat}

/-- The framing headers set the framing, and nothing else. -/
theorem readFraming_sets {framed : Bool} {m m' : Message}
    (h : readFraming memory framed m = .ok m') :
    ∃ n b, m' = { m with contentSize := n, chunked := b } := by
  unfold readFraming at h
  split at h
  · cases h
    exact ⟨_, _, rfl⟩
  · dsimp only at h
    split_ifs at h
    · cases h
      exact ⟨_, _, rfl⟩
    · obtain ⟨_, _, h⟩ := Fold.bind_ok h
      cases h
      exact ⟨_, _, rfl⟩
    · cases h
      exact ⟨_, _, rfl⟩
    · cases h
      exact ⟨_, _, rfl⟩

theorem kept_readFraming {framed : Bool} {m m' : Message}
    (h : readFraming memory framed m = .ok m') : Kept m m' := by
  obtain ⟨_, _, rfl⟩ := readFraming_sets h
  exact .of_headers rfl rfl rfl

theorem kept_readChunkSize {m m' : Message} (h : readChunkSize memory m = .ok m') : Kept m m' := by
  obtain ⟨_, _, h⟩ := Fold.bind_ok h
  cases h
  exact .of_headers rfl rfl rfl

end

theorem kept_setKeepAlive (m : Message) : Kept m (setKeepAlive m) := by
  unfold setKeepAlive
  split
  · exact .of_headers rfl rfl rfl
  · split_ifs
    · exact .of_headers rfl rfl rfl
    · exact .refl m

/-- Where a byte behind the first line leads. -/
def Keeps (m : Message) : Step (BodyState × Message) (Halt Message) → Prop
  | .more (_, m') => Kept m m'
  | .halt (.completed m') => Kept m m'
  | .halt _ => True

theorem keeps_bodyStep (memory : Nat) (framed : Bool) (st : BodyState) (m : Message) (c : UInt8) :
    Keeps m (bodyStep memory framed st m c) := by
  have same {m' : Message} (major : m'.versionMajor = m.versionMajor)
      (minor : m'.versionMinor = m.versionMinor) (h : m'.headers = m.headers) : Kept m m' :=
    .of_headers major minor h
  cases st with
  | headerLineStart =>
    simp only [bodyStep]
    split_ifs
    · exact .refl m
    · exact .refl m
    · trivial
    · exact kept_pushHeader m c
  | headerLws =>
    simp only [bodyStep]
    split_ifs with _ _ hc
    · exact .refl m
    · exact .refl m
    · trivial
    · exact kept_pushValue m (by simpa using hc)
  | headerName =>
    simp only [bodyStep]
    split_ifs
    · exact .refl m
    · trivial
    · exact kept_pushName m c
  | headerValue =>
    simp only [bodyStep]
    split_ifs with _ hc
    · cases hf : readFraming memory framed m with
      | ok m' => exact kept_readFraming hf
      | error e => trivial
    · trivial
    · exact kept_pushValue m (by simpa using hc)
  | expectingNewline3 =>
    have kept := kept_setKeepAlive m
    simp only [bodyStep]
    split_ifs
    · exact kept
    · exact kept
    · trivial
    · exact kept
  | chunkSizeNewLine =>
    simp only [bodyStep]
    split_ifs
    · cases hc : readChunkSize memory m with
      | ok m' => exact kept_readChunkSize hc
      | error e => trivial
    · trivial
  | chunkData => exact same rfl rfl rfl
  | _ =>
    simp only [bodyStep]
    split_ifs <;> first | trivial | exact same rfl rfl rfl

/-! ## The request line -/

namespace RequestParser

/-- The parser halts as soon as it has read `read`, the front of `line`. -/
def Consumes (memory : Nat) (line read : Bytes) : Prop :=
  ∃ tail, line = read ++ tail ∧ Scan.rest (step memory) init line = some tail

/-- Nothing but a version has been read. -/
def Fresh (m : Message) : Prop :=
  m = { versionMajor := m.versionMajor, versionMinor := m.versionMinor }

/-- A request line without its line end. -/
def lineText (method tail : Bytes) : Bytes := method ++ ch ' ' :: tail

/-- A request line has been read to its end and left the parser with `r₀`. -/
structure Begun (memory : Nat) (method tail : Bytes) (r₀ : ParsedRequest) : Prop where
  plain : Plain method ∧ Plain tail
  ran : Scan.run (step memory) init (lineText method tail ++ str "\r\n") =
    .more (.body .headerLineStart, r₀)
  named : r₀.method = method
  fresh : Fresh r₀.msg

/-- Somewhere behind the method of the request line. -/
def OnLine (r : ParsedRequest) (x : Bytes) : Prop :=
  Fresh r.msg ∧ Plain r.method ∧ ∃ tail, Plain tail ∧ x = lineText r.method tail

/-- What the parser has read when it is in this state. -/
def Reads (memory : Nat) : State → ParsedRequest → Bytes → Prop
  | .requestMethodStart, r, x => r = {} ∧ x = []
  | .requestMethod, r, x => Fresh r.msg ∧ Plain r.method ∧ x = r.method
  | .responseHttpVersionNewLine, r, x => ∃ y, OnLine r y ∧ x = y ++ str "\r"
  | .body _, r, x => ∃ tail r₀ y, Begun memory r.method tail r₀ ∧ r₀.uri = r.uri ∧ Kept r₀.msg r.msg ∧
      x = lineText r.method tail ++ str "\r\n" ++ y
  | _, r, x => OnLine r x

section
variable {memory : Nat} {r r' : ParsedRequest} {x : Bytes} {c : UInt8} {st' : State}

theorem OnLine.snoc (h : OnLine r x) (hc : isControl c = false) (fresh : Fresh r'.msg)
    (same : r'.method = r.method) : OnLine r' (x ++ [c]) := by
  obtain ⟨_, token, tail, plain, rfl⟩ := h
  refine ⟨fresh, same ▸ token, tail ++ [c], plain.snoc hc, ?_⟩
  rw [same]
  simp [lineText]

theorem plain_of_digit (h : isDigit c = true) : isControl c = false := by
  simp only [isDigit, isControl, decide_eq_true_eq, decide_eq_false_iff_not, not_or,
    UInt8.le_iff_toNat_le, UInt8.ext_iff] at h ⊢
  simp at h ⊢
  omega

theorem plain_of_token (h : notToken c = false) : isControl c = false := by
  simp only [notToken, Bool.or_eq_false_iff] at h
  exact h.1.2

theorem expect_more {k : Char} {next : State} (h : expect c k next r = .more (st', r')) :
    c = ch k ∧ st' = next ∧ r' = r := by
  unfold expect at h
  split_ifs at h with hc
  cases h
  exact ⟨hc, rfl, rfl⟩

/-- The fixed characters of the line are no control characters. -/
theorem OnLine.expect {k : Char} {next : State} (h : OnLine r x) (hk : isControl (ch k) = false)
    (hs : RequestParser.expect c k next r = .more (st', r')) : OnLine r' (x ++ [c]) ∧ st' = next := by
  obtain ⟨rfl, rfl, rfl⟩ := expect_more hs
  exact ⟨h.snoc hk h.1 rfl, rfl⟩

theorem reads_requestMethod (h : Reads memory .requestMethod r x)
    (hs : step memory (.requestMethod, r) c = .more (st', r')) : Reads memory st' r' (x ++ [c]) := by
  obtain ⟨fresh, token, rfl⟩ := h
  simp only [step] at hs
  split_ifs at hs with hspace hno
  · cases hs
    exact ⟨fresh, token, [], Plain.nil, by rw [hspace]; rfl⟩
  · cases hs
    exact ⟨fresh, token.snoc (plain_of_token (by simpa using hno)), rfl⟩

theorem reads_newLine (hrun : Scan.run (step memory) init x = .more (.responseHttpVersionNewLine, r))
    (h : Reads memory .responseHttpVersionNewLine r x)
    (hs : step memory (.responseHttpVersionNewLine, r) c = .more (st', r')) :
    Reads memory st' r' (x ++ [c]) := by
  obtain ⟨y, ⟨fresh, token, tail, plain, rfl⟩, rfl⟩ := h
  have ran := (Scan.run_snoc (step memory) c hrun).trans hs
  obtain ⟨rfl, rfl, rfl⟩ := expect_more hs
  have text : lineText r'.method tail ++ str "\r" ++ [ch '\n'] =
      lineText r'.method tail ++ str "\r\n" := by simp [str]
  rw [text] at ran ⊢
  exact ⟨tail, r', [], ⟨⟨token, plain⟩, ran, rfl, fresh⟩, rfl, .refl _, by simp⟩

theorem reads_body {b : BodyState} (h : Reads memory (.body b) r x)
    (hs : step memory (.body b, r) c = .more (st', r')) : Reads memory st' r' (x ++ [c]) := by
  obtain ⟨tail, r₀, y, begun, target, kept, rfl⟩ := h
  have keeps := keeps_bodyStep memory (framed r) b r.msg c
  simp only [step] at hs
  split at hs
  · next b' m hb =>
    cases hs
    rw [hb] at keeps
    exact ⟨tail, r₀, y ++ [c], begun, target, kept.trans keeps, by simp⟩
  all_goals cases hs

theorem reads_step {st : State} (hrun : Scan.run (step memory) init x = .more (st, r))
    (h : Reads memory st r x) (hs : step memory (st, r) c = .more (st', r')) :
    Reads memory st' r' (x ++ [c]) := by
  cases st with
  | requestMethodStart =>
    obtain ⟨rfl, rfl⟩ := h
    simp only [step] at hs
    split_ifs at hs with hno
    cases hs
    exact ⟨rfl, .single (plain_of_token (by simpa using hno)), rfl⟩
  | requestMethod => exact reads_requestMethod h hs
  | requestUriStart =>
    simp only [step] at hs
    split_ifs at hs with hc
    cases hs
    exact OnLine.snoc h (by simpa using hc) h.1 rfl
  | requestUri =>
    simp only [step] at hs
    split_ifs at hs with hspace _ hc
    · cases hs
      rw [hspace]
      exact OnLine.snoc h (by decide) h.1 rfl
    · cases hs
      exact OnLine.snoc h (by simpa using hc) h.1 rfl
  | requestHttpVersionH =>
    obtain ⟨line, rfl⟩ := OnLine.expect h (by decide) hs
    exact line
  | requestHttpVersionHt =>
    obtain ⟨line, rfl⟩ := OnLine.expect h (by decide) hs
    exact line
  | requestHttpVersionHtt =>
    obtain ⟨line, rfl⟩ := OnLine.expect h (by decide) hs
    exact line
  | requestHttpVersionHttp =>
    obtain ⟨line, rfl⟩ := OnLine.expect h (by decide) hs
    exact line
  | requestHttpVersionSlash =>
    obtain ⟨rfl, rfl, rfl⟩ := expect_more hs
    refine OnLine.snoc h (by decide) ?_ rfl
    rw [h.1]
    rfl
  | requestHttpVersionMajorStart =>
    simp only [step] at hs
    split_ifs at hs with hd
    cases hs
    refine OnLine.snoc h (plain_of_digit hd) ?_ rfl
    rw [h.1]
    rfl
  | requestHttpVersionMajor =>
    simp only [step] at hs
    split_ifs at hs with hdot hd
    · cases hs
      rw [hdot]
      exact OnLine.snoc h (by decide) h.1 rfl
    · cases hs
      refine OnLine.snoc h (plain_of_digit hd) ?_ rfl
      rw [h.1]
      rfl
  | requestHttpVersionMinorStart =>
    simp only [step] at hs
    split_ifs at hs with hd
    cases hs
    refine OnLine.snoc h (plain_of_digit hd) ?_ rfl
    rw [h.1]
    rfl
  | requestHttpVersionMinor =>
    simp only [step] at hs
    split_ifs at hs with hcr hd
    · cases hs
      exact ⟨x, h, by rw [hcr]; rfl⟩
    · cases hs
      refine OnLine.snoc h (plain_of_digit hd) ?_ rfl
      rw [h.1]
      rfl
  | responseHttpVersionNewLine => exact reads_newLine hrun h hs
  | body b => exact reads_body h hs

end

/-- The text of a completed request: a line of HTTP/0.9, or a request line and what
follows it. -/
inductive Completed (memory : Nat) (bytes : Bytes) (p : ParsedRequest) : Prop
  | simple {tail rest : Bytes} (empty : p.msg.headers = []) (plain : Plain p.method ∧ Plain tail)
      (text : bytes = lineText p.method tail ++ ch '\r' :: rest) : Completed memory bytes p
  | full {tail rest : Bytes} {r₀ : ParsedRequest} (begun : Begun memory p.method tail r₀)
      (target : r₀.uri = p.uri) (kept : Kept r₀.msg p.msg)
      (text : bytes = lineText p.method tail ++ str "\r\n" ++ rest) : Completed memory bytes p

theorem completed_of_parse {memory : Nat} {bytes : Bytes} {p : ParsedRequest}
    (h : parse memory bytes = .halt (.completed p)) : Completed memory bytes p := by
  obtain ⟨x, c, rest, ⟨st, r⟩, rfl, hrun, hs⟩ := Scan.run_halt_split (step memory) h
  have reads : Reads memory st r x := Scan.run_more_induction (step memory)
    (I := fun s x => Reads memory s.1 s.2 x) (show Reads memory init.1 init.2 [] from ⟨rfl, rfl⟩)
    (fun x s c t hrun hI hs => reads_step hrun hI hs) hrun
  cases st with
  | requestUri =>
    obtain ⟨fresh, token, tail, plain, rfl⟩ := reads
    simp only [step] at hs
    split_ifs at hs with _ hcr
    · cases hs
      refine .simple ?_ ⟨token, plain⟩ (by rw [hcr])
      dsimp only
      rw [fresh]
    · cases hs
  | body b =>
    obtain ⟨tail, r₀, y, begun, target, kept, rfl⟩ := reads
    have keeps := keeps_bodyStep memory (framed r) b r.msg c
    simp only [step] at hs
    split at hs
    · cases hs
    · next m hb =>
      cases hs
      rw [hb] at keeps
      exact .full begun target (kept.trans keeps) (List.append_assoc ..)
    all_goals cases hs
  | _ =>
    simp only [step, expect] at hs
    split_ifs at hs
    cases hs

theorem plainValues_of_parse {memory : Nat} {bytes : Bytes} {p : ParsedRequest}
    (h : parse memory bytes = .halt (.completed p)) : PlainValues p.msg.headers := by
  cases completed_of_parse h with
  | simple empty =>
    intro it hit
    rw [empty] at hit
    cases hit
  | @full _ _ r₀ begun _ kept =>
    apply kept.plain
    have none : r₀.msg.headers = [] := by rw [begun.fresh]
    intro it hit
    rw [none] at hit
    cases hit

end RequestParser

end HttpProxy
