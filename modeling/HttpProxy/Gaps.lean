import HttpProxy.Tunnel

/-!
# What a relay does after a failed send

`gapless_iff`: neither the tunnel nor the relay of `chunkHandle` reads the result of its
`sendall`, so a block that was cut off by a failed send is followed by the next one. The
receiver is spared the gap just when the first send of every later block fails too.
-/

namespace HttpProxy

/-- At all times the peer of `src` has been sent a prefix of what came from `src`, and
nothing more once a send to it has failed. -/
def Gapless (src : Sock) (evs : List Event) : Prop :=
  ∀ pre post, evs = pre ++ post → bytesTo src.other pre <+: bytesFrom src pre ∧
    (Failed src.other pre → bytesTo src.other post = [])

theorem Failed.append_left {dst : Sock} {evs : List Event} (h : Failed dst evs)
    (more : List Event) : Failed dst (evs ++ more) := by
  obtain ⟨what, range, mem⟩ := h
  exact ⟨what, range, List.mem_append_left _ mem⟩

theorem failed_append {dst : Sock} {evs more : List Event} :
    Failed dst (evs ++ more) ↔ Failed dst evs ∨ Failed dst more := by
  simp only [Failed, List.mem_append, exists_or]

theorem Recvs.not_failed {src : Sock} {evs : List Event} (h : Recvs src evs) (dst : Sock) :
    ¬ Failed dst evs := by
  rintro ⟨what, range, mem⟩
  obtain ⟨r, eq⟩ := h _ mem
  cases eq

theorem Sends.not_failed {dst other : Sock} {what : Payload} {evs : List Event}
    (h : Sends dst what evs) (hne : dst ≠ other) : ¬ Failed other evs := by
  rintro ⟨what', range, mem⟩
  obtain ⟨range', n, eq⟩ := h _ mem
  cases eq
  exact hne rfl

namespace Gapless

variable {src : Sock} {evs more : List Event}

theorem nil : Gapless src [] := by
  intro pre post h
  obtain ⟨rfl, rfl⟩ := List.append_eq_nil_iff.mp h.symm
  exact ⟨List.prefix_rfl, fun _ => rfl⟩

theorem left (h : Gapless src (evs ++ more)) : Gapless src evs := by
  rintro pre post rfl
  obtain ⟨behind, ceased⟩ := h pre (post ++ more) (List.append_assoc ..)
  refine ⟨behind, fun failed => ?_⟩
  have rest := ceased failed
  rw [bytesTo_append] at rest
  exact (List.append_eq_nil_iff.mp rest).1

theorem ceased (h : Gapless src (evs ++ more)) (failed : Failed src.other evs) :
    bytesTo src.other more = [] := (h evs more rfl).2 failed

theorem behind (h : Gapless src evs) : bytesTo src.other evs <+: bytesFrom src evs :=
  (h evs [] (List.append_nil evs).symm).1

/-- What the events behind a trace must keep to. -/
theorem append (h : Gapless src evs) (stopped : Failed src.other evs → bytesTo src.other more = [])
    (rest : ∀ pre post, more = pre ++ post →
      bytesTo src.other (evs ++ pre) <+: bytesFrom src (evs ++ pre) ∧
        (Failed src.other pre → bytesTo src.other post = [])) : Gapless src (evs ++ more) := by
  intro pre post split
  obtain ⟨mid, rfl, rfl⟩ | ⟨mid, rfl, rfl⟩ := List.append_eq_append_iff.mp split
  · -- the cut lies in `more`
    obtain ⟨behind, ceased⟩ := rest mid post rfl
    refine ⟨behind, fun failed => ?_⟩
    rcases failed_append.mp failed with before | within
    · have all := stopped before
      rw [bytesTo_append] at all
      exact (List.append_eq_nil_iff.mp all).2
    · exact ceased within
  · obtain ⟨behind, ceased⟩ := h pre mid rfl
    refine ⟨behind, fun failed => ?_⟩
    rw [bytesTo_append, ceased failed, stopped (failed.append_left mid), List.append_nil]

/-- Events that deliver nothing. -/
theorem silent (h : Gapless src evs) (nothing : bytesTo src.other more = []) :
    Gapless src (evs ++ more) := by
  refine h.append (fun _ => nothing) fun pre post split => ?_
  rw [split, bytesTo_append] at nothing
  obtain ⟨before, after⟩ := List.append_eq_nil_iff.mp nothing
  refine ⟨?_, fun _ => after⟩
  rw [bytesTo_append, before, List.append_nil, bytesFrom_append]
  exact h.behind.trans (List.prefix_append _ _)

end Gapless

/-! ## The sends of one block -/

theorem passed_eq_zero {len : Nat} (pos : 0 < len) (l : List SendResult) :
    passed len l = 0 ↔ l.head? = some .fail := by
  cases l with
  | nil => simpa [passed] using Nat.ne_of_gt pos
  | cons r rest =>
    cases r with
    | fail => simp [passed]
    | took n =>
      rw [passed, if_neg (Nat.ne_of_gt pos)]
      simp only [List.head?_cons, Option.some.injEq, reduceCtorEq, iff_false]
      omega

/-- Nothing stands behind the failed send when it is the only event. -/
theorem Failed.alone {dst : Sock} {e : Event} {pre post : List Event} (failed : Failed dst pre)
    (split : [e] = pre ++ post) : post = [] := by
  cases pre with
  | nil =>
    obtain ⟨_, _, mem⟩ := failed
    cases mem
  | cons e' pre =>
    rw [List.cons_append] at split
    exact (List.append_eq_nil_iff.mp (List.cons.inj split).2.symm).2

/-- A send that fails is the last one of its `sendall`. -/
theorem sendEvents_ends {dst : Sock} {what : Payload} {buf : Bytes} {l : List SendResult}
    {pre post : List Event} (split : sendEvents dst what buf l = pre ++ post)
    (failed : Failed dst pre) : post = [] := by
  induction l generalizing buf pre with
  | nil =>
    rw [sendEvents] at split
    split_ifs at split
    · exact (List.append_eq_nil_iff.mp split.symm).2
    · exact failed.alone split
  | cons r rest ih =>
    by_cases none : buf = []
    · rw [none, sendEvents_nil] at split
      exact (List.append_eq_nil_iff.mp split.symm).2
    · cases r with
      | fail =>
        rw [sendEvents, if_neg none] at split
        exact failed.alone split
      | took n =>
        rw [sendEvents, if_neg none] at split
        cases pre with
        | nil =>
          obtain ⟨_, _, mem⟩ := failed
          cases mem
        | cons e pre =>
          rw [List.cons_append] at split
          obtain ⟨rfl, more⟩ := List.cons.inj split
          exact ih more ((failed_took _).mp failed)

/-! ## One direction of a relay -/

/-- How a direction stands: all that came has been sent, or a send has failed. -/
inductive Standing (src : Sock) : Bool → List Event → Prop
  | whole {evs : List Event} (gapless : Gapless src evs)
      (same : bytesTo src.other evs = bytesFrom src evs) (sound : ¬ Failed src.other evs) :
      Standing src false evs
  | failed {evs : List Event} (gapless : Gapless src evs) (failed : Failed src.other evs) :
      Standing src true evs

namespace Standing

variable {src : Sock} {broken : Bool} {evs got : List Event} {what : Payload} {block : Bytes}
  {l : List SendResult}

theorem start (src : Sock) : Standing src false [] :=
  .whole .nil rfl fun ⟨_, _, mem⟩ => by cases mem

theorem gapless (h : Standing src broken evs) : Gapless src evs := by
  cases h with
  | whole gapless => exact gapless
  | failed gapless => exact gapless

/-- Events that are not of this direction. -/
theorem aside {more : List Event} (h : Standing src broken evs)
    (nothing : bytesTo src.other more = []) (none : bytesFrom src more = [])
    (sound : ¬ Failed src.other more) : Standing src broken (evs ++ more) := by
  cases h with
  | whole gapless same sound' =>
    refine .whole (gapless.silent nothing) ?_ fun failed => ?_
    · rw [bytesTo_append, bytesFrom_append, same, nothing, none]
    · exact (failed_append.mp failed).elim sound' sound
  | failed gapless failed => exact .failed (gapless.silent nothing) (failed.append_left more)

/-- A block is read and sent on while all is well. -/
theorem forward (h : Standing src false evs) (recvs : Recvs src got)
    (bytes : bytesFrom src got = block) : Standing src (!(sendsAll block.length l).1)
      (evs ++ got ++ sendEvents src.other what block l) := by
  cases h with
  | whole gapless same sound =>
    have sends := sendEvents_sends src.other what block l
    have unsent : bytesTo src.other (evs ++ got) = bytesFrom src evs := by
      rw [bytesTo_append, recvs.bytesTo, same, List.append_nil]
    have read : bytesFrom src (evs ++ got) = bytesFrom src evs ++ block := by
      rw [bytesFrom_append, bytes]
    have sound' : ¬ Failed src.other (evs ++ got) := by
      intro failed
      exact (failed_append.mp failed).elim sound (recvs.not_failed src.other)
    have all : Gapless src (evs ++ got ++ sendEvents src.other what block l) := by
      refine (gapless.silent (recvs.bytesTo src.other)).append (fun failed => absurd failed sound') ?_
      intro pre post split
      refine ⟨?_, fun failed => by rw [sendEvents_ends split failed, bytesTo_nil]⟩
      have sent : bytesTo src.other pre <+: block := by
        have whole := bytesTo_sendEvents src.other what block l
        rw [split, bytesTo_append] at whole
        exact (List.prefix_append _ _).trans (whole ▸ List.take_prefix _ _)
      have unread : bytesFrom src pre = [] := by
        have none := sends.bytesFrom src
        rw [split, bytesFrom_append] at none
        exact (List.append_eq_nil_iff.mp none).1
      rw [bytesTo_append, bytesFrom_append, unsent, read, unread, List.append_nil]
      exact (List.prefix_append_right_inj _).mpr sent
    cases through : (sendsAll block.length l).1 with
    | true =>
      refine .whole all ?_ fun failed => ?_
      · rw [bytesTo_append, bytesFrom_append, unsent, read, sends.bytesFrom, bytesTo_sendEvents,
          (passed_eq_iff _ _).mpr through, List.take_length, List.append_nil]
      · rcases failed_append.mp failed with before | within
        · exact sound' before
        · rw [failed_sendEvents, through] at within
          cases within
    | false =>
      refine .failed all (failed_append.mpr (.inr ?_))
      rw [failed_sendEvents, through]

/-- Behind a failed send the next block must fail at its first send. -/
theorem refused (h : Standing src true evs) (recvs : Recvs src got) (ne : block ≠ []) :
    Gapless src (evs ++ got ++ sendEvents src.other what block l) ↔ l.head? = some .fail := by
  have pos := List.length_pos_of_ne_nil ne
  rw [← passed_eq_zero pos]
  cases h with
  | failed gapless failed =>
    have delivered := bytesTo_sendEvents src.other what block l
    constructor
    · intro all
      have none := all.ceased (failed.append_left got)
      rw [delivered, List.take_eq_nil_iff] at none
      exact none.resolve_right ne
    · intro nothing
      rw [nothing, List.take_zero] at delivered
      exact (gapless.silent (recvs.bytesTo src.other)).silent delivered

end Standing

/-! ## A run of blocks -/

/-- Once a send for `src` has failed, the first send of every later block from `src` fails
too. A block is the side it came from and its bytes; all draw on the same results. -/
def Unrevived (src : Sock) : Bool → List (Sock × Bytes) → List SendResult → Prop
  | _, [], _ => True
  | broken, (side, block) :: blocks, sends =>
    (side = src → broken = true → sends.head? = some .fail) ∧
      Unrevived src (broken || decide (side = src) && !(sendsAll block.length sends).1) blocks
        (sendsAll block.length sends).2

instance decidableUnrevived (src : Sock) : (broken : Bool) → (blocks : List (Sock × Bytes)) →
    (sends : List SendResult) → Decidable (Unrevived src broken blocks sends)
  | _, [], _ => isTrue trivial
  | broken, (side, block) :: blocks, sends =>
    have := decidableUnrevived src (broken || decide (side = src) &&
      !(sendsAll block.length sends).1) blocks (sendsAll block.length sends).2
    inferInstanceAs (Decidable (_ ∧ _))

/-- The events of a relay of these blocks, from the results of the sends to come to those
that are left. -/
inductive Carries (what : Payload) :
    List (Sock × Bytes) → List SendResult → List Event → List SendResult → Prop
  | nil (sends : List SendResult) : Carries what [] sends [] sends
  | log {blocks : List (Sock × Bytes)} {sends left : List SendResult} {evs : List Event}
      (line : LogLine) (rest : Carries what blocks sends evs left) :
      Carries what blocks sends ([.log line] ++ evs) left
  | block {src : Sock} {block : Bytes} {blocks : List (Sock × Bytes)}
      {sends left : List SendResult} {got evs : List Event} (recvs : Recvs src got)
      (bytes : bytesFrom src got = block) (ne : block ≠ [])
      (rest : Carries what blocks (sendsAll block.length sends).2 evs left) :
      Carries what ((src, block) :: blocks) sends
        (got ++ sendEvents src.other what block sends ++ evs) left

theorem Carries.append {what : Payload} {blocks more : List (Sock × Bytes)}
    {sends mid left : List SendResult} {evs evs' : List Event}
    (h : Carries what blocks sends evs mid) (h' : Carries what more mid evs' left) :
    Carries what (blocks ++ more) sends (evs ++ evs') left := by
  induction h with
  | nil sends => exact h'
  | log line _ ih =>
    rw [List.append_assoc]
    exact .log line (ih h')
  | block recvs bytes ne _ ih =>
    rw [List.append_assoc]
    exact .block recvs bytes ne (ih h')

/-- A block for the other direction. -/
theorem Standing.foreign {src side : Sock} {broken : Bool} {evs got sent : List Event}
    {what : Payload} (h : Standing src broken evs) (hne : side ≠ src) (recvs : Recvs side got)
    (sends : Sends side.other what sent) : Standing src broken (evs ++ got ++ sent) := by
  have apart : side.other ≠ src.other := by cases side <;> cases src <;> simp_all [Sock.other]
  have received : Standing src broken (evs ++ got) :=
    h.aside (recvs.bytesTo _) (recvs.bytesFrom_ne hne) (recvs.not_failed _)
  exact received.aside (sends.bytesTo_ne apart) (sends.bytesFrom _) (sends.not_failed apart)

theorem Carries.gapless {what : Payload} {src : Sock} {broken : Bool}
    {blocks : List (Sock × Bytes)} {sends left : List SendResult} {before evs : List Event}
    (h : Carries what blocks sends evs left) (standing : Standing src broken before) :
    Gapless src (before ++ evs) ↔ Unrevived src broken blocks sends := by
  induction h generalizing broken before with
  | nil sends =>
    rw [List.append_nil]
    exact iff_of_true standing.gapless trivial
  | log line _ ih =>
    rw [← List.append_assoc]
    exact ih (standing.aside rfl rfl (by simp [Failed]))
  | @block side block blocks sends left got evs recvs bytes ne _ ih =>
    rw [← List.append_assoc, ← List.append_assoc, Unrevived]
    by_cases here : side = src
    · subst here
      cases broken with
      | false =>
        rw [ih (standing.forward recvs bytes)]
        simp
      | true =>
        by_cases refused : sends.head? = some .fail
        · have gapless : Gapless side (before ++ got ++ sendEvents side.other what block sends) :=
            (standing.refused recvs ne).mpr refused
          have still : Standing side true (before ++ got ++ sendEvents side.other what block sends) := by
            cases standing with
            | failed _ failed =>
              rw [List.append_assoc] at gapless ⊢
              exact .failed gapless (failed.append_left _)
          rw [ih still]
          simp [refused]
        · refine iff_of_false (fun all => refused ?_) fun unrevived => refused (unrevived.1 rfl rfl)
          exact (standing.refused recvs ne).mp all.left
    · rw [ih (standing.foreign here recvs (sendEvents_sends _ _ _ _))]
      simp [here]

/-! ## The tunnel -/

/-- The blocks that one scan reads, and what the sides have left for the next one. There
is none after an empty receive, or after one of more bytes than an `int` counts. -/
def scanTaken (fds : Descriptors) (ready : Ready) :
    List Nat → (Sock → List Recv) → List (Sock × Bytes) × Option (Sock → List Recv)
  | [], pending => ([], some pending)
  | i :: is, pending =>
    if fds.isset ready i then
      let taken := charTaken (pending (fds.sock i))
      if taken.1.length = 0 ∨ 2 ^ 31 ≤ taken.1.length then ([], none)
      else
        let more := scanTaken fds ready is (Function.update pending (fds.sock i) taken.2)
        ((fds.sock i, taken.1) :: more.1, more.2)
    else scanTaken fds ready is pending

/-- The blocks that the tunnel sends on. -/
def tunnelTaken (fds : Descriptors) : List Ready → (Sock → List Recv) → List (Sock × Bytes)
  | [], _ => []
  | ready :: rounds, pending =>
    let scan := scanTaken fds ready (List.range (fds.max + 1)) pending
    scan.1 ++ (scan.2.elim [] (tunnelTaken fds rounds))

@[simp] theorem setSends_pending (w : World) (l : List SendResult) :
    (w.setSends l).pending = w.pending := by
  funext src
  cases src <;> rfl

@[simp] theorem pending_setPending (w : World) (src : Sock) (rest : List Recv) :
    (w.setPending src rest).pending = Function.update w.pending src rest := by
  funext side
  cases side <;> cases src <;> rfl

/-- A scan that goes on, and one that ends the tunnel with bytes it has read and not sent. -/
inductive Scanned (s : St) (blocks : List (Sock × Bytes)) :
    Option (Sock → List Recv) → EStateM.Result Exn St Bool → Prop
  | on {t : St} {evs : List Event} (trace : t.trace = s.trace ++ evs)
      (carries : Carries .tunnel blocks s.world.sends evs t.world.sends) :
      Scanned s blocks (some t.world.pending) (.ok true t)
  | off {r : EStateM.Result Exn St Bool} {evs last : List Event} {left : List SendResult}
      (trace : (finalSt r).trace = s.trace ++ (evs ++ last))
      (carries : Carries .tunnel blocks s.world.sends evs left)
      (silent : ∀ dst, bytesTo dst last = []) (stopped : ∀ t, r ≠ .ok true t) :
      Scanned s blocks none r

theorem Scanned.after {s t : St} {blocks more : List (Sock × Bytes)} {evs : List Event}
    {pending : Option (Sock → List Recv)} {r : EStateM.Result Exn St Bool}
    (trace : t.trace = s.trace ++ evs)
    (first : Carries .tunnel blocks s.world.sends evs t.world.sends) (h : Scanned t more pending r) :
    Scanned s (blocks ++ more) pending r := by
  cases h with
  | on trace' carries =>
    rw [trace, List.append_assoc] at trace'
    exact .on trace' (first.append carries)
  | off trace' carries silent stopped =>
    rw [trace, List.append_assoc, ← List.append_assoc evs] at trace'
    exact .off trace' (first.append carries) silent stopped

theorem tunnelScan_scanned (fds : Descriptors) (ready : Ready) (is : List Nat) (s : St) :
    Scanned s (scanTaken fds ready is s.world.pending).1
      (scanTaken fds ready is s.world.pending).2 (tunnelScan fds ready is s) := by
  induction is generalizing s with
  | nil => exact .on (List.append_nil _).symm (.nil _)
  | cons i is ih =>
    rw [tunnelScan, scanTaken]
    by_cases set : fds.isset ready i = true
    · obtain ⟨got, recvs, bytes, hrecv⟩ := recvBlock_spec (fds.sock i) s
      generalize charTaken (s.world.pending (fds.sock i)) = taken at bytes hrecv
      rw [if_pos set, if_pos set, fds.target_of_isset set]
      by_cases fits : taken.1.length < 2 ^ 31
      · rw [if_pos fits] at hrecv
        rw [bind_ok _ hrecv]
        by_cases zero : taken.1.length = 0
        · rw [if_pos zero, if_pos (.inl zero)]
          exact .off rfl (.nil _) recvs.bytesTo (by intro t h; cases h)
        · have ne : taken.1 ≠ [] := fun none => zero (by rw [none, List.length_nil])
          have sent := sendVector_outcome (fds.sock i).other .tunnel taken.1
            (s.after (s.world.setPending (fds.sock i) taken.2) got) fits ne
          rw [if_neg zero, if_neg (by omega), bind_ok _ sent, after_after]
          have first : Carries .tunnel [(fds.sock i, taken.1)] s.world.sends
              (got ++ sendEvents (fds.sock i).other .tunnel taken.1 s.world.sends ++ [])
              (sendsAll taken.1.length s.world.sends).2 := .block recvs bytes ne (.nil _)
          rw [List.append_nil] at first
          have rest := ih (s.after ((s.world.setPending (fds.sock i) taken.2).setSends
            (sendsAll taken.1.length s.world.sends).2)
            (got ++ sendEvents (fds.sock i).other .tunnel taken.1 s.world.sends))
          rw [after_world, setSends_pending, pending_setPending] at rest
          rw [after_world, setPending_sends]
          exact Scanned.after rfl first rest
      · rw [if_neg fits] at hrecv
        rw [bind_error _ hrecv, if_pos (.inr (by omega))]
        exact .off rfl (.nil _) recvs.bytesTo (by intro t h; cases h)
    · rw [if_neg set, if_neg set]
      exact ih s

/-- The loop's events: the blocks that it sends on, and what it reads last. -/
theorem tunnelLoop_carries (fds : Descriptors) (rounds : List Ready) (s : St) :
    ∃ evs last left, (finalSt (tunnelLoop fds rounds s)).trace = s.trace ++ (evs ++ last) ∧
      Carries .tunnel (tunnelTaken fds rounds s.world.pending) s.world.sends evs left ∧
      ∀ dst, bytesTo dst last = [] := by
  induction rounds generalizing s with
  | nil => exact ⟨[], [], _, by simp [tunnelLoop], .nil _, fun _ => rfl⟩
  | cons ready rounds ih =>
    have scanned := tunnelScan_scanned fds ready (List.range (fds.max + 1)) s
    rw [tunnelLoop, tunnelTaken]
    generalize scanTaken fds ready (List.range (fds.max + 1)) s.world.pending = taken at scanned
    obtain ⟨blocks, pending⟩ := taken
    generalize scan : tunnelScan fds ready (List.range (fds.max + 1)) s = r at scanned
    cases scanned with
    | @on t evs trace carries =>
      obtain ⟨evs', last, left, trace', carries', silent⟩ := ih t
      rw [trace, List.append_assoc, ← List.append_assoc evs] at trace'
      exact ⟨evs ++ evs', last, left, by rw [bind_ok _ scan]; exact trace', carries.append carries',
        silent⟩
    | @off _ evs last left trace carries silent stopped =>
      refine ⟨evs, last, left, ?_, by simpa using carries, silent⟩
      cases r with
      | error e t =>
        rw [bind_error _ scan]
        exact trace
      | ok still t =>
        rw [bind_ok _ scan]
        cases still with
        | true => exact absurd rfl (stopped t)
        | false => exact trace

theorem tunnelLoop_gapless_iff (fds : Descriptors) (rounds : List Ready) (s : St) (src : Sock) :
    Gapless src (ran (tunnelLoop fds rounds) s) ↔
      Unrevived src false (tunnelTaken fds rounds s.world.pending) s.world.sends := by
  obtain ⟨evs, last, left, trace, carries, silent⟩ := tunnelLoop_carries fds rounds s
  rw [ran_eq trace, ← carries.gapless (.start src), List.nil_append]
  exact ⟨Gapless.left, fun h => h.silent (silent src.other)⟩

/-! ## The relay of `chunkHandle` -/

/-- The blocks of a relay: all come from the server. -/
def fromServer (blocks : List Bytes) : List (Sock × Bytes) := blocks.map (Sock.server, ·)

theorem relayLoop_carries (fuel : Nat) (total : Bytes) {s : St}
    (fits : ∀ block ∈ relayBlocks fuel s.world.server, FitsInt block.length) :
    ∃ t all evs last, relayLoop fuel total s = .ok all t ∧ t.trace = s.trace ++ (evs ++ last) ∧
      Carries .reply (fromServer (relayBlocks fuel s.world.server)) s.world.sends evs t.world.sends ∧
      ∀ dst, bytesTo dst last = [] := by
  induction fuel generalizing total s with
  | zero => exact ⟨s, total, [], [], rfl, by simp, .nil _, fun _ => rfl⟩
  | succ fuel ih =>
    obtain ⟨got, hrecv, recvs, bytes⟩ := recvChar_run .server s
    rw [relayBlocks] at fits ⊢
    simp only [World.pending] at hrecv bytes
    generalize charTaken s.world.server = taken at fits hrecv bytes
    rw [relayLoop, bind_ok _ hrecv]
    by_cases zero : taken.1.length = 0
    · rw [if_pos zero, if_pos zero]
      exact ⟨_, total, [], got, rfl, rfl, .nil _, recvs.bytesTo⟩
    · rw [if_neg zero] at fits
      have ne : taken.1 ≠ [] := fun none => zero (by rw [none, List.length_nil])
      have sent := sendVector_outcome .client .reply taken.1
        (s.after (s.world.setPending .server taken.2) got) (fits _ List.mem_cons_self) ne
      rw [if_neg zero, if_neg zero, bind_ok _ sent, after_after]
      obtain ⟨t, all, evs, last, hrun, trace, carries, silent⟩ := ih (total ++ taken.1)
        (s := s.after ((s.world.setPending .server taken.2).setSends
          (sendsAll taken.1.length s.world.sends).2)
          (got ++ sendEvents .client .reply taken.1 s.world.sends))
        (fun b hb => fits b (List.mem_cons_of_mem _ hb))
      refine ⟨t, all, got ++ sendEvents .client .reply taken.1 s.world.sends ++ evs, last, hrun, ?_,
        Carries.block recvs bytes ne carries, silent⟩
      rw [trace, after_trace]
      simp only [List.append_assoc]

theorem chunkHandle_gapless_iff {input : Bytes} (marked : chunkMarked input = true) {s : St}
    (fits : ∀ block ∈ input :: relayed s.world.server, FitsInt block.length) :
    Gapless .server (.recv .server (.data input) :: ran (chunkHandle input) s) ↔
      Unrevived .server false (fromServer (input :: relayed s.world.server)) s.world.sends := by
  have ne : input ≠ [] := by
    rintro rfl
    cases marked
  have sent := sendVector_outcome .client .reply input s (fits _ List.mem_cons_self) ne
  obtain ⟨t, all, evs, last, hrun, trace, carries, silent⟩ :=
    relayLoop_carries ((pendingBytes s.world.server).length + 1) input
      (s := s.after (s.world.setSends (sendsAll input.length s.world.sends).2)
        (sendEvents .client .reply input s.world.sends ++ [.log (.responding (firstLine input))]))
      (fun b hb => fits b (List.mem_cons_of_mem _ hb))
  have final : (finalSt (newResponse all t)).trace = t.trace := by
    have parsed := newResponse_run all t
    generalize newResponse all t = r at parsed
    cases parsed <;> rfl
  have ran_eq : ran (chunkHandle input) s = sendEvents .client .reply input s.world.sends ++
      ([.log (.responding (firstLine input))] ++ evs) ++ last := by
    apply ran_eq
    rw [chunkHandle, if_pos marked, bind_ok _ sent, log_bind, get_bind, after_after]
    simp only [after_world, setSends_server]
    rw [bind_ok _ hrun, final, trace, after_trace]
    simp only [List.append_assoc]
  have whole := Carries.block (Recvs.single .server (.data input)) (by simp) ne
    (.log (.responding (firstLine input)) carries)
  have events : .recv .server (.data input) :: ran (chunkHandle input) s =
      [.recv .server (.data input)] ++ sendEvents .client .reply input s.world.sends ++
        ([.log (.responding (firstLine input))] ++ evs) ++ last := by
    rw [ran_eq]
    rfl
  have blocks := whole.gapless (.start .server)
  rw [List.nil_append] at blocks
  rw [events]
  exact ⟨fun all => blocks.mp all.left, fun unrevived => (blocks.mpr unrevived).silent (silent .client)⟩

/-- Every run of the tunnel, and every relay of a marked reply from its first segment on:
the receiving side is spared a gap just when no direction revives. -/
theorem gapless_iff (s : St) :
    (∀ (fds : Descriptors) (rounds : List Ready) (src : Sock),
      Gapless src (ran (tunnelLoop fds rounds) s) ↔
        Unrevived src false (tunnelTaken fds rounds s.world.pending) s.world.sends) ∧
    ∀ input : Bytes, chunkMarked input = true →
      (∀ block ∈ input :: relayed s.world.server, FitsInt block.length) →
        (Gapless .server (.recv .server (.data input) :: ran (chunkHandle input) s) ↔
          Unrevived .server false (fromServer (input :: relayed s.world.server)) s.world.sends) :=
  ⟨fun fds rounds src => tunnelLoop_gapless_iff fds rounds s src,
    fun _ marked fits => chunkHandle_gapless_iff marked fits⟩

/-- The head of a chunked reply. -/
def chunkedHead : Bytes := str "HTTP/1.1 200 OK\r\nTransfer-Encoding: chunked\r\n\r\n"

/-- The client's connection goes down in the middle of the head and stays down. -/
theorem gapless_iff_staysDown :
    let w : World := { server := [.data (str "2\r\nhi\r\n")], sends := [.took 9, .fail, .fail] }
    Gapless .server (.recv .server (.data chunkedHead) ::
      ran (chunkHandle chunkedHead) ((St.initial ⟨1, Nat.le_refl 1⟩).enter w)) :=
  ((gapless_iff _).2 chunkedHead (by decide +kernel) (by decide +kernel)).mpr (by decide +kernel)

/-- The send of the head fails once, and the client is sent the chunk without it. -/
theorem chunk_without_head :
    let w : World := { server := [.data (str "2\r\nhi\r\n")], sends := [.fail] }
    ¬ Gapless .server (.recv .server (.data chunkedHead) ::
      ran (chunkHandle chunkedHead) ((St.initial ⟨1, Nat.le_refl 1⟩).enter w)) := by
  intro w all
  have prefixed := all.behind
  revert prefixed
  decide +kernel

end HttpProxy
