import HttpProxy.Base.Noting
import HttpProxy.Receive

/-!
# The windows of `recvChar`

Each `recv` of `recvChar` writes into a window of its buffer. `Windows.recvChar` is the same
function with a note of the buffer and the two counters at every call. `recvChar_gathers`:
the window lies in the buffer and above the bytes that are there already, and what is
returned are the blocks up to the first one that does not fill its window.
-/

namespace HttpProxy

open Noting

/-- `recvChar` at a call of `recv`. -/
structure Window where
  buf : Bytes
  start : Nat
  total : Nat

namespace Windows

/-- The loop of `recvChar` with its notes. -/
def recvCharLoop (src : Sock) : Nat → Bytes → Nat → Nat →
    EStateM Exn (Noted St Window) (Bytes × Nat)
  | 0, buf, _, total => return (buf, total)
  | fuel + 1, buf, start, total => do
    note ⟨buf, start, total⟩
    match ← lift (recv src increment) with
    | .fail => return (buf, total)
    | .data bs =>
      if bs.length = 0 then return (buf, total)
      else
        let buf := writeAt buf start bs
        let total := total + bs.length
        if bs.length < increment then return (buf, total)
        else recvCharLoop src fuel (resize buf (buf.length + increment)) (start + bs.length) total

def recvChar (src : Sock) : EStateM Exn (Noted St Window) Bytes := do
  let s ← lift get
  let r ← recvCharLoop src ((pendingBytes (s.world.pending src)).length + 1)
    (List.replicate increment 0) 0 0
  return resize r.1 r.2

end Windows

/-! ## The results up to a short one -/

/-- Does this result fill a window? -/
def fills : Recv → Bool
  | .data bs => increment ≤ bs.length
  | .fail => false

/-- How many times `recvChar` calls `recv`. -/
def recvCalls (l : List Recv) : Nat := (l.takeWhile fills).length + 1

/-- The blocks of these results fit a window. -/
def Blocks (l : List Recv) : Prop := ∀ bs, .data bs ∈ l → bs.length ≤ increment

theorem Blocks.tail {r : Recv} {l : List Recv} (h : Blocks (r :: l)) : Blocks l :=
  fun bs mem => h bs (List.mem_cons_of_mem r mem)

theorem Blocks.takeRecv {bs : Bytes} {l : List Recv} (h : Blocks (.data bs :: l)) :
    takeRecv increment (.data bs :: l) = (.data bs, l) := takeRecv_all (h bs List.mem_cons_self) l

theorem recvCalls_fills {r : Recv} (h : fills r = true) (l : List Recv) :
    recvCalls (r :: l) = recvCalls l + 1 := by
  rw [recvCalls, recvCalls, List.takeWhile_cons_of_pos h, List.length_cons]

theorem recvCalls_short {r : Recv} (h : fills r = false) (l : List Recv) :
    recvCalls (r :: l) = 1 := by
  rw [recvCalls, List.takeWhile_cons_of_neg (by simp [h])]
  rfl

theorem fills_data {bs : Bytes} : fills (.data bs) = true ↔ increment ≤ bs.length :=
  decide_eq_true_iff

theorem short_data {bs : Bytes} : fills (.data bs) = false ↔ bs.length < increment := by
  rw [Bool.eq_false_iff, ne_eq, fills_data, Nat.not_le]

/-- There is a round for each call. -/
theorem recvCalls_fuel {l : List Recv} {fuel : Nat} (h : recvCalls l ≤ fuel) :
    ∃ n, fuel = n + 1 := by
  have some : 1 ≤ recvCalls l := Nat.le_add_left 1 _
  exact ⟨fuel - 1, by omega⟩

theorem charBlock_eq {l : List Recv} (h : Blocks l) {fuel : Nat} (enough : recvCalls l ≤ fuel) :
    charBlock fuel l = (pendingBytes (l.take (recvCalls l)), l.drop (recvCalls l)) := by
  induction l generalizing fuel with
  | nil =>
    obtain ⟨fuel, rfl⟩ := recvCalls_fuel enough
    exact charBlock_short rfl increment_pos
  | cons r l ih =>
    obtain ⟨fuel, rfl⟩ := recvCalls_fuel enough
    cases r with
    | fail => exact charBlock_fail rfl
    | data bs =>
      cases full : fills (.data bs) with
      | true =>
        rw [recvCalls_fills full] at enough ⊢
        have whole := fills_data.mp full
        rw [charBlock_full h.takeRecv (by omega), ih h.tail (by omega)]
        rfl
      | false =>
        rw [charBlock_short h.takeRecv (short_data.mp full), recvCalls_short full]
        simp [pendingBytes, Recv.bytes]

/-- The rounds that `recvChar` starts with are enough. -/
theorem recvCalls_le (l : List Recv) : recvCalls l ≤ (pendingBytes l).length + 1 := by
  induction l with
  | nil => exact Nat.le_refl 1
  | cons r l ih =>
    cases full : fills r with
    | true =>
      cases r with
      | fail => cases full
      | data bs =>
        have whole := fills_data.mp full
        have pos := increment_pos
        have size : (pendingBytes (.data bs :: l)).length = bs.length + (pendingBytes l).length :=
          List.length_append
        rw [recvCalls_fills full]
        omega
    | false =>
      rw [recvCalls_short full]
      exact Nat.le_add_left 1 _

/-! ## The window at each call -/

/-- The window at a call of `recv`, after these bytes have been received: it lies in the
buffer, and the bytes stand right below it. -/
structure Window.Free (w : Window) (got : Bytes) : Prop where
  within : w.start + increment ≤ w.buf.length
  behind : w.start = w.total
  received : w.buf.take w.total = got

theorem Window.Free.total {w : Window} {got : Bytes} (h : w.Free got) : w.total = got.length := by
  have within := h.within
  have behind := h.behind
  rw [← h.received, List.length_take]
  omega

section
variable {src : Sock} {s : St} {rest : List Recv}

/-- A call that does not fill its window is the last one. -/
theorem recvCharLoop_last {r : Recv} (h : takeRecv increment (s.world.pending src) = (r, rest))
    (short : fills r = false) (fuel : Nat) (buf : Bytes) (start total : Nat) :
    Notes (recvCharLoop src (fuel + 1) buf start total)
      (Windows.recvCharLoop src (fuel + 1) buf start total) s [⟨buf, start, total⟩] := by
  have hrecv := recv_run src increment s
  rw [h] at hrecv
  rw [recvCharLoop, Windows.recvCharLoop]
  apply Notes.note
  apply Notes.lift_bind hrecv
  cases r with
  | fail => exact notes_pure _ _
  | data bs =>
    dsimp only
    rw [if_pos (short_data.mp short), if_pos (short_data.mp short)]
    split_ifs
    · exact notes_pure _ _
    · exact notes_pure _ _

/-- After a full window the loop goes on above it. -/
theorem recvCharLoop_next {bs : Bytes} {ws : List Window}
    (h : takeRecv increment (s.world.pending src) = (.data bs, rest))
    (full : fills (.data bs) = true) {fuel : Nat} {buf : Bytes} {start total : Nat}
    (more : Notes
      (recvCharLoop src fuel (resize (writeAt buf start bs) ((writeAt buf start bs).length + increment))
        (start + bs.length) (total + bs.length))
      (Windows.recvCharLoop src fuel
        (resize (writeAt buf start bs) ((writeAt buf start bs).length + increment))
        (start + bs.length) (total + bs.length))
      (s.after (s.world.setPending src rest) [.recv src (.data bs)]) ws) :
    Notes (recvCharLoop src (fuel + 1) buf start total)
      (Windows.recvCharLoop src (fuel + 1) buf start total) s (⟨buf, start, total⟩ :: ws) := by
  have hrecv := recv_run src increment s
  rw [h] at hrecv
  have whole := fills_data.mp full
  have pos := increment_pos
  rw [recvCharLoop, Windows.recvCharLoop]
  apply Notes.note
  apply Notes.lift_bind hrecv
  dsimp only
  rw [if_neg (by omega), if_neg (by omega), if_neg (by omega), if_neg (by omega)]
  exact more

/-- The bytes received so far, and what the results up to this call add to them. -/
def Windowed (ws : List Window) (got : Bytes) (l : List Recv) : Prop :=
  ws.length = recvCalls l ∧
    ∀ (i : Nat) (w : Window), ws[i]? = some w → w.Free (got ++ pendingBytes (l.take i))

theorem Windowed.single {w : Window} {got : Bytes} {l : List Recv} (h : w.Free got)
    (last : recvCalls l = 1) : Windowed [w] got l := by
  refine ⟨last.symm, fun i w' hw => ?_⟩
  cases i with
  | zero =>
    cases hw
    simpa [pendingBytes] using h
  | succ i => cases hw

theorem Windowed.cons {w : Window} {ws : List Window} {got bs : Bytes} {l : List Recv}
    (h : w.Free got) (full : fills (.data bs) = true) (more : Windowed ws (got ++ bs) l) :
    Windowed (w :: ws) got (.data bs :: l) := by
  refine ⟨by rw [List.length_cons, more.1, recvCalls_fills full], fun i w' hw => ?_⟩
  cases i with
  | zero =>
    cases hw
    simpa [pendingBytes] using h
  | succ i =>
    have later := more.2 i w' hw
    rwa [List.append_assoc] at later

theorem recvCharLoop_windows {l : List Recv} (hl : s.world.pending src = l) (blocks : Blocks l)
    {fuel : Nat} (enough : recvCalls l ≤ fuel) {buf : Bytes} {start : Nat}
    (hbuf : buf.length = start + increment) :
    ∃ ws, Notes (recvCharLoop src fuel buf start start)
      (Windows.recvCharLoop src fuel buf start start) s ws ∧ Windowed ws (buf.take start) l := by
  induction l generalizing fuel buf start s with
  | nil =>
    obtain ⟨fuel, rfl⟩ := recvCalls_fuel enough
    have free : Window.Free ⟨buf, start, start⟩ (buf.take start) := ⟨by simp [hbuf], rfl, rfl⟩
    have closed : takeRecv increment (s.world.pending src) = (.data [], []) := by rw [hl]; rfl
    exact ⟨_, recvCharLoop_last closed (short_data.mpr increment_pos) fuel buf start start,
      .single free rfl⟩
  | cons r l ih =>
    obtain ⟨fuel, rfl⟩ := recvCalls_fuel enough
    have free : Window.Free ⟨buf, start, start⟩ (buf.take start) := ⟨by simp [hbuf], rfl, rfl⟩
    have taken : takeRecv increment (s.world.pending src) = (r, l) := by
      rw [hl]
      cases r with
      | fail => rfl
      | data bs => exact blocks.takeRecv
    cases full : fills r with
    | false => exact ⟨_, recvCharLoop_last taken full fuel buf start start,
        .single free (recvCalls_short full l)⟩
    | true =>
      cases r with
      | fail => cases full
      | data bs =>
        rw [recvCalls_fills full] at enough
        have size : bs.length ≤ increment := blocks bs List.mem_cons_self
        have whole := fills_data.mp full
        have filled := take_writeAt buf bs start (by omega)
        have same := length_writeAt buf bs start (by omega)
        -- one more window stands above the block that came
        have grown : (resize (writeAt buf start bs) ((writeAt buf start bs).length + increment)).length
            = start + bs.length + increment := by
          rw [resize, List.length_take, List.length_append, List.length_replicate, same]
          omega
        have kept : (resize (writeAt buf start bs) ((writeAt buf start bs).length + increment)).take
            (start + bs.length) = buf.take start ++ bs := by
          have within : start + bs.length ≤ (writeAt buf start bs).length := by omega
          rw [resize, List.take_take, Nat.min_eq_left (Nat.le_add_right_of_le within),
            List.take_append_of_le_length within, filled]
        obtain ⟨ws, notes, windowed⟩ := ih
          (s := s.after (s.world.setPending src l) [.recv src (.data bs)])
          (by rw [after_world, setPending_pending]) blocks.tail (Nat.le_of_succ_le_succ enough) grown
        rw [kept] at windowed
        exact ⟨_, recvCharLoop_next taken full notes, .cons free full windowed⟩

end

/-- `recvChar` returns the blocks up to and with the first one that does not fill a window, or
up to a result that has no bytes. At each call of `recv` the window lies in the buffer and
above what has come, and the counters are within an `int`. -/
theorem recvChar_gathers (src : Sock) (s : St) (blocks : Blocks (s.world.pending src))
    (few : (pendingBytes (s.world.pending src)).length < 2 ^ 31 - increment) :
    (∃ evs, HttpProxy.recvChar src s =
      .ok (pendingBytes ((s.world.pending src).take (recvCalls (s.world.pending src))))
        (s.after (s.world.setPending src
          ((s.world.pending src).drop (recvCalls (s.world.pending src)))) evs)) ∧
      ∃ ws, Notes (recvChar src) (Windows.recvChar src) s ws ∧
        ws.length = recvCalls (s.world.pending src) ∧
        ∀ (i : Nat) (w : Window), ws[i]? = some w →
          w.Free (pendingBytes ((s.world.pending src).take i)) ∧
            FitsInt (w.start + increment) ∧ FitsInt w.total := by
  have taken := charBlock_eq blocks (recvCalls_le (s.world.pending src))
  constructor
  · obtain ⟨evs, run, _⟩ := recvChar_run src s
    rw [charTaken, taken] at run
    exact ⟨evs, run⟩
  · have empty : (List.replicate increment 0 : Bytes).length = 0 + increment := by simp
    obtain ⟨ws, notes, count, free⟩ :=
      recvCharLoop_windows (show s.world.pending src = _ from rfl) blocks (recvCalls_le _) empty
    refine ⟨ws, ?_, count, fun i w hw => ?_⟩
    · apply Notes.get_bind
      exact notes.bind_silent fun r t => notes_pure _ _
    · have window := free i w hw
      rw [List.take_zero, List.nil_append] at window
      have total := window.total
      have behind := window.behind
      have part : (pendingBytes ((s.world.pending src).take i)).length ≤
          (pendingBytes (s.world.pending src)).length :=
        ((List.take_prefix i _).flatMap Recv.bytes).length_le
      unfold FitsInt
      exact ⟨window, by omega, by omega⟩

/-- A server that fills one window, then sends a byte, and another one later. -/
def oneFull : World where
  server := [.data (List.replicate increment 7), .data [8], .data [9]]

theorem recvChar_gathers_oneFull :
    let s : St := ⟨.new ⟨1, Nat.le_refl 1⟩, ∅, 0, oneFull, []⟩
    (∃ evs, HttpProxy.recvChar .server s = .ok (List.replicate increment 7 ++ [8])
      (s.after (s.world.setPending .server [.data [9]]) evs)) ∧
      ∃ ws, Notes (recvChar .server) (Windows.recvChar .server) s ws ∧ ws.length = 2 := by
  intro s
  have full : fills (.data (List.replicate increment 7)) = true := fills_data.mpr (by simp)
  have calls : recvCalls oneFull.server = 2 := by
    rw [oneFull, recvCalls_fills full, recvCalls_short (by decide)]
  have blocks : Blocks oneFull.server := by
    intro bs mem
    rcases List.mem_cons.mp mem with same | mem
    · cases same
      simp
    · have small : ∀ r ∈ [Recv.data [8], .data [9]], r.bytes.length ≤ increment := by decide
      exact small _ mem
  have size : (pendingBytes oneFull.server).length = increment + 2 := by
    simp [oneFull, pendingBytes, Recv.bytes]
  obtain ⟨returned, ws, notes, count, _⟩ := recvChar_gathers .server s blocks
    (lt_of_eq_of_lt size (by decide))
  refine ⟨?_, ws, notes, count.trans calls⟩
  have pending : s.world.pending .server = oneFull.server := rfl
  rw [pending, calls] at returned
  exact returned

end HttpProxy
