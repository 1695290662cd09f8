import HttpProxy.Sending

/-!
# What one `recv`, `recvBuff` and `recvChar` take

`charBlock` reads off the results still to come what one `recvChar` returns: full
windows up to the first short read. The buffer in `recvChar` is a stack of such
windows, so the loop's invariant is that the bytes below `start` are the blocks
received so far and that one empty window stands above them.
-/

namespace HttpProxy

/-- Nothing but calls of `recv` on this socket. -/
def Recvs (src : Sock) (evs : List Event) : Prop := ∀ e ∈ evs, ∃ r, e = .recv src r

theorem Recvs.single (src : Sock) (r : Recv) : Recvs src [.recv src r] := by
  intro e he
  exact ⟨r, List.mem_singleton.mp he⟩

theorem Recvs.append {src : Sock} {evs evs' : List Event} (h : Recvs src evs)
    (h' : Recvs src evs') : Recvs src (evs ++ evs') :=
  List.forall_mem_append.mpr ⟨h, h'⟩

theorem Recvs.bytesTo {src : Sock} {evs : List Event} (h : Recvs src evs) (dst : Sock) :
    bytesTo dst evs = [] := by
  apply List.flatMap_eq_nil_iff.mpr
  intro e he
  obtain ⟨r, rfl⟩ := h e he
  rfl

theorem Recvs.bytesFrom_ne {src other : Sock} {evs : List Event} (h : Recvs src evs)
    (hne : src ≠ other) : bytesFrom other evs = [] := by
  apply List.flatMap_eq_nil_iff.mpr
  intro e he
  obtain ⟨r, rfl⟩ := h e he
  cases r with
  | data bs => exact if_neg hne
  | fail => rfl

section
variable (w : World) (src : Sock) (rest : List Recv)

@[simp] theorem setPending_sends : (w.setPending src rest).sends = w.sends := by cases src <;> rfl
@[simp] theorem setPending_clock : (w.setPending src rest).libc = w.libc := by cases src <;> rfl
@[simp] theorem setPending_now : (w.setPending src rest).now = w.now := by cases src <;> rfl
@[simp] theorem setPending_connect : (w.setPending src rest).connect = w.connect := by
  cases src <;> rfl
@[simp] theorem setPending_uninit : (w.setPending src rest).uninit = w.uninit := by
  cases src <;> rfl
@[simp] theorem setPending_pending : (w.setPending src rest).pending src = rest := by
  cases src <;> rfl
@[simp] theorem setPending_server : (w.setPending .server rest).server = rest := rfl
@[simp] theorem setPending_self : w.setPending src (w.pending src) = w := by cases src <;> rfl
@[simp] theorem setPending_setPending (rest' : List Recv) :
    (w.setPending src rest).setPending src rest' = w.setPending src rest' := by cases src <;> rfl

end

theorem recv_run (src : Sock) (n : Nat) (s : St) :
    recv src n s = .ok (takeRecv n (s.world.pending src)).1
      (s.after (s.world.setPending src (takeRecv n (s.world.pending src)).2)
        [.recv src (takeRecv n (s.world.pending src)).1]) := rfl

/-- A `recv` gives at most what it asks for. -/
theorem takeRecv_length {n : Nat} {l rest : List Recv} {bs : Bytes}
    (h : takeRecv n l = (.data bs, rest)) : bs.length ≤ n := by
  cases l with
  | nil => cases h; exact Nat.zero_le _
  | cons r l =>
    cases r with
    | fail => cases h
    | data b =>
      simp only [takeRecv] at h
      split at h
      · next hle => cases h; exact hle
      · cases h; simp

theorem takeRecv_all {n : Nat} {bs : Bytes} (h : bs.length ≤ n) (l : List Recv) :
    takeRecv n (.data bs :: l) = (.data bs, l) := if_pos h

/-- What a `recv` gives is what the results held next. -/
theorem takeRecv_pending {n : Nat} {l rest : List Recv} {bs : Bytes}
    (h : takeRecv n l = (.data bs, rest)) : bs ++ pendingBytes rest = pendingBytes l := by
  cases l with
  | nil => cases h; rfl
  | cons r l =>
    cases r with
    | fail => cases h
    | data b =>
      simp only [takeRecv] at h
      split at h
      · cases h; rfl
      · cases h
        simp [pendingBytes, Recv.bytes, ← List.append_assoc]

/-- The bytes one `recvChar` takes from the results still to come, and the results
it leaves. -/
def charBlock : Nat → List Recv → Bytes × List Recv
  | 0, l => ([], l)
  | fuel + 1, l =>
    match takeRecv increment l with
    | (.fail, rest) => ([], rest)
    | (.data bs, rest) =>
      if bs.length < increment then (bs, rest)
      else (bs ++ (charBlock fuel rest).1, (charBlock fuel rest).2)

theorem increment_pos : 0 < increment := by decide

section
variable {fuel : Nat} {l rest : List Recv} {bs : Bytes}

theorem charBlock_fail (h : takeRecv increment l = (.fail, rest)) :
    charBlock (fuel + 1) l = ([], rest) := by rw [charBlock, h]

theorem charBlock_short (h : takeRecv increment l = (.data bs, rest))
    (hlt : bs.length < increment) : charBlock (fuel + 1) l = (bs, rest) := by
  rw [charBlock, h]
  exact if_pos hlt

theorem charBlock_full (h : takeRecv increment l = (.data bs, rest))
    (hlt : ¬ bs.length < increment) :
    charBlock (fuel + 1) l = (bs ++ (charBlock fuel rest).1, (charBlock fuel rest).2) := by
  rw [charBlock, h]
  exact if_neg hlt

end

theorem resize_start (buf : Bytes) {start : Nat} (h : start ≤ buf.length) :
    resize buf start = buf.take start := by
  rw [resize, List.take_append_of_le_length h]

theorem take_writeAt (buf bs : Bytes) (start : Nat) (h : start ≤ buf.length) :
    (writeAt buf start bs).take (start + bs.length) = buf.take start ++ bs := by
  have hlen : (buf.take start ++ bs).length = start + bs.length := by
    simp [List.length_take, h]
  rw [writeAt, List.take_append_of_le_length (by omega), List.take_of_length_le (by omega)]

theorem length_writeAt (buf bs : Bytes) (start : Nat) (h : start + bs.length ≤ buf.length) :
    (writeAt buf start bs).length = buf.length := by
  simp only [writeAt, List.length_append, List.length_take, List.length_drop]
  omega

/-- The loop of `recvChar`, entered with one empty window above `start`. -/
theorem recvCharLoop_run (src : Sock) (fuel : Nat) (buf : Bytes) (start : Nat) (s : St)
    (hbuf : buf.length = start + increment) :
    ∃ r evs, recvCharLoop src fuel buf start start s = .ok r
        (s.after (s.world.setPending src (charBlock fuel (s.world.pending src)).2) evs) ∧
      resize r.1 r.2 = buf.take start ++ (charBlock fuel (s.world.pending src)).1 ∧
      Recvs src evs ∧ bytesFrom src evs = (charBlock fuel (s.world.pending src)).1 := by
  induction fuel generalizing buf start s with
  | zero =>
    refine ⟨(buf, start), [], by simp [recvCharLoop, charBlock], ?_, by simp [Recvs], rfl⟩
    rw [resize_start buf (by omega)]
    simp [charBlock]
  | succ fuel ih =>
    obtain ⟨⟨r, rest⟩, ht⟩ : ∃ p, takeRecv increment (s.world.pending src) = p := ⟨_, rfl⟩
    have hrecv := recv_run src increment s
    rw [ht] at hrecv
    rw [recvCharLoop, bind_ok _ hrecv]
    cases r with
    | fail =>
      rw [charBlock_fail ht]
      refine ⟨(buf, start), [.recv src .fail], rfl, ?_, Recvs.single src _, by
        simp [Event.gotFrom]⟩
      rw [resize_start buf (by omega), List.append_nil]
    | data bs =>
      have hbs : bs.length ≤ increment := takeRecv_length ht
      have got : bytesFrom src [.recv src (.data bs)] = bs := by simp [Event.gotFrom]
      have filled := take_writeAt buf bs start (by omega)
      have hlen := length_writeAt buf bs start (by omega)
      by_cases hzero : bs.length = 0
      · have hnil := List.eq_nil_of_length_eq_zero hzero
        subst hnil
        rw [charBlock_short ht increment_pos]
        refine ⟨(buf, start), [.recv src (.data [])], rfl, ?_, Recvs.single src _, got⟩
        rw [resize_start buf (by omega), List.append_nil]
      by_cases hshort : bs.length < increment
      · rw [charBlock_short ht hshort]
        refine ⟨(writeAt buf start bs, start + bs.length), [.recv src (.data bs)],
          by simp [hzero, hshort], ?_, Recvs.single src _, got⟩
        rw [resize_start (writeAt buf start bs) (by omega), filled]
      · -- a full window: the buffer grows by one window and the loop goes on above it
        have hgrow : (resize (writeAt buf start bs) ((writeAt buf start bs).length + increment)).length
            = start + bs.length + increment := by simp [resize, hlen]; omega
        obtain ⟨r, evs, hrun, hres, hrecvs, hgot⟩ := ih _ (start + bs.length)
          (s.after (s.world.setPending src rest) [.recv src (.data bs)]) hgrow
        simp only [after_world, setPending_pending, setPending_setPending, after_after]
          at hrun hres hgot
        rw [charBlock_full ht hshort]
        refine ⟨r, [.recv src (.data bs)] ++ evs, ?_, ?_, (Recvs.single src _).append hrecvs, ?_⟩
        · simpa only [hzero, hshort, if_false] using hrun
        · rw [hres, resize, List.take_take, List.take_append_of_le_length (by omega),
            Nat.min_eq_left (by omega), filled, List.append_assoc]
        · rw [bytesFrom_append, got, hgot]

/-- `charBlock` with the fuel `recvChar` starts with. -/
def charTaken (l : List Recv) : Bytes × List Recv := charBlock ((pendingBytes l).length + 1) l

/-- `recvChar` returns the bytes it took. -/
theorem recvChar_run (src : Sock) (s : St) :
    ∃ evs, recvChar src s = .ok (charTaken (s.world.pending src)).1
        (s.after (s.world.setPending src (charTaken (s.world.pending src)).2) evs) ∧
      Recvs src evs ∧ bytesFrom src evs = (charTaken (s.world.pending src)).1 := by
  obtain ⟨r, evs, hrun, hres, hrecvs, hgot⟩ := recvCharLoop_run src
    ((pendingBytes (s.world.pending src)).length + 1) (List.replicate increment 0) 0 s (by simp)
  refine ⟨evs, ?_, hrecvs, hgot⟩
  rw [recvChar, get_bind, bind_ok _ hrun, hres]
  rfl

/-- `recvBuff` makes one `recv`. -/
theorem recvBuff_run (src : Sock) (s : St) :
    recvBuff src s =
      match (takeRecv 65536 (s.world.pending src)).1 with
      | .data bs => .ok bs (s.after
          (s.world.setPending src (takeRecv 65536 (s.world.pending src)).2) [.recv src (.data bs)])
      | .fail => .error .lengthError (s.after
          (s.world.setPending src (takeRecv 65536 (s.world.pending src)).2) [.recv src .fail]) := by
  rw [recvBuff, bind_ok _ (recv_run src 65536 s)]
  cases (takeRecv 65536 (s.world.pending src)).1 <;> rfl

end HttpProxy
