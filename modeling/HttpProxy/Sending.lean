import HttpProxy.Effects

/-!
# Sending

What `sendall` does is read off the results its sends will have: `sendsAll` says whether
it goes through, `sendEvents` lists its calls and `passed` counts the bytes that these
deliver. `sendVector_spec` is the equation for a vector of any size.
-/

namespace HttpProxy

/-- No `send` still to come fails. -/
def World.NoFail (w : World) : Prop := SendResult.fail ∉ w.sends

/-- A `send` to this socket has failed. -/
def Failed (dst : Sock) (evs : List Event) : Prop := ∃ what range, .send dst what range (-1) ∈ evs

/-- Nothing but calls of `send` on this socket with this buffer. -/
def Sends (dst : Sock) (what : Payload) (evs : List Event) : Prop :=
  ∀ e ∈ evs, ∃ range n, e = .send dst what range n

theorem Sends.bytesTo_ne {dst other : Sock} {what : Payload} {evs : List Event}
    (h : Sends dst what evs) (hne : dst ≠ other) : bytesTo other evs = [] := by
  apply List.flatMap_eq_nil_iff.mpr
  intro e he
  obtain ⟨range, n, rfl⟩ := h e he
  simp [Event.sentTo, hne]

theorem Sends.bytesFrom {dst : Sock} {what : Payload} {evs : List Event}
    (h : Sends dst what evs) (src : Sock) : bytesFrom src evs = [] := by
  apply List.flatMap_eq_nil_iff.mpr
  intro e he
  obtain ⟨range, n, rfl⟩ := h e he
  rfl

/-- A `send` that does not fail takes at least a byte of a range that has one. -/
theorem takeSend_spec {l : List SendResult} (h : SendResult.fail ∉ l) (len : Nat) (hl : 0 < len) :
    ∃ k : Nat, (takeSend len l).1 = k ∧ 1 ≤ k ∧ k ≤ len := by
  cases l with
  | nil => exact ⟨len, rfl, hl, Nat.le_refl _⟩
  | cons r rest =>
    cases r with
    | fail => exact absurd List.mem_cons_self h
    | took n => exact ⟨min len (max 1 n), rfl, by omega, by omega⟩

theorem takeSend_suffix {len : Nat} {l l' : List SendResult} {n : Int}
    (h : takeSend len l = (n, l')) : l' <:+ l := by
  cases l with
  | nil => cases h; exact List.suffix_rfl
  | cons r rest => cases r <;> cases h <;> exact List.suffix_cons _ _

def World.setSends (w : World) (l : List SendResult) : World := { w with sends := l }

section
variable (w : World) (l : List SendResult)

@[simp] theorem setSends_sends : (w.setSends l).sends = l := rfl
@[simp] theorem setSends_server : (w.setSends l).server = w.server := rfl
@[simp] theorem setSends_client : (w.setSends l).client = w.client := rfl
@[simp] theorem setSends_clock : (w.setSends l).libc = w.libc := rfl
@[simp] theorem setSends_now : (w.setSends l).now = w.now := rfl
@[simp] theorem setSends_connect : (w.setSends l).connect = w.connect := rfl
@[simp] theorem setSends_uninit : (w.setSends l).uninit = w.uninit := rfl
@[simp] theorem setSends_self : w.setSends w.sends = w := rfl

@[simp] theorem setSends_setSends (l' : List SendResult) :
    (w.setSends l).setSends l' = w.setSends l' := rfl

end

theorem send_run (dst : Sock) (what : Payload) (range : Bytes) (s : St) {k : Int}
    {l : List SendResult} (h : takeSend range.length s.world.sends = (k, l)) :
    send dst what range s =
      .ok k (s.after (s.world.setSends l) [.send dst what range k]) := by
  rw [send, get_bind]
  simp only [h]
  rfl

theorem Sends.single (dst : Sock) (what : Payload) (range : Bytes) (n : Int) :
    Sends dst what [.send dst what range n] := by
  intro e he
  exact ⟨range, n, List.mem_singleton.mp he⟩

theorem Sends.append {dst : Sock} {what : Payload} {evs evs' : List Event}
    (h : Sends dst what evs) (h' : Sends dst what evs') : Sends dst what (evs ++ evs') :=
  List.forall_mem_append.mpr ⟨h, h'⟩

/-! ## The calls of one `sendall` -/

/-- Does a `sendall` of this many bytes go through, and the results it leaves. -/
def sendsAll : Nat → List SendResult → Bool × List SendResult
  | _, [] => (true, [])
  | len, r :: rest =>
    if len = 0 then (true, r :: rest)
    else match r with
      | .fail => (false, rest)
      | .took n => sendsAll (len - min len (max 1 n)) rest

theorem sendsAll_zero (l : List SendResult) : sendsAll 0 l = (true, l) := by cases l <;> rfl

theorem sendsAll_suffix (len : Nat) (l : List SendResult) : (sendsAll len l).2 <:+ l := by
  induction l generalizing len with
  | nil => exact List.suffix_rfl
  | cons r rest ih =>
    by_cases zero : len = 0
    · rw [zero, sendsAll_zero]
    · cases r with
      | fail =>
        rw [sendsAll, if_neg zero]
        exact List.suffix_cons _ _
      | took n =>
        rw [sendsAll, if_neg zero]
        exact (ih _).trans (List.suffix_cons _ _)

/-- `send` takes all when no result is left, or what the next result says. -/
theorem takeSend_took {len : Nat} {l rest : List SendResult} {k : Nat}
    (h : takeSend len l = (↑k, rest)) :
    l = [] ∧ rest = [] ∧ k = len ∨ ∃ n, l = .took n :: rest ∧ k = min len (max 1 n) := by
  cases l with
  | nil =>
    simp only [takeSend, Prod.mk.injEq, Int.natCast_inj] at h
    exact .inl ⟨rfl, h.2.symm, h.1.symm⟩
  | cons r l =>
    cases r with
    | fail => simp [takeSend] at h
    | took n =>
      simp only [takeSend, Prod.mk.injEq, Int.natCast_inj] at h
      exact .inr ⟨n, by rw [h.2], h.1.symm⟩

theorem sendsAll_took {len : Nat} {l rest : List SendResult} {k : Nat} (hl : 0 < len)
    (h : takeSend len l = (↑k, rest)) : sendsAll len l = sendsAll (len - k) rest := by
  obtain ⟨rfl, rfl, rfl⟩ | ⟨n, rfl, rfl⟩ := takeSend_took h
  · rw [Nat.sub_self]
    rfl
  · rw [sendsAll, if_neg (by omega)]

/-- How many of so many bytes a `sendall` delivers. -/
def passed : Nat → List SendResult → Nat
  | len, [] => len
  | len, r :: rest =>
    if len = 0 then 0
    else match r with
      | .fail => 0
      | .took n => min len (max 1 n) + passed (len - min len (max 1 n)) rest

theorem passed_zero (l : List SendResult) : passed 0 l = 0 := by cases l <;> rfl

theorem passed_took {len : Nat} {l rest : List SendResult} {k : Nat} (hl : 0 < len)
    (h : takeSend len l = (↑k, rest)) : passed len l = k + passed (len - k) rest := by
  obtain ⟨rfl, rfl, rfl⟩ | ⟨n, rfl, rfl⟩ := takeSend_took h
  · rw [Nat.sub_self]
    rfl
  · rw [passed, if_neg (by omega)]

/-- It goes through when it delivers every byte. -/
theorem passed_eq_iff (len : Nat) (l : List SendResult) :
    passed len l = len ↔ (sendsAll len l).1 = true := by
  induction l generalizing len with
  | nil => simp [passed, sendsAll]
  | cons r rest ih =>
    by_cases zero : len = 0
    · simp [zero, passed_zero, sendsAll_zero]
    · cases r with
      | fail =>
        rw [passed, sendsAll, if_neg zero, if_neg zero]
        simp only [Bool.false_eq_true, iff_false]
        omega
      | took n =>
        rw [passed, sendsAll, if_neg zero, if_neg zero, ← ih]
        omega

theorem passed_le (len : Nat) (l : List SendResult) : passed len l ≤ len := by
  induction l generalizing len with
  | nil => exact Nat.le_refl _
  | cons r rest ih =>
    by_cases zero : len = 0
    · rw [zero, passed_zero]
    · cases r with
      | fail =>
        rw [passed, if_neg zero]
        exact Nat.zero_le _
      | took n =>
        have := ih (len - min len (max 1 n))
        rw [passed, if_neg zero]
        omega

theorem sendsAll_of_noFail {l : List SendResult} (h : SendResult.fail ∉ l) (len : Nat) :
    (sendsAll len l).1 = true := by
  induction l generalizing len with
  | nil => rfl
  | cons r rest ih =>
    by_cases zero : len = 0
    · rw [zero, sendsAll_zero]
    · cases r with
      | fail => exact absurd List.mem_cons_self h
      | took n =>
        rw [sendsAll, if_neg zero]
        exact ih (fun hr => h (List.mem_cons_of_mem _ hr)) _

section
variable (dst : Sock) (what : Payload)

/-- The calls of `send` in a `sendall`, each with what is left of the buffer and its result. -/
def sendEvents : Bytes → List SendResult → List Event
  | buf, [] => if buf = [] then [] else [.send dst what buf buf.length]
  | buf, r :: rest =>
    if buf = [] then []
    else match r with
      | .fail => [.send dst what buf (-1)]
      | .took n => .send dst what buf (min buf.length (max 1 n) : Nat) ::
          sendEvents (buf.drop (min buf.length (max 1 n))) rest

theorem sendEvents_nil (l : List SendResult) : sendEvents dst what [] l = [] := by cases l <;> rfl

theorem sendEvents_took {buf : Bytes} {l rest : List SendResult} {k : Nat} (ne : buf ≠ [])
    (h : takeSend buf.length l = (↑k, rest)) :
    sendEvents dst what buf l = .send dst what buf k :: sendEvents dst what (buf.drop k) rest := by
  obtain ⟨rfl, rfl, rfl⟩ | ⟨n, rfl, rfl⟩ := takeSend_took h
  · rw [List.drop_length, sendEvents_nil, sendEvents, if_neg ne]
  · rw [sendEvents, if_neg ne]

theorem sendEvents_sends (buf : Bytes) (l : List SendResult) :
    Sends dst what (sendEvents dst what buf l) := by
  induction l generalizing buf with
  | nil =>
    rw [sendEvents]
    split_ifs
    · simp [Sends]
    · exact Sends.single dst what buf _
  | cons r rest ih =>
    by_cases none : buf = []
    · rw [none, sendEvents_nil]
      simp [Sends]
    · cases r with
      | fail =>
        rw [sendEvents, if_neg none]
        exact Sends.single dst what buf _
      | took n =>
        rw [sendEvents, if_neg none]
        exact (Sends.single dst what buf _).append (ih _)

theorem sentTo_took (range : Bytes) (k : Nat) :
    Event.sentTo dst (.send dst what range k) = range.take k := by simp [Event.sentTo]

theorem bytesTo_sendEvents (buf : Bytes) (l : List SendResult) :
    bytesTo dst (sendEvents dst what buf l) = buf.take (passed buf.length l) := by
  induction l generalizing buf with
  | nil =>
    rw [sendEvents, passed, List.take_length]
    split_ifs with none
    · rw [none, bytesTo_nil]
    · simp [bytesTo, Event.sentTo]
  | cons r rest ih =>
    by_cases none : buf = []
    · rw [none, sendEvents_nil, bytesTo_nil, List.take_nil]
    · have some : buf.length ≠ 0 := by simpa using none
      cases r with
      | fail =>
        rw [sendEvents, passed, if_neg none, if_neg some]
        simp [bytesTo, Event.sentTo]
      | took n =>
        rw [sendEvents, passed, if_neg none, if_neg some]
        rw [bytesTo_cons, sentTo_took, ih, List.length_drop, List.take_add]

end

/-- A send that took bytes has not failed. -/
theorem failed_took {dst : Sock} {what : Payload} {range : Bytes} (k : Nat) {evs : List Event} :
    Failed dst (.send dst what range k :: evs) ↔ Failed dst evs := by
  constructor
  · rintro ⟨what', range', mem⟩
    rcases List.mem_cons.mp mem with eq | later
    · injection eq with _ _ _ result
      omega
    · exact ⟨what', range', later⟩
  · rintro ⟨what', range', mem⟩
    exact ⟨what', range', List.mem_cons_of_mem _ mem⟩

/-- A call failed just when the `sendall` does not go through. -/
theorem failed_sendEvents (dst : Sock) (what : Payload) (buf : Bytes) (l : List SendResult) :
    Failed dst (sendEvents dst what buf l) ↔ (sendsAll buf.length l).1 = false := by
  induction l generalizing buf with
  | nil =>
    rw [sendEvents, sendsAll]
    split_ifs
    · simp [Failed]
    · rw [failed_took]
      simp [Failed]
  | cons r rest ih =>
    by_cases none : buf = []
    · rw [none, sendEvents_nil, List.length_nil, sendsAll_zero]
      simp [Failed]
    · have pos : buf.length ≠ 0 := by simpa using none
      cases r with
      | fail =>
        rw [sendEvents, sendsAll, if_neg none, if_neg pos]
        simp [Failed]
      | took n =>
        rw [sendEvents, sendsAll, if_neg none, if_neg pos, ← List.length_drop, ← ih]
        exact failed_took _

/-! ## The loop of `sendall` -/

/-- The loop leaves as soon as `total` has reached `len`. -/
theorem sendLoop_stop (dst : Sock) (what : Payload) (buf : Bytes) {len total : Int}
    (h : ¬ total < len) (fuel : Nat) (bytesleft n : Int) (s : St) :
    sendLoop dst what buf len fuel total bytesleft n s = .ok (n, total) s := by
  cases fuel with
  | zero => rfl
  | succ fuel => rw [sendLoop, if_neg h]; rfl

section Round
variable (dst : Sock) (what : Payload) (buf : Bytes) {len total bytesleft k : Int} {range : Bytes}
  {l : List SendResult} (fuel : Nat) (n : Int) (s : St)

/-- A round whose `send` fails. -/
theorem sendLoop_fail (h : total < len)
    (hrange : (buf.drop total.toNat).take bytesleft.toNat = range)
    (hsend : takeSend range.length s.world.sends = (-1, l)) :
    sendLoop dst what buf len (fuel + 1) total bytesleft n s =
      .ok (-1, total) (s.after (s.world.setSends l) [.send dst what range (-1)]) := by
  subst hrange
  rw [sendLoop, if_pos h, bind_ok _ (send_run dst what _ s hsend)]
  rfl

/-- A round whose `send` takes `k` bytes. -/
theorem sendLoop_took (h : total < len)
    (hrange : (buf.drop total.toNat).take bytesleft.toNat = range)
    (hsend : takeSend range.length s.world.sends = (k, l)) (hk : k ≠ -1) :
    sendLoop dst what buf len (fuel + 1) total bytesleft n s =
      sendLoop dst what buf len fuel (total + k) (bytesleft - k) k
        (s.after (s.world.setSends l) [.send dst what range k]) := by
  subst hrange
  rw [sendLoop, if_pos h, bind_ok _ (send_run dst what _ s hsend), if_neg hk]

end Round

/-- The loop makes the calls of `sendEvents` on the rest of the range, and counts what they
deliver. -/
theorem sendLoop_spec (dst : Sock) (what : Payload) (buf : Bytes) (len : Int) (fuel : Nat)
    (total bytesleft n : Int) (s : St) (ht : 0 ≤ total) (hsum : total + bytesleft = len)
    (hbuf : len ≤ buf.length) (hb : 0 < bytesleft) (hfuel : bytesleft ≤ fuel) :
    ∃ n', sendLoop dst what buf len fuel total bytesleft n s =
        .ok (n', total + passed bytesleft.toNat s.world.sends)
          (s.after (s.world.setSends (sendsAll bytesleft.toNat s.world.sends).2)
            (sendEvents dst what ((buf.drop total.toNat).take bytesleft.toNat) s.world.sends)) ∧
      (n' = -1 ↔ (sendsAll bytesleft.toNat s.world.sends).1 = false) := by
  induction fuel generalizing total bytesleft n s with
  | zero => omega
  | succ fuel ih =>
    obtain ⟨range, hrange⟩ : ∃ r, (buf.drop total.toNat).take bytesleft.toNat = r := ⟨_, rfl⟩
    have hlen : range.length = bytesleft.toNat := by
      rw [← hrange, List.length_take, List.length_drop]
      omega
    have some : range ≠ [] := by
      intro none
      rw [none, List.length_nil] at hlen
      omega
    have unfinished : total < len := by omega
    rw [hrange]
    by_cases failed : ∃ rest, s.world.sends = .fail :: rest
    · obtain ⟨rest, hs⟩ := failed
      have hsend : takeSend range.length s.world.sends = (-1, rest) := by rw [hs]; rfl
      have out : sendsAll bytesleft.toNat s.world.sends = (false, rest) := by
        rw [hs, sendsAll, if_neg (by omega)]
      have calls : sendEvents dst what range s.world.sends = [.send dst what range (-1)] := by
        rw [hs, sendEvents, if_neg some]
      have count : passed bytesleft.toNat s.world.sends = 0 := by
        rw [hs, passed, if_neg (by omega)]
      rw [out, calls, count, Int.natCast_zero, Int.add_zero]
      exact ⟨_, sendLoop_fail dst what buf fuel n s unfinished hrange hsend, by simp⟩
    · obtain ⟨k, l, hsend, hk, hkl⟩ : ∃ (k : Nat) (l : List SendResult),
          takeSend range.length s.world.sends = (↑k, l) ∧ 1 ≤ k ∧ k ≤ range.length := by
        cases hs : s.world.sends with
        | nil => exact ⟨range.length, [], rfl, by omega, Nat.le_refl _⟩
        | cons r rest =>
          cases r with
          | fail => exact absurd ⟨rest, hs⟩ failed
          | took n => exact ⟨_, rest, rfl, by omega, by omega⟩
      have round := sendLoop_took dst what buf fuel n s unfinished hrange hsend (by omega)
      rw [sendEvents_took dst what some hsend]
      rw [hlen] at hsend hkl
      rw [sendsAll_took (by omega) hsend, passed_took (by omega) hsend]
      by_cases more : 0 < bytesleft - k
      · obtain ⟨n', hrun, hr⟩ := ih (total + k) (bytesleft - k) k
          (s.after (s.world.setSends l) [.send dst what range k]) (by omega) (by omega) more
          (by omega)
        have tail : (buf.drop (total + k).toNat).take (bytesleft - k).toNat = range.drop k := by
          rw [← hrange, show (total + k).toNat = total.toNat + k by omega,
            show (bytesleft - k).toNat = bytesleft.toNat - k by omega,
            List.drop_take, List.drop_drop]
        rw [tail, show (bytesleft - k).toNat = bytesleft.toNat - k by omega] at hrun
        rw [show (bytesleft - k).toNat = bytesleft.toNat - k by omega] at hr
        refine ⟨n', ?_, hr⟩
        rw [round, hrun, after_after, after_world, setSends_setSends, setSends_sends, Int.add_assoc,
          ← Int.natCast_add]
        rfl
      · -- the last `send` took all that was left, so the loop stops with its result
        rw [sendLoop_stop dst what buf (show ¬ total + k < len by omega)] at round
        have done : range.drop k = [] := List.drop_eq_nil_of_le (by omega)
        rw [show bytesleft.toNat - k = 0 by omega, sendsAll_zero, done, sendEvents_nil, passed_zero,
          Nat.add_zero]
        exact ⟨_, round, by simp only [reduceCtorEq]⟩

/-- What `sendall` returns and leaves in `*len` for a positive length within the buffer. -/
theorem sendall_spec (dst : Sock) (what : Payload) {buf : Bytes} {len : Int} (pos : 0 < len)
    (within : len ≤ buf.length) (s : St) :
    sendall dst what buf len s =
      .ok (if (sendsAll len.toNat s.world.sends).1 then 0 else -1,
          (passed len.toNat s.world.sends : Int))
        (s.after (s.world.setSends (sendsAll len.toNat s.world.sends).2)
          (sendEvents dst what (buf.take len.toNat) s.world.sends)) := by
  obtain ⟨n, hrun, hn⟩ := sendLoop_spec dst what buf len len.toNat 0 len s.world.uninit s
    (Int.le_refl 0) (Int.zero_add len) within pos (by omega)
  rw [sendall, get_bind, bind_ok _ hrun, Int.zero_add]
  cases through : (sendsAll len.toNat s.world.sends).1 with
  | true =>
    have sent : n ≠ -1 := fun failed => by simp [through] at hn; exact hn failed
    simp only [sent, if_false, if_true]
    rfl
  | false =>
    simp only [hn.mpr through, if_true, Bool.false_eq_true, if_false]
    rfl

/-- How many bytes of a vector of this size `sendall` is asked for: the size as an
`int`, nothing when that is negative. -/
def intLen (n : Nat) : Nat := if n % 2 ^ 32 < 2 ^ 31 then n % 2 ^ 32 else 0

theorem toNat_toInt32 (n : Nat) : (toInt32 n).toNat = intLen n := by
  rw [intLen, toInt32, Int.bmod_def]
  split_ifs <;> omega

/-- A length an `int` holds. -/
def FitsInt (n : Nat) : Prop := n < 2 ^ 31

instance (n : Nat) : Decidable (FitsInt n) := inferInstanceAs (Decidable (n < 2 ^ 31))

theorem intLen_of_fits {n : Nat} (h : FitsInt n) : intLen n = n := by
  unfold FitsInt at h
  rw [intLen, if_pos] <;> omega

theorem intLen_le (n : Nat) : intLen n ≤ n := by
  unfold intLen
  split_ifs <;> omega

/-- A size an `int` does not hold loses at least 2^31 bytes. -/
theorem intLen_lost {n : Nat} (h : ¬ FitsInt n) : intLen n + 2 ^ 31 ≤ n := by
  unfold FitsInt at h
  unfold intLen
  split_ifs <;> omega

section
variable (dst : Sock) (what : Payload) (buf : Bytes) (s : St)

/-- The part of a vector whose size survives as an `int`. -/
def sendable (buf : Bytes) : Bytes := buf.take (intLen buf.length)

theorem sendable_of_fits {buf : Bytes} (h : FitsInt buf.length) : sendable buf = buf := by
  rw [sendable, intLen_of_fits h, List.take_length]

theorem length_sendable (buf : Bytes) : (sendable buf).length = intLen buf.length := by
  rw [sendable, List.length_take, Nat.min_eq_left (intLen_le _)]

/-- `sendVector` makes the calls that the size as an `int` asks for. Asked for nothing, it
makes none and returns what its uninitialised `n` says. -/
theorem sendVector_spec :
    ∃ r, sendVector dst what buf s = .ok r
        (s.after (s.world.setSends (sendsAll (intLen buf.length) s.world.sends).2)
          (sendEvents dst what (sendable buf) s.world.sends)) ∧
      (0 < intLen buf.length →
        r = if (sendsAll (intLen buf.length) s.world.sends).1 then 0 else -1) := by
  have asked : (toInt32 buf.length).toNat = intLen buf.length := toNat_toInt32 _
  by_cases hpos : 0 < toInt32 buf.length
  · have hle := asked ▸ intLen_le buf.length
    have hall := sendall_spec dst what hpos (show toInt32 buf.length ≤ buf.length by omega) s
    rw [asked] at hall
    refine ⟨_, ?_, fun _ => rfl⟩
    rw [sendVector, bind_ok _ hall]
    rfl
  · have none : intLen buf.length = 0 := by omega
    have nothing : sendable buf = [] := by rw [sendable, none, List.take_zero]
    refine ⟨if s.world.uninit = -1 then -1 else 0, ?_, by omega⟩
    have hall : sendall dst what buf (toInt32 buf.length) s =
        .ok (if s.world.uninit = -1 then -1 else 0, 0) s := by
      rw [sendall, get_bind, bind_ok _ (sendLoop_stop dst what buf (by omega) ..)]
      rfl
    rw [sendVector, bind_ok _ hall, none, nothing, sendsAll_zero, sendEvents_nil, setSends_self,
      after_self]
    rfl

/-- `sendVector` sends on its socket and does nothing else. -/
theorem sendVector_run :
    ∃ r evs l, sendVector dst what buf s = .ok r (s.after (s.world.setSends l) evs) ∧
      l <:+ s.world.sends ∧ Sends dst what evs := by
  obtain ⟨r, hrun, _⟩ := sendVector_spec dst what buf s
  exact ⟨r, _, _, hrun, sendsAll_suffix _ _, sendEvents_sends dst what _ _⟩

/-- When no send fails, `sendVector` sends what the `int` says, in order and once. -/
theorem sendVector_sent (hf : s.world.NoFail) :
    ∃ r evs l, sendVector dst what buf s = .ok r (s.after (s.world.setSends l) evs) ∧
      l <:+ s.world.sends ∧ Sends dst what evs ∧
      bytesTo dst evs = sendable buf ∧ (0 < intLen buf.length → r = 0) := by
  obtain ⟨r, hrun, hr⟩ := sendVector_spec dst what buf s
  have through := sendsAll_of_noFail hf (intLen buf.length)
  refine ⟨r, _, _, hrun, sendsAll_suffix _ _, sendEvents_sends dst what _ _, ?_, fun some => ?_⟩
  · rw [bytesTo_sendEvents, length_sendable, (passed_eq_iff _ _).mpr through, ← length_sendable,
      List.take_length]
  · rw [hr some, if_pos through]

/-- `sendVector` on a vector whose size is a positive `int`. -/
theorem sendVector_outcome (fits : FitsInt buf.length) (ne : buf ≠ []) :
    sendVector dst what buf s =
      .ok (if (sendsAll buf.length s.world.sends).1 then 0 else -1)
        (s.after (s.world.setSends (sendsAll buf.length s.world.sends).2)
          (sendEvents dst what buf s.world.sends)) := by
  obtain ⟨r, hrun, hr⟩ := sendVector_spec dst what buf s
  rw [intLen_of_fits fits] at hr
  rw [hrun, hr (List.length_pos_of_ne_nil ne), intLen_of_fits fits, sendable_of_fits fits]

end

end HttpProxy
