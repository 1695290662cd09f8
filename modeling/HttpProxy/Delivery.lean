import HttpProxy.Sending

/-!
# What one `sendall` delivers

`sendall` counts in `total`, `bytesleft` and the caller's `*len`. Each call of `send` is
given the range that starts behind the bytes sent so far and ends with the message, so
every byte is sent once and in order (`sendall_once`).
-/

namespace HttpProxy

/-- Each call of `send` on this socket is given what the ones before it left of the text. -/
def Resumes (dst : Sock) (text : Bytes) (evs : List Event) : Prop :=
  ∀ pre what range n post, evs = pre ++ .send dst what range n :: post →
    range = text.drop (bytesTo dst pre).length

section
variable (dst : Sock) (what : Payload)

theorem Resumes.nil (text : Bytes) : Resumes dst text [] := by
  intro pre _ _ _ post split
  exact absurd split.symm (List.append_ne_nil_of_right_ne_nil pre (List.cons_ne_nil _ post))

variable {dst}

/-- A call that was given the whole text, in front of calls that resume behind it. -/
theorem Resumes.cons {text : Bytes} {evs : List Event} (n : Int)
    (h : Resumes dst (text.drop (bytesTo dst [.send dst what text n]).length) evs) :
    Resumes dst text (.send dst what text n :: evs) := by
  intro pre what' range n' post split
  cases pre with
  | nil =>
    obtain ⟨same, _⟩ := List.cons.inj split
    cases same
    rfl
  | cons e pre =>
    obtain ⟨rfl, more⟩ := List.cons.inj split
    have sent : bytesTo dst (.send dst what text n :: pre) =
        bytesTo dst [.send dst what text n] ++ bytesTo dst pre := bytesTo_append dst [_] pre
    rw [h pre what' range n' post more, List.drop_drop, sent, List.length_append]

variable (dst)

theorem sendEvents_resumes (buf : Bytes) (l : List SendResult) :
    Resumes dst buf (sendEvents dst what buf l) := by
  induction l generalizing buf with
  | nil =>
    rw [sendEvents]
    split_ifs
    · exact .nil dst buf
    · exact .cons what _ (.nil dst _)
  | cons r rest ih =>
    by_cases none : buf = []
    · rw [none, sendEvents_nil]
      exact .nil dst []
    · cases r with
      | fail =>
        rw [sendEvents, if_neg none]
        exact .cons what _ (.nil dst _)
      | took n =>
        rw [sendEvents, if_neg none]
        apply Resumes.cons
        rw [bytesTo_singleton, sentTo_took, List.length_take, Nat.min_eq_left (Nat.min_le_left ..)]
        exact ih _

/-! ## Termination -/

/-- A call of `send` on a range that has bytes fails or takes one of them. -/
theorem takeSend_advances {len : Nat} {l l' : List SendResult} {k : Int} (some : 0 < len)
    (h : takeSend len l = (k, l')) : k = -1 ∨ 1 ≤ k ∧ k ≤ len := by
  cases l with
  | nil =>
    cases h
    exact .inr ⟨by omega, Int.le_refl _⟩
  | cons r rest =>
    cases r with
    | fail =>
      cases h
      exact .inl rfl
    | took n =>
      cases h
      exact .inr ⟨by omega, by omega⟩

/-- Every round sends a byte or leaves, so rounds beyond the bytes that are left change
nothing. -/
theorem sendLoop_rounds (buf : Bytes) (len : Int) (fuel more : Nat) (total bytesleft n : Int)
    (s : St) (ht : 0 ≤ total) (hsum : total + bytesleft = len) (hbuf : len ≤ buf.length)
    (hfuel : bytesleft ≤ fuel) :
    sendLoop dst what buf len (fuel + more) total bytesleft n s =
      sendLoop dst what buf len fuel total bytesleft n s := by
  induction fuel generalizing total bytesleft n s with
  | zero =>
    rw [sendLoop_stop dst what buf (show ¬ total < len by omega),
      sendLoop_stop dst what buf (show ¬ total < len by omega)]
  | succ fuel ih =>
    by_cases unfinished : total < len
    · obtain ⟨⟨k, l⟩, hsend⟩ : ∃ p, takeSend
          ((buf.drop total.toNat).take bytesleft.toNat).length s.world.sends = p := ⟨_, rfl⟩
      have some : 0 < ((buf.drop total.toNat).take bytesleft.toNat).length := by
        rw [List.length_take, List.length_drop]
        omega
      rw [show fuel + 1 + more = fuel + more + 1 by omega]
      by_cases failed : k = -1
      · subst failed
        rw [sendLoop_fail dst what buf _ n s unfinished rfl hsend,
          sendLoop_fail dst what buf _ n s unfinished rfl hsend]
      · have took := (takeSend_advances some hsend).resolve_left failed
        rw [sendLoop_took dst what buf _ n s unfinished rfl hsend failed,
          sendLoop_took dst what buf _ n s unfinished rfl hsend failed]
        exact ih _ _ _ _ (by omega) (by omega) (by omega)
    · rw [sendLoop_stop dst what buf unfinished, sendLoop_stop dst what buf unfinished]

end

/-! ## What was sent -/

/-- How a `sendall` of `len` bytes may end: with all of them sent and `*len` as it was, or
with -1 after some, and `*len` says how many. -/
inductive Delivered (dst : Sock) (buf : Bytes) (len : Int) (evs : List Event) :
    Int × Int → Prop
  | whole (sent : bytesTo dst evs = buf.take len.toNat) : Delivered dst buf len evs (0, len)
  | cut {left : Int} (some : 0 ≤ left) (short : left < len)
      (sent : bytesTo dst evs = buf.take left.toNat) : Delivered dst buf len evs (-1, left)

/-- `sendall` of any positive length within the buffer ends, whatever its calls of `send`
return, and has sent each byte it counts once and in order. It returns -1 just when one of
the calls did. -/
theorem sendall_once (dst : Sock) (what : Payload) {buf : Bytes} {len : Int} (pos : 1 ≤ len)
    (within : len ≤ buf.length) (s : St) :
    (∃ r w evs, sendall dst what buf len s = .ok r (s.after w evs) ∧
      Delivered dst buf len evs r ∧ (r.1 = -1 ↔ Failed dst evs) ∧ Sends dst what evs ∧
      Resumes dst (buf.take len.toNat) evs) ∧
      ∀ more, sendLoop dst what buf len (len.toNat + more) 0 len s.world.uninit s =
        sendLoop dst what buf len len.toNat 0 len s.world.uninit s := by
  have size : (buf.take len.toNat).length = len.toNat := by
    rw [List.length_take]
    omega
  have count := passed_le len.toNat s.world.sends
  have sent := bytesTo_sendEvents dst what (buf.take len.toNat) s.world.sends
  rw [size, List.take_take, Nat.min_eq_left count] at sent
  have failed := failed_sendEvents dst what (buf.take len.toNat) s.world.sends
  rw [size] at failed
  constructor
  · refine ⟨_, _, _, sendall_spec dst what (by omega) within s, ?_, ?_,
      sendEvents_sends dst what _ _, sendEvents_resumes dst what _ _⟩
    · cases through : (sendsAll len.toNat s.world.sends).1 with
      | true =>
        have all := (passed_eq_iff _ _).mpr through
        rw [all] at sent
        rw [all, if_pos rfl, Int.toNat_of_nonneg (by omega)]
        exact .whole sent
      | false =>
        have some : passed len.toNat s.world.sends ≠ len.toNat := by
          rw [ne_eq, passed_eq_iff, through]
          exact Bool.false_ne_true
        rw [if_neg Bool.false_ne_true]
        exact .cut (by omega) (by omega) sent
    · rw [failed]
      cases (sendsAll len.toNat s.world.sends).1 <;> simp
  · intro more
    exact sendLoop_rounds dst what buf len _ more 0 len _ s (by omega) (by omega) within (by omega)

/-- Three bytes, and the second `send` fails. -/
theorem sendall_once_cut :
    let s := (St.mk (.new ⟨1, Nat.le_refl 1⟩) ∅ 0 { sends := [.took 2, .fail] } [])
    ∃ r w evs, sendall .client .tunnel (str "abc") 3 s = .ok r (s.after w evs) ∧
      Delivered .client (str "abc") 3 evs r ∧ (r.1 = -1 ↔ Failed .client evs) :=
  let ⟨r, w, evs, run, delivered, failed, _⟩ := (sendall_once .client .tunnel
    (show (1 : Int) ≤ 3 by decide) (show (3 : Int) ≤ (str "abc").length by decide) _).1
  ⟨r, w, evs, run, delivered, failed⟩

end HttpProxy
