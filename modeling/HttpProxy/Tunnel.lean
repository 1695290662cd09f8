import HttpProxy.Session
import HttpProxy.Runs

/-!
# The tunnel of `CONNECT`

Each descriptor that is set makes one exchange: a block comes from its side and all of it
goes to the other side. The loop of `proxyCONNECT` does whole exchanges, until an empty
receive makes it return.
-/

namespace HttpProxy

def Sock.other : Sock → Sock
  | .client => .server
  | .server => .client

theorem Sock.ne_other (src : Sock) : src ≠ src.other := by cases src <;> decide

/-- One `recvChar` that returns bytes, and the sends of those bytes to the other side. -/
structure Exchange (src : Sock) (got sent : List Event) : Prop where
  recvs : Recvs src got
  nonempty : bytesFrom src got ≠ []
  sends : Sends src.other .tunnel sent
  whole : bytesTo src.other sent = bytesFrom src got

inductive Exchanges : List Event → Prop
  | nil : Exchanges []
  | cons {src : Sock} {got sent evs : List Event} (first : Exchange src got sent)
      (rest : Exchanges evs) : Exchanges (got ++ sent ++ evs)

/-- Each side was sent the bytes that came from the other, in that order. -/
def CarriedOver (evs : List Event) : Prop :=
  ∀ src : Sock, bytesTo src.other evs = bytesFrom src evs

theorem CarriedOver.append {evs evs' : List Event} (h : CarriedOver evs) (h' : CarriedOver evs') :
    CarriedOver (evs ++ evs') := by
  intro src
  rw [bytesTo_append, bytesFrom_append, h src, h' src]

theorem Exchange.carriedOver {src : Sock} {got sent : List Event} (h : Exchange src got sent) :
    CarriedOver (got ++ sent) := by
  intro side
  rw [bytesTo_append, bytesFrom_append, h.recvs.bytesTo, h.sends.bytesFrom, List.nil_append,
    List.append_nil]
  by_cases same : side = src
  · rw [same, h.whole]
  · -- the other direction: nothing came from this side, nothing went to its peer
    have opposite : side.other = src := by cases side <;> cases src <;> simp_all [Sock.other]
    rw [h.recvs.bytesFrom_ne (Ne.symm same), opposite]
    exact h.sends.bytesTo_ne (Sock.ne_other src).symm

theorem Exchanges.carriedOver {evs : List Event} (h : Exchanges evs) : CarriedOver evs := by
  induction h with
  | nil => exact fun _ => rfl
  | cons first _ ih => exact first.carriedOver.append ih

/-- An empty receive changes nothing. -/
theorem CarriedOver.closing {src : Sock} {evs last : List Event} (h : CarriedOver evs)
    (recvs : Recvs src last) (empty : bytesFrom src last = []) : CarriedOver (evs ++ last) := by
  apply h.append
  intro side
  rw [recvs.bytesTo]
  by_cases same : src = side
  · rw [← same, empty]
  · rw [recvs.bytesFrom_ne same]

/-! ## Runs of the loop -/

/-- How the loop stands after the rounds it was given: at its head after whole exchanges;
returned, with an empty receive behind the last exchange; or given up in a receive of more
bytes than an `int` counts. -/
inductive Tunnelled (s : St) : EStateM.Result Exn St Bool → Prop
  | looping {t : St} {evs : List Event} (agrees : s.world.Agrees t.world)
      (trace : t.trace = s.trace ++ evs) (exchanges : Exchanges evs) (carried : CarriedOver evs) :
      Tunnelled s (.ok true t)
  | returned {t : St} {evs last : List Event} {src : Sock}
      (trace : t.trace = s.trace ++ (evs ++ last)) (exchanges : Exchanges evs)
      (recvs : Recvs src last) (empty : bytesFrom src last = [])
      (carried : CarriedOver (evs ++ last)) : Tunnelled s (.ok false t)
  | outgrown {t : St} {evs last : List Event} {src : Sock}
      (trace : t.trace = s.trace ++ (evs ++ last)) (exchanges : Exchanges evs)
      (recvs : Recvs src last) (long : 2 ^ 31 ≤ (bytesFrom src last).length)
      (carried : CarriedOver evs) : Tunnelled s (.error .lengthError t)

theorem Tunnelled.start (s : St) : Tunnelled s (.ok true s) :=
  .looping (.refl _) (List.append_nil _).symm .nil fun _ => rfl

theorem Exchanges.append {evs evs' : List Event} (h : Exchanges evs) (h' : Exchanges evs') :
    Exchanges (evs ++ evs') := by
  induction h with
  | nil => exact h'
  | cons first _ ih =>
    rw [List.append_assoc]
    exact .cons first ih

/-- A run that begins after some exchanges. -/
theorem Tunnelled.after {s t : St} {evs : List Event} {r : EStateM.Result Exn St Bool}
    (agrees : s.world.Agrees t.world) (trace : t.trace = s.trace ++ evs) (before : Exchanges evs)
    (h : Tunnelled t r) : Tunnelled s r := by
  cases h with
  | looping agrees' trace' exchanges carried =>
    rw [trace, List.append_assoc] at trace'
    exact .looping (agrees.trans agrees') trace' (before.append exchanges)
      (before.carriedOver.append carried)
  | returned trace' exchanges recvs empty carried =>
    rw [trace, List.append_assoc, ← List.append_assoc evs] at trace'
    have all := before.append exchanges
    exact .returned trace' all recvs empty (all.carriedOver.closing recvs empty)
  | outgrown trace' exchanges recvs long carried =>
    rw [trace, List.append_assoc, ← List.append_assoc evs] at trace'
    have all := before.append exchanges
    exact .outgrown trace' all recvs long all.carriedOver

namespace Descriptors

variable (fds : Descriptors)

/-- The direction by the descriptor's number is the direction away from its side. -/
theorem target_of_isset {ready : Ready} {i : Nat} (h : fds.isset ready i = true) :
    (if i = fds.server then Sock.client else Sock.server) = (fds.sock i).other := by
  have apart := fds.apart
  simp only [isset, Bool.or_eq_true, Bool.and_eq_true, beq_iff_eq] at h
  obtain ⟨rfl, _⟩ | ⟨rfl, _⟩ := h
  · rw [if_neg apart, sock, if_pos rfl]
    rfl
  · rw [if_pos rfl, sock, if_neg (Ne.symm apart)]
    rfl

end Descriptors

theorem recvBlock_spec (src : Sock) (s : St) :
    ∃ evs, Recvs src evs ∧ bytesFrom src evs = (charTaken (s.world.pending src)).1 ∧
      recvBlock src s = if (charTaken (s.world.pending src)).1.length < 2 ^ 31 then
          .ok (charTaken (s.world.pending src)).1
            (s.after (s.world.setPending src (charTaken (s.world.pending src)).2) evs)
        else .error .lengthError
          (s.after (s.world.setPending src (charTaken (s.world.pending src)).2) evs) := by
  obtain ⟨evs, hrun, recvs, got⟩ := recvChar_run src s
  refine ⟨evs, recvs, got, ?_⟩
  rw [recvBlock, bind_ok _ hrun]
  split_ifs <;> rfl

theorem recvBlock_run (src : Sock) (s : St) :
    ∃ w evs data, s.world.Agrees w ∧ Recvs src evs ∧ bytesFrom src evs = data ∧
      recvBlock src s = if data.length < 2 ^ 31 then .ok data (s.after w evs)
        else .error .lengthError (s.after w evs) := by
  obtain ⟨evs, recvs, got, hrun⟩ := recvBlock_spec src s
  exact ⟨_, evs, _, World.agrees_setPending _ src _, recvs, got, hrun⟩

/-- The scan of one round. -/
theorem tunnelScan_run (fds : Descriptors) (ready : Ready) (is : List Nat) {s : St}
    (hf : s.world.NoFail) : Tunnelled s (tunnelScan fds ready is s) := by
  induction is generalizing s with
  | nil => exact .start s
  | cons i is ih =>
    rw [tunnelScan]
    by_cases set : fds.isset ready i = true
    · obtain ⟨w, got, data, agrees, recvs, bytes, hrecv⟩ := recvBlock_run (fds.sock i) s
      rw [if_pos set, fds.target_of_isset set]
      by_cases fits : data.length < 2 ^ 31
      · rw [if_pos fits] at hrecv
        rw [bind_ok _ hrecv]
        by_cases zero : data.length = 0
        · rw [if_pos zero]
          have empty := bytes.trans (List.eq_nil_of_length_eq_zero zero)
          exact .returned rfl .nil recvs empty (CarriedOver.closing (fun _ => rfl) recvs empty)
        · obtain ⟨n, w', sent, hsend, agrees', _, sends, hsent⟩ :=
            sendVector_agrees (fds.sock i).other .tunnel data (s.after w got)
          have whole := (hsent (hf.agrees agrees)).1
          rw [sendable_of_fits fits, ← bytes] at whole
          have exchange : Exchange (fds.sock i) got sent :=
            ⟨recvs, fun none => zero (by rw [← bytes, none, List.length_nil]), sends, whole⟩
          rw [if_neg zero, bind_ok _ hsend, after_after]
          have agrees'' := agrees.trans agrees'
          exact .after agrees'' rfl (List.append_nil (got ++ sent) ▸ .cons exchange .nil)
            (ih (hf.agrees agrees''))
      · rw [if_neg fits] at hrecv
        rw [bind_error _ hrecv]
        exact .outgrown rfl .nil recvs (by rw [bytes]; omega) fun _ => rfl
    · rw [if_neg set]
      exact ih hf

/-- After any number of rounds, whatever `select` reports in each. -/
theorem tunnelLoop_carriesOver (fds : Descriptors) (rounds : List Ready) {s : St}
    (hf : s.world.NoFail) : Tunnelled s (tunnelLoop fds rounds s) := by
  induction rounds generalizing s with
  | nil => exact .start s
  | cons ready rounds ih =>
    have scanned := tunnelScan_run fds ready (List.range (fds.max + 1)) hf
    rw [tunnelLoop]
    cases scan : tunnelScan fds ready (List.range (fds.max + 1)) s with
    | error e t =>
      rw [bind_error _ scan]
      rw [scan] at scanned
      cases scanned with
      | outgrown trace exchanges recvs long carried =>
        exact .outgrown trace exchanges recvs long carried
    | ok more t =>
      rw [bind_ok _ scan]
      rw [scan] at scanned
      cases scanned with
      | looping agrees trace exchanges carried =>
        exact .after agrees trace exchanges (ih (hf.agrees agrees))
      | returned trace exchanges recvs empty carried =>
        exact .returned trace exchanges recvs empty carried

/-- Three bytes from the client and two from the server, in one round and in short sends. -/
theorem tunnelLoop_carriesOver_bothWays :
    let s : St := (St.initial ⟨1, Nat.le_refl 1⟩).enter
      { client := [.data (str "get")], server := [.data (str "ok")], sends := [.took 1, .took 1] }
    Tunnelled s (tunnelLoop ⟨5, 4, by decide⟩ [⟨true, true⟩, ⟨true, false⟩] s) :=
  tunnelLoop_carriesOver _ _ (by simp [World.NoFail])

end HttpProxy
