import HttpProxy.Threads

/-!
# The response checked and the response served

A thread looks its key up twice: `get` returns the response it will send, and
`checkExpire` tests what is bound to the key by then. `Watch` runs the threads and notes
what happens between the two. `checked_iff` says in which runs every response sent
without the server was itself unexpired at its thread's `checkExpire`.
-/

namespace HttpProxy

/-- A send of cached bytes by a thread that did not contact the server. -/
structure Unaided.Send where
  req : HttpRequest
  response : Ref
  /-- When the thread's `checkExpire` ran. -/
  checkedAt : Option Int

/-- The threads, with notes on each: when its `checkExpire` ran, whether that was misled,
whether it turned to the server; and the sends without the server so far. -/
structure Watch where
  sys : Sys
  checkedAt : Nat → Option Int
  misled : Nat → Bool
  contacted : Nat → Bool
  sent : List Unaided.Send

/-- A `checkExpire` of thread `i` at this moment would pass another response, unexpired, for
the expired one that the thread got. -/
def Sys.misleads (s : Sys) (i : Nat) (now : Int) : Bool :=
  match s.threads i with
  | .hit req r =>
    match s.cache.lookup req.uri with
    | some other => expired r.obj req.maxAge now && !expired other.obj req.maxAge now
    | none => false
  | _ => false

namespace Watch

def initial (size : Capacity) : Watch :=
  ⟨.initial size, fun _ => none, fun _ => false, fun _ => false, []⟩

/-- What a step adds to the notes. -/
def note (w : Watch) : Action → Watch
  | .checkExpire i now =>
    match w.sys.threads i with
    | .hit _ _ =>
      { w with
        checkedAt := Function.update w.checkedAt i (some now)
        misled := Function.update w.misled i (w.sys.misleads i now) }
    | _ => w
  | .construct i =>
    match w.sys.threads i with
    | .validating _ _ => { w with contacted := Function.update w.contacted i true }
    | _ => w
  | .send i =>
    match w.sys.threads i with
    | .answering req r =>
      if w.contacted i then w else { w with sent := ⟨req, r, w.checkedAt i⟩ :: w.sent }
    | _ => w
  | _ => w

def step (w : Watch) (a : Action) : Watch := { w.note a with sys := w.sys.step a }

def run (w : Watch) (as : List Action) : Watch := as.foldl step w

/-- Watching changes nothing: the threads run as they do. -/
theorem run_sys (w : Watch) (as : List Action) : (w.run as).sys = w.sys.run as := by
  induction as generalizing w with
  | nil => rfl
  | cons a as ih => exact ih (w.step a)

/-! ## What is noted of a thread -/

/-- The notes on a thread that may still send: what it holds was expired at its check just
when the check was misled, unless it turns to the server or did. -/
def Noted (checkedAt : Option Int) (misled contacted : Bool) : Thread → Prop
  | .checked req r isExpired =>
    ∃ t, checkedAt = some t ∧ (isExpired = false → expired r.obj req.maxAge t = misled)
  | .awaiting _ _ => contacted = true
  | .answering req r =>
    contacted = true ∨ ∃ t, checkedAt = some t ∧ expired r.obj req.maxAge t = misled
  | _ => True

def NotedAll (w : Watch) : Prop :=
  ∀ i, Noted (w.checkedAt i) (w.misled i) (w.contacted i) (w.sys.threads i)

theorem notedAll_initial (size : Capacity) : (initial size).NotedAll := fun _ => trivial

/-- The check reads what is bound to the key, the thread holds what was. -/
theorem misleads_of_passed {s : Sys} {i : Nat} {now : Int} {req : HttpRequest} {r : Ref}
    (h : s.threads i = .hit req r) (passed : s.cache.checkExpire req.uri req.maxAge now = false) :
    s.misleads i now = expired r.obj req.maxAge now := by
  rw [LruCache.checkExpire, LruCache.find_eq] at passed
  rw [Sys.misleads, h]
  dsimp only
  cases hl : s.cache.lookup req.uri with
  | none => rw [hl] at passed; cases passed
  | some other =>
    rw [hl] at passed
    dsimp only [Option.map] at passed ⊢
    rw [passed, Bool.not_false, Bool.and_true]

section
variable {w : Watch} {s : Sys} {i : Nat} {t : Thread}

/-- A step moves one thread on and writes only its notes. -/
theorem NotedAll.update (h : w.NotedAll) (sent : List Unaided.Send)
    (same : s.threads = w.sys.threads) {n : Option Int} {m c : Bool} (self : Noted n m c t) :
    NotedAll ⟨s.goto i t, Function.update w.checkedAt i n, Function.update w.misled i m,
      Function.update w.contacted i c, sent⟩ := by
  intro j
  by_cases hj : j = i
  · subst hj
    simpa [Sys.goto] using self
  · simpa [Sys.goto, hj, same] using h j

theorem NotedAll.goto (h : w.NotedAll) (same : s.threads = w.sys.threads)
    (self : Noted (w.checkedAt i) (w.misled i) (w.contacted i) t) :
    NotedAll { w with sys := s.goto i t } := by
  have moved := h.update (i := i) w.sent same self
  simpa only [Function.update_eq_self] using moved

theorem NotedAll.onFetch (h : w.NotedAll) (i : Nat) (req : HttpRequest)
    (parsed : Except Exn (Option HttpResponse)) :
    NotedAll { w with sys := w.sys.onFetch i req parsed } := by
  unfold Sys.onFetch
  split
  · split_ifs
    · exact h.goto rfl trivial
    · exact h.goto rfl trivial
  · exact h.goto rfl trivial

/-- A thread that waits for a validation has turned to the server. -/
theorem NotedAll.onValidation (h : w.NotedAll) {req : HttpRequest} {r : Ref}
    (ht : w.sys.threads i = .awaiting req r) (parsed : Except Exn (Option HttpResponse)) :
    NotedAll { w with sys := w.sys.onValidation i req r parsed } := by
  have noted := h i
  rw [ht] at noted
  unfold Sys.onValidation
  split
  · split_ifs
    · exact h.goto rfl trivial
    · exact h.goto rfl (.inl noted)
    · exact h.goto rfl trivial
  · exact h.goto rfl trivial

end

theorem notedAll_step (w : Watch) (a : Action) (h : w.NotedAll) : (w.step a).NotedAll := by
  cases a with
  | spawn i req =>
    simp only [step, note, Sys.step]
    split
    · exact h.goto rfl trivial
    · exact h
  | get i =>
    simp only [step, note, Sys.step]
    split
    · split <;> exact h.goto rfl trivial
    · exact h
  | checkExpire i now =>
    cases ht : w.sys.threads i with
    | hit req r =>
      have moved := h.update (s := w.sys) (i := i) (c := w.contacted i) w.sent rfl
        (t := .checked req r (w.sys.cache.checkExpire req.uri req.maxAge now)) (n := some now)
        (m := w.sys.misleads i now) ⟨now, rfl, fun hp => (misleads_of_passed ht hp).symm⟩
      simpa only [step, note, Sys.step, ht, Function.update_eq_self] using moved
    | _ => simpa only [step, note, Sys.step, ht] using h
  | judge i now =>
    simp only [step, note, Sys.step]
    split
    · next req r isExpired ht =>
      have noted := h i
      rw [ht] at noted
      obtain ⟨t, hat, hmis⟩ := noted
      split_ifs with hjudge
      · exact h.goto rfl trivial
      · -- sent at once: the check has passed
        have passed : isExpired = false := by
          cases isExpired with
          | false => rfl
          | true => exact absurd rfl hjudge
        exact h.goto rfl (.inr ⟨t, hat, hmis passed⟩)
    · exact h
  | construct i =>
    cases ht : w.sys.threads i with
    | validating req r =>
      have moved := h.update (s := w.sys) (i := i) (n := w.checkedAt i) (m := w.misled i)
        w.sent rfl (t := .awaiting req r) (c := true) rfl
      simpa only [step, note, Sys.step, ht, Function.update_eq_self] using moved
    | _ => simpa only [step, note, Sys.step, ht] using h
  | reply i libc bytes =>
    simp only [step, note, Sys.step]
    split
    · exact h.onFetch i _ _
    · next req r ht => exact h.onValidation ht _
    · exact h
  | put i =>
    simp only [step, note, Sys.step]
    split
    · exact h.goto rfl trivial
    · exact h
  | send i =>
    cases ht : w.sys.threads i with
    | answering req r =>
      have moved := h.goto (i := i) (t := .done) rfl trivial
      simp only [step, note, Sys.step, ht]
      split_ifs
      · exact moved
      · exact moved
    | _ => simpa only [step, note, Sys.step, ht] using h
  | fail i =>
    simp only [step, note, Sys.step]
    split
    any_goals exact h.goto rfl trivial
    exact h

/-! ## What was sent -/

/-- Every response sent without the server was unexpired when its thread checked. -/
def CheckedIsServed (w : Watch) : Prop :=
  ∀ e ∈ w.sent, ∃ t, e.checkedAt = some t ∧ expired e.response.obj e.req.maxAge t = false

/-- The send, without the server, of a thread whose `checkExpire` found its own response
expired and another, unexpired one under its key. -/
def SendsMisled (w : Watch) (a : Action) : Prop :=
  ∃ i req r, a = .send i ∧ w.sys.threads i = .answering req r ∧ w.contacted i = false ∧
    w.misled i = true

theorem step_sent_of_ne {w : Watch} {a : Action} (h : ∀ i, a ≠ .send i) :
    (w.step a).sent = w.sent := by
  cases a with
  | send i => exact absurd rfl (h i)
  | checkExpire i now =>
    simp only [step, note]
    split <;> rfl
  | construct i =>
    simp only [step, note]
    split <;> rfl
  | _ => rfl

theorem step_checkedIsServed_iff (w : Watch) (a : Action) (hw : w.NotedAll)
    (h : w.CheckedIsServed) : (w.step a).CheckedIsServed ↔ ¬ w.SendsMisled a := by
  by_cases hsend : ∃ i, a = .send i
  · obtain ⟨i, rfl⟩ := hsend
    have noted := hw i
    by_cases hans : ∃ req r, w.sys.threads i = .answering req r ∧ w.contacted i = false
    · obtain ⟨req, r, ht, hc⟩ := hans
      rw [ht, hc] at noted
      obtain ⟨t, hat, hmis⟩ : ∃ t, w.checkedAt i = some t ∧ _ = _ := noted.resolve_left nofun
      have sent : (w.step (.send i)).sent = ⟨req, r, w.checkedAt i⟩ :: w.sent := by
        simp only [step, note, ht, hc, Bool.false_eq_true, if_false]
      have bad : w.SendsMisled (.send i) ↔ w.misled i = true := by
        constructor
        · rintro ⟨j, _, _, hj, _, _, hm⟩
          cases hj
          exact hm
        · exact fun hm => ⟨i, req, r, rfl, ht, hc, hm⟩
      rw [bad, CheckedIsServed, sent, List.forall_mem_cons, Bool.not_eq_true, ← hmis]
      constructor
      · rintro ⟨⟨t', hat', fresh⟩, _⟩
        cases hat.symm.trans hat'
        exact fresh
      · exact fun fresh => ⟨⟨t, hat, fresh⟩, h⟩
    · have sent : (w.step (.send i)).sent = w.sent := by
        simp only [step, note]
        split
        · next req r ht =>
          cases hc : w.contacted i with
          | true => rfl
          | false => exact absurd ⟨req, r, ht, hc⟩ hans
        · rfl
      have fine : ¬ w.SendsMisled (.send i) := by
        rintro ⟨j, req, r, hj, ht, hc, _⟩
        cases hj
        exact hans ⟨req, r, ht, hc⟩
      rw [CheckedIsServed, sent]
      exact iff_of_true h fine
  · have sent := step_sent_of_ne (w := w) fun i hi => hsend ⟨i, hi⟩
    rw [CheckedIsServed, sent]
    exact iff_of_true h fun ⟨i, _, _, hi, _⟩ => hsend ⟨i, hi⟩

/-- In every interleaving from an empty cache: throughout it what is sent without the server
was itself unexpired at its check, just when no misled thread sends without the server. -/
theorem checked_iff (size : Capacity) (as : List Action) :
    (∀ p, p <+: as → ((initial size).run p).CheckedIsServed) ↔
      ∀ p a, p ++ [a] <+: as → ¬ ((initial size).run p).SendsMisled a :=
  Run.good_iff NotedAll (notedAll_initial size) (fun e he => by cases he) notedAll_step
    step_checkedIsServed_iff as

/-- A GET for another page of the same host. -/
def elsewhere : AcceptedRequest :=
  .of (str "GET /x HTTP/1.1\r\nHost: h\r\n\r\n") (by decide) (by decide +kernel)

/-- Thread 1 gets the entry of thread 0. Thread 2 has it evicted, thread 3 fetches the page
again, and only then thread 1 checks and sends. -/
def evictedAndFetchedAgain : List Action :=
  [.spawn 0 AcceptedRequest.home.toHttpRequest, .get 0, .reply 0 ⟨0, fun _ => none, 2 ^ 40⟩
      (str "HTTP/1.1 200 OK\r\nDate: x\r\nCache-Control: max-age=5\r\n\r\n"), .put 0,
    .spawn 1 AcceptedRequest.home.toHttpRequest, .get 1,
    .spawn 2 elsewhere.toHttpRequest, .get 2, .reply 2 ⟨4, fun _ => none, 2 ^ 40⟩
      (str "HTTP/1.1 200 OK\r\n\r\n"), .put 2,
    .spawn 3 AcceptedRequest.home.toHttpRequest, .get 3, .reply 3 ⟨9, fun _ => none, 2 ^ 40⟩
      (str "HTTP/1.1 200 OK\r\nDate: x\r\nCache-Control: max-age=100\r\n\r\n"), .put 3,
    .checkExpire 1 9, .judge 1 9, .send 1]

/-- Thread 1 sends a response that expired four seconds before its check. -/
theorem evictedAndFetchedAgain_misled :
    ¬ ((initial ⟨1, Nat.le_refl 1⟩).run evictedAndFetchedAgain).CheckedIsServed := by
  intro h
  have sent : ((initial ⟨1, Nat.le_refl 1⟩).run evictedAndFetchedAgain).sent.map
      (fun e => (e.checkedAt, expired e.response.obj e.req.maxAge 9)) = [(some 9, true)] := by
    decide +kernel
  obtain ⟨e, he, heq⟩ := List.mem_map.mp (sent ▸ List.mem_singleton_self (some (9 : Int), true))
  obtain ⟨t, hat, fresh⟩ := h e he
  simp only [Prod.mk.injEq] at heq
  cases heq.1.symm.trans hat
  exact Bool.false_ne_true (fresh.symm.trans heq.2)

end Watch

end HttpProxy
