import HttpProxy.Accepted
import HttpProxy.Base.Run
import HttpProxy.Proxy

/-!
# Threads over one cache

`proxyListen` starts a detached thread for every request. A thread holds the pointer
that `get` returned across a whole exchange with the server, while `put` in another
thread may delete the object behind it. `Sys.step` interleaves the threads at the
locked bodies of `get` and `put`, at `checkExpire`'s unlocked look-up and at the reads
through the pointer; `ledger` holds the objects that exist. `alive_iff` says in which
runs no thread is left with a pointer to a deleted object.
-/

namespace HttpProxy

/-- Where a thread is in `proxyGET`, with what it has read so far. -/
inductive Thread where
  | absent
  | start (req : HttpRequest)
  | missed (req : HttpRequest)
  | fetched (req : HttpRequest) (r : Ref)
  | hit (req : HttpRequest) (r : Ref)
  | checked (req : HttpRequest) (r : Ref) (expired : Bool)
  | validating (req : HttpRequest) (r : Ref)
  | awaiting (req : HttpRequest) (r : Ref)
  | renewing (req : HttpRequest) (r : Ref)
  | answering (req : HttpRequest) (r : Ref)
  | done

namespace Thread

/-- The object that `get` returned and the thread may still read. -/
def holds : Thread → Option Ref
  | .hit _ r => some r
  | .checked _ r _ => some r
  | .validating _ r => some r
  | .awaiting _ r => some r
  | .answering _ r => some r
  | _ => none

/-- The new object the thread is about to `put`, with its key. -/
def carries : Thread → Option (Bytes × Ref)
  | .fetched req r => some (req.uri, r)
  | .renewing req r => some (req.uri, r)
  | _ => none

end Thread

structure Sys where
  cache : LruCache Ref
  ledger : Finset Nat
  next : Nat
  threads : Nat → Thread

/-- The atomic steps, each of the thread it names. `fail` is any exit without a stored or
a cached response: no connection, a failed send or receive, a 502. -/
inductive Action where
  | spawn (i : Nat) (req : HttpRequest)
  | get (i : Nat)
  | checkExpire (i : Nat) (now : Int)
  | judge (i : Nat) (now : Int)
  | construct (i : Nat)
  | reply (i : Nat) (libc : Libc) (bytes : Bytes)
  | put (i : Nat)
  | send (i : Nat)
  | fail (i : Nat)

namespace Sys

def initial (size : Capacity) : Sys := ⟨.new size, ∅, 0, fun _ => .absent⟩

def goto (s : Sys) (i : Nat) (t : Thread) : Sys :=
  { s with threads := Function.update s.threads i t }

/-- `new http_Response`. -/
def alloc (s : Sys) : Sys := { s with next := s.next + 1, ledger := insert s.next s.ledger }

/-- `put`, with the `delete` of the object it replaces. -/
def store (s : Sys) (url : Bytes) (r : Ref) : Sys :=
  { s with
    cache := (s.cache.put url r).2.2
    ledger := match (s.cache.put url r).2.1 with
      | some old => s.ledger.erase old.addr
      | none => s.ledger }

/-- A reply after a miss: a 200 that may be stored goes on to `put`. -/
def onFetch (s : Sys) (i : Nat) (req : HttpRequest) (parsed : Except Exn (Option HttpResponse)) :
    Sys :=
  match parsed with
  | .ok (some r) =>
    if r.statusCode = 200 ∧ r.noStore = false then s.alloc.goto i (.fetched req ⟨s.next, r⟩)
    else s.alloc.goto i .done
  | _ => s.alloc.goto i .done

/-- A reply to a validation: a 200 goes on to `put`, a 304 to the cached bytes. -/
def onValidation (s : Sys) (i : Nat) (req : HttpRequest) (cached : Ref)
    (parsed : Except Exn (Option HttpResponse)) : Sys :=
  match parsed with
  | .ok (some r) =>
    if r.statusCode = 200 then s.alloc.goto i (.renewing req ⟨s.next, r⟩)
    else if r.statusCode = 304 then s.alloc.goto i (.answering req cached)
    else s.alloc.goto i .done
  | _ => s.alloc.goto i .done

/-- One step; an action that its thread is not ready for changes nothing. -/
def step (s : Sys) : Action → Sys
  | .spawn i req =>
    match s.threads i with
    | .absent => s.goto i (.start req)
    | _ => s
  | .get i =>
    match s.threads i with
    | .start req =>
      match (s.cache.get req.uri).1 with
      | none => { s with cache := (s.cache.get req.uri).2 }.goto i (.missed req)
      | some r => { s with cache := (s.cache.get req.uri).2 }.goto i (.hit req r)
    | _ => s
  | .checkExpire i now =>
    match s.threads i with
    | .hit req r => s.goto i (.checked req r (s.cache.checkExpire req.uri req.maxAge now))
    | _ => s
  | .judge i now =>
    match s.threads i with
    | .checked req r expired =>
      if expired || needsValidation req r.obj now then s.goto i (.validating req r)
      else s.goto i (.answering req r)
    | _ => s
  | .construct i =>
    match s.threads i with
    | .validating req r => s.goto i (.awaiting req r)
    | _ => s
  | .reply i libc bytes =>
    match s.threads i with
    | .missed req => s.onFetch i req (parseResponse libc bytes)
    | .awaiting req r => s.onValidation i req r (parseResponse libc bytes)
    | _ => s
  | .put i =>
    match (s.threads i).carries with
    | some (url, r) => (s.store url r).goto i .done
    | none => s
  | .send i =>
    match s.threads i with
    | .answering _ _ => s.goto i .done
    | _ => s
  | .fail i =>
    match s.threads i with
    | .missed _ => s.goto i .done
    | .validating _ _ => s.goto i .done
    | .awaiting _ _ => s.goto i .done
    | _ => s

def run (s : Sys) (as : List Action) : Sys := as.foldl step s

/-! ## What a step can do -/

/-- A step leaves the bindings and the heap alone and moves one thread on, or makes a new
object, or is the `put` of an object that a thread carries. -/
inductive Steps (s : Sys) : Action → Sys → Prop
  | idle {a : Action} : Steps s a s
  | move {a : Action} {i : Nat} {t : Thread} {c : LruCache Ref}
      (same : ∀ u, c.lookup u = s.cache.lookup u)
      (holds : ∀ r, t.holds = some r →
        (s.threads i).holds = some r ∨ ∃ u, s.cache.lookup u = some r)
      (carries : t.carries = none) : Steps s a ({ s with cache := c }.goto i t)
  | create {a : Action} {i : Nat} {t : Thread}
      (holds : ∀ r, t.holds = some r → (s.threads i).holds = some r)
      (carries : ∀ u r, t.carries = some (u, r) → r.addr = s.next) : Steps s a (s.alloc.goto i t)
  | put {i : Nat} {url : Bytes} {r : Ref} (carries : (s.threads i).carries = some (url, r)) :
      Steps s (.put i) ((s.store url r).goto i .done)

theorem steps_move {s : Sys} {a : Action} {i : Nat} {t : Thread}
    (holds : ∀ r, t.holds = some r → (s.threads i).holds = some r) (carries : t.carries = none) :
    Steps s a (s.goto i t) :=
  .move (c := s.cache) (fun _ => rfl) (fun r hr => .inl (holds r hr)) carries

theorem steps_done (s : Sys) (a : Action) (i : Nat) : Steps s a (s.alloc.goto i .done) :=
  .create (by simp [Thread.holds]) (by simp [Thread.carries])

theorem steps_onFetch (s : Sys) (a : Action) (i : Nat) (req : HttpRequest)
    (parsed : Except Exn (Option HttpResponse)) : Steps s a (s.onFetch i req parsed) := by
  unfold onFetch
  split
  · split_ifs
    · exact .create (by simp [Thread.holds]) (by simp [Thread.carries])
    · exact steps_done ..
  · exact steps_done ..

theorem steps_onValidation {s : Sys} {a : Action} {i : Nat} {req : HttpRequest} {cached : Ref}
    (h : (s.threads i).holds = some cached) (parsed : Except Exn (Option HttpResponse)) :
    Steps s a (s.onValidation i req cached parsed) := by
  unfold onValidation
  split
  · split_ifs
    · exact .create (by simp [Thread.holds]) (by simp [Thread.carries])
    · exact .create (fun r hr => h.trans hr) (by simp [Thread.carries])
    · exact steps_done ..
  · exact steps_done ..

theorem step_steps (s : Sys) (a : Action) : Steps s a (s.step a) := by
  cases a with
  | spawn i req =>
    simp only [step]
    split
    · exact steps_move (by simp [Thread.holds]) rfl
    · exact .idle
  | get i =>
    simp only [step]
    split
    · next req _ =>
      split
      · exact .move (s.cache.lookup_get req.uri) (by simp [Thread.holds]) rfl
      · next r hr =>
        rw [LruCache.get_fst] at hr
        refine .move (s.cache.lookup_get req.uri) (fun r' hr' => .inr ⟨req.uri, ?_⟩) rfl
        cases hr'
        exact hr
    · exact .idle
  | checkExpire i now =>
    simp only [step]
    split
    · next req r ht => exact steps_move (fun r' hr' => by rw [ht]; exact hr') rfl
    · exact .idle
  | judge i now =>
    simp only [step]
    split
    · next req r expired ht =>
      split_ifs
      · exact steps_move (fun r' hr' => by rw [ht]; exact hr') rfl
      · exact steps_move (fun r' hr' => by rw [ht]; exact hr') rfl
    · exact .idle
  | construct i =>
    simp only [step]
    split
    · next req r ht => exact steps_move (fun r' hr' => by rw [ht]; exact hr') rfl
    · exact .idle
  | reply i libc bytes =>
    simp only [step]
    split
    · exact steps_onFetch ..
    · next req r ht => exact steps_onValidation (by rw [ht]; rfl) _
    · exact .idle
  | put i =>
    simp only [step]
    split
    · next url r hc => exact .put hc
    · exact .idle
  | send i =>
    simp only [step]
    split
    · exact steps_move (by simp [Thread.holds]) rfl
    · exact .idle
  | fail i =>
    simp only [step]
    split
    any_goals exact steps_move (by simp [Thread.holds]) rfl
    exact .idle

/-! ## The heap -/

section
variable {s : Sys} {i j : Nat} {t : Thread}

theorem holds_goto {r : Ref} (h : ((s.goto i t).threads j).holds = some r) :
    t.holds = some r ∨ (s.threads j).holds = some r := by
  by_cases e : j = i
  · subst e
    exact .inl (by simpa [goto] using h)
  · exact .inr (by simpa [goto, e] using h)

theorem carries_goto {p : Bytes × Ref} (h : ((s.goto i t).threads j).carries = some p) :
    j = i ∧ t.carries = some p ∨ j ≠ i ∧ (s.threads j).carries = some p := by
  by_cases e : j = i
  · subst e
    exact .inl ⟨rfl, by simpa [goto] using h⟩
  · exact .inr ⟨e, by simpa [goto, e] using h⟩

end

/-- An object that a look-up finds or a thread holds. -/
def Known (s : Sys) (r : Ref) : Prop :=
  (∃ u, s.cache.lookup u = some r) ∨ ∃ j, (s.threads j).holds = some r

/-- What every interleaving keeps: the objects in the cache exist and are distinct, and an
object a thread carries exists and is nobody else's. -/
structure Sound (s : Sys) : Prop where
  bounded : ∀ a ∈ s.ledger, a < s.next
  knownBounded : ∀ r, s.Known r → r.addr < s.next
  cachedLive : ∀ u r, s.cache.lookup u = some r → r.addr ∈ s.ledger
  cachedApart : ∀ u v r r', s.cache.lookup u = some r → s.cache.lookup v = some r' →
    r.addr = r'.addr → u = v
  carriedLive : ∀ i u r, (s.threads i).carries = some (u, r) → r.addr ∈ s.ledger
  carriedNew : ∀ i u r r', (s.threads i).carries = some (u, r) → s.Known r' → r.addr ≠ r'.addr
  carriedApart : ∀ i j u v r r', (s.threads i).carries = some (u, r) →
    (s.threads j).carries = some (v, r') → r.addr = r'.addr → i = j

theorem sound_initial (size : Capacity) : (initial size).Sound := by
  constructor <;> simp [initial, Known, Thread.holds, Thread.carries]

theorem Sound.move {s : Sys} (hs : s.Sound) {i : Nat} {t : Thread} {c : LruCache Ref}
    (same : ∀ u, c.lookup u = s.cache.lookup u)
    (holds : ∀ r, t.holds = some r → (s.threads i).holds = some r ∨ ∃ u, s.cache.lookup u = some r)
    (carries : t.carries = none) : ({ s with cache := c }.goto i t).Sound := by
  have known (r : Ref) (h : ({ s with cache := c }.goto i t).Known r) : s.Known r := by
    rcases h with ⟨u, hu⟩ | ⟨j, hj⟩
    · exact .inl ⟨u, same u ▸ hu⟩
    · rcases holds_goto hj with ht | hj
      · exact (holds r ht).symm.imp id fun h => ⟨i, h⟩
      · exact .inr ⟨j, hj⟩
  have carried {j : Nat} {p : Bytes × Ref}
      (h : (({ s with cache := c }.goto i t).threads j).carries = some p) :
      (s.threads j).carries = some p := by
    rcases carries_goto h with ⟨_, ht⟩ | ⟨_, hj⟩
    · rw [carries] at ht
      cases ht
    · exact hj
  refine ⟨hs.bounded, fun r h => hs.knownBounded r (known r h), ?_, ?_, ?_, ?_, ?_⟩
  · intro u r h
    exact hs.cachedLive u r (same u ▸ h)
  · intro u v r r' h h'
    exact hs.cachedApart u v r r' (same u ▸ h) (same v ▸ h')
  · intro j u r h
    exact hs.carriedLive j u r (carried h)
  · intro j u r r' h h'
    exact hs.carriedNew j u r r' (carried h) (known r' h')
  · intro j k u v r r' h h'
    exact hs.carriedApart j k u v r r' (carried h) (carried h')

theorem Sound.create {s : Sys} (hs : s.Sound) {i : Nat} {t : Thread}
    (holds : ∀ r, t.holds = some r → (s.threads i).holds = some r)
    (carries : ∀ u r, t.carries = some (u, r) → r.addr = s.next) : (s.alloc.goto i t).Sound := by
  have known (r : Ref) (h : (s.alloc.goto i t).Known r) : s.Known r := by
    rcases h with ⟨u, hu⟩ | ⟨j, hj⟩
    · exact .inl ⟨u, hu⟩
    · rcases holds_goto hj with ht | hj
      · exact .inr ⟨i, holds r ht⟩
      · exact .inr ⟨j, hj⟩
  have old {a : Nat} (h : a ∈ s.ledger) : a ∈ s.alloc.ledger := Finset.mem_insert_of_mem h
  refine ⟨?_, ?_, ?_, hs.cachedApart, ?_, ?_, ?_⟩
  · intro a ha
    change a < s.next + 1
    rcases Finset.mem_insert.mp ha with rfl | ha
    · exact Nat.lt_succ_self _
    · exact Nat.lt_succ_of_lt (hs.bounded a ha)
  · intro r h
    exact Nat.lt_succ_of_lt (hs.knownBounded r (known r h))
  · intro u r h
    exact old (hs.cachedLive u r h)
  · intro j u r h
    rcases carries_goto h with ⟨_, ht⟩ | ⟨_, hj⟩
    · exact Finset.mem_insert.mpr (.inl (carries u r ht))
    · exact old (hs.carriedLive j u r hj)
  · intro j u r r' h h'
    have hlt := hs.knownBounded r' (known r' h')
    rcases carries_goto h with ⟨_, ht⟩ | ⟨_, hj⟩
    · have := carries u r ht
      omega
    · exact hs.carriedNew j u r r' hj (known r' h')
  · -- the new object lies above every object carried before
    intro j k u v r r' h h' e
    rcases carries_goto h with ⟨hj, ht⟩ | ⟨_, hj⟩ <;>
      rcases carries_goto h' with ⟨hk, ht'⟩ | ⟨_, hk⟩
    · rw [hj, hk]
    · have := carries u r ht
      have := hs.bounded _ (hs.carriedLive k v r' hk)
      omega
    · have := carries v r' ht'
      have := hs.bounded _ (hs.carriedLive j u r hj)
      omega
    · exact hs.carriedApart j k u v r r' hj hk e

theorem mem_store_ledger {s : Sys} {url : Bytes} {r : Ref} {a : Nat} :
    a ∈ (s.store url r).ledger ↔
      a ∈ s.ledger ∧ ∀ old, s.cache.lookup url = some old → a ≠ old.addr := by
  simp only [store, LruCache.put_deleted]
  cases s.cache.lookup url with
  | none => simp
  | some old => simp [and_comm]

theorem Sound.put {s : Sys} (hs : s.Sound) {i : Nat} {url : Bytes} {r : Ref}
    (carries : (s.threads i).carries = some (url, r)) : ((s.store url r).goto i .done).Sound := by
  have known (r' : Ref) (h : ((s.store url r).goto i .done).Known r') : s.Known r' ∨ r' = r := by
    rcases h with ⟨u, hu⟩ | ⟨j, hj⟩
    · rcases LruCache.lookup_put_cases hu with ⟨_, rfl⟩ | ⟨_, hold⟩
      · exact .inr rfl
      · exact .inl (.inl ⟨u, hold⟩)
    · rcases holds_goto hj with ht | hj
      · cases ht
      · exact .inl (.inr ⟨j, hj⟩)
  have carried {j : Nat} {p : Bytes × Ref}
      (h : (((s.store url r).goto i .done).threads j).carries = some p) :
      j ≠ i ∧ (s.threads j).carries = some p := by
    rcases carries_goto h with ⟨_, ht⟩ | hj
    · cases ht
    · exact hj
  have live := hs.carriedLive i url r carries
  refine ⟨?_, ?_, ?_, ?_, ?_, ?_, ?_⟩
  · intro a ha
    exact hs.bounded a (mem_store_ledger.mp ha).1
  · intro r' h
    rcases known r' h with h | rfl
    · exact hs.knownBounded r' h
    · exact hs.bounded _ live
  · intro u r' hu
    apply mem_store_ledger.mpr
    rcases LruCache.lookup_put_cases hu with ⟨rfl, rfl⟩ | ⟨hne, hold⟩
    · exact ⟨live, fun old ho => hs.carriedNew i u r' old carries (.inl ⟨u, ho⟩)⟩
    · exact ⟨hs.cachedLive u r' hold,
        fun old ho e => hne (hs.cachedApart u url r' old hold ho e)⟩
  · intro u v r₁ r₂ h₁ h₂ e
    rcases LruCache.lookup_put_cases h₁ with ⟨rfl, rfl⟩ | ⟨_, h₁⟩ <;>
      rcases LruCache.lookup_put_cases h₂ with ⟨hv, hr⟩ | ⟨_, h₂⟩
    · exact hv.symm
    · exact absurd e (hs.carriedNew i u r₁ r₂ carries (.inl ⟨v, h₂⟩))
    · exact absurd (hr ▸ e).symm (hs.carriedNew i url r r₁ carries (.inl ⟨u, h₁⟩))
    · exact hs.cachedApart u v r₁ r₂ h₁ h₂ e
  · intro j u r' h
    obtain ⟨_, hc⟩ := carried h
    refine mem_store_ledger.mpr ⟨hs.carriedLive j u r' hc, fun old ho => ?_⟩
    exact hs.carriedNew j u r' old hc (.inl ⟨url, ho⟩)
  · intro j u r' r'' h h'
    obtain ⟨hji, hc⟩ := carried h
    rcases known r'' h' with hk | rfl
    · exact hs.carriedNew j u r' r'' hc hk
    · intro e
      exact hji (hs.carriedApart j i u url r' r'' hc carries e)
  · intro j k u v r₁ r₂ h h'
    exact hs.carriedApart j k u v r₁ r₂ (carried h).2 (carried h').2

theorem sound_step (s : Sys) (a : Action) (hs : s.Sound) : (s.step a).Sound := by
  have h := step_steps s a
  generalize s.step a = t at h
  cases h with
  | idle => exact hs
  | move same holds carries => exact hs.move same holds carries
  | create holds carries => exact hs.create holds carries
  | put carries => exact hs.put carries

/-! ## Held responses -/

/-- Every object that a thread got and may still read exists. -/
def Alive (s : Sys) : Prop := ∀ i r, (s.threads i).holds = some r → r.addr ∈ s.ledger

/-- A `put` that finds its key bound to an object which a thread got and may still read. -/
def DeletesHeld (s : Sys) (a : Action) : Prop :=
  ∃ i url r old j held, a = .put i ∧ (s.threads i).carries = some (url, r) ∧
    s.cache.lookup url = some old ∧ (s.threads j).holds = some held ∧ held.addr = old.addr

theorem step_alive_iff (s : Sys) (a : Action) (hs : s.Sound) (h : s.Alive) :
    (s.step a).Alive ↔ ¬ s.DeletesHeld a := by
  constructor
  · rintro alive ⟨i, url, r, old, j, held, rfl, hc, ho, hj, e⟩
    have after : s.step (.put i) = (s.store url r).goto i .done := by
      simp only [step, hc]
    have hji : j ≠ i := by
      rintro rfl
      cases ht : s.threads j <;> simp [ht, Thread.carries, Thread.holds] at hc hj
    have still : ((s.step (.put i)).threads j).holds = some held := by
      rw [after]
      simpa [goto, store, hji] using hj
    have mem := alive j held still
    rw [after] at mem
    exact (mem_store_ledger.mp mem).2 old ho e
  · intro spared
    have hsteps := step_steps s a
    generalize s.step a = t at hsteps
    cases hsteps with
    | idle => exact h
    | @move _ i t c same holds carries =>
      intro j r hj
      rcases holds_goto hj with ht | hj
      · rcases holds r ht with hi | ⟨u, hu⟩
        · exact h i r hi
        · exact hs.cachedLive u r hu
      · exact h j r hj
    | @create _ i t holds carries =>
      intro j r hj
      rcases holds_goto hj with ht | hj
      · exact Finset.mem_insert_of_mem (h i r (holds r ht))
      · exact Finset.mem_insert_of_mem (h j r hj)
    | @put i url r carries =>
      intro j held hj
      rcases holds_goto hj with ht | hj
      · cases ht
      · exact mem_store_ledger.mpr ⟨h j held hj,
          fun old ho e => spared ⟨i, url, r, old, j, held, rfl, carries, ho, hj, e⟩⟩

/-- In every interleaving from an empty cache: throughout it every object that a thread got
and may still read exists, just when none of its steps is a `put` over such an object. -/
theorem alive_iff (size : Capacity) (as : List Action) :
    (∀ p, p <+: as → ((initial size).run p).Alive) ↔
      ∀ p a, p ++ [a] <+: as → ¬ ((initial size).run p).DeletesHeld a :=
  Run.good_iff Sound (sound_initial size) (fun i r h => by cases h) sound_step step_alive_iff as

/-- Two threads get the same entry; the second finds it expired and is sent a new one. -/
def replacedWhileHeld : List Action :=
  [.spawn 0 AcceptedRequest.home.toHttpRequest, .get 0,
    .reply 0 ⟨0, fun _ => none, 2 ^ 40⟩
      (str "HTTP/1.1 200 OK\r\nCache-Control: max-age=5\r\n\r\n"), .put 0,
    .spawn 1 AcceptedRequest.home.toHttpRequest, .get 1,
    .spawn 2 AcceptedRequest.home.toHttpRequest, .get 2, .checkExpire 2 9, .judge 2 9,
    .construct 2, .reply 2 ⟨9, fun _ => none, 2 ^ 40⟩ (str "HTTP/1.1 200 OK\r\n\r\n"), .put 2]

/-- The first thread is left with a pointer to a deleted object. -/
theorem replacedWhileHeld_dangles :
    ¬ ((initial ⟨1, Nat.le_refl 1⟩).run replacedWhileHeld).Alive := by
  intro h
  have held : (((initial ⟨1, Nat.le_refl 1⟩).run replacedWhileHeld).threads 1).holds.map (·.addr) =
      some 0 := by decide +kernel
  have gone : 0 ∉ ((initial ⟨1, Nat.le_refl 1⟩).run replacedWhileHeld).ledger := by decide +kernel
  obtain ⟨r, hr, hzero⟩ := Option.map_eq_some_iff.mp held
  exact gone (hzero ▸ h 1 r hr)

end Sys

end HttpProxy
