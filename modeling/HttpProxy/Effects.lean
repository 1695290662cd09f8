import HttpProxy.Proxy

/-!
# What each operation does to the state

One equation for each operation that neither touches the cache nor allocates: it
ends in `s.after w evs`, the state it began in with another world and `evs` added
to the trace.
-/

namespace HttpProxy

/-- `s` with another world and more events. -/
def St.after (s : St) (w : World) (evs : List Event) : St :=
  { s with world := w, trace := s.trace ++ evs }

section
variable (s : St) (w w' : World) (evs evs' : List Event)

@[simp] theorem after_cache : (s.after w evs).cache = s.cache := rfl
@[simp] theorem after_ledger : (s.after w evs).ledger = s.ledger := rfl
@[simp] theorem after_next : (s.after w evs).next = s.next := rfl
@[simp] theorem after_world : (s.after w evs).world = w := rfl
@[simp] theorem after_trace : (s.after w evs).trace = s.trace ++ evs := rfl

@[simp] theorem after_after : (s.after w evs).after w' evs' = s.after w' (evs ++ evs') := by
  simp [St.after]

@[simp] theorem after_self : s.after s.world [] = s := by simp [St.after]

end

/-! ## Running a program -/

section
variable {α β : Type} {s t : St} {a : α} {e : Exn}

theorem bind_ok {x : M α} (f : α → M β) (h : x s = .ok a t) : (x >>= f) s = f a t := by
  simp [Bind.bind, EStateM.bind, h]

theorem bind_error {x : M α} (f : α → M β) (h : x s = .error e t) :
    (x >>= f) s = .error e t := by
  simp [Bind.bind, EStateM.bind, h]

@[simp] theorem pure_run (a : α) (s : St) : (pure a : M α) s = .ok a s := rfl

@[simp] theorem throw_run (e : Exn) (s : St) : (throw e : M α) s = .error e s := rfl

theorem get_bind (f : St → M β) (s : St) : ((get : M St) >>= f) s = f s s := rfl

theorem set_bind (s' : St) (f : PUnit → M β) (s : St) :
    ((set s' : M PUnit) >>= f) s = f ⟨⟩ s' := rfl

@[simp] theorem emit_run (ev : Event) (s : St) : emit ev s = .ok () (s.after s.world [ev]) := rfl

@[simp] theorem log_run (line : LogLine) (s : St) :
    log line s = .ok () (s.after s.world [.log line]) := rfl

theorem emit_bind (ev : Event) (f : Unit → M β) (s : St) :
    (emit ev >>= f) s = f () (s.after s.world [ev]) := rfl

theorem log_bind (line : LogLine) (f : Unit → M β) (s : St) :
    (log line >>= f) s = f () (s.after s.world [.log line]) := rfl

end

/-- The state a program ends in, normally or by an exception. -/
def finalSt {α : Type} : EStateM.Result Exn St α → St
  | .ok _ s => s
  | .error _ s => s

@[simp] theorem finalSt_ok {α : Type} (a : α) (s : St) :
    finalSt (.ok a s : EStateM.Result Exn St α) = s := rfl

@[simp] theorem finalSt_error {α : Type} (e : Exn) (s : St) :
    finalSt (.error e s : EStateM.Result Exn St α) = s := rfl

/-- Catching an exception takes nothing back. -/
theorem finalSt_catch (x : M Unit) (s : St) :
    finalSt ((try x catch _ => pure ()) s) = finalSt (x s) := by
  change finalSt (EStateM.tryCatch _ _ s) = _
  unfold EStateM.tryCatch
  cases x s with
  | ok a t => rfl
  | error e t => rfl

/-- The pointer a program returns, if it does. -/
def returned : EStateM.Result Exn St (Option Ref) → Option Ref
  | .ok o _ => o
  | .error _ _ => none

theorem returned_some {x : M (Option Ref)} {s : St} {r : Ref} (h : returned (x s) = some r) :
    x s = .ok (some r) (finalSt (x s)) := by
  cases hx : x s with
  | error e t => rw [hx] at h; cases h
  | ok o t =>
    rw [hx] at h
    obtain rfl : o = some r := h
    rfl

/-- The events of a run of `x`. -/
def ran {α : Type} (x : M α) (s : St) : List Event := (finalSt (x s)).trace.drop s.trace.length

theorem ran_eq {α : Type} {x : M α} {s : St} {evs : List Event}
    (h : (finalSt (x s)).trace = s.trace ++ evs) : ran x s = evs := by
  rw [ran, h, List.drop_left]

end HttpProxy
