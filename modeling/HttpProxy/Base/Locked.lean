import Mathlib.Data.List.Induction
import Mathlib.Logic.Function.Basic
import Mathlib.Logic.Relation

/-!
# Code under one lock

Any number of threads call operations on a state that one lock guards. The body of an
operation runs statement by statement, and between two statements of a body the other
threads take steps of their own. `consistent_of_reaches` says what every run keeps: at most
one thread is in a body, and the state is the one that the completed bodies leave, each of
them run whole in the order of the unlocks, with the part of a body that a thread has run
on top. `admitted` says that every thread that waits for the lock can get it, and `finished`
that threads with a list of calls to make can stop only when they have made them all.
-/

namespace Locked

/-- What a statement does: it goes on to another one, or it unlocks and leaves a result. -/
inductive Outcome (σ L R : Type) where
  | next (l : L) (s : σ)
  | unlock (r : R) (s : σ)

/-- Operations with their bodies. `L` says which statement is next, with the locals it
reads. A statement without an outcome is undefined. -/
structure Code (σ Op L R : Type) where
  enter : Op → L
  stmt : L → σ → Option (Outcome σ L R)

/-- A body that a thread has run to its unlock. -/
structure Call (Op R : Type) where
  thread : Nat
  op : Op
  result : R

/-- Where a thread is. After the unlock it keeps the result until it calls again. -/
inductive Place (Op L R : Type) where
  | outside
  | waiting (op : Op)
  | inside (op : Op) (l : L)
  | left (op : Op) (result : R)

/-- `calls` are the bodies that have been run, in the order of their unlocks. -/
structure State (σ Op L R : Type) where
  shared : σ
  locked : Bool
  threads : Nat → Place Op L R
  calls : List (Call Op R)

variable {σ Op L R : Type}

def State.goto (s : State σ Op L R) (i : Nat) (p : Place Op L R) : State σ Op L R :=
  { s with threads := Function.update s.threads i p }

/-- No thread has called anything. -/
def State.start (s₀ : σ) : State σ Op L R := ⟨s₀, false, fun _ => .outside, []⟩

namespace Code

variable (code : Code σ Op L R)

/-- One step of one thread. Only a thread outside the bodies calls, and only a free lock is
taken. -/
inductive Step (s : State σ Op L R) : State σ Op L R → Prop
  | call {i : Nat} {op : Op} (out : s.threads i = .outside ∨ ∃ op' r, s.threads i = .left op' r) :
      Step s (s.goto i (.waiting op))
  | lock {i : Nat} {op : Op} (waits : s.threads i = .waiting op) (free : s.locked = false) :
      Step s { s.goto i (.inside op (code.enter op)) with locked := true }
  | next {i : Nat} {op : Op} {l l' : L} {t : σ} (at_ : s.threads i = .inside op l)
      (runs : code.stmt l s.shared = some (.next l' t)) :
      Step s { s.goto i (.inside op l') with shared := t }
  | unlock {i : Nat} {op : Op} {l : L} {r : R} {t : σ} (at_ : s.threads i = .inside op l)
      (runs : code.stmt l s.shared = some (.unlock r t)) :
      Step s { s.goto i (.left op r) with
        shared := t, locked := false, calls := s.calls ++ [⟨i, op, r⟩] }

/-- A run: the steps of all threads in any order. -/
abbrev Reaches : State σ Op L R → State σ Op L R → Prop := Relation.ReflTransGen code.Step

/-- The next step of a thread, with the operation it calls if it is outside the bodies. -/
def move (s : State σ Op L R) (i : Nat) (op : Op) : Option (State σ Op L R) :=
  match s.threads i with
  | .outside => some (s.goto i (.waiting op))
  | .left _ _ => some (s.goto i (.waiting op))
  | .waiting op =>
    if s.locked = false then some { s.goto i (.inside op (code.enter op)) with locked := true }
    else none
  | .inside op l =>
    match code.stmt l s.shared with
    | none => none
    | some (.next l' t) => some { s.goto i (.inside op l') with shared := t }
    | some (.unlock r t) =>
      some { s.goto i (.left op r) with
        shared := t, locked := false, calls := s.calls ++ [⟨i, op, r⟩] }

/-- The run of a schedule. -/
def moves (s : State σ Op L R) (schedule : List (Nat × Op)) : Option (State σ Op L R) :=
  schedule.foldlM (fun s p => code.move s p.1 p.2) s

theorem step_of_move {s s' : State σ Op L R} {i : Nat} {op : Op} (h : code.move s i op = some s') :
    code.Step s s' := by
  unfold move at h
  split at h
  · next out =>
    cases h
    exact .call (.inl out)
  · next op' r out =>
    cases h
    exact .call (.inr ⟨op', r, out⟩)
  · next op' waits =>
    split_ifs at h with free
    cases h
    exact .lock waits free
  · next op' l at_ =>
    split at h
    · cases h
    · next l' t runs =>
      cases h
      exact .next at_ runs
    · next r t runs =>
      cases h
      exact .unlock at_ runs

/-- A schedule that can be run is one of the runs. -/
theorem reaches_of_moves {s s' : State σ Op L R} {schedule : List (Nat × Op)}
    (h : code.moves s schedule = some s') : code.Reaches s s' := by
  induction schedule generalizing s with
  | nil => cases h; exact .refl
  | cons p schedule ih =>
    rw [moves, List.foldlM_cons] at h
    obtain ⟨t, ht, rest⟩ := Option.bind_eq_some_iff.mp h
    exact .head (code.step_of_move ht) (ih rest)

/-! ## Bodies on their own -/

/-- The rest of a body, without steps of others in it. -/
inductive Body : L → σ → R → σ → Prop
  | unlock {l : L} {s t : σ} {r : R} (runs : code.stmt l s = some (.unlock r t)) : Body l s r t
  | next {l l' : L} {s t u : σ} {r : R} (runs : code.stmt l s = some (.next l' t))
      (rest : Body l' t r u) : Body l s r u

/-- The statements of a body up to one of them. -/
inductive Part (l : L) (s : σ) : L → σ → Prop
  | here : Part l s l s
  | next {l' l'' : L} {t u : σ} (h : Part l s l' t) (runs : code.stmt l' t = some (.next l'' u)) :
      Part l s l'' u

/-- Whole bodies one after the other. -/
inductive Serial (s₀ : σ) : List (Call Op R) → σ → Prop
  | nil : Serial s₀ [] s₀
  | snoc {calls : List (Call Op R)} {s t : σ} {i : Nat} {op : Op} {r : R}
      (h : Serial s₀ calls s) (body : code.Body (code.enter op) s r t) :
      Serial s₀ (calls ++ [⟨i, op, r⟩]) t

variable {code}

theorem Part.body {l l' : L} {s t u : σ} {r : R} (h : code.Part l s l' t)
    (rest : code.Body l' t r u) : code.Body l s r u := by
  induction h with
  | here => exact rest
  | next _ runs ih => exact ih (.next runs rest)

/-- The rule for a property that every whole body keeps. -/
theorem Serial.invariant {I : σ → Prop} {s₀ : σ} (start : I s₀)
    (keeps : ∀ op s r t, I s → code.Body (code.enter op) s r t → I t) {calls : List (Call Op R)}
    {s : σ} (h : code.Serial s₀ calls s) : I s := by
  induction h with
  | nil => exact start
  | snoc _ body ih => exact keeps _ _ _ _ ih body

theorem Serial.last {s₀ u : σ} {calls : List (Call Op R)} {c : Call Op R}
    (h : code.Serial s₀ (calls ++ [c]) u) :
    ∃ t, code.Serial s₀ calls t ∧ code.Body (code.enter c.op) t c.result u := by
  generalize hl : calls ++ [c] = l at h
  cases h with
  | nil => simp at hl
  | snoc h body =>
    obtain ⟨rfl, hc⟩ := List.append_inj' hl rfl
    cases hc
    exact ⟨_, h, body⟩

theorem Serial.front {s₀ u : σ} {first later : List (Call Op R)}
    (h : code.Serial s₀ (first ++ later) u) : ∃ t, code.Serial s₀ first t := by
  induction later using List.reverseRecOn generalizing u with
  | nil => exact ⟨u, by simpa using h⟩
  | append_singleton later c ih =>
    rw [← List.append_assoc] at h
    obtain ⟨t, h, _⟩ := h.last
    exact ih h

/-- The rule for what holds since a call, of the later calls and the state they leave. -/
theorem Serial.since {s₀ u : σ} {before after : List (Call Op R)} {c : Call Op R}
    {P : List (Call Op R) → σ → Prop} (h : code.Serial s₀ (before ++ c :: after) u)
    (start : ∀ t, code.Serial s₀ (before ++ [c]) t → P [] t)
    (keeps : ∀ later d s t, code.Serial s₀ (before ++ c :: later) s →
      code.Body (code.enter d.op) s d.result t → P later s → P (later ++ [d]) t) : P after u := by
  induction after using List.reverseRecOn generalizing u with
  | nil => exact start u h
  | append_singleton later d ih =>
    rw [← List.cons_append, ← List.append_assoc] at h
    obtain ⟨t, first, body⟩ := h.last
    exact keeps later d t u first body (ih first)

/-! ## What every run keeps -/

/-- While the lock is free no thread is in a body, and the state is that of the completed
bodies. While it is taken just one thread is in a body, part of which has been run. -/
inductive Consistent (code : Code σ Op L R) (s₀ : σ) (s : State σ Op L R) : Prop
  | free (unlocked : s.locked = false) (serial : code.Serial s₀ s.calls s.shared)
      (none : ∀ i op l, s.threads i ≠ .inside op l)
  | held {i : Nat} {op : Op} {l : L} {t : σ} (locked : s.locked = true)
      (serial : code.Serial s₀ s.calls t) (at_ : s.threads i = .inside op l)
      (part : code.Part (code.enter op) t l s.shared)
      (only : ∀ j op' l', s.threads j = .inside op' l' → j = i)

theorem threads_goto_self (s : State σ Op L R) (i : Nat) (p : Place Op L R) :
    (s.goto i p).threads i = p := Function.update_self ..

theorem threads_goto_ne {s : State σ Op L R} {i j : Nat} {p : Place Op L R} (h : j ≠ i) :
    (s.goto i p).threads j = s.threads j := Function.update_of_ne h ..

theorem inside_goto {s : State σ Op L R} {i j : Nat} {p : Place Op L R} {op : Op} {l : L}
    (h : (s.goto i p).threads j = .inside op l) :
    j = i ∧ p = .inside op l ∨ j ≠ i ∧ s.threads j = .inside op l := by
  by_cases e : j = i
  · subst e
    exact .inl ⟨rfl, (threads_goto_self s j p).symm.trans h⟩
  · exact .inr ⟨e, (threads_goto_ne e).symm.trans h⟩

/-- The thread that is in a body, where the lock is held. -/
theorem Consistent.held_by {s₀ : σ} {s : State σ Op L R} (h : code.Consistent s₀ s) {i : Nat}
    {op : Op} {l : L} (at_ : s.threads i = .inside op l) : s.locked = true ∧
      ∃ t, code.Serial s₀ s.calls t ∧ code.Part (code.enter op) t l s.shared ∧
        ∀ j op' l', s.threads j = .inside op' l' → j = i := by
  cases h with
  | free _ _ none => exact absurd at_ (none i op l)
  | held locked serial at' part only =>
    cases only i op l at_
    cases at_.symm.trans at'
    exact ⟨locked, _, serial, part, only⟩

theorem Consistent.step {s₀ : σ} {s s' : State σ Op L R} (h : code.Consistent s₀ s)
    (hstep : code.Step s s') : code.Consistent s₀ s' := by
  cases hstep with
  | @call i op out =>
    have others {j : Nat} {op' : Op} {l' : L}
        (hj : (s.goto i (.waiting op)).threads j = .inside op' l') :
        s.threads j = .inside op' l' := by
      rcases inside_goto hj with ⟨_, hp⟩ | ⟨_, hj⟩
      · cases hp
      · exact hj
    cases h with
    | free unlocked serial none =>
      exact .free unlocked serial fun j op' l' hj => none j op' l' (others hj)
    | @held k op' l t locked serial at_ part only =>
      have apart : k ≠ i := by
        rintro rfl
        rcases out with out | ⟨_, _, out⟩
        · cases at_.symm.trans out
        · cases at_.symm.trans out
      exact .held locked serial ((threads_goto_ne apart).trans at_) part
        fun j op'' l'' hj => only j op'' l'' (others hj)
  | @lock i op waits free =>
    cases h with
    | held locked =>
      rw [free] at locked
      cases locked
    | free _ serial none =>
      refine .held rfl serial (threads_goto_self ..) .here fun j op' l' hj => ?_
      rcases inside_goto hj with ⟨rfl, _⟩ | ⟨_, hj⟩
      · rfl
      · exact absurd hj (none j op' l')
  | @next i op l l' t at_ runs =>
    obtain ⟨locked, u, serial, part, only⟩ := h.held_by at_
    refine .held locked serial (threads_goto_self ..) (part.next runs) fun j op' m hj => ?_
    rcases inside_goto hj with ⟨rfl, _⟩ | ⟨_, hj⟩
    · rfl
    · exact only j op' m hj
  | @unlock i op l r t at_ runs =>
    obtain ⟨_, u, serial, part, only⟩ := h.held_by at_
    refine .free rfl (serial.snoc (part.body (.unlock runs))) fun j op' m hj => ?_
    rcases inside_goto hj with ⟨_, hp⟩ | ⟨hne, hj⟩
    · cases hp
    · exact hne (only j op' m hj)

/-- Every run is consistent with whole bodies one after the other. -/
theorem consistent_of_reaches {s₀ : σ} {s : State σ Op L R} (h : code.Reaches (.start s₀) s) :
    code.Consistent s₀ s := by
  induction h with
  | refl => exact .free rfl .nil fun i op l => nofun
  | tail _ hstep ih => exact ih.step hstep

/-- No two threads are in a body. -/
theorem Consistent.exclusive {s₀ : σ} {s : State σ Op L R} (h : code.Consistent s₀ s) {i j : Nat}
    {op op' : Op} {l l' : L} (hi : s.threads i = .inside op l) (hj : s.threads j = .inside op' l') :
    i = j := by
  obtain ⟨_, _, _, _, only⟩ := h.held_by hj
  exact only i op l hi

/-- What a thread has left with is the result of its last body. -/
theorem left_of_reaches {s₀ : σ} {s : State σ Op L R} (h : code.Reaches (.start s₀) s) {i : Nat}
    {op : Op} {r : R} (hi : s.threads i = .left op r) :
    ∃ before after, s.calls = before ++ ⟨i, op, r⟩ :: after ∧ ∀ d ∈ after, d.thread ≠ i := by
  induction h with
  | refl => cases hi
  | @tail s s' _ hstep ih =>
    have other {j : Nat} {p : Place Op L R} (hp : ∀ op r, p ≠ .left op r)
        (hi : (s.goto j p).threads i = .left op r) :
        ∃ before after, s.calls = before ++ ⟨i, op, r⟩ :: after ∧ ∀ d ∈ after, d.thread ≠ i := by
      by_cases e : i = j
      · subst e
        exact absurd ((threads_goto_self s i p).symm.trans hi) (hp op r)
      · exact ih ((threads_goto_ne e).symm.trans hi)
    cases hstep with
    | call => exact other (fun _ _ hp => by cases hp) hi
    | lock => exact other (fun _ _ hp => by cases hp) hi
    | next => exact other (fun _ _ hp => by cases hp) hi
    | @unlock j op' l r' t at_ runs =>
      by_cases e : i = j
      · subst e
        have same := (threads_goto_self s i (.left op' r')).symm.trans hi
        cases same
        exact ⟨s.calls, [], rfl, by simp⟩
      · obtain ⟨before, after, he, none⟩ := ih ((threads_goto_ne e).symm.trans hi)
        refine ⟨before, after ++ [⟨j, op', r'⟩], by rw [he]; simp, fun d hd => ?_⟩
        rcases List.mem_append.mp hd with hd | hd
        · exact none d hd
        · cases List.mem_singleton.mp hd
          exact Ne.symm e

/-! ## No deadlock -/

/-- Bodies end: every statement they come to from a state with `I` is defined, each takes
them nearer to the unlock, and they keep `I`. -/
structure Ends (code : Code σ Op L R) (I : σ → Prop) (rank : L → Nat) : Prop where
  defined : ∀ op s l t, I s → code.Part (code.enter op) s l t → code.stmt l t ≠ none
  nearer : ∀ l l' s t, code.stmt l s = some (.next l' t) → rank l' < rank l
  keeps : ∀ op s r t, I s → code.Body (code.enter op) s r t → I t

/-- The holder of the lock can always run on to its unlock; the others stay where they are. -/
theorem Ends.released {I : σ → Prop} {rank : L → Nat} (ends : code.Ends I rank) {s₀ : σ}
    (start : I s₀) {s : State σ Op L R} (h : code.Consistent s₀ s) {i : Nat} {op : Op} {l : L}
    (at_ : s.threads i = .inside op l) :
    ∃ s', code.Reaches s s' ∧ s'.locked = false ∧ ∀ j, j ≠ i → s'.threads j = s.threads j := by
  generalize hn : rank l = n
  induction n using Nat.strongRecOn generalizing s l with
  | _ n ih =>
    obtain ⟨_, t, serial, part, _⟩ := h.held_by at_
    have inv := serial.invariant start ends.keeps
    cases runs : code.stmt l s.shared with
    | none => exact absurd runs (ends.defined op t l s.shared inv part)
    | some o =>
      cases o with
      | unlock r u =>
        exact ⟨_, .single (.unlock at_ runs), rfl, fun j hj => threads_goto_ne hj⟩
      | next l' u =>
        have step : code.Step s { s.goto i (.inside op l') with shared := u } := .next at_ runs
        obtain ⟨s', reaches, free, others⟩ := ih (rank l') (hn ▸ ends.nearer l l' _ u runs)
          (h.step step) (threads_goto_self ..) rfl
        exact ⟨s', .head step reaches, free, fun j hj => (others j hj).trans (threads_goto_ne hj)⟩

/-- A thread that waits for the lock can get it: first the holder runs on to its unlock. -/
theorem Ends.admitted {I : σ → Prop} {rank : L → Nat} (ends : code.Ends I rank) {s₀ : σ}
    (start : I s₀) {s : State σ Op L R} (h : code.Consistent s₀ s) {i : Nat} {op : Op}
    (waits : s.threads i = .waiting op) :
    ∃ s', code.Reaches s s' ∧ s'.threads i = .inside op (code.enter op) := by
  cases h with
  | free unlocked _ _ =>
    exact ⟨_, .single (.lock waits unlocked), threads_goto_self ..⟩
  | @held k _ _ _ locked serial at_ part only =>
    have apart : i ≠ k := by
      rintro rfl
      cases waits.symm.trans at_
    obtain ⟨s', reaches, free, others⟩ :=
      ends.released start (.held locked serial at_ part only) at_
    have waits' : s'.threads i = .waiting op := (others i apart).trans waits
    exact ⟨_, reaches.tail (.lock waits' free), threads_goto_self ..⟩

end Code

/-! ## Scripts -/

/-- The bodies a thread has run. -/
def State.made (s : State σ Op L R) (i : Nat) : List Op :=
  (s.calls.filter (·.thread = i)).map Call.op

/-- The call a thread has begun. -/
def Place.begun : Place Op L R → List Op
  | .outside => []
  | .waiting op => [op]
  | .inside op _ => [op]
  | .left _ _ => []

namespace Code

variable (code : Code σ Op L R)

/-- A step in which a thread that calls makes the next call of its script. -/
structure Next (script : Nat → List Op) (s s' : State σ Op L R) : Prop where
  step : code.Step s s'
  called : ∀ i op, s'.threads i = .waiting op →
    s.threads i = .waiting op ∨ (script i)[(s.made i).length]? = some op

/-- The runs in which each thread makes the calls of its script, one after the other. -/
abbrev Follows (script : Nat → List Op) : State σ Op L R → State σ Op L R → Prop :=
  Relation.ReflTransGen (code.Next script)

variable {code} {script : Nat → List Op} {s₀ : σ} {s s' : State σ Op L R}

theorem reaches_of_follows (h : code.Follows script s s') : code.Reaches s s' := by
  induction h with
  | refl => exact .refl
  | tail _ next ih => exact ih.tail next.step

theorem made_snoc (c : Call Op R) (i : Nat) (h : s'.calls = s.calls ++ [c]) :
    s'.made i = s.made i ++ if c.thread = i then [c.op] else [] := by
  rw [State.made, h, List.filter_append, List.map_append, State.made]
  split_ifs with same <;> simp [same]

/-- A step of a thread leaves what it has made and begun, or begins a call. -/
theorem Step.begins (h : code.Step s s') (i : Nat) :
    s'.made i ++ (s'.threads i).begun = s.made i ++ (s.threads i).begun ∨
      ∃ op, s'.threads i = .waiting op ∧ s'.made i = s.made i ∧ (s.threads i).begun = [] := by
  have goto (j : Nat) (p : Place Op L R) : Function.update s.threads j p i =
      if i = j then p else s.threads i := Function.update_apply ..
  cases h with
  | @call j op out =>
    dsimp only [State.goto]
    rw [goto]
    split_ifs with same
    · subst same
      refine .inr ⟨op, rfl, rfl, ?_⟩
      rcases out with out | ⟨_, _, out⟩ <;> rw [out, Place.begun]
    · exact .inl rfl
  | @lock j op waits =>
    dsimp only [State.goto]
    rw [goto]
    split_ifs with same
    · subst same
      rw [waits]
      exact .inl rfl
    · exact .inl rfl
  | @next j op l l' t at_ =>
    dsimp only [State.goto]
    rw [goto]
    split_ifs with same
    · subst same
      rw [at_]
      exact .inl rfl
    · exact .inl rfl
  | @unlock j op l r t at_ =>
    left
    rw [made_snoc ⟨j, op, r⟩ i rfl]
    dsimp only [State.goto]
    rw [goto]
    by_cases same : i = j
    · subst same
      rw [at_, if_pos rfl, if_pos rfl, Place.begun, Place.begun, List.append_nil]
    · rw [if_neg (Ne.symm same), if_neg same, List.append_nil]

/-- Calls are made in the order of the script, and none twice. -/
theorem made_prefix (h : code.Follows script (.start s₀) s) (i : Nat) :
    s.made i ++ (s.threads i).begun <+: script i := by
  induction h with
  | refl => exact List.nil_prefix
  | @tail s s' _ next ih =>
    rcases next.step.begins i with same | ⟨op, waits, made, none⟩
    · rw [same]
      exact ih
    · rw [none, List.append_nil] at ih
      obtain ⟨rest, hrest⟩ := ih
      rcases next.called i op waits with before | called
      · rw [before] at none
        cases none
      · rw [← hrest, List.getElem?_append_right (Nat.le_refl _), Nat.sub_self] at called
        cases rest with
        | nil => cases called
        | cons op' rest =>
          cases called
          rw [waits, made, Place.begun]
          exact ⟨rest, by rw [← hrest]; simp⟩

theorem waiting_update {f : Nat → Place Op L R} {i j : Nat} {p : Place Op L R} {op : Op}
    (hp : p ≠ .waiting op) (h : Function.update f j p i = .waiting op) : f i = .waiting op := by
  by_cases same : i = j
  · subst same
    exact absurd ((Function.update_self ..).symm.trans h) hp
  · exact (Function.update_of_ne same ..).symm.trans h

/-- The next step of a thread that keeps to its script. -/
def follow (code : Code σ Op L R) (script : Nat → List Op) (s : State σ Op L R) (i : Nat) :
    Option (State σ Op L R) := (script i)[(s.made i).length]?.bind (code.move s i)

theorem next_of_follow {i : Nat} (h : code.follow script s i = some s') : code.Next script s s' := by
  obtain ⟨op, hop, moved⟩ := Option.bind_eq_some_iff.mp h
  refine ⟨code.step_of_move moved, fun j op' waits => ?_⟩
  have own {p : Place Op L R} (hp : p = .waiting op)
      (hj : Function.update s.threads i p j = .waiting op') :
      s.threads j = .waiting op' ∨ (script j)[(s.made j).length]? = some op' := by
    by_cases same : j = i
    · subst same
      rw [Function.update_self, hp] at hj
      cases hj
      exact .inr hop
    · exact .inl ((Function.update_of_ne same ..).symm.trans hj)
  unfold move at moved
  split at moved
  · cases moved
    exact own rfl waits
  · cases moved
    exact own rfl waits
  · split_ifs at moved
    cases moved
    exact .inl (waiting_update (by simp) waits)
  · split at moved
    · cases moved
    · cases moved
      exact .inl (waiting_update (by simp) waits)
    · cases moved
      exact .inl (waiting_update (by simp) waits)

/-- A schedule of threads that keep to their scripts. -/
theorem follows_of_schedule {schedule : List Nat}
    (h : schedule.foldlM (code.follow script) s = some s') : code.Follows script s s' := by
  induction schedule generalizing s with
  | nil => cases h; exact .refl
  | cons i schedule ih =>
    rw [List.foldlM_cons] at h
    obtain ⟨t, ht, rest⟩ := Option.bind_eq_some_iff.mp h
    exact .head (next_of_follow ht) (ih rest)

/-- Where bodies end, the threads come to a stop only when all scripts are over. -/
theorem Ends.finished {I : σ → Prop} {rank : L → Nat} (ends : code.Ends I rank) (start : I s₀)
    (h : code.Follows script (.start s₀) s) (stuck : ∀ s', ¬ code.Next script s s') (i : Nat) :
    s.made i = script i := by
  have going := made_prefix h i
  cases consistent_of_reaches (reaches_of_follows h) with
  | @held k op l t locked serial at_ part only =>
    have inv := serial.invariant start ends.keeps
    cases runs : code.stmt l s.shared with
    | none => exact absurd runs (ends.defined op t l s.shared inv part)
    | some o =>
      cases o with
      | next l' u =>
        exact absurd ⟨.next at_ runs, fun j op' hj => .inl (waiting_update (by simp) hj)⟩ (stuck _)
      | unlock r u =>
        exact absurd ⟨.unlock at_ runs, fun j op' hj => .inl (waiting_update (by simp) hj)⟩ (stuck _)
  | free unlocked serial none =>
    have ended (out : s.threads i = .outside ∨ ∃ op r, s.threads i = .left op r) :
        s.made i = script i := by
      obtain ⟨rest, hrest⟩ := (List.prefix_append ..).trans going
      cases rest with
      | nil => rw [← hrest, List.append_nil]
      | cons op rest =>
        refine absurd ⟨.call out, fun j op' hj => ?_⟩ (stuck (s.goto i (.waiting op)))
        by_cases same : j = i
        · subst same
          cases (threads_goto_self ..).symm.trans hj
          refine .inr ?_
          rw [← hrest, List.getElem?_append_right (Nat.le_refl _), Nat.sub_self]
          rfl
        · exact .inl ((threads_goto_ne same).symm.trans hj)
    cases at_ : s.threads i with
    | outside => exact ended (.inl at_)
    | left op r => exact ended (.inr ⟨op, r, at_⟩)
    | inside op l => exact absurd at_ (none i op l)
    | waiting op =>
      exact absurd ⟨.lock at_ unlocked, fun j op' hj => .inl (waiting_update (by simp) hj)⟩ (stuck _)

end Code

end Locked
