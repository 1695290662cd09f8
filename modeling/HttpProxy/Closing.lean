import HttpProxy.Base.Handles
import HttpProxy.Base.Run
import HttpProxy.Contacts

/-!
# Who closes which descriptor

The descriptors of the process, and of every `Proxy` the two members its destructor reads.
Constructors, runs and destructors of any number of proxies interleave with whatever else
opens and closes descriptors. The constructor with three arguments leaves `server_des`
undefined, and `connectServer` assigns it only if it returns.
-/

namespace HttpProxy

/-- How far `connectServer` has come, with the descriptor that `socket` gave it. -/
inductive Progress where
  | idle
  | pending (n : Int)
  | refused (n : Int)
  | connected (n : Int)
  deriving DecidableEq, Repr

/-- `closing` is between the two closes of the destructor. -/
inductive Life where
  | unborn
  | running
  | closing
  | gone
  deriving DecidableEq, Repr

structure Proxy where
  life : Life := .unborn
  socketDes : Int := 0
  serverDes : Int := 0
  progress : Progress := .idle

/-- `Proxy(id, sd, ip)`. It does not initialise `server_des`: that is `junk`. -/
def Proxy.construct (sd junk : Int) : Proxy := ⟨.running, sd, junk, .idle⟩

/-- The process. A descriptor belongs to the proxy it was accepted or opened for, or to
none. -/
structure Process where
  table : Handles.Table Int (Option Nat)
  proxies : Nat → Proxy

namespace Process

inductive Action where
  | accept (i : Nat) (n junk : Int)
  | socket (i : Nat) (n : Int)
  | connect (i : Nat) (connected : Bool)
  | closeClient (i : Nat)
  | closeServer (i : Nat)
  | othersOpen (n : Int)
  | othersClose (n : Int)
  deriving DecidableEq, Repr

def initial : Process := ⟨.empty, fun _ => {}⟩

/-- Another table, and another state of proxy `i`. -/
def change (s : Process) (t : Handles.Table Int (Option Nat)) (i : Nat) (p : Proxy) : Process :=
  ⟨t, Function.update s.proxies i p⟩

/-- `if (server_des) close(server_des)`. -/
def lastClose (s : Process) (i : Nat) : Handles.Table Int (Option Nat) :=
  if (s.proxies i).serverDes ≠ 0 then s.table.shuts (s.proxies i).serverDes (some i) else s.table

/-- An action that cannot happen leaves the state as it is. A descriptor that is opened has a
number that is not in use. -/
def step (s : Process) : Action → Process
  | .accept i n junk =>
    if (s.proxies i).life = .unborn ∧ s.table.slot n = none then
      s.change (s.table.opens n (some i)) i (.construct n junk)
    else s
  | .socket i n =>
    if (s.proxies i).life = .running ∧ (s.proxies i).progress = .idle ∧ s.table.slot n = none then
      s.change (s.table.opens n (some i)) i { s.proxies i with progress := .pending n }
    else s
  | .connect i connected =>
    match (s.proxies i).life, (s.proxies i).progress with
    | .running, .pending n =>
      -- only a connected `connectServer` returns, and then `server_des` is assigned
      if connected then
        s.change s.table i { s.proxies i with progress := .connected n, serverDes := n }
      else s.change s.table i { s.proxies i with progress := .refused n }
    | _, _ => s
  | .closeClient i =>
    match (s.proxies i).life, (s.proxies i).progress with
    | .running, .pending _ => s
    | .running, _ =>
      s.change (s.table.shuts (s.proxies i).socketDes (some i)) i
        { s.proxies i with life := .closing }
    | _, _ => s
  | .closeServer i =>
    if (s.proxies i).life = .closing then
      s.change (s.lastClose i) i { s.proxies i with life := .gone }
    else s
  | .othersOpen n =>
    if s.table.slot n = none then { s with table := s.table.opens n none } else s
  | .othersClose n =>
    match s.table.slot n with
    | some ⟨_, none⟩ => { s with table := s.table.shuts n none }
    | _ => s

def run (as : List Action) : Process := as.foldl step initial

/-- Whoever closed a descriptor had been given it or opened it, and what a proxy that is gone
had been given or opened has been closed, once. -/
structure Owned (s : Process) : Prop where
  own : s.table.Proper
  once : ∀ i, (s.proxies i).life = .gone → s.table.ClosedOnce (some i)

/-- The end of the destructor of a proxy that opened nothing and has the number of an open
descriptor in `server_des`; whose socket was not connected, unless that number is the
socket's by chance; or whose socket has the number 0. -/
def Misfires (s : Process) : Action → Prop
  | .closeServer i => (s.proxies i).life = .closing ∧
    match (s.proxies i).progress with
    | .idle => (s.proxies i).serverDes ≠ 0 ∧ s.table.slot (s.proxies i).serverDes ≠ none
    | .pending n | .refused n => (s.proxies i).serverDes ≠ n ∨ n = 0
    | .connected n => n = 0
  | _ => False

/-! ## What a proxy holds -/

end Process

def Progress.numbers : Progress → List Int
  | .idle => []
  | .pending n | .refused n | .connected n => [n]

/-- The numbers of the descriptors that were given to it or opened by it and not yet closed. -/
def Proxy.holds (p : Proxy) : List Int :=
  match p.life with
  | .running => p.socketDes :: p.progress.numbers
  | .closing => p.progress.numbers
  | _ => []

namespace Process

/-- What holds as long as every close is right. -/
structure Kept (s : Process) : Prop where
  valid : s.table.Valid
  holds : ∀ i n, s.table.Owns (some i) n ↔ n ∈ (s.proxies i).holds
  apart : ∀ i, (s.proxies i).holds.Nodup
  linked : ∀ i n, (s.proxies i).progress = .connected n → (s.proxies i).serverDes = n

theorem kept_initial : initial.Kept := by
  constructor
  · exact Handles.Table.valid_empty
  · intro i n
    simp [initial, Handles.Table.Owns, Handles.Table.empty, Proxy.holds]
  · exact fun _ => List.nodup_nil
  · intro i n h
    cases h

theorem owned_initial : initial.Owned := by
  constructor
  · simp [initial, Handles.Table.Proper, Handles.Table.empty]
  · intro i h
    cases h

/-- A table in which the other proxies own what they owned. -/
def Spares (t t' : Handles.Table Int (Option Nat)) (i : Nat) : Prop :=
  ∀ k m, k ≠ i → (t'.Owns (some k) m ↔ t.Owns (some k) m)

section
variable {s : Process} {t : Handles.Table Int (Option Nat)} {i : Nat} {p : Proxy}

theorem Kept.change (h : s.Kept) (valid : t.Valid) (spares : Spares s.table t i)
    (holds : ∀ m, t.Owns (some i) m ↔ m ∈ p.holds) (apart : p.holds.Nodup)
    (linked : ∀ n, p.progress = .connected n → p.serverDes = n) : (s.change t i p).Kept := by
  have self : (s.change t i p).proxies i = p := Function.update_self ..
  have other {k : Nat} (hk : k ≠ i) : (s.change t i p).proxies k = s.proxies k :=
    Function.update_of_ne hk ..
  constructor
  · exact valid
  · intro k m
    by_cases hk : k = i
    · rw [hk, self]
      exact holds m
    · rw [other hk, ← h.holds]
      exact spares k m hk
  · intro k
    by_cases hk : k = i
    · rw [hk, self]
      exact apart
    · rw [other hk]
      exact h.apart k
  · intro k n
    by_cases hk : k = i
    · rw [hk, self]
      exact linked n
    · rw [other hk]
      exact h.linked k n

/-- Only proxy `i` can be in the wrong after its own step. -/
theorem Owned.change_iff (kept : s.Kept) (h : s.Owned) (valid : t.Valid)
    (spares : Spares s.table t i) : (s.change t i p).Owned ↔
      t.Proper ∧ (p.life = .gone → ∀ m, ¬ t.Owns (some i) m) := by
  have self : (s.change t i p).proxies i = p := Function.update_self ..
  have other {k : Nat} (hk : k ≠ i) : (s.change t i p).proxies k = s.proxies k :=
    Function.update_of_ne hk ..
  constructor
  · intro owned
    refine ⟨owned.own, fun gone => ?_⟩
    rw [← self] at gone
    exact (valid.closedOnce_iff _).mp (owned.once i gone)
  · rintro ⟨proper, mine⟩
    refine ⟨proper, fun k gone => (valid.closedOnce_iff _).mpr ?_⟩
    intro m owns
    by_cases hk : k = i
    · subst hk
      rw [self] at gone
      exact mine gone m owns
    · rw [other hk] at gone
      have before := (kept.valid.closedOnce_iff _).mp (h.once k gone) m
      exact before ((spares k m hk).mp owns)

end

/-! ## One step -/

section
variable {t : Handles.Table Int (Option Nat)} {i : Nat} {n : Int}

theorem spares_opens (free : t.slot n = none) : Spares t (t.opens n (some i)) i := by
  intro k m hk
  rw [Handles.Table.owns_opens free]
  apply or_iff_left
  rintro ⟨_, same⟩
  exact hk (Option.some.inj same)

/-- A close of what belongs to `i` or to nobody. -/
theorem spares_shuts (own : ∀ v, t.Owns v n → v = some i) (w : Option Nat) :
    Spares t (t.shuts n w) i := by
  intro k m hk
  rw [Handles.Table.owns_shuts]
  apply and_iff_right_of_imp
  rintro owns rfl
  exact hk (Option.some.inj (own _ owns))

end

section
variable {s : Process} {i : Nat} {p : Proxy}

/-- A descriptor opened for a proxy. -/
theorem opens_keeps (kept : s.Kept) (owned : s.Owned) {n : Int} (free : s.table.slot n = none)
    (holds : ∀ m, m ∈ p.holds ↔ m ∈ (s.proxies i).holds ∨ m = n) (apart : p.holds.Nodup)
    (alive : p.life ≠ .gone) (unlinked : ∀ m, p.progress ≠ .connected m) :
    (s.change (s.table.opens n (some i)) i p).Kept ∧
      (s.change (s.table.opens n (some i)) i p).Owned := by
  have valid := kept.valid.opens free (some i)
  have spares : Spares s.table (s.table.opens n (some i)) i := spares_opens free
  constructor
  · apply kept.change valid spares ?_ apart
    · intro m h
      exact absurd h (unlinked m)
    · intro m
      rw [Handles.Table.owns_opens free, kept.holds, holds]
      simp
  · apply (owned.change_iff kept valid spares).mpr
    exact ⟨Handles.Table.proper_opens.mpr owned.own, fun gone => absurd gone alive⟩

/-- The members change, the descriptors do not. -/
theorem members_keep (kept : s.Kept) (owned : s.Owned) (holds : p.holds = (s.proxies i).holds)
    (alive : p.life ≠ .gone) (linked : ∀ n, p.progress = .connected n → p.serverDes = n) :
    (s.change s.table i p).Kept ∧ (s.change s.table i p).Owned := by
  have spares : Spares s.table s.table i := fun _ _ _ => .rfl
  constructor
  · apply kept.change kept.valid spares ?_ (holds ▸ kept.apart i) linked
    intro m
    rw [holds]
    exact kept.holds i m
  · exact (owned.change_iff kept kept.valid spares).mpr
      ⟨owned.own, fun gone => absurd gone alive⟩

/-- The first close of the destructor. -/
theorem closeClient_keeps (kept : s.Kept) (owned : s.Owned)
    (running : (s.proxies i).life = .running) :
    let s' := s.change (s.table.shuts (s.proxies i).socketDes (some i)) i
      { s.proxies i with life := .closing }
    s'.Kept ∧ s'.Owned := by
  have held : (s.proxies i).holds = (s.proxies i).socketDes :: (s.proxies i).progress.numbers := by
    rw [Proxy.holds, running]
  have mine : s.table.Owns (some i) (s.proxies i).socketDes :=
    (kept.holds i _).mpr (held ▸ List.mem_cons_self)
  have own (v : Option Nat) (h : s.table.Owns v (s.proxies i).socketDes) : v = some i :=
    h.unique mine
  have valid := kept.valid.shuts (s.proxies i).socketDes (some i)
  have spares := spares_shuts own (some i)
  have apart := kept.apart i
  rw [held] at apart
  obtain ⟨different, rest⟩ := List.nodup_cons.mp apart
  constructor
  · apply kept.change valid spares
    · intro m
      rw [Handles.Table.owns_shuts, kept.holds, held, List.mem_cons]
      constructor
      · rintro ⟨hne, rfl | hm⟩
        · exact absurd rfl hne
        · exact hm
      · intro hm
        exact ⟨fun e => different (e ▸ hm), .inr hm⟩
    · exact rest
    · exact kept.linked i
  · apply (owned.change_iff kept valid spares).mpr
    exact ⟨Handles.Table.proper_shuts.mpr ⟨owned.own, own⟩, nofun⟩

/-- Descriptors of no proxy come and go. -/
theorem others_keep (kept : s.Kept) (owned : s.Owned) {t : Handles.Table Int (Option Nat)}
    (valid : t.Valid) (proper : t.Proper)
    (same : ∀ k m, t.Owns (some k) m ↔ s.table.Owns (some k) m) :
    ({ s with table := t } : Process).Kept ∧ ({ s with table := t } : Process).Owned := by
  constructor
  · exact ⟨valid, fun k m => (same k m).trans (kept.holds k m), kept.apart, kept.linked⟩
  · refine ⟨proper, fun k gone => (valid.closedOnce_iff _).mpr fun m owns => ?_⟩
    exact (kept.valid.closedOnce_iff _).mp (owned.once k gone) m ((same k m).mp owns)

/-- Any step but the last of a destructor. -/
theorem step_keeps (kept : s.Kept) (owned : s.Owned) {a : Action}
    (notLast : ∀ i, a ≠ .closeServer i) : (s.step a).Kept ∧ (s.step a).Owned := by
  cases a with
  | accept i n junk =>
    rw [step]
    split_ifs with h
    · have none : (s.proxies i).holds = [] := by rw [Proxy.holds, h.1]
      apply opens_keeps kept owned h.2
      · intro m
        rw [none]
        simp [Proxy.construct, Proxy.holds, Progress.numbers]
      · simp [Proxy.construct, Proxy.holds, Progress.numbers]
      · simp [Proxy.construct]
      · simp [Proxy.construct]
    · exact ⟨kept, owned⟩
  | socket i n =>
    rw [step]
    split_ifs with h
    · obtain ⟨running, idle, free⟩ := h
      have one : (s.proxies i).holds = [(s.proxies i).socketDes] := by
        rw [Proxy.holds, running, idle]
        rfl
      have used : s.table.Owns (some i) (s.proxies i).socketDes :=
        (kept.holds i _).mpr (one ▸ List.mem_cons_self)
      have different : (s.proxies i).socketDes ≠ n := by
        rintro rfl
        obtain ⟨o, ho, _⟩ := used
        cases free.symm.trans ho
      apply opens_keeps kept owned free
      · simp [Proxy.holds, running, idle, Progress.numbers]
      · simp [Proxy.holds, running, Progress.numbers, different]
      · simp [running]
      · simp
    · exact ⟨kept, owned⟩
  | connect i connected =>
    rw [step]
    split
    · next n running pending =>
      split_ifs
      · apply members_keep kept owned
        · simp [Proxy.holds, running, pending, Progress.numbers]
        · simp [running]
        · intro m h
          cases h
          rfl
      · apply members_keep kept owned
        · simp [Proxy.holds, running, pending, Progress.numbers]
        · simp [running]
        · simp
    · exact ⟨kept, owned⟩
  | closeClient i =>
    rw [step]
    split
    · exact ⟨kept, owned⟩
    · next running _ => exact closeClient_keeps kept owned running
    · exact ⟨kept, owned⟩
  | closeServer i => exact absurd rfl (notLast i)
  | othersOpen n =>
    rw [step]
    split_ifs with free
    · apply others_keep kept owned (kept.valid.opens free none)
        (Handles.Table.proper_opens.mpr owned.own)
      intro k m
      simp [Handles.Table.owns_opens free]
    · exact ⟨kept, owned⟩
  | othersClose n =>
    rw [step]
    split
    · next serial h =>
      have others : s.table.Owns none n := ⟨_, h, rfl⟩
      apply others_keep kept owned (kept.valid.shuts n none)
      · exact Handles.Table.proper_shuts.mpr ⟨owned.own, fun v hv => hv.unique others⟩
      · intro k m
        rw [Handles.Table.owns_shuts]
        apply and_iff_right_of_imp
        rintro owns rfl
        cases owns.unique others
    · exact ⟨kept, owned⟩

/-! ## The last step of a destructor -/

theorem valid_lastClose (kept : s.Kept) (i : Nat) : (s.lastClose i).Valid := by
  unfold lastClose
  split_ifs
  · exact kept.valid.shuts _ _
  · exact kept.valid

theorem owns_lastClose (v : Option Nat) (m : Int) : (s.lastClose i).Owns v m ↔
    ((s.proxies i).serverDes = 0 ∨ m ≠ (s.proxies i).serverDes) ∧ s.table.Owns v m := by
  unfold lastClose
  split_ifs with used
  · rw [Handles.Table.owns_shuts]
    simp [used]
  · simp [not_not.mp used]

/-- The close hits nothing of anyone else. -/
def Rightful (s : Process) (i : Nat) : Prop :=
  (s.proxies i).serverDes ≠ 0 → ∀ v, s.table.Owns v (s.proxies i).serverDes → v = some i

theorem proper_lastClose (owned : s.Owned) : (s.lastClose i).Proper ↔ s.Rightful i := by
  unfold lastClose Rightful
  split_ifs with used
  · rw [Handles.Table.proper_shuts, and_iff_right owned.own]
    exact ⟨fun h _ => h, fun h => h used⟩
  · exact iff_of_true owned.own fun h => absurd h used

theorem spares_lastClose (h : s.Rightful i) : Spares s.table (s.lastClose i) i := by
  unfold lastClose
  split_ifs with used
  · exact spares_shuts (h used) _
  · exact fun _ _ _ => .rfl

/-- It is right when nothing else is hit and all that is left of its own is. -/
theorem closeServer_owned_iff (kept : s.Kept) (owned : s.Owned)
    (closing : (s.proxies i).life = .closing) :
    (s.step (.closeServer i)).Owned ↔ s.Rightful i ∧
      ∀ m ∈ (s.proxies i).progress.numbers,
        (s.proxies i).serverDes ≠ 0 ∧ m = (s.proxies i).serverDes := by
  have left (m : Int) : s.table.Owns (some i) m ↔ m ∈ (s.proxies i).progress.numbers := by
    rw [kept.holds, Proxy.holds, closing]
  have none : (∀ m, ¬ (s.lastClose i).Owns (some i) m) ↔
      ∀ m ∈ (s.proxies i).progress.numbers,
        (s.proxies i).serverDes ≠ 0 ∧ m = (s.proxies i).serverDes := by
    apply forall_congr'
    intro m
    rw [owns_lastClose, left]
    tauto
  rw [step, if_pos closing, ← none]
  constructor
  · intro h
    have rightful := (proper_lastClose owned).mp h.own
    have both := (owned.change_iff kept (valid_lastClose kept i) (spares_lastClose rightful)).mp h
    exact ⟨rightful, both.2 rfl⟩
  · rintro ⟨rightful, gone⟩
    apply (owned.change_iff kept (valid_lastClose kept i) (spares_lastClose rightful)).mpr
    exact ⟨(proper_lastClose owned).mpr rightful, fun _ => gone⟩

/-- With one descriptor left, `server_des` must be its number, and not 0. -/
theorem one_left_iff {n : Int} (mine : s.table.Owns (some i) n) :
    (s.Rightful i ∧ ∀ m ∈ [n], (s.proxies i).serverDes ≠ 0 ∧ m = (s.proxies i).serverDes) ↔
      ¬ ((s.proxies i).serverDes ≠ n ∨ n = 0) := by
  rw [List.forall_mem_singleton]
  constructor
  · rintro ⟨_, used, rfl⟩ wrong
    rcases wrong with h | h
    · exact h rfl
    · exact used h
  · intro right
    obtain ⟨same, used⟩ := not_or.mp right
    have named : (s.proxies i).serverDes = n := not_not.mp same
    refine ⟨fun _ v hv => ?_, named ▸ used, named.symm⟩
    rw [named] at hv
    exact hv.unique mine

theorem closeServer_iff (kept : s.Kept) (owned : s.Owned)
    (closing : (s.proxies i).life = .closing) :
    (s.step (.closeServer i)).Owned ↔ ¬ s.Misfires (.closeServer i) := by
  have left (m : Int) : s.table.Owns (some i) m ↔ m ∈ (s.proxies i).progress.numbers := by
    rw [kept.holds, Proxy.holds, closing]
  have linked := kept.linked i
  rw [closeServer_owned_iff kept owned closing, Misfires, and_iff_right closing]
  cases progress : (s.proxies i).progress with
  | idle =>
    rw [progress] at left
    simp only [Progress.numbers, List.not_mem_nil, false_implies, implies_true, and_true,
      not_and, not_not, iff_false] at left ⊢
    apply forall_congr'
    intro used
    constructor
    · intro own
      cases h : s.table.slot (s.proxies i).serverDes with
      | none => rfl
      | some o =>
        have hit : s.table.Owns o.owner (s.proxies i).serverDes := ⟨o, h, rfl⟩
        exact absurd (own _ hit ▸ hit) (left _)
    · rintro free v ⟨o, ho, _⟩
      cases free.symm.trans ho
  | pending n =>
    rw [progress] at left
    exact one_left_iff ((left n).mpr List.mem_cons_self)
  | refused n =>
    rw [progress] at left
    exact one_left_iff ((left n).mpr List.mem_cons_self)
  | connected n =>
    rw [progress] at left
    apply (one_left_iff ((left n).mpr List.mem_cons_self)).trans
    rw [linked n progress]
    simp

/-- A right last step leaves nothing of the proxy's. -/
theorem closeServer_kept (kept : s.Kept) (owned : s.Owned)
    (closing : (s.proxies i).life = .closing) (right : (s.step (.closeServer i)).Owned) :
    (s.step (.closeServer i)).Kept := by
  rw [step, if_pos closing] at right ⊢
  have rightful := (proper_lastClose owned).mp right.own
  have valid := valid_lastClose kept i
  have spares := spares_lastClose rightful
  have nothing := ((owned.change_iff kept valid spares).mp right).2 rfl
  apply kept.change valid spares
  · intro m
    exact iff_of_false (nothing m) (by simp [Proxy.holds])
  · simp [Proxy.holds]
  · exact kept.linked i

end

theorem owned_step_iff {s : Process} (a : Action) (kept : s.Kept) (owned : s.Owned) :
    (s.step a).Owned ↔ ¬ s.Misfires a := by
  by_cases last : ∃ i, a = .closeServer i
  · obtain ⟨i, rfl⟩ := last
    by_cases closing : (s.proxies i).life = .closing
    · exact closeServer_iff kept owned closing
    · rw [step, if_neg closing]
      exact iff_of_true owned fun h => closing h.1
  · have notLast (i : Nat) (h : a = .closeServer i) : False := last ⟨i, h⟩
    refine iff_of_true (step_keeps kept owned notLast).2 ?_
    cases a with
    | closeServer i => exact absurd rfl (notLast i)
    | _ => exact not_false

theorem kept_step {s : Process} (a : Action) (kept : s.Kept) (owned : s.Owned)
    (right : (s.step a).Owned) : (s.step a).Kept := by
  by_cases last : ∃ i, a = .closeServer i
  · obtain ⟨i, rfl⟩ := last
    by_cases closing : (s.proxies i).life = .closing
    · exact closeServer_kept kept owned closing right
    · rw [step, if_neg closing]
      exact kept
  · exact (step_keeps kept owned fun i h => last ⟨i, h⟩).1

/-- Every descriptor is closed once and by its owner just as long as no destructor
misfires. -/
theorem descriptors_owned_iff (as : List Action) :
    (∀ p, p <+: as → (run p).Owned) ↔ ∀ p a, p ++ [a] <+: as → ¬ (run p).Misfires a :=
  Run.good_iff_while Kept kept_initial owned_initial (fun _ a => kept_step a)
    (fun _ a => owned_step_iff a) as

/-! ## The runs of a proxy -/

/-- What the proxy does while it runs, by the events of its run. `m` is the number that
`socket` returns. -/
def calls (i : Nat) (m : Int) (evs : List Event) : List Action :=
  if .connected ∈ evs then [.socket i m, .connect i true]
  else if .opened ∈ evs then [.socket i m, .connect i false]
  else []

/-- All that a proxy does, from its constructor to the end of its destructor. -/
def lifetime (i : Nat) (n junk m : Int) (evs : List Event) : List Action :=
  [.accept i n junk] ++ calls i m evs ++ [.closeClient i, .closeServer i]

def Action.event : Action → Option Event
  | .socket _ _ => some .opened
  | .connect _ true => some .connected
  | _ => none

/-- The actions open and connect what a run of `runProxy1` does. -/
theorem lifetime_contacts (fds : Descriptors) (rounds : List Ready) (s : St) (i : Nat)
    (n junk m : Int) :
    (lifetime i n junk m (ran (runProxy1 fds rounds) s)).filterMap Action.event =
      contacts (ran (runProxy1 fds rounds) s) := by
  obtain ⟨evs, htrace, contact⟩ := runProxy1_contact fds rounds s
  rw [ran_eq htrace]
  have opened : .opened ∈ evs ↔ .opened ∈ contacts evs := by simp [contacts, Event.contact]
  have connected : .connected ∈ evs ↔ .connected ∈ contacts evs := by
    simp [contacts, Event.contact]
  rw [lifetime, calls, if_congr connected rfl rfl, if_congr opened rfl rfl]
  generalize contacts evs = c at contact
  cases contact <;> rfl

def progressAfter (m : Int) (evs : List Event) : Progress :=
  if .connected ∈ evs then .connected m else if .opened ∈ evs then .refused m else .idle

/-- All of it can happen, while the others do nothing. -/
theorem lifetime_gone {s : Process} {i : Nat} {n m : Int} (unborn : (s.proxies i).life = .unborn)
    (free : s.table.slot n = none) (free' : s.table.slot m = none) (apart : m ≠ n) (junk : Int)
    (evs : List Event) :
    (((lifetime i n junk m evs).foldl step s).proxies i).life = .gone ∧
      (((lifetime i n junk m evs).foldl step s).proxies i).progress = progressAfter m evs := by
  have unused : (s.table.opens n (some i)).slot m = none := by
    simpa [Handles.Table.opens, apart] using free'
  rw [lifetime, calls, progressAfter]
  split_ifs <;> simp [step, change, Proxy.construct, unborn, free, unused]

/-- A 400 for the second client, with the first client's number in `server_des`. -/
def crossed : List Action :=
  [.accept 0 4 0, .accept 1 5 4, .closeClient 1, .closeServer 1]

/-- The second proxy's destructor closes the first one's connection. -/
theorem crossed_misfires : ¬ (run crossed).Owned := by
  intro owned
  have hit : (some 1, (⟨0, some 0⟩ : Handles.Opening (Option Nat))) ∈ (run crossed).table.closes := by
    decide +kernel
  cases owned.own _ _ hit

end Process

end HttpProxy
