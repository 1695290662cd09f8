import HttpProxy.Closing
import HttpProxy.LogText

/-!
# The listening thread

`proxyListen`, call by call, with what the system answers, among the threads of the proxies it
starts. `connections_numbered`: the process does what a `Process` can do, and the connections
have the numbers 0, 1, 2 and so on. `listens_iff`: the listening socket stays open as long as
no destructor finds its number in a `server_des` that nothing was assigned to. A call of
`accept` holds the socket it was made for, so it can return a connection after that: one, says
`accepts_no_more`.
-/

namespace HttpProxy

/-- A number that `socket` has returned, and which opening it was. -/
structure Socket where
  number : Int
  serial : Nat
  deriving DecidableEq, Repr

/-- The call that `proxyListen` makes next, or `waiting`, where it is in `accept` and this has
found the listening socket. `left` counts the addresses behind the one it tries. A socket on
which it cannot listen is still open when it returns. -/
inductive Listening where
  | resolving
  | creating (left : Nat)
  | binding (sock : Socket) (left : Nat)
  | starting (sock : Socket)
  | accepting (sock : Socket)
  | waiting (sock : Socket)
  | finished (sock : Option Socket)
  deriving DecidableEq, Repr

/-- What the system answers: `none` and `false` for -1, and how many addresses it has found.
`enter` is where `accept` looks up the number it is given, and `accept` where it returns.
`junk` is what the memory of the new `Proxy` has in the place of `server_des`. -/
inductive Reply where
  | addrinfo (count : Option Nat)
  | socket (n : Option Int)
  | bind (ok : Bool)
  | listen (ok : Bool)
  | enter
  | accept (client : Option (Int × Ip)) (junk : Int)

/-- `clients` has the address of each connection, by its number. -/
structure Server where
  stage : Listening
  requestID : Nat
  clients : List Ip
  process : Process
  logged : List Bytes

/-- The text for a connection that could not be accepted. It has no newline. -/
def failedAccept : Bytes := str "(no-id): Failed to estblish connection with client"

def Listening.socket : Listening → Option Socket
  | .binding sock _ | .starting sock | .accepting sock | .waiting sock => some sock
  | .finished sock => sock
  | _ => none

/-- The listening socket, once there can be connections. -/
def Listening.serving : Listening → Option Socket
  | .accepting sock | .waiting sock => some sock
  | _ => none

theorem Listening.socket_of_serving {l : Listening} {sock : Socket} (h : l.serving = some sock) :
    l.socket = some sock := by
  cases l with
  | accepting | waiting => exact h
  | _ => cases h

namespace Server

def initial : Server := ⟨.resolving, 0, [], .initial, []⟩

def log (s : Server) (text : Bytes) : Server := { s with logged := s.logged ++ [text] }

/-- The head of the loop over the addresses. -/
def advance (s : Server) : Nat → Server
  | 0 => { s with stage := .finished none }.log (str "(no-id): ERROR selectserver failed to bind \n")
  | left + 1 => { s with stage := .creating left }

/-- The number still designates the opening that it was returned for. -/
def Hears (s : Server) (sock : Socket) : Prop :=
  s.process.table.slot sock.number = some ⟨sock.serial, none⟩

instance (s : Server) (sock : Socket) : Decidable (s.Hears sock) :=
  inferInstanceAs (Decidable (_ = _))

/-- `proxyListen` goes on with an answer. An answer that cannot come changes nothing: a
descriptor has a number that is not in use. Connections come over the listening socket that
`accept` found when it was called, also if its number has been closed since. -/
def proxyListen (s : Server) : Listening → Reply → Server
  | .resolving, .addrinfo none =>
    { s with stage := .finished none }.log
      (str "(no-id): ERROR cannot get address info for host \n")
  | .resolving, .addrinfo (some count) => s.advance count
  | .creating left, .socket none =>
    (s.log (str "(no-id): ERROR cannot create socket \n")).advance left
  | .creating left, .socket (some n) =>
    if s.process.table.slot n = none then
      { s with
        stage := .binding ⟨n, s.process.table.openings.length⟩ left
        process := s.process.step (.othersOpen n) }
    else s
  | .binding sock left, .bind false =>
    ({ s with process := s.process.step (.othersClose sock.number) }.log
      (str "(no-id): ERROR cannot bind socket \n")).advance left
  | .binding sock _, .bind true => { s with stage := .starting sock }
  | .starting sock, .listen false =>
    { s with stage := .finished (some sock) }.log (str "(no-id): ERROR cannot listen on socket \n")
  | .starting sock, .listen true => { s with stage := .accepting sock }
  | .accepting sock, .enter =>
    if s.Hears sock then { s with stage := .waiting sock } else s.log failedAccept
  | .waiting sock, .accept none _ => { s with stage := .accepting sock }.log failedAccept
  | .waiting sock, .accept (some (n, ip)) junk =>
    if s.process.table.slot n = none then
      { s with
        stage := .accepting sock
        process := s.process.step (.accept s.requestID n junk)
        clients := s.clients ++ [ip]
        requestID := s.requestID + 1 }
    else s
  | _, _ => s

inductive Act where
  | main (r : Reply)
  | threads (a : Process.Action)

/-- What the other threads may do: they accept nothing, and who closes descriptors of his own
does not close the listening socket. -/
def Elsewhere (sock : Socket) : Process.Action → Prop
  | .accept _ _ _ => False
  | .othersClose n => n ≠ sock.number
  | _ => True

instance (sock : Socket) : DecidablePred (Elsewhere sock)
  | .accept _ _ _ => inferInstanceAs (Decidable False)
  | .othersClose _ => inferInstanceAs (Decidable (_ ≠ _))
  | .socket _ _ | .connect _ _ | .closeClient _ | .closeServer _ | .othersOpen _ => .isTrue trivial

/-- There are other threads once connections can be accepted, and while the process lasts. -/
def step (s : Server) : Act → Server
  | .main r => s.proxyListen s.stage r
  | .threads a =>
    match s.stage.serving with
    | some sock => if Elsewhere sock a then { s with process := s.process.step a } else s
    | none => s

def run (as : List Act) : Server := as.foldl step initial

/-- The socket that `proxyListen` has is open. -/
def Open (s : Server) : Prop := ∀ sock, s.stage.socket = some sock → s.Hears sock

/-- The end of the destructor of a proxy that is not connected, with the number of the
listening socket in `server_des`. -/
def Deafens (s : Server) : Act → Prop
  | .threads (.closeServer i) => ∃ sock, s.stage.serving = some sock ∧
    (s.process.proxies i).life = .closing ∧ (∀ n, (s.process.proxies i).progress ≠ .connected n) ∧
    (s.process.proxies i).serverDes = sock.number ∧ sock.number ≠ 0
  | _ => False

end Server

/-! ## What an action does -/

namespace Process

variable {s s' : Process} {a : Action}

/-- What becomes of the process. -/
inductive Effect (s : Process) : Action → Process → Prop
  | none {a : Action} : Effect s a s
  | accept {i : Nat} {n junk : Int} (unborn : (s.proxies i).life = .unborn)
      (free : s.table.slot n = none) : Effect s (.accept i n junk)
        (s.change (s.table.opens n (some i)) i (.construct n junk))
  | socket {i : Nat} {n : Int} (running : (s.proxies i).life = .running)
      (free : s.table.slot n = none) : Effect s (.socket i n)
        (s.change (s.table.opens n (some i)) i { s.proxies i with progress := .pending n })
  | connect {i : Nat} {n : Int} (running : (s.proxies i).life = .running)
      (pending : (s.proxies i).progress = .pending n) : Effect s (.connect i true)
        (s.change s.table i { s.proxies i with progress := .connected n, serverDes := n })
  | refuse {i : Nat} {n : Int} (running : (s.proxies i).life = .running)
      (pending : (s.proxies i).progress = .pending n) : Effect s (.connect i false)
        (s.change s.table i { s.proxies i with progress := .refused n })
  | closeClient {i : Nat} (running : (s.proxies i).life = .running) : Effect s (.closeClient i)
      (s.change (s.table.shuts (s.proxies i).socketDes (some i)) i
        { s.proxies i with life := .closing })
  | closeServer {i : Nat} (closing : (s.proxies i).life = .closing)
      (used : (s.proxies i).serverDes ≠ 0) : Effect s (.closeServer i)
        (s.change (s.table.shuts (s.proxies i).serverDes (some i)) i
          { s.proxies i with life := .gone })
  | spare {i : Nat} (closing : (s.proxies i).life = .closing)
      (unused : (s.proxies i).serverDes = 0) : Effect s (.closeServer i)
        (s.change s.table i { s.proxies i with life := .gone })
  | othersOpen {n : Int} (free : s.table.slot n = none) : Effect s (.othersOpen n)
      { s with table := s.table.opens n none }
  | othersClose {n : Int} : Effect s (.othersClose n) { s with table := s.table.shuts n none }

theorem effect_step (s : Process) (a : Action) : s.Effect a (s.step a) := by
  cases a with
  | accept i n junk =>
    rw [step]
    split_ifs with h
    · exact .accept h.1 h.2
    · exact .none
  | socket i n =>
    rw [step]
    split_ifs with h
    · exact .socket h.1 h.2.2
    · exact .none
  | connect i connected =>
    rw [step]
    split
    · next running pending =>
      cases connected with
      | true => exact .connect running pending
      | false => exact .refuse running pending
    · exact .none
  | closeClient i =>
    rw [step]
    split
    · exact .none
    · next running _ => exact .closeClient running
    · exact .none
  | closeServer i =>
    rw [step, lastClose]
    split_ifs with closing used
    · exact .closeServer closing used
    · exact .spare closing (not_not.mp used)
    · exact .none
  | othersOpen n =>
    rw [step]
    split_ifs with free
    · exact .othersOpen free
    · exact .none
  | othersClose n =>
    rw [step]
    split
    · exact .othersClose
    · exact .none

/-- The proxy that a connection is accepted for. -/
def Action.accepted : Action → Option Nat
  | .accept i _ _ => some i
  | _ => none

/-- A change of one proxy keeps what holds of all. -/
theorem change_forall {P : Nat → Proxy → Prop} (all : ∀ j, P j (s.proxies j))
    {t : Handles.Table Int (Option Nat)} {i : Nat} {p : Proxy} (new : P i p) (j : Nat) :
    P j ((s.change t i p).proxies j) := by
  by_cases same : j = i
  · subst same
    have self : (s.change t j p).proxies j = p := Function.update_self ..
    rw [self]
    exact new
  · have other : (s.change t i p).proxies j = s.proxies j := Function.update_of_ne same ..
    rw [other]
    exact all j

theorem Effect.table (h : s.Effect a s') : s.table.Change s'.table := by
  cases h with
  | none | connect | refuse | spare => exact .none
  | accept _ free | socket _ free | othersOpen free => exact .opens free _
  | closeClient | closeServer | othersClose => exact .shuts _ _

/-- A proxy is born when its connection is accepted. -/
theorem Effect.unborn (h : s.Effect a s') (other : ∀ i n junk, a ≠ .accept i n junk) (i : Nat) :
    (s'.proxies i).life = .unborn ↔ (s.proxies i).life = .unborn := by
  have keeps {t : Handles.Table Int (Option Nat)} {j : Nat} {p : Proxy}
      (same : p.life = .unborn ↔ (s.proxies j).life = .unborn) :
      ((s.change t j p).proxies i).life = .unborn ↔ (s.proxies i).life = .unborn :=
    change_forall (P := fun k q => q.life = .unborn ↔ (s.proxies k).life = .unborn)
      (fun _ => .rfl) same i
  cases h with
  | none | othersOpen | othersClose => exact .rfl
  | accept => exact absurd rfl (other _ _ _)
  | socket | connect | refuse => exact keeps .rfl
  | closeClient running => exact keeps (by simp [running])
  | closeServer closing | spare closing => exact keeps (by simp [closing])

/-- A connected proxy has the number in `server_des`. -/
def Linked (s : Process) : Prop :=
  ∀ i n, (s.proxies i).progress = .connected n → (s.proxies i).serverDes = n

theorem Effect.linked (h : s.Effect a s') (linked : s.Linked) : s'.Linked := by
  have keeps {t : Handles.Table Int (Option Nat)} {j : Nat} {p : Proxy}
      (new : ∀ n, p.progress = .connected n → p.serverDes = n) : (s.change t j p).Linked :=
    change_forall (P := fun _ q => ∀ n, q.progress = .connected n → q.serverDes = n) linked new
  cases h with
  | none | othersOpen | othersClose => exact linked
  | accept | socket | refuse => exact keeps nofun
  | connect =>
    refine keeps fun n h => ?_
    cases h
    rfl
  | closeClient | closeServer | spare => exact keeps (linked _)

/-- The action closes this number. -/
def Closes (s : Process) (k : Int) : Action → Prop
  | .closeClient i => (s.proxies i).life = .running ∧ (s.proxies i).socketDes = k
  | .closeServer i => (s.proxies i).life = .closing ∧ (s.proxies i).serverDes = k ∧ k ≠ 0
  | .othersClose n => n = k
  | _ => False

theorem Effect.slot (h : s.Effect a s') {k : Int} {o : Handles.Opening (Option Nat)}
    (held : s.table.slot k = some o) (spared : ¬ s.Closes k a) : s'.table.slot k = some o := by
  have opens {n : Int} (free : s.table.slot n = Option.none) (w : Option Nat) :
      (s.table.opens n w).slot k = some o :=
    (Handles.Table.slot_opens_of_ne (Handles.Table.ne_of_free held free) w).trans held
  have shuts {n : Int} (different : k ≠ n) (w : Option Nat) :
      (s.table.shuts n w).slot k = some o := (Handles.Table.slot_shuts_of_ne different w).trans held
  cases h with
  | none | connect | refuse | spare => exact held
  | accept _ free | socket _ free | othersOpen free => exact opens free _
  | closeClient running => exact shuts (fun same => spared ⟨running, same.symm⟩) _
  | closeServer closing used =>
    exact shuts (fun same => spared ⟨closing, same.symm, same ▸ used⟩) _
  | othersClose => exact shuts (fun same => spared same.symm) _

end Process

/-- The proxy has not got the number by `accept` or `socket`, or has closed it. -/
def Proxy.Avoids (k : Int) (p : Proxy) : Prop :=
  (p.life = .running → p.socketDes ≠ k) ∧ k ∉ p.progress.numbers

/-- A number that is in use is not given to another proxy. -/
theorem Process.Effect.avoids {s s' : Process} {a : Process.Action} (h : s.Effect a s') {k : Int}
    {o : Handles.Opening (Option Nat)} (held : s.table.slot k = some o)
    (avoids : ∀ i, (s.proxies i).Avoids k) (i : Nat) : (s'.proxies i).Avoids k := by
  have keeps {t : Handles.Table Int (Option Nat)} {j : Nat} {p : Proxy} (new : p.Avoids k) :
      ((s.change t j p).proxies i).Avoids k :=
    change_forall (P := fun _ => Proxy.Avoids k) avoids new i
  cases h with
  | none | othersOpen | othersClose => exact avoids i
  | accept _ free =>
    exact keeps ⟨fun _ => (Handles.Table.ne_of_free held free).symm, List.not_mem_nil⟩
  | @socket j n _ free =>
    refine keeps ⟨(avoids j).1, fun hm => ?_⟩
    exact Handles.Table.ne_of_free held free (List.mem_singleton.mp hm)
  | @connect j n _ pending | @refuse j n _ pending =>
    refine keeps ⟨(avoids j).1, ?_⟩
    have before := (avoids j).2
    rw [pending] at before
    exact before
  | @closeClient j | @closeServer j | @spare j => exact keeps ⟨nofun, (avoids j).2⟩

/-! ## Before the first connection -/

namespace Server

variable {s : Server}

@[simp] theorem process_advance (s : Server) (left : Nat) : (s.advance left).process = s.process := by
  cases left <;> rfl

@[simp] theorem requestID_advance (s : Server) (left : Nat) :
    (s.advance left).requestID = s.requestID := by
  cases left <;> rfl

@[simp] theorem clients_advance (s : Server) (left : Nat) : (s.advance left).clients = s.clients := by
  cases left <;> rfl

@[simp] theorem socket_advance (s : Server) (left : Nat) : (s.advance left).stage.socket = none := by
  cases left <;> rfl

/-- There is no proxy, and nothing is open but the socket that `proxyListen` has. -/
structure Tidy (s : Server) : Prop where
  unnumbered : s.requestID = 0
  unserved : s.clients = []
  none : s.process.proxies = fun _ => {}
  slots : ∀ n o, s.process.table.slot n = some o ↔
    ∃ sock, s.stage.socket = some sock ∧ n = sock.number ∧ o = ⟨sock.serial, Option.none⟩

theorem tidy_initial : initial.Tidy := by
  refine ⟨rfl, rfl, rfl, fun n o => ?_⟩
  simp [initial, Process.initial, Handles.Table.empty, Listening.socket]

theorem Tidy.closed (h : s.Tidy) (no : s.stage.socket = Option.none) (n : Int) :
    s.process.table.slot n = Option.none := by
  cases held : s.process.table.slot n with
  | none => rfl
  | some o =>
    obtain ⟨sock, has, _⟩ := (h.slots n o).mp held
    cases no.symm.trans has

/-- Another stage with the same socket. -/
theorem Tidy.goes (h : s.Tidy) {s' : Server} (process : s'.process = s.process)
    (requestID : s'.requestID = s.requestID) (clients : s'.clients = s.clients)
    (socket : s'.stage.socket = s.stage.socket) : s'.Tidy := by
  constructor
  · rw [requestID, h.unnumbered]
  · rw [clients, h.unserved]
  · rw [process, h.none]
  · rw [process, socket]
    exact h.slots

theorem Tidy.advances (h : s.Tidy) (no : s.stage.socket = Option.none) (left : Nat) :
    (s.advance left).Tidy :=
  h.goes (process_advance ..) (requestID_advance ..) (clients_advance ..)
    ((socket_advance ..).trans no.symm)

theorem Tidy.log (h : s.Tidy) (text : Bytes) : (s.log text).Tidy := h.goes rfl rfl rfl rfl

theorem Tidy.creates (h : s.Tidy) (no : s.stage.socket = Option.none) (left : Nat) {n : Int}
    (free : s.process.table.slot n = Option.none) :
    ({ s with
      stage := .binding ⟨n, s.process.table.openings.length⟩ left
      process := s.process.step (.othersOpen n) } : Server).Tidy := by
  refine ⟨h.unnumbered, h.unserved, ?_, fun m o => ?_⟩
  · dsimp only
    rw [Process.step, if_pos free]
    exact h.none
  · dsimp only [Listening.socket]
    rw [Process.step, if_pos free]
    by_cases same : m = n
    · subst same
      rw [Handles.Table.slot_opens_self]
      simp [eq_comm]
    · rw [Handles.Table.slot_opens_of_ne same, h.closed no]
      simp [same]

/-- A socket that cannot be bound is closed. -/
theorem Tidy.closes (h : s.Tidy) {sock : Socket} (has : s.stage.socket = some sock) {text : Bytes}
    {left : Nat} : (({ s with process := s.process.step (.othersClose sock.number) }.log
      text).advance left).Tidy := by
  have held : s.process.table.slot sock.number = some ⟨sock.serial, Option.none⟩ :=
    (h.slots _ _).mpr ⟨sock, has, rfl, rfl⟩
  have shut : s.process.step (.othersClose sock.number) =
      { s.process with table := s.process.table.shuts sock.number Option.none } := by
    rw [Process.step, held]
  constructor
  · rw [requestID_advance]
    exact h.unnumbered
  · rw [clients_advance]
    exact h.unserved
  · rw [process_advance, Server.log, shut]
    exact h.none
  · intro m o
    rw [process_advance, socket_advance, Server.log, shut]
    refine iff_of_false (fun still => ?_) (by simp)
    by_cases same : m = sock.number
    · rw [same, Handles.Table.shuts_some held] at still
      simp at still
    · obtain ⟨sock', has', number, _⟩ := (h.slots m o).mp (Handles.Table.slot_of_shuts still)
      cases has.symm.trans has'
      exact same number

/-- Up to the first `accept` every descriptor but the socket at hand is closed again. -/
theorem Tidy.step (h : s.Tidy) (early : s.stage.serving = Option.none) (a : Act) :
    (s.step a).Tidy := by
  obtain ⟨stage, requestID, clients, process, logged⟩ := s
  cases a with
  | threads a =>
    cases stage with
    | accepting | waiting => cases early
    | _ => exact h
  | main r =>
    cases stage with
    | resolving =>
      cases r with
      | addrinfo count =>
        cases count with
        | none => exact h.goes rfl rfl rfl rfl
        | some count => exact h.advances rfl count
      | _ => exact h
    | creating left =>
      cases r with
      | socket n =>
        cases n with
        | none => exact (h.log _).advances rfl left
        | some n =>
          rw [Server.step, proxyListen]
          split_ifs with free
          · exact h.creates rfl left free
          · exact h
      | _ => exact h
    | binding sock left =>
      cases r with
      | bind ok =>
        cases ok with
        | false => exact h.closes rfl
        | true => exact h.goes rfl rfl rfl rfl
      | _ => exact h
    | starting sock =>
      cases r with
      | listen ok => cases ok <;> exact h.goes rfl rfl rfl rfl
      | _ => exact h
    | accepting | waiting => cases early
    | finished sock => exact h

/-! ## One step -/

/-- What becomes of the numbers of the connections. -/
inductive Moves (s s' : Server) : Prop
  | stays (process : s'.process = s.process) (requestID : s'.requestID = s.requestID)
      (clients : s'.clients = s.clients)
  | acts (act : Process.Action) (other : ∀ i n junk, act ≠ .accept i n junk)
      (process : s'.process = s.process.step act) (requestID : s'.requestID = s.requestID)
      (clients : s'.clients = s.clients)
  | accepts (n junk : Int) (ip : Ip) (free : s.process.table.slot n = none)
      (process : s'.process = s.process.step (.accept s.requestID n junk))
      (requestID : s'.requestID = s.requestID + 1) (clients : s'.clients = s.clients ++ [ip])

/-- A step in the loop that accepts connections. -/
inductive Serves (s : Server) (sock : Socket) : Act → Server → Prop
  | ignored (r : Reply) : Serves s sock (.main r) s
  | enters (at_ : s.stage = .accepting sock) (hears : s.Hears sock) :
      Serves s sock (.main .enter) { s with stage := .waiting sock }
  | fails (r : Reply) :
      Serves s sock (.main r) ({ s with stage := .accepting sock }.log failedAccept)
  | accepts {n junk : Int} {ip : Ip} (at_ : s.stage = .waiting sock)
      (free : s.process.table.slot n = none) : Serves s sock (.main (.accept (some (n, ip)) junk))
        { s with
          stage := .accepting sock
          process := s.process.step (.accept s.requestID n junk)
          clients := s.clients ++ [ip]
          requestID := s.requestID + 1 }
  | barred {a : Process.Action} (mine : ¬ Elsewhere sock a) : Serves s sock (.threads a) s
  | acts {a : Process.Action} (other : Elsewhere sock a) : Serves s sock (.threads a)
      { s with process := s.process.step a }

theorem serves_step {sock : Socket} (h : s.stage.serving = some sock) (a : Act) :
    s.Serves sock a (s.step a) := by
  obtain ⟨stage, requestID, clients, process, logged⟩ := s
  cases a with
  | threads a =>
    rw [step]
    simp only [h]
    split_ifs with other
    · exact .acts other
    · exact .barred other
  | main r =>
    cases stage with
    | accepting sock' =>
      cases h
      cases r with
      | enter =>
        rw [step, proxyListen]
        split_ifs with hears
        · exact .enters rfl hears
        · exact .fails .enter
      | _ => exact .ignored _
    | waiting sock' =>
      cases h
      cases r with
      | accept client junk =>
        cases client with
        | none => exact .fails _
        | some client =>
          rw [step, proxyListen]
          split_ifs with free
          · exact .accepts rfl free
          · exact .ignored _
      | _ => exact .ignored _
    | _ => cases h

theorem Serves.serving {sock : Socket} {a : Act} {s' : Server} (h : s.Serves sock a s')
    (before : s.stage.serving = some sock) : s'.stage.serving = some sock := by
  cases h with
  | ignored | barred | acts => exact before
  | enters | fails | accepts => rfl

theorem Serves.moves {sock : Socket} {a : Act} {s' : Server} (h : s.Serves sock a s') :
    s.Moves s' := by
  cases h with
  | ignored | enters | fails | barred => exact .stays rfl rfl rfl
  | accepts _ free => exact .accepts _ _ _ free rfl rfl rfl
  | @acts a other =>
    refine .acts a (fun i n junk same => ?_) rfl rfl rfl
    subst same
    exact other

theorem moves_step (s : Server) (a : Act) : s.Moves (s.step a) := by
  cases at_ : s.stage.serving with
  | some sock => exact (serves_step at_ a).moves
  | none =>
    obtain ⟨stage, requestID, clients, process, logged⟩ := s
    cases a with
    | threads a =>
      rw [step]
      simp only [at_]
      exact .stays rfl rfl rfl
    | main r =>
      rw [step]
      unfold proxyListen
      split
      · exact .stays rfl rfl rfl
      · exact .stays (process_advance ..) (requestID_advance ..) (clients_advance ..)
      · exact .stays (process_advance ..) (requestID_advance ..) (clients_advance ..)
      · next left n same =>
        split_ifs
        · exact .acts (.othersOpen n) nofun rfl rfl rfl
        · exact .stays rfl rfl rfl
      · next sock left same =>
        exact .acts (.othersClose sock.number) nofun (process_advance ..) (requestID_advance ..)
          (clients_advance ..)
      · exact .stays rfl rfl rfl
      · exact .stays rfl rfl rfl
      · exact .stays rfl rfl rfl
      · next same => exact absurd (same ▸ at_) nofun
      · next same => exact absurd (same ▸ at_) nofun
      · next same => exact absurd (same ▸ at_) nofun
      · exact .stays rfl rfl rfl

/-! ## Whole runs -/

/-- What holds in every state. -/
structure Sound (s : Server) : Prop where
  valid : s.process.table.Valid
  linked : s.process.Linked
  given : ∀ sock, s.stage.socket = some sock → sock.serial < s.process.table.openings.length
  clients : s.clients.length = s.requestID
  unborn : ∀ i, (s.process.proxies i).life = .unborn ↔ s.requestID ≤ i
  early : s.stage.serving = none → s.Tidy

theorem Tidy.open (h : s.Tidy) : s.Open := fun sock has => (h.slots _ _).mpr ⟨sock, has, rfl, rfl⟩

theorem Tidy.given (h : s.Tidy) (valid : s.process.table.Valid) (sock : Socket)
    (has : s.stage.socket = some sock) : sock.serial < s.process.table.openings.length :=
  valid.serials _ (valid.known _ _ (h.open sock has))

theorem Moves.effect {s' : Server} (h : s.Moves s') : ∃ a, s.process.Effect a s'.process := by
  cases h with
  | stays process => exact ⟨.othersOpen 0, process ▸ .none⟩
  | acts act _ process => exact ⟨act, process ▸ Process.effect_step ..⟩
  | accepts n junk _ _ process => exact ⟨_, process ▸ Process.effect_step ..⟩

theorem Moves.clients {s' : Server} (h : s.Moves s') (before : s.clients.length = s.requestID) :
    s'.clients.length = s'.requestID := by
  cases h with
  | stays _ requestID clients | acts _ _ _ requestID clients => rw [requestID, clients, before]
  | accepts _ _ _ _ _ requestID clients =>
    rw [requestID, clients, List.length_append, List.length_singleton, before]

theorem Moves.unborn {s' : Server} (h : s.Moves s')
    (before : ∀ i, (s.process.proxies i).life = .unborn ↔ s.requestID ≤ i) (i : Nat) :
    (s'.process.proxies i).life = .unborn ↔ s'.requestID ≤ i := by
  cases h with
  | stays process requestID => rw [process, requestID, before]
  | acts act other process requestID =>
    rw [process, requestID, (Process.effect_step ..).unborn other, before]
  | accepts n junk ip free process requestID =>
    have new := (before s.requestID).mpr (Nat.le_refl _)
    rw [process, requestID, Process.step, if_pos ⟨new, free⟩]
    by_cases same : i = s.requestID
    · subst same
      simp [Process.change, Proxy.construct]
    · have old : (s.process.proxies i).life = .unborn ↔ s.requestID + 1 ≤ i := by
        rw [before]
        omega
      simpa [Process.change, same] using old

theorem sound_initial : initial.Sound where
  valid := Handles.Table.valid_empty
  linked := nofun
  given := nofun
  clients := rfl
  unborn i := iff_of_true rfl (Nat.zero_le i)
  early _ := tidy_initial

theorem sound_step (s : Server) (a : Act) (h : s.Sound) : (s.step a).Sound := by
  have moves := moves_step s a
  obtain ⟨act, effect⟩ := moves.effect
  have valid := effect.table.valid h.valid
  have tidy (early : s.stage.serving = none) := (h.early early).step early a
  constructor
  · exact valid
  · exact effect.linked h.linked
  · intro sock has
    cases at_ : s.stage.serving with
    | some sock' =>
      have still := Listening.socket_of_serving ((serves_step at_ a).serving at_)
      cases has.symm.trans still
      exact effect.table.given (h.given _ (Listening.socket_of_serving at_))
    | none => exact (tidy at_).given valid sock has
  · exact moves.clients h.clients
  · exact moves.unborn h.unborn
  · intro early
    cases at_ : s.stage.serving with
    | some sock => cases early.symm.trans ((serves_step at_ a).serving at_)
    | none => exact tidy at_

theorem sound_run (as : List Act) : (run as).Sound :=
  Run.invariant Sound sound_initial sound_step as

/-- However the threads take turns, the process does what a process can do, its connections
are numbered 0, 1, 2 and so on as they are accepted, and no number is given twice: the proxy
with the number does not exist before. -/
theorem connections_numbered (as : List Act) : ∃ acts : List Process.Action,
    (run as).process = Process.run acts ∧
    acts.filterMap Process.Action.accepted = List.range (run as).requestID ∧
    (run as).clients.length = (run as).requestID ∧
    ∀ p i n junk, p ++ [.accept i n junk] <+: acts →
      ((Process.run p).proxies i).life = .unborn ∧ (Process.run p).table.slot n = none := by
  induction as using List.reverseRecOn with
  | nil => exact ⟨[], rfl, rfl, rfl, by simp⟩
  | append_singleton as a ih =>
    obtain ⟨acts, process, numbers, clients, effective⟩ := ih
    have moves := moves_step (run as) a
    have count := (sound_run (as ++ [a])).clients
    have sound := sound_run as
    have last : run (as ++ [a]) = (run as).step a := Run.foldl_snoc as a initial
    have ran (act : Process.Action) : Process.run (acts ++ [act]) = (Process.run acts).step act :=
      Run.foldl_snoc acts act Process.initial
    rw [last] at count ⊢
    cases moves with
    | stays process' requestID =>
      exact ⟨acts, process'.trans process, requestID ▸ numbers, count, effective⟩
    | acts act other process' requestID =>
      refine ⟨acts ++ [act], ?_, ?_, count, ?_⟩
      · rw [process', process, ran]
      · have none : act.accepted = none := by
          cases act with
          | accept i n junk => exact absurd rfl (other i n junk)
          | _ => rfl
        rw [List.filterMap_append, numbers, requestID]
        simp [none]
      · intro p i n junk h
        rcases List.prefix_concat_iff.mp h with whole | before
        · exact absurd (List.append_inj' whole rfl).2 (by simpa using (other i n junk).symm)
        · exact effective p i n junk before
    | accepts n junk ip free process' requestID =>
      refine ⟨acts ++ [.accept (run as).requestID n junk], ?_, ?_, count, ?_⟩
      · rw [process', process, ran]
      · rw [List.filterMap_append, numbers, requestID, List.range_succ]
        rfl
      · intro p i m junk' h
        rcases List.prefix_concat_iff.mp h with whole | before
        · obtain ⟨rfl, same⟩ := List.append_inj' whole rfl
          cases same
          rw [← process]
          exact ⟨(sound.unborn _).mpr (Nat.le_refl _), free⟩
        · exact effective p i m junk' before

/-! ## The listening socket -/

/-- No proxy has the number of the listening socket for its own. -/
def Apart (s : Server) : Prop :=
  ∀ sock, s.stage.serving = some sock → ∀ i, (s.process.proxies i).Avoids sock.number

theorem Tidy.apart (h : s.Tidy) : s.Apart := by
  intro sock _ i
  rw [h.none]
  exact ⟨nofun, List.not_mem_nil⟩

theorem apart_step {a : Act} (sound : s.Sound) (apart : s.Apart) (opened : s.Open) :
    (s.step a).Apart := by
  cases at_ : s.stage.serving with
  | some sock =>
    obtain ⟨act, effect⟩ := (moves_step s a).effect
    have same := (serves_step at_ a).serving at_
    intro sock' at' i
    cases same.symm.trans at'
    exact effect.avoids (opened sock (Listening.socket_of_serving at_)) (apart sock at_) i
  | none => exact ((sound.early at_).step at_ a).apart

/-- What the other threads do to the listening socket. -/
theorem hears_acts_iff {sock : Socket} (linked : s.process.Linked)
    (avoids : ∀ i, (s.process.proxies i).Avoids sock.number) (at_ : s.stage.serving = some sock)
    (hears : s.Hears sock) {a : Process.Action} (other : Elsewhere sock a) :
    (s.process.step a).table.slot sock.number = some ⟨sock.serial, none⟩ ↔
      ¬ s.Deafens (.threads a) := by
  constructor
  · intro still deafens
    cases a with
    | closeServer i =>
      obtain ⟨sock', at', closing, _, same, used⟩ := deafens
      cases at_.symm.trans at'
      rw [Process.step, if_pos closing] at still
      change (s.process.lastClose i).slot sock.number = _ at still
      rw [Process.lastClose, same, if_pos used, Handles.Table.shuts_some hears] at still
      simp at still
    | _ => exact deafens
  · intro spared
    refine (Process.effect_step ..).slot hears fun closes => ?_
    cases a with
    | closeClient i => exact (avoids i).1 closes.1 closes.2
    | closeServer i =>
      obtain ⟨closing, same, used⟩ := closes
      refine spared ⟨sock, at_, closing, fun n connected => (avoids i).2 ?_, same, used⟩
      rw [connected, ← same, linked i n connected]
      exact List.mem_cons_self
    | othersClose n => exact other closes
    | _ => exact closes

theorem open_step_iff (a : Act) (sound : s.Sound) (apart : s.Apart) (opened : s.Open) :
    (s.step a).Open ↔ ¬ s.Deafens a := by
  cases at_ : s.stage.serving with
  | some sock =>
    have hears : s.Hears sock := opened sock (Listening.socket_of_serving at_)
    have serves := serves_step at_ a
    have has := Listening.socket_of_serving (serves.serving at_)
    have one : (s.step a).Open ↔ (s.step a).Hears sock := by
      rw [Open, has]
      simp
    rw [one]
    generalize s.step a = s' at serves
    cases serves with
    | ignored | enters | fails => exact iff_of_true hears not_false
    | accepts _ free =>
      refine iff_of_true ?_ not_false
      exact (Process.effect_step ..).slot hears not_false
    | @barred b mine =>
      refine iff_of_true hears fun deafens => ?_
      cases b with
      | closeServer i => exact mine trivial
      | _ => exact deafens
    | acts other => exact hears_acts_iff sound.linked (apart sock at_) at_ hears other
  | none =>
    refine iff_of_true ((sound.early at_).step at_ a).open fun deafens => ?_
    cases a with
    | main r => exact deafens
    | threads a =>
      cases a with
      | closeServer i =>
        obtain ⟨sock, at', _⟩ := deafens
        cases at_.symm.trans at'
      | _ => exact deafens

/-- The proxy listens as long as no destructor of a proxy that is not connected has found the
number of the listening socket in its `server_des`: nothing else closes that socket. -/
theorem listens_iff (as : List Act) :
    (∀ p, p <+: as → (run p).Open) ↔ ∀ p a, p ++ [a] <+: as → ¬ (run p).Deafens a :=
  Run.good_iff_while (fun s => s.Sound ∧ s.Apart) ⟨sound_initial, tidy_initial.apart⟩
    tidy_initial.open
    (fun s a inv opened _ => ⟨sound_step s a inv.1, apart_step inv.1 inv.2 opened⟩)
    (fun _ a inv opened => open_step_iff a inv.1 inv.2 opened) as

/-- The listening socket has been closed. -/
def Deaf (s : Server) : Prop := ∃ sock, s.stage.serving = some sock ∧
  s.process.table.Past sock.number ⟨sock.serial, none⟩

/-- How many calls of `accept` hold the listening socket. -/
def pending (s : Server) : Nat :=
  match s.stage with
  | .waiting _ => 1
  | _ => 0

theorem deaf_of_closed (sound : s.Sound) (closed : ¬ s.Open) : s.Deaf := by
  cases at_ : s.stage.serving with
  | some sock =>
    have has := Listening.socket_of_serving at_
    refine ⟨sock, at_, sound.given sock has, fun hears => closed fun sock' has' => ?_⟩
    cases has.symm.trans has'
    exact hears
  | none => exact absurd (sound.early at_).open closed

/-- The call that holds the socket may return a connection, and no other call gets to hold it. -/
theorem deaf_step {a : Act} (h : s.Deaf) : (s.step a).Deaf ∧
    s.requestID ≤ (s.step a).requestID ∧
    (s.step a).requestID + (s.step a).pending ≤ s.requestID + s.pending := by
  obtain ⟨sock, at_, past⟩ := h
  have serves := serves_step at_ a
  have still := serves.serving at_
  generalize s.step a = s' at serves still
  cases serves with
  | ignored | barred => exact ⟨⟨sock, at_, past⟩, Nat.le_refl _, Nat.le_refl _⟩
  | enters _ hears => exact absurd hears past.2
  | fails => exact ⟨⟨sock, rfl, past⟩, Nat.le_refl _, Nat.le_add_right _ _⟩
  | accepts held =>
    refine ⟨⟨sock, rfl, (Process.effect_step ..).table.past past⟩, Nat.le_succ _, ?_⟩
    rw [pending, pending, held]
    exact Nat.le_refl _
  | acts =>
    exact ⟨⟨sock, still, (Process.effect_step ..).table.past past⟩, Nat.le_refl _, Nat.le_refl _⟩

/-- Once the listening socket has been closed, the call of `accept` that is in progress may
return one connection, and no call returns another, even if the number is given to something
else. -/
theorem accepts_no_more (as bs : List Act) (closed : ¬ (run as).Open) :
    (run as).requestID ≤ (run (as ++ bs)).requestID ∧
      (run (as ++ bs)).requestID + (run (as ++ bs)).pending ≤
        (run as).requestID + (run as).pending := by
  have deaf := deaf_of_closed (sound_run as) closed
  have whole : run (as ++ bs) = bs.foldl step (run as) := List.foldl_append ..
  rw [whole]
  exact (Run.invariant (fun s : Server => s.Deaf ∧ (run as).requestID ≤ s.requestID ∧
      s.requestID + s.pending ≤ (run as).requestID + (run as).pending)
    ⟨deaf, Nat.le_refl _, Nat.le_refl _⟩
    (fun s a inv => by
      obtain ⟨deaf, more, fewer⟩ := deaf_step (a := a) inv.1
      exact ⟨deaf, Nat.le_trans inv.2.1 more, Nat.le_trans fewer inv.2.2⟩) bs).2

/-- A 400 for the first client, with the number of the listening socket in `server_des`, while
the next `accept` waits. -/
def deafened : List Act :=
  [.main (.addrinfo (some 1)), .main (.socket (some 3)), .main (.bind true),
    .main (.listen true), .main .enter, .main (.accept (some (4, ⟨127, 0, 0, 1⟩)) 3),
    .main .enter, .threads (.closeClient 0), .threads (.closeServer 0)]

/-- Two more clients, the second one after the call that was waiting has returned. -/
def comeLate : List Act :=
  [.main (.accept (some (5, ⟨127, 0, 0, 1⟩)) 0), .main .enter,
    .main (.accept (some (6, ⟨127, 0, 0, 1⟩)) 0)]

theorem deafened_closed : ¬ (run deafened).Open := by
  intro opened
  have hears := opened ⟨3, 0⟩ rfl
  have gone : (run deafened).process.table.slot 3 = none := by decide +kernel
  cases gone.symm.trans hears

theorem accepts_no_more_deafened : 1 ≤ (run (deafened ++ comeLate)).requestID ∧
    (run (deafened ++ comeLate)).requestID + (run (deafened ++ comeLate)).pending ≤ 2 :=
  accepts_no_more deafened comeLate deafened_closed

/-- The first one is served, the second one is not. -/
example : (run (deafened ++ comeLate)).requestID = 2 := by decide +kernel

end Server

end HttpProxy
