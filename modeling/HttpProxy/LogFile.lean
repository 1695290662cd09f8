import HttpProxy.Base.Locked
import HttpProxy.Bytes

/-!
# The log file

`log`, statement by statement. Every thread opens the file to append, inserts its message
and closes the file, with `logLock` held from the first to the last of these. `log_whole`: in
every interleaving the messages stand whole in the file, each once, and those of a thread in
the order in which it logs them.
-/

namespace HttpProxy

open Locked

/-- The content of the file, if it can be opened. -/
abbrev LogFile := Option Bytes

def LogFile.append (file : LogFile) (bs : Bytes) : LogFile := file.map (· ++ bs)

/-- The next statement of `log`; `opened` says whether `logfile` has a file. -/
inductive LogStmt where
  | opens (msg : Bytes)
  | inserts (msg : Bytes) (opened : Bool)
  | closes (buffer : Bytes) (opened : Bool)
  | unlocks

/-- What an insertion writes to the file at once. The rest of a message stays in the buffer
of the stream until `close`. -/
abbrev Flush := Bytes → Nat

def logStmt (flush : Flush) : LogStmt → LogFile → Option (Outcome LogFile LogStmt Unit)
  | .opens msg, file => some (.next (.inserts msg file.isSome) file)
  | .inserts msg opened, file =>
    if opened then
      some (.next (.closes (msg.drop (flush msg)) opened) (file.append (msg.take (flush msg))))
    else some (.next (.closes [] opened) file)
  | .closes buffer opened, file =>
    some (.next .unlocks (if opened then file.append buffer else file))
  | .unlocks, file => some (.unlock () file)

/-- `log`, which locks `logLock` first. -/
def logCode (flush : Flush) : Code LogFile Bytes LogStmt Unit where
  enter := .opens
  stmt := logStmt flush

namespace LogFile

variable {flush : Flush} {file file' : LogFile} {msg : Bytes}

@[simp] theorem append_nil (file : LogFile) : file.append [] = file := by
  cases file <;> simp [append]

@[simp] theorem append_append (file : LogFile) (bs bs' : Bytes) :
    (file.append bs).append bs' = file.append (bs ++ bs') := by
  cases file <;> simp [append]

/-- The part of the message that is in the file before the statement. -/
inductive Midway (file : LogFile) (msg : Bytes) : LogStmt → LogFile → Prop
  | opens : Midway file msg (.opens msg) file
  | inserts : Midway file msg (.inserts msg file.isSome) file
  | closes {part buffer : Bytes} (whole : part ++ buffer = msg) :
      Midway file msg (.closes buffer file.isSome) (file.append part)
  | unlocks : Midway file msg .unlocks (file.append msg)

theorem Midway.next {l l' : LogStmt} {file₁ file₂ : LogFile} (h : file.Midway msg l file₁)
    (runs : logStmt flush l file₁ = some (.next l' file₂)) : file.Midway msg l' file₂ := by
  cases h with
  | opens =>
    cases runs
    exact .inserts
  | inserts =>
    cases file with
    | none =>
      cases runs
      exact @Midway.closes none msg msg [] (List.append_nil msg)
    | some bs =>
      cases runs
      exact .closes (List.take_append_drop ..)
  | @closes part buffer whole =>
    cases file with
    | none =>
      cases runs
      exact .unlocks
    | some bs =>
      cases runs
      dsimp only [Option.isSome_some, if_true]
      rw [append_append, whole]
      exact .unlocks
  | unlocks => cases runs

theorem midway_of_part {l : LogStmt} (h : (logCode flush).Part (.opens msg) file l file') :
    file.Midway msg l file' := by
  induction h with
  | here => exact .opens
  | next _ runs ih => exact ih.next runs

/-- A message that is being written is there in part. -/
theorem Midway.part {l : LogStmt} (h : file.Midway msg l file') :
    ∃ part, part <+: msg ∧ file' = file.append part := by
  cases h with
  | opens => exact ⟨[], List.nil_prefix, (append_nil file).symm⟩
  | inserts => exact ⟨[], List.nil_prefix, (append_nil file).symm⟩
  | @closes part buffer whole => exact ⟨part, ⟨buffer, whole⟩, rfl⟩
  | unlocks => exact ⟨msg, List.prefix_rfl, rfl⟩

theorem Midway.whole {l : LogStmt} {file₁ : LogFile} {r : Unit} (h : file.Midway msg l file₁)
    (body : (logCode flush).Body l file₁ r file') : file' = file.append msg := by
  induction body with
  | unlock runs =>
    cases h with
    | opens => cases runs
    | inserts => cases file <;> cases runs
    | closes => cases runs
    | unlocks =>
      cases runs
      rfl
  | next runs _ ih => exact ih (h.next runs)

/-- Messages that are logged one after the other. -/
theorem of_serial {calls : List (Locked.Call Bytes Unit)} (h : (logCode flush).Serial file calls file') :
    file' = file.append (calls.map Call.op).flatten := by
  induction h with
  | nil => exact (append_nil file).symm
  | snoc _ body ih =>
    rw [Midway.opens.whole body, ih, append_append]
    simp

def rank : LogStmt → Nat
  | .opens _ => 3
  | .inserts _ _ => 2
  | .closes _ _ => 1
  | .unlocks => 0

theorem logCode_ends (flush : Flush) : (logCode flush).Ends (fun _ => True) rank where
  defined op s l t _ part := by
    cases midway_of_part part with
    | opens => exact nofun
    | inserts => cases s <;> exact nofun
    | closes => exact nofun
    | unlocks => exact nofun
  nearer l l' s t runs := by
    cases l with
    | opens => cases runs; exact Nat.lt_succ_self 2
    | inserts msg opened => cases opened <;> (cases runs; exact Nat.lt_succ_self 1)
    | closes => cases runs; exact Nat.lt_succ_self 0
    | unlocks => cases runs
  keeps _ _ _ _ _ _ := trivial

/-- What is in the file while the lock is free. -/
theorem of_unlocked {script : Nat → List Bytes} {s : State LogFile Bytes LogStmt Unit}
    (h : (logCode flush).Follows script (.start file) s) (unlocked : s.locked = false) :
    s.shared = file.append (s.calls.map Call.op).flatten := by
  cases Code.consistent_of_reaches (Code.reaches_of_follows h) with
  | held locked =>
    rw [unlocked] at locked
    cases locked
  | free _ serial _ => exact of_serial serial

/-- What a thread has logged is in its script. -/
theorem scripted {script : Nat → List Bytes} {s : State LogFile Bytes LogStmt Unit}
    (h : (logCode flush).Follows script (.start file) s) {c : Locked.Call Bytes Unit}
    (hc : c ∈ s.calls) : c.op ∈ script c.thread := by
  apply ((List.prefix_append ..).trans (Code.made_prefix h c.thread)).subset
  exact List.mem_map.mpr ⟨c, List.mem_filter.mpr ⟨hc, by simp⟩, rfl⟩

end LogFile

/-- In every interleaving of any number of threads, each of which logs the messages of its
script, the file has the messages whole and in the order of their unlocks, behind what was in
it before, and no more than the beginning of one other message, while the lock is held. No
message of a script is lost, repeated or overtaken: a thread is somewhere in its script, and
the threads can stop only at the ends of their scripts. -/
theorem log_whole (flush : Flush) (script : Nat → List Bytes) (before : LogFile)
    {s : State LogFile Bytes LogStmt Unit} (h : (logCode flush).Follows script (.start before) s) :
    (∃ part, s.shared = before.append ((s.calls.map Call.op).flatten ++ part) ∧
      (s.locked = false → part = []) ∧ ∀ i msg l, s.threads i = .inside msg l → part <+: msg) ∧
    (∀ i, s.made i <+: script i) ∧
    ((∀ s', ¬ (logCode flush).Next script s s') → ∀ i, s.made i = script i) := by
  refine ⟨?_, fun i => (List.prefix_append ..).trans (Code.made_prefix h i),
    fun stuck => (LogFile.logCode_ends flush).finished trivial h stuck⟩
  cases Code.consistent_of_reaches (Code.reaches_of_follows h) with
  | free unlocked serial none =>
    refine ⟨[], ?_, fun _ => rfl, fun i msg l at_ => absurd at_ (none i msg l)⟩
    rw [LogFile.of_serial serial, List.append_nil]
  | @held k op l t locked serial at_ part only =>
    obtain ⟨part, front, same⟩ := (LogFile.midway_of_part part).part
    refine ⟨part, ?_, fun unlocked => ?_, fun i msg l' at' => ?_⟩
    · rw [same, LogFile.of_serial serial, LogFile.append_append]
    · rw [unlocked] at locked
      cases locked
    · cases only i msg l' at'
      cases at_.symm.trans at'
      exact front

/-- Two threads with a message each. -/
def twoScripts : Nat → List Bytes
  | 0 => [str "0: not in cache\n"]
  | 1 => [str "1: Tunnel closed \n"]
  | _ => []

/-- The second thread calls while the first one is in `log`. -/
def twoLogged : State LogFile Bytes LogStmt Unit :=
  ([0, 0, 0, 1, 0, 0, 0, 1, 1, 1, 1, 1].foldlM ((logCode fun _ => 3).follow twoScripts)
    (.start (some []))).get (by decide +kernel)

theorem twoLogged_follows : (logCode fun _ => 3).Follows twoScripts (.start (some [])) twoLogged :=
  Code.follows_of_schedule (Option.some_get _).symm

theorem log_whole_two : ∃ part, twoLogged.shared =
    LogFile.append (some []) ((twoLogged.calls.map Call.op).flatten ++ part) ∧ part = [] := by
  obtain ⟨part, same, whole, _⟩ := (log_whole _ twoScripts _ twoLogged_follows).1
  exact ⟨part, same, whole rfl⟩

end HttpProxy
