import Mathlib.Data.List.Chain
import HttpProxy.Listen

/-!
# A text without its newline

The text that `proxyListen` logs for a connection it could not accept does not end, so what
is logged next continues its line. `log_reads_back_iff`: with the listening thread among those
that log, the lines of a connection can be read back unless one of them was logged directly
behind such a text.
-/

namespace HttpProxy

open Locked

/-! ## What the listening thread logs -/

/-- The texts of `proxyListen`. -/
def listenTexts : List Bytes :=
  [str "(no-id): ERROR cannot get address info for host \n",
    str "(no-id): ERROR cannot create socket \n",
    str "(no-id): ERROR cannot bind socket \n",
    str "(no-id): ERROR selectserver failed to bind \n",
    str "(no-id): ERROR cannot listen on socket \n",
    failedAccept]

namespace Server

theorem logged_advance (s : Server) (left : Nat) {m : Bytes} (hm : m ∈ (s.advance left).logged) :
    m ∈ s.logged ∨ m ∈ listenTexts := by
  cases left with
  | zero =>
    rcases List.mem_append.mp hm with hm | hm
    · exact .inl hm
    · exact .inr (List.mem_singleton.mp hm ▸ by decide)
  | succ left => exact .inl hm

theorem logged_step {s : Server} (a : Act) {m : Bytes} (hm : m ∈ (s.step a).logged) :
    m ∈ s.logged ∨ m ∈ listenTexts := by
  have logs {t : Server} {text : Bytes} (known : text ∈ listenTexts) (hm : m ∈ (t.log text).logged) :
      m ∈ t.logged ∨ m ∈ listenTexts := by
    rcases List.mem_append.mp hm with hm | hm
    · exact .inl hm
    · exact .inr (List.mem_singleton.mp hm ▸ known)
  have fails {t : Server} {text : Bytes} {left : Nat} (known : text ∈ listenTexts)
      (hm : m ∈ ((t.log text).advance left).logged) : m ∈ t.logged ∨ m ∈ listenTexts := by
    rcases logged_advance _ left hm with hm | hm
    · exact logs known hm
    · exact .inr hm
  cases a with
  | threads a =>
    rw [step] at hm
    split at hm
    · split_ifs at hm <;> exact .inl hm
    · exact .inl hm
  | main r =>
    rw [step] at hm
    unfold proxyListen at hm
    split at hm
    · exact logs (by decide) hm
    · exact logged_advance _ _ hm
    · exact fails (by decide) hm
    · split_ifs at hm <;> exact .inl hm
    · have found := fails (by decide) hm
      exact found
    · exact .inl hm
    · exact logs (by decide) hm
    · exact .inl hm
    · split_ifs at hm
      · exact .inl hm
      · exact logs (by decide) hm
    · have found := logs (by decide) hm
      exact found
    · split_ifs at hm <;> exact .inl hm
    · exact .inl hm

theorem logged_run (as : List Act) : ∀ m ∈ (run as).logged, m ∈ listenTexts :=
  Run.invariant (fun s : Server => ∀ m ∈ s.logged, m ∈ listenTexts)
    (fun _ hm => absurd hm List.not_mem_nil)
    (fun _ a inv m hm => (logged_step a hm).elim (inv m) id) as

end Server

/-! ## Lines that go on -/

/-- Those of the messages with this mark that begin a line, where `glued` says whether the
last line is unfinished. -/
def unglued (uid : Nat) : Bool → List Bytes → List Bytes
  | _, [] => []
  | glued, m :: ms =>
    if m = failedAccept then unglued uid true ms
    else (if ¬ glued ∧ mark uid <+: m then [m] else []) ++ unglued uid false ms

theorem unmarked_failedAccept (uid : Nat) : ¬ mark uid <+: failedAccept := by
  have split : failedAccept = str "(no-id)" ++ str ": Failed to estblish connection with client" :=
    rfl
  rw [split]
  exact mark_unnumbered

section
variable {uid : Nat} {glued : Bool} {ms : List Bytes}

theorem unglued_sublist :
    (unglued uid glued ms).Sublist (ms.filter (mark uid).isPrefixOf) := by
  induction ms generalizing glued with
  | nil => exact .slnil
  | cons m ms ih =>
    rw [unglued]
    split_ifs with failed begins
    · exact ih.trans ((List.sublist_cons_self m ms).filter _)
    · rw [List.filter_cons_of_pos (List.isPrefixOf_iff_prefix.mpr begins.2)]
      exact ih.cons_cons m
    · exact ih.trans ((List.sublist_cons_self m ms).filter _)

/-- None is missing just when none of them comes directly behind an unfinished line. -/
theorem unglued_eq_iff : unglued uid glued ms = ms.filter (mark uid).isPrefixOf ↔
    (if glued then failedAccept :: ms else ms).IsChain
      fun m m' => m = failedAccept → ¬ mark uid <+: m' := by
  induction ms generalizing glued with
  | nil => cases glued <;> simp [unglued]
  | cons m ms ih =>
    by_cases failed : m = failedAccept
    · subst failed
      have skip : ¬ (mark uid).isPrefixOf failedAccept :=
        List.isPrefixOf_iff_prefix.not.mpr (unmarked_failedAccept uid)
      rw [unglued, if_pos rfl, List.filter_cons_of_neg skip, ih]
      cases glued <;> simp [unmarked_failedAccept]
    · have free : (m :: ms).IsChain (fun m m' => m = failedAccept → ¬ mark uid <+: m') ↔
          ms.IsChain fun m m' => m = failedAccept → ¬ mark uid <+: m' := by
        rw [List.isChain_cons]
        exact and_iff_right fun _ _ same => absurd same failed
      have later := @ih false
      rw [if_neg Bool.false_ne_true] at later
      rw [unglued, if_neg failed]
      by_cases marked : mark uid <+: m
      · rw [List.filter_cons_of_pos (List.isPrefixOf_iff_prefix.mpr marked)]
        cases glued with
        | true =>
          refine iff_of_false (fun same => ?_) ?_
          · have shorter := (@unglued_sublist uid false ms).length_le
            simp only [not_true, false_and, if_false, List.nil_append] at same
            rw [same, List.length_cons] at shorter
            omega
          · rw [if_pos rfl, List.isChain_cons_cons]
            exact fun h => h.1 rfl marked
        | false =>
          rw [if_neg Bool.false_ne_true, free, ← later]
          simp [marked]
      · have skip : ¬ (mark uid).isPrefixOf m := List.isPrefixOf_iff_prefix.not.mpr marked
        rw [List.filter_cons_of_neg skip, if_neg fun h => marked h.2, List.nil_append, later, ← free]
        cases glued <;> simp [marked]

/-- Behind an unfinished line, and where no line is unfinished. -/
theorem linesOf_glued {ms : List Bytes} (entries : ∀ m ∈ ms, m = failedAccept ∨ IsEntry m)
    {front : Bytes} (plain : Unbroken front) (begun : glued → ∃ text, front = str "(no-id)" ++ text)
    (fresh : ¬ glued → front = []) :
    linesOf uid (front ++ ms.flatten) = (unglued uid glued ms).map lineOf := by
  have unmarked (h : glued) (rest : Bytes) : ¬ mark uid <+: front ++ rest := by
    obtain ⟨text, rfl⟩ := begun h
    rw [List.append_assoc]
    exact mark_unnumbered
  induction ms generalizing glued front with
  | nil =>
    by_cases h : glued
    · have skip : ¬ (mark uid).isPrefixOf front := by
        simpa [List.isPrefixOf_iff_prefix] using unmarked h []
      rw [List.flatten_nil, List.append_nil, linesOf, List.splitOn_eq_singleton plain,
        List.filter_cons_of_neg skip]
      rfl
    · rw [fresh h]
      exact linesOf_nil uid
  | cons m ms ih =>
    obtain ⟨first, later⟩ := List.forall_mem_cons.mp entries
    rw [List.flatten_cons, ← List.append_assoc, unglued]
    by_cases failed : m = failedAccept
    · have text : failedAccept = str "(no-id)" ++ str ": Failed to estblish connection with client" :=
        rfl
      have goesOn : ∃ text, front ++ m = str "(no-id)" ++ text := by
        by_cases h : glued
        · obtain ⟨text, rfl⟩ := begun h
          exact ⟨text ++ m, List.append_assoc ..⟩
        · rw [fresh h, failed, text]
          exact ⟨_, rfl⟩
      have still : Unbroken (front ++ m) := unbroken_append.mpr ⟨plain, failed ▸ by decide⟩
      rw [if_pos failed]
      refine ih later still (fun _ => goesOn) (fun h => absurd rfl h) fun _ rest => ?_
      obtain ⟨text, same⟩ := goesOn
      rw [same, List.append_assoc]
      exact mark_unnumbered
    · obtain ⟨line, more, unbroken, hmore, rfl⟩ := first.resolve_left failed
      have entry : IsEntry (front ++ (line ++ str "\n" ++ more)) :=
        ⟨front ++ line, more, unbroken_append.mpr ⟨plain, unbroken⟩, hmore, by simp⟩
      have rest : linesOf uid ([] ++ ms.flatten) = (unglued uid false ms).map lineOf :=
        ih later (by decide) (fun h => absurd h Bool.false_ne_true) (fun _ => rfl)
          fun h => absurd h Bool.false_ne_true
      rw [List.nil_append] at rest
      rw [linesOf_entry uid entry, if_neg failed, List.map_append, rest]
      by_cases h : glued
      · rw [if_neg (unmarked h _), if_neg fun both => both.1 h]
        rfl
      · rw [fresh h, List.nil_append]
        by_cases marked : mark uid <+: line ++ str "\n" ++ more
        · rw [if_pos marked, if_pos ⟨h, marked⟩]
          rfl
        · rw [if_neg marked, if_neg fun both => marked both.2]
          rfl
end

theorem listenTexts_entry {m : Bytes} (hm : m ∈ listenTexts) : m = failedAccept ∨ IsEntry m := by
  have ends : ∀ m ∈ listenTexts, m = failedAccept ∨ EndsLine m := by decide +kernel
  exact (ends m hm).imp_right fun h => isEntry_append (by decide : Unbroken []) h

theorem listenTexts_unmarked {m : Bytes} (hm : m ∈ listenTexts) (uid : Nat) : ¬ mark uid <+: m := by
  have unnumbered : ∀ m ∈ listenTexts, str "(no-id)" <+: m := by decide +kernel
  obtain ⟨text, rfl⟩ := unnumbered m hm
  exact mark_unnumbered

/-- As `log_reads_back`, with the listening thread as thread `main`, in a run in which it has
given the connections their numbers. The lines of a connection can be read back, all of them,
just when none of them was logged directly behind a connection that could not be accepted. -/
theorem log_reads_back_iff (flush : Flush) (script : Nat → List Bytes) (before : Bytes)
    (lines : before = [] ∨ before.getLast? = some (ch '\n')) (as : List Server.Act) (main : Nat)
    (listens : script main = (Server.run as).logged)
    (writes : ∀ i, i ≠ main → ∀ m ∈ script i, ∃ l : LogLine, ∃ ip,
      (Server.run as).clients[i]? = some ip ∧ l.Clean ∧ l.Writes i ip m)
    {s : State LogFile Bytes LogStmt Unit}
    (h : (logCode flush).Follows script (.start (some before)) s) (unlocked : s.locked = false)
    (uid : Nat) : ∃ file, s.shared = some file ∧
      (linesOf uid file =
          linesOf uid before ++ ((s.made uid).filter (mark uid).isPrefixOf).map lineOf ↔
        s.calls.IsChain fun c c' => c.op = failedAccept → ¬ mark uid <+: c'.op) := by
  have known {c : Locked.Call Bytes Unit} (hc : c ∈ s.calls) (hmain : c.thread = main) :
      c.op ∈ listenTexts := by
    have hop := LogFile.scripted h hc
    rw [hmain, listens] at hop
    exact Server.logged_run as c.op hop
  have entries : ∀ m ∈ s.calls.map Call.op, m = failedAccept ∨ IsEntry m := by
    intro m hm
    obtain ⟨c, hc, rfl⟩ := List.mem_map.mp hm
    by_cases hmain : c.thread = main
    · exact listenTexts_entry (known hc hmain)
    · obtain ⟨l, ip, _, clean, text⟩ := writes _ hmain _ (LogFile.scripted h hc)
      exact .inr (text.isEntry clean)
  have owner : ∀ c ∈ s.calls, mark uid <+: c.op → uid = c.thread := by
    intro c hc front
    by_cases hmain : c.thread = main
    · exact absurd front (listenTexts_unmarked (known hc hmain) uid)
    · obtain ⟨l, ip, _, _, text⟩ := writes _ hmain _ (LogFile.scripted h hc)
      exact text.owner front
  have read : linesOf uid ([] ++ (s.calls.map Call.op).flatten) =
      (unglued uid false (s.calls.map Call.op)).map lineOf :=
    linesOf_glued entries (by decide) nofun fun _ => rfl
  rw [List.nil_append] at read
  refine ⟨before ++ (s.calls.map Call.op).flatten, LogFile.of_unlocked h unlocked, ?_⟩
  have mine : s.made uid = (s.calls.filter (·.thread = uid)).map Call.op := rfl
  rw [linesOf_append uid lines, read, List.append_cancel_left_eq, mine, ← filter_calls uid owner]
  have whole := @unglued_eq_iff uid false (s.calls.map Call.op)
  rw [if_neg Bool.false_ne_true, List.isChain_map] at whole
  rw [← whole]
  constructor
  · intro same
    have length := congrArg List.length same
    rw [List.length_map, List.length_map] at length
    exact unglued_sublist.eq_of_length length
  · exact congrArg (List.map lineOf)

/-- The first connection is accepted, the second one is not. -/
def oneAccepted : List Server.Act :=
  [.main (.addrinfo (some 1)), .main (.socket (some 3)), .main (.bind true),
    .main (.listen true), .main .enter, .main (.accept (some (4, ⟨127, 0, 0, 1⟩)) 0),
    .main .enter, .main (.accept none 0)]

def oneScript : Nat → List Bytes
  | 0 => [str "0: not in cache\n"]
  | 1 => [failedAccept]
  | _ => []

/-- The connection calls `log` while the listening thread is in it. -/
def oneLogged : State LogFile Bytes LogStmt Unit :=
  ([1, 0, 1, 1, 1, 1, 1, 0, 0, 0, 0, 0].foldlM ((logCode fun _ => 0).follow oneScript)
    (.start (some []))).get (by decide +kernel)

theorem oneLogged_follows : (logCode fun _ => 0).Follows oneScript (.start (some [])) oneLogged :=
  Code.follows_of_schedule (Option.some_get _).symm

/-- The line is in the file, but not as a line of the connection. -/
theorem log_reads_back_iff_one : ∃ file, oneLogged.shared = some file ∧
    linesOf 0 file ≠ [str "0: not in cache"] := by
  have writes : ∀ i, i ≠ 1 → ∀ m ∈ oneScript i, ∃ l : LogLine, ∃ ip,
      (Server.run oneAccepted).clients[i]? = some ip ∧ l.Clean ∧ l.Writes i ip m := by
    intro i other m hm
    match i with
    | 0 =>
      cases List.mem_singleton.mp hm
      exact ⟨.notInCache, _, rfl, by decide, .notInCache⟩
    | 1 => exact absurd rfl other
    | i + 2 => cases hm
  obtain ⟨file, same, read⟩ := log_reads_back_iff (fun _ => 0) oneScript [] (.inl rfl) oneAccepted 1
    rfl writes oneLogged_follows rfl 0
  refine ⟨file, same, fun lines => ?_⟩
  rw [linesOf_nil] at read
  have chain := read.mp lines
  have calls : oneLogged.calls.map Call.op = [failedAccept, str "0: not in cache\n"] := by
    decide +kernel
  have behind : (oneLogged.calls.map Call.op).IsChain
      fun m m' => m = failedAccept → ¬ mark 0 <+: m' := (List.isChain_map Call.op).mpr chain
  rw [calls, List.isChain_cons_cons] at behind
  exact behind.1 rfl (by decide)

end HttpProxy
