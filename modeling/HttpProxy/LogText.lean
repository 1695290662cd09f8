import HttpProxy.LogFile
import HttpProxy.Printed

/-!
# What the log says

The text of each log line, and what the lines of one connection look like among those of all
the others. `log_reads_back`: as long as no text that a log line quotes has a newline in it,
the lines that begin with a connection's number are those that it has logged, in order.
-/

namespace HttpProxy

open Locked

/-! ## Times -/

/-- `struct tm`, as far as `asctime` reads it. -/
structure Tm where
  sec : Nat
  min : Nat
  hour : Nat
  mday : Nat
  mon : Nat
  year : Int
  wday : Nat
  deriving DecidableEq, Repr

/-- `gmtime`. The years are counted from March on, in eras of 400. -/
def gmtime (time : Int) : Tm :=
  let days := time / 86400
  let second := (time % 86400).toNat
  let era := (days + 719468) / 146097
  let doe := ((days + 719468) % 146097).toNat
  let yoe := (doe - doe / 1460 + doe / 36524 - doe / 146096) / 365
  let doy := doe - (365 * yoe + yoe / 4 - yoe / 100)
  let mp := (5 * doy + 2) / 153
  { sec := second % 60
    min := second / 60 % 60
    hour := second / 3600
    mday := doy - (153 * mp + 2) / 5 + 1
    mon := if mp < 10 then mp + 2 else mp - 10
    year := era * 400 + yoe + if mp < 10 then 0 else 1
    wday := ((days + 4) % 7).toNat }

def padLeft (c : Char) (width : Nat) (bs : Bytes) : Bytes :=
  List.replicate (width - bs.length) (ch c) ++ bs

def wdayNames : List Bytes :=
  [str "Sun", str "Mon", str "Tue", str "Wed", str "Thu", str "Fri", str "Sat"]

def monNames : List Bytes :=
  [str "Jan", str "Feb", str "Mar", str "Apr", str "May", str "Jun", str "Jul", str "Aug",
    str "Sep", str "Oct", str "Nov", str "Dec"]

def asctime (tm : Tm) : Bytes :=
  wdayNames.getD tm.wday (str "???") ++ str " " ++ monNames.getD tm.mon (str "???") ++
    padLeft ' ' 3 (showNat tm.mday) ++ str " " ++ padLeft '0' 2 (showNat tm.hour) ++ str ":" ++
    padLeft '0' 2 (showNat tm.min) ++ str ":" ++ padLeft '0' 2 (showNat tm.sec) ++ str " " ++
    showInt tm.year ++ str "\n"

def parseTime (time : Int) : Bytes := asctime (gmtime time)

example : parseTime 0 = str "Thu Jan  1 00:00:00 1970\n" := by decide +kernel
example : parseTime 1709210096 = str "Thu Feb 29 12:34:56 2024\n" := by decide +kernel

/-! ## The texts -/

/-- An IPv4 address, byte by byte. -/
structure Ip where
  a : UInt8
  b : UInt8
  c : UInt8
  d : UInt8

/-- `inet_ntoa`. -/
def Ip.text (ip : Ip) : Bytes :=
  showNat ip.a.toNat ++ str "." ++ showNat ip.b.toNat ++ str "." ++ showNat ip.c.toNat ++ str "." ++
    showNat ip.d.toNat

/-- What begins each line of a connection. -/
def mark (uid : Nat) : Bytes := showNat uid ++ str ": "

/-- The text that `log` is called with, where the connection has this number and address. An
eviction has a text for each of the two places that log it, and so has an expiry. -/
inductive LogLine.Writes (uid : Nat) (ip : Ip) : LogLine → Bytes → Prop
  | noAddressInfo : Writes uid ip .noAddressInfo
      (mark uid ++ str "ERROR cannot get the address info from the host \n")
  | noSocket : Writes uid ip .noSocket (mark uid ++ str "ERROR cannot create socket for host\n")
  | cannotConnect : Writes uid ip .cannotConnect
      (mark uid ++ str "ERROR cannot connect to the socket \n")
  | established : Writes uid ip (.responding (str "HTTP/1.1 200 OK"))
      (mark uid ++ str "Responding \"HTTP/1.1 200 OK\" \n")
  | responding (line : Bytes) : Writes uid ip (.responding line)
      (mark uid ++ str "Responding \"" ++ line ++ str "\"\n")
  | requesting (line host : Bytes) : Writes uid ip (.requesting line host)
      (mark uid ++ str "Requesting \"" ++ line ++ str "\" from " ++ host ++ str "\n")
  | received (line host : Bytes) : Writes uid ip (.received line host)
      (mark uid ++ str "Received \"" ++ line ++ str "\" from " ++ host ++ str "\n")
  | notInCache : Writes uid ip .notInCache (mark uid ++ str "not in cache\n")
  | expired (t : Int) : Writes uid ip (.expiredAt t)
      (mark uid ++ str "in cache, but expired at " ++ parseTime t)
  | expiredByAge (t : Int) : Writes uid ip (.expiredAt t)
      (mark uid ++ str "in cache, but expired at " ++ parseTime t ++ str "\n")
  | requiresValidation : Writes uid ip .requiresValidation
      (mark uid ++ str "in cache, requires validation\n")
  | valid : Writes uid ip .valid (mark uid ++ str "in cache, valid\n")
  | evictedByFetch (url : Bytes) : Writes uid ip (.evicted url)
      (str "(no-id): NOTE evicted" ++ url ++ str "from cache\n")
  | evictedByRenewal (url : Bytes) : Writes uid ip (.evicted url)
      (str "(no-id): NOTE evicted" ++ url ++ str " from cache \r\n")
  | noteEtags (etags : Bytes) : Writes uid ip (.noteEtags etags)
      (mark uid ++ str "Note Etags: " ++ etags ++ str "\n")
  | noteCacheControl (value : Bytes) : Writes uid ip (.noteCacheControl value)
      (mark uid ++ str "Note Cache-Control: " ++ value ++ str "\n")
  | notCacheable (reason : Bytes) : Writes uid ip (.notCacheable reason)
      (mark uid ++ str "not cacheable because " ++ reason ++ str "\n")
  | cachedRevalidate : Writes uid ip .cachedRevalidate
      (mark uid ++ str "cached, but requires re-validation \n")
  | cachedNoExpiry : Writes uid ip .cachedNoExpiry
      (mark uid ++ str "cached, expires at Not Declared\n")
  | cachedExpiresAt (t : Int) : Writes uid ip (.cachedExpiresAt t)
      (mark uid ++ str "cached, expires at " ++ parseTime t)
  | invalidRequest : Writes uid ip .invalidRequest
      (mark uid ++ str "Warning invalid request received \n")
  | accepted (line : Bytes) (t : Int) : Writes uid ip (.accepted line)
      (mark uid ++ str "\"" ++ line ++ str "\" from " ++ ip.text ++ str " @ " ++ parseTime t)
  | cannotSendBack : Writes uid ip .cannotSendBack
      (mark uid ++ str "ERROR cannot send back to client \n")
  | cannotSelect : Writes uid ip .cannotSelect (mark uid ++ str "ERROR cannot select \n")
  | tunnelClosed : Writes uid ip .tunnelClosed (mark uid ++ str "Tunnel closed \n")

/-- The texts from elsewhere that a log line quotes. -/
def LogLine.quotes : LogLine → List Bytes
  | .responding line => [line]
  | .requesting line host => [line, host]
  | .received line host => [line, host]
  | .evicted url => [url]
  | .noteEtags etags => [etags]
  | .noteCacheControl value => [value]
  | .notCacheable reason => [reason]
  | .accepted line => [line]
  | _ => []

/-- No newline in it. -/
def Unbroken (bs : Bytes) : Prop := ch '\n' ∉ bs

instance : DecidablePred Unbroken := fun _ => inferInstanceAs (Decidable (¬ _))

def LogLine.Clean (l : LogLine) : Prop := ∀ bs ∈ l.quotes, Unbroken bs

instance : DecidablePred LogLine.Clean := fun _ => inferInstanceAs (Decidable (∀ _ ∈ _, _))

/-! ## Lines -/

theorem unbroken_append {a b : Bytes} : Unbroken (a ++ b) ↔ Unbroken a ∧ Unbroken b := by
  simp [Unbroken]

theorem unbroken_showNat (n : Nat) : Unbroken (showNat n) := by
  intro h
  have digit := (numeral_showNat n).2.1 _ h
  revert digit
  decide

theorem unbroken_showInt (v : Int) : Unbroken (showInt v) := by
  unfold showInt
  split_ifs
  · simpa [Unbroken] using ⟨by decide, unbroken_showNat v.natAbs⟩
  · exact unbroken_showNat _

theorem unbroken_padLeft {c : Char} (h : ch c ≠ ch '\n') (width : Nat) {bs : Bytes} (hbs : Unbroken bs) :
    Unbroken (padLeft c width bs) := by
  refine unbroken_append.mpr ⟨fun hmem => ?_, hbs⟩
  exact h (List.eq_of_mem_replicate hmem).symm

theorem unbroken_getD {names : List Bytes} (h : ∀ n ∈ names, Unbroken n) (i : Nat) {d : Bytes}
    (hd : Unbroken d) : Unbroken (names.getD i d) := by
  rw [List.getD_eq_getElem?_getD]
  cases found : names[i]? with
  | none => exact hd
  | some n => exact h n (List.mem_of_getElem? found)

/-- A time ends with the only newline in it. -/
theorem asctime_line (tm : Tm) : ∃ text, Unbroken text ∧ asctime tm = text ++ str "\n" := by
  refine ⟨_, ?_, rfl⟩
  have two (n : Nat) : Unbroken (padLeft '0' 2 (showNat n)) :=
    unbroken_padLeft (by decide) 2 (unbroken_showNat n)
  have day : Unbroken (padLeft ' ' 3 (showNat tm.mday)) :=
    unbroken_padLeft (by decide) 3 (unbroken_showNat _)
  have wday : Unbroken (wdayNames.getD tm.wday (str "???")) :=
    unbroken_getD (by decide) tm.wday (by decide)
  have mon : Unbroken (monNames.getD tm.mon (str "???")) :=
    unbroken_getD (by decide) tm.mon (by decide)
  have blank : Unbroken (str " ") := by decide
  have colon : Unbroken (str ":") := by decide
  simp only [unbroken_append, wday, mon, day, two, blank, colon, unbroken_showInt, and_self]

theorem unbroken_ip (ip : Ip) : Unbroken ip.text := by
  have dot : Unbroken (str ".") := by decide
  simp only [Ip.text, unbroken_append, unbroken_showNat, dot, and_self]

theorem unbroken_mark (uid : Nat) : Unbroken (mark uid) :=
  unbroken_append.mpr ⟨unbroken_showNat uid, by decide⟩

/-- A line with its end, and possibly an empty line behind it. -/
def IsEntry (m : Bytes) : Prop :=
  ∃ line more, Unbroken line ∧ (more = [] ∨ more = str "\n") ∧ m = line ++ str "\n" ++ more

/-- A text that ends with the only newline in it. -/
def EndsLine (bs : Bytes) : Prop := Unbroken bs.dropLast ∧ bs.getLast? = some (ch '\n')

instance : DecidablePred EndsLine := fun _ => inferInstanceAs (Decidable (_ ∧ _))

theorem endsLine_iff {bs : Bytes} : EndsLine bs ↔ ∃ text, Unbroken text ∧ bs = text ++ str "\n" := by
  have newline : str "\n" = [ch '\n'] := rfl
  rw [newline]
  constructor
  · rintro ⟨plain, last⟩
    exact ⟨bs.dropLast, plain, (List.dropLast_append_getLast? _ last).symm⟩
  · rintro ⟨text, plain, rfl⟩
    exact ⟨by rwa [List.dropLast_concat], List.getLast?_concat ..⟩

theorem endsLine_parseTime (t : Int) : EndsLine (parseTime t) := endsLine_iff.mpr (asctime_line _)

theorem isEntry_append {front back : Bytes} (h : Unbroken front) (ends : EndsLine back) :
    IsEntry (front ++ back) := by
  obtain ⟨text, plain, rfl⟩ := endsLine_iff.mp ends
  exact ⟨front ++ text, [], unbroken_append.mpr ⟨h, plain⟩, .inl rfl, by simp⟩

namespace LogLine

variable {uid : Nat} {ip : Ip} {l : LogLine} {m : Bytes}

/-- Nothing but its quotes can break a line. -/
theorem Writes.isEntry (h : l.Writes uid ip m) (clean : l.Clean) : IsEntry m := by
  have marked {text : Bytes} (ht : Unbroken text) : Unbroken (mark uid ++ text) :=
    unbroken_append.mpr ⟨unbroken_mark uid, ht⟩
  have quoted {front quote : Bytes} (hf : Unbroken front) (hq : Unbroken quote) :
      Unbroken (front ++ quote) := unbroken_append.mpr ⟨hf, hq⟩
  cases h with
  | noAddressInfo | noSocket | cannotConnect | established | notInCache | requiresValidation | valid
  | cachedRevalidate | cachedNoExpiry | invalidRequest | cannotSendBack | cannotSelect
  | tunnelClosed => exact isEntry_append (unbroken_mark uid) (by decide)
  | responding line | noteEtags line | noteCacheControl line | notCacheable line =>
    have hline := clean line List.mem_cons_self
    exact isEntry_append (quoted (marked (by decide)) hline) (by decide)
  | requesting line host | received line host =>
    have hline := clean line List.mem_cons_self
    have hhost := clean host (List.mem_cons_of_mem _ List.mem_cons_self)
    exact isEntry_append (quoted (quoted (quoted (marked (by decide)) hline) (by decide)) hhost)
      (by decide)
  | expired t | cachedExpiresAt t =>
    exact isEntry_append (marked (by decide)) (endsLine_parseTime t)
  | expiredByAge t =>
    obtain ⟨text, plain, same⟩ := asctime_line (gmtime t)
    rw [parseTime, same, ← List.append_assoc]
    exact ⟨_, str "\n", quoted (marked (by decide)) plain, .inr rfl, rfl⟩
  | evictedByFetch url | evictedByRenewal url =>
    have hurl := clean url List.mem_cons_self
    exact isEntry_append (quoted (by decide) hurl) (by decide)
  | accepted line t =>
    have hline := clean line List.mem_cons_self
    exact isEntry_append (quoted (quoted (quoted (quoted (marked (by decide)) hline) (by decide))
      (unbroken_ip ip)) (by decide)) (endsLine_parseTime t)

/-- A line is marked with the number of its connection, or with none. -/
theorem Writes.marked (h : l.Writes uid ip m) :
    (∃ text, m = mark uid ++ text) ∨ ∃ text, m = str "(no-id)" ++ text := by
  cases h with
  | noAddressInfo | noSocket | cannotConnect | established | notInCache | requiresValidation | valid
  | cachedRevalidate | cachedNoExpiry | invalidRequest | cannotSendBack | cannotSelect
  | tunnelClosed => exact .inl ⟨_, rfl⟩
  | responding | noteEtags | noteCacheControl | notCacheable | requesting | received | expired
  | expiredByAge | cachedExpiresAt | accepted => exact .inl ⟨_, by simp only [List.append_assoc]; rfl⟩
  | evictedByFetch url => exact .inr ⟨str ": NOTE evicted" ++ url ++ str "from cache\n", rfl⟩
  | evictedByRenewal url =>
    exact .inr ⟨str ": NOTE evicted" ++ url ++ str " from cache \r\n", rfl⟩

end LogLine

/-! ## Whose line it is -/

theorem leadingDigits_stop {base : Nat} {c : UInt8} (h : digitVal base c = none) (t rest : Bytes) :
    leadingDigits base (t ++ c :: rest) = leadingDigits base t := by
  induction t with
  | nil => simp [leadingDigits, h]
  | cons a t ih =>
    rw [List.cons_append, leadingDigits, leadingDigits, ih]

/-- The number can be read off the mark. -/
theorem mark_inj {u v : Nat} {text : Bytes} (h : mark u <+: mark v ++ text) : u = v := by
  obtain ⟨rest, same⟩ := h
  have read (n : Nat) (t : Bytes) : digitsValue 10 (leadingDigits 10 (mark n ++ t)) = n := by
    have colon : mark n ++ t = showNat n ++ ch ':' :: (str " " ++ t) := by
      simp [mark, str]
    rw [colon, leadingDigits_stop (by decide)]
    exact (numeral_showNat n).2.2
  rw [← read u rest, same, read v text]

theorem mark_unnumbered {u : Nat} {text : Bytes} (h : mark u <+: str "(no-id)" ++ text) : False := by
  obtain ⟨some, digits, _⟩ := numeral_showNat u
  obtain ⟨c, t, same⟩ := List.exists_cons_of_ne_nil some
  rw [mark, same, List.cons_append] at h
  have first := (List.cons_prefix_cons.mp h).1
  have digit := digits c (same ▸ List.mem_cons_self)
  rw [first] at digit
  revert digit
  decide

theorem LogLine.Writes.owner {uid u : Nat} {ip : Ip} {l : LogLine} {m : Bytes}
    (h : l.Writes uid ip m) (front : mark u <+: m) : u = uid := by
  obtain ⟨text, rfl⟩ | ⟨text, rfl⟩ := h.marked
  · exact mark_inj front
  · exact (mark_unnumbered front).elim

/-! ## Reading the file -/

/-- The lines of a connection in a file. -/
def linesOf (uid : Nat) (file : Bytes) : List Bytes :=
  (file.splitOn (ch '\n')).filter (mark uid).isPrefixOf

/-- A message up to its first newline. -/
def lineOf (m : Bytes) : Bytes := m.takeWhile (· ≠ ch '\n')

theorem front_of_line {front line : Bytes} (hf : Unbroken front) (more : Bytes) :
    front <+: line ++ ch '\n' :: more ↔ front <+: line := by
  constructor
  · intro h
    rcases List.prefix_or_prefix_of_prefix h (List.prefix_append line (ch '\n' :: more)) with
      short | ⟨t, rfl⟩
    · exact short
    · have rest := (List.prefix_append_right_inj line).mp h
      cases t with
      | nil => exact ⟨[], by simp⟩
      | cons c t =>
        obtain rfl := (List.cons_prefix_cons.mp rest).1
        exact absurd (List.mem_append_right line List.mem_cons_self) hf
  · exact fun h => h.trans (List.prefix_append ..)

theorem linesOf_cons (uid : Nat) {line : Bytes} (h : Unbroken line) (rest : Bytes) :
    linesOf uid (line ++ ch '\n' :: rest) =
      (if mark uid <+: line then [line] else []) ++ linesOf uid rest := by
  rw [linesOf, List.splitOn_append_cons_self_of_not_mem h, List.filter_cons, linesOf]
  simp only [List.isPrefixOf_iff_prefix]
  split_ifs <;> rfl

/-- An empty line is nobody's. -/
theorem linesOf_nil (uid : Nat) : linesOf uid [] = [] := by
  rw [linesOf, List.splitOn_nil, List.filter_eq_nil_iff]
  intro line hline
  rw [List.mem_singleton.mp hline, List.isPrefixOf_iff_prefix, List.prefix_nil]
  simp [mark, str]

/-- Behind whole lines the lines of a text are its own. -/
theorem linesOf_append (uid : Nat) {before : Bytes}
    (whole : before = [] ∨ before.getLast? = some (ch '\n')) (text : Bytes) :
    linesOf uid (before ++ text) = linesOf uid before ++ linesOf uid text := by
  rcases whole with rfl | last
  · rw [linesOf_nil, List.nil_append, List.nil_append]
  · obtain ⟨front, rfl⟩ : ∃ front, before = front ++ [ch '\n'] :=
      ⟨_, (List.dropLast_append_getLast? _ last).symm⟩
    have ends (rest : Bytes) : linesOf uid (front ++ ch '\n' :: rest) =
        linesOf uid front ++ linesOf uid rest := by
      rw [linesOf, List.splitOn_append_cons_self, List.filter_append, linesOf, linesOf]
    rw [List.append_assoc, List.singleton_append, ends, ends, linesOf_nil, List.append_nil]

theorem linesOf_newline (uid : Nat) (rest : Bytes) :
    linesOf uid (ch '\n' :: rest) = linesOf uid rest := by
  have split : (ch '\n' :: rest).splitOn (ch '\n') = [] :: rest.splitOn (ch '\n') :=
    List.splitOn_append_cons_self [] rest
  have blank := linesOf_nil uid
  rw [linesOf, List.splitOn_nil] at blank
  rw [linesOf, split, ← List.singleton_append, List.filter_append, blank, List.nil_append, linesOf]

theorem linesOf_entry (uid : Nat) {m : Bytes} (entry : IsEntry m) (rest : Bytes) :
    linesOf uid (m ++ rest) =
      (if mark uid <+: m then [lineOf m] else []) ++ linesOf uid rest := by
  obtain ⟨line, more, plain, hmore, rfl⟩ := entry
  have split : line ++ str "\n" ++ more ++ rest = line ++ ch '\n' :: (more ++ rest) := by
    simp [str]
  have whole : line ++ str "\n" ++ more = line ++ ch '\n' :: more := by simp [str]
  have first : lineOf (line ++ ch '\n' :: more) = line := by
    have all : ∀ c ∈ line, decide (c ≠ ch '\n') = true := by
      intro c hc
      exact decide_eq_true fun same => plain (same ▸ hc)
    rw [lineOf, List.takeWhile_append_of_pos all, List.takeWhile_cons_of_neg (by simp),
      List.append_nil]
  rw [split, linesOf_cons uid plain, whole, first]
  simp only [front_of_line (unbroken_mark uid)]
  rcases hmore with rfl | rfl
  · rfl
  · exact congrArg (_ ++ ·) (linesOf_newline uid rest)

theorem linesOf_flatten (uid : Nat) {ms : List Bytes} (entries : ∀ m ∈ ms, IsEntry m) :
    linesOf uid ms.flatten = (ms.filter (mark uid).isPrefixOf).map lineOf := by
  induction ms with
  | nil => exact linesOf_nil uid
  | cons m ms ih =>
    obtain ⟨first, later⟩ := List.forall_mem_cons.mp entries
    rw [List.flatten_cons, linesOf_entry uid first, ih later, List.filter_cons]
    simp only [List.isPrefixOf_iff_prefix]
    split_ifs <;> rfl

/-- Of the calls that all threads have made, those are marked with a number that have been
made by the thread with this number and are marked. -/
theorem filter_calls {calls : List (Locked.Call Bytes Unit)} (uid : Nat)
    (owner : ∀ c ∈ calls, mark uid <+: c.op → uid = c.thread) :
    (calls.map Call.op).filter (mark uid).isPrefixOf =
      ((calls.filter (·.thread = uid)).map Call.op).filter (mark uid).isPrefixOf := by
  rw [List.filter_map, List.filter_map, List.filter_filter]
  refine congrArg (List.map Call.op) (List.filter_congr fun c hc => ?_)
  by_cases front : mark uid <+: c.op
  · simp [owner c hc front]
  · simp [List.isPrefixOf_iff_prefix, front]

/-- Each connection's lines can be read back. Where every thread logs texts of log lines
with no newline in what they quote, and no thread is in `log`, the lines of the file that
are marked with a connection's number are those that were there before, and then the lines
that this connection has logged, whole and in order, however the threads took turns. -/
theorem log_reads_back (flush : Flush) (ip : Nat → Ip) (script : Nat → List Bytes) (before : Bytes)
    (lines : before = [] ∨ before.getLast? = some (ch '\n'))
    (writes : ∀ i, ∀ m ∈ script i, ∃ l : LogLine, l.Clean ∧ l.Writes i (ip i) m)
    {s : State LogFile Bytes LogStmt Unit}
    (h : (logCode flush).Follows script (.start (some before)) s) (unlocked : s.locked = false)
    (uid : Nat) : ∃ file, s.shared = some file ∧ linesOf uid file =
      linesOf uid before ++ ((s.made uid).filter (mark uid).isPrefixOf).map lineOf := by
  have scripted : ∀ c ∈ s.calls, ∃ l : LogLine, l.Clean ∧ l.Writes c.thread (ip c.thread) c.op := by
    intro c hc
    exact writes c.thread c.op (LogFile.scripted h hc)
  have entries : ∀ m ∈ s.calls.map Call.op, IsEntry m := by
    intro m hm
    obtain ⟨c, hc, rfl⟩ := List.mem_map.mp hm
    obtain ⟨l, clean, text⟩ := scripted c hc
    exact text.isEntry clean
  have owner : ∀ c ∈ s.calls, mark uid <+: c.op → uid = c.thread := by
    intro c hc front
    obtain ⟨l, _, text⟩ := scripted c hc
    exact text.owner front
  refine ⟨before ++ (s.calls.map Call.op).flatten, LogFile.of_unlocked h unlocked, ?_⟩
  rw [linesOf_append uid lines, linesOf_flatten uid entries, filter_calls uid owner]
  rfl

theorem log_reads_back_two : ∃ file, twoLogged.shared = some file ∧
    linesOf 0 file = [str "0: not in cache"] := by
  have writes : ∀ i, ∀ m ∈ twoScripts i, ∃ l : LogLine, l.Clean ∧ l.Writes i ⟨127, 0, 0, 1⟩ m := by
    intro i m hm
    match i with
    | 0 =>
      cases List.mem_singleton.mp hm
      exact ⟨.notInCache, by decide, .notInCache⟩
    | 1 =>
      cases List.mem_singleton.mp hm
      exact ⟨.tunnelClosed, by decide, .tunnelClosed⟩
    | i + 2 => cases hm
  obtain ⟨file, same, read⟩ := log_reads_back (fun _ => 3) (fun _ => ⟨127, 0, 0, 1⟩) twoScripts []
    (.inl rfl) writes twoLogged_follows rfl 0
  refine ⟨file, same, read.trans ?_⟩
  rw [linesOf_nil]
  rfl

end HttpProxy
