import HttpProxy.Freshness

/-!
# What `checkExpire` makes of the headers

`Unexpired` says of a list of headers what `checkExpire` is to answer for the object
read from them. `expiry_iff` says when it does: the object marks an absent Expires by 0
and an unreadable one by -1, and both are instants as well.
-/

namespace HttpProxy

/-! ## What the headers say -/

/-- The max-age a header gives. -/
def givesMaxAge (it : HeaderItem) : Option Nat :=
  if it.name = str "Cache-Control" then
    match findNumber (str "max-age=") it.value with
    | .ok n => if 0 ≤ n then some n.toNat else none
    | .error _ => none
  else none

/-- The expiry a header gives: an instant, or `none` for one that counts as past. -/
def givesExpiry (libc : Libc) (it : HeaderItem) : Option (Option Int) :=
  if it.name = str "Expires" then
    some (if it.value = str "-1" then none else libc.strptime it.value)
  else none

/-- A Date header makes the proxy note the time. -/
def notesDate (libc : Libc) (it : HeaderItem) : Option Int :=
  if it.name = str "Date" then some libc.time else none

def maxAgeGiven (headers : List HeaderItem) : Option Nat :=
  (headers.filterMap givesMaxAge).getLast?

def expiryGiven (libc : Libc) (headers : List HeaderItem) : Option (Option Int) :=
  (headers.filterMap (givesExpiry libc)).getLast?

def dateNoted (libc : Libc) (headers : List HeaderItem) : Int :=
  ((headers.filterMap (notesDate libc)).getLast?).getD 0

/-- The age is below the smallest of the max-ages given, if any is. -/
def Young (libc : Libc) (headers : List HeaderItem) (rm : Option Nat) (now : Int) : Prop :=
  ∀ m, ((maxAgeGiven headers).toList ++ rm.toList).min? = some m →
    now - dateNoted libc headers < m

structure Unexpired (libc : Libc) (headers : List HeaderItem) (rm : Option Nat) (now : Int) :
    Prop where
  young : Young libc headers rm now
  undue : ∀ e, expiryGiven libc headers = some e → ∃ t, e = some t ∧ now < t

/-! ## What the object keeps of it -/

namespace HttpResponse

theorem readCacheControl_maxAge {r r' : HttpResponse} {it : HeaderItem}
    (hcc : it.name = str "Cache-Control") (h : r.readCacheControl it.value = .ok r') :
    r'.maxAge = ((givesMaxAge it).map Nat.cast).getD r.maxAge ∧ r'.expires = r.expires ∧
      r'.date = r.date := by
  unfold readCacheControl at h
  rw [givesMaxAge, if_pos hcc]
  cases hn : findNumber (str "max-age=") it.value with
  | error e => rw [hn] at h; cases h
  | ok n =>
    rw [hn] at h
    cases h
    refine ⟨?_, ?_, ?_⟩
    · simp only [apply_ite HttpResponse.maxAge, ite_self]
      by_cases hpos : 0 ≤ n
      · simp [hpos]
      · simp [hpos]
    · simp only [apply_ite HttpResponse.expires, ite_self]
    · simp only [apply_ite HttpResponse.date, ite_self]

/-- What one header does to the three fields `checkExpire` reads. -/
theorem readHeader_writes {libc : Libc} {r r' : HttpResponse} {it : HeaderItem}
    (h : readHeader libc r it = .ok r') :
    r'.maxAge = ((givesMaxAge it).map Nat.cast).getD r.maxAge ∧
      r'.expires = ((givesExpiry libc it).map (·.getD (-1))).getD r.expires ∧
      r'.date = ((notesDate libc it).map id).getD r.date := by
  unfold readHeader at h
  by_cases hcc : it.name = str "Cache-Control"
  · rw [if_pos hcc] at h
    obtain ⟨hm, he, hd⟩ := readCacheControl_maxAge hcc h
    have noExpiry : givesExpiry libc it = none := by rw [givesExpiry, hcc]; rfl
    have noDate : notesDate libc it = none := by rw [notesDate, hcc]; rfl
    rw [noExpiry, noDate]
    exact ⟨hm, he, hd⟩
  · have noMaxAge : givesMaxAge it = none := if_neg hcc
    rw [if_neg hcc] at h
    rw [noMaxAge]
    by_cases hex : it.name = str "Expires"
    · have noDate : notesDate libc it = none := by rw [notesDate, hex]; rfl
      rw [if_pos hex] at h
      rw [noDate, givesExpiry, if_pos hex]
      by_cases hpast : it.value = str "-1"
      · rw [if_pos hpast] at h ⊢
        cases h
        exact ⟨rfl, rfl, rfl⟩
      · rw [if_neg hpast] at h ⊢
        cases h
        refine ⟨rfl, ?_, rfl⟩
        simp only [stringTotime]
        cases libc.strptime it.value <;> rfl
    · have noExpiry : givesExpiry libc it = none := if_neg hex
      rw [if_neg hex] at h
      rw [noExpiry]
      by_cases hdate : it.name = str "Date"
      · rw [if_pos hdate] at h
        cases h
        rw [notesDate, if_pos hdate]
        exact ⟨rfl, rfl, rfl⟩
      · rw [if_neg hdate] at h
        rw [notesDate, if_neg hdate]
        split_ifs at h <;> cases h <;> exact ⟨rfl, rfl, rfl⟩

/-- The fields hold what the last headers said. -/
theorem getCacheExpire_writes {libc : Libc} {r r' : HttpResponse} {headers : List HeaderItem}
    (h : r.getCacheExpire libc headers = .ok r') :
    r'.maxAge = ((maxAgeGiven headers).map Nat.cast).getD r.maxAge ∧
      r'.expires = ((expiryGiven libc headers).map (·.getD (-1))).getD r.expires ∧
      r'.date = (((headers.filterMap (notesDate libc)).getLast?).map id).getD r.date := by
  refine ⟨?_, ?_, ?_⟩
  · exact Fold.foldlM_last (·.maxAge) _ _ (fun _ _ _ h => (readHeader_writes h).1) h
  · exact Fold.foldlM_last (·.expires) _ _ (fun _ _ _ h => (readHeader_writes h).2.1) h
  · exact Fold.foldlM_last (·.date) _ _ (fun _ _ _ h => (readHeader_writes h).2.2) h

end HttpResponse

/-! ## The verdict -/

/-- A max-age as both objects keep it. -/
def kept (maxAge : Option Nat) : Int := (maxAge.map Nat.cast).getD (-1)

/-- `checkExpire`'s own minimum is the one over the max-ages given. -/
theorem below_minMaxAge (a b : Option Nat) (age : Int) :
    (age < minMaxAge (kept a) (kept b) ∨ minMaxAge (kept a) (kept b) = -1) ↔
      ∀ m, (a.toList ++ b.toList).min? = some m → age < m := by
  cases a with
  | none =>
    cases b with
    | none => simp [kept, minMaxAge]
    | some n =>
      simp [kept, minMaxAge]
      omega
  | some m =>
    cases b with
    | none =>
      simp [kept, minMaxAge]
      omega
    | some n =>
      simp [kept, minMaxAge]
      omega

/-- An Expires header that means something else to the comparison with the clock than it
says: the instant 0, kept like no header at all, and one that counts as past, kept as -1. -/
def Confused (libc : Libc) (headers : List HeaderItem) (now : Int) : Prop :=
  expiryGiven libc headers = some (some 0) ∧ 0 ≤ now ∨
    expiryGiven libc headers = some none ∧ now < -1

/-- `checkExpire` answers what the headers say, unless their Expires is confused and the
max-ages leave the verdict to it. -/
theorem expiry_iff {libc : Libc} {lineRecv httpVer status : Bytes} {statusCode : Nat}
    {headers : List HeaderItem} {r : Ref} {c : LruCache Ref} {url : Bytes} (rm : Option Nat)
    (now : Int)
    (hread : HttpResponse.getCacheExpire libc { lineRecv, httpVer, statusCode, status } headers
      = .ok r.obj)
    (stored : c.lookup url = some r) :
    (c.checkExpire url (kept rm) now = false ↔ Unexpired libc headers rm now) ↔
      (Young libc headers rm now → ¬ Confused libc headers now) := by
  obtain ⟨hm, he, hd⟩ := HttpResponse.getCacheExpire_writes hread
  have maxAge : r.obj.maxAge = kept (maxAgeGiven headers) := hm
  have date : r.obj.date = dateNoted libc headers := by
    rw [hd, Option.map_id]
    rfl
  have verdict : c.checkExpire url (kept rm) now = false ↔
      Young libc headers rm now ∧ (now < r.obj.expires ∨ r.obj.expires = 0) := by
    rw [checkExpire_eq stored, Young, ← below_minMaxAge, ← maxAge, ← date]
    simp only [expired, Bool.not_eq_false', Bool.and_eq_true, Bool.or_eq_true, decide_eq_true_eq]
  have spec : Unexpired libc headers rm now ↔ Young libc headers rm now ∧
      ∀ e, expiryGiven libc headers = some e → ∃ t, e = some t ∧ now < t :=
    ⟨fun h => ⟨h.young, h.undue⟩, fun h => ⟨h.1, h.2⟩⟩
  rw [verdict, spec, he, Confused, and_congr_right_iff]
  apply forall_congr'
  intro _
  cases expiryGiven libc headers with
  | none => simp
  | some e =>
    cases e with
    | none => simp
    | some t =>
      simp
      omega

/-- A clock for which one text is a date, the first instant of 1970. -/
def epochLibc : Libc where
  time := 0
  strptime v := if v = str "Thu, 01 Jan 1970 00:00:00 GMT" then some 0 else none
  memory := 2 ^ 40

def expiresAtEpoch : List HeaderItem :=
  [⟨str "Cache-Control", str "max-age=10"⟩,
    ⟨str "Expires", str "Thu, 01 Jan 1970 00:00:00 GMT"⟩]

/-- The entry made from `expiresAtEpoch`, alone in a cache. -/
def epochEntry : Ref := ⟨0, { lineRecv := [], maxAge := 10, cacheCtrl := str "max-age=10" }⟩

def epochCache : LruCache Ref := (St.holding (str "k") epochEntry {}).cache

theorem expiry_iff_epoch :
    (epochCache.checkExpire (str "k") (kept (some 3)) 5 = false ↔
      Unexpired epochLibc expiresAtEpoch (some 3) 5) ↔
      (Young epochLibc expiresAtEpoch (some 3) 5 → ¬ Confused epochLibc expiresAtEpoch 5) :=
  @expiry_iff epochLibc [] [] [] 0 expiresAtEpoch epochEntry epochCache (str "k") (some 3) 5
    (by decide) (lookup_holding _ _ _)

/-- Five seconds after its Expires the entry counts as unexpired. -/
theorem expiresAtEpoch_unnoticed :
    HttpResponse.getCacheExpire epochLibc { lineRecv := [] } expiresAtEpoch = .ok epochEntry.obj ∧
      epochCache.lookup (str "k") = some epochEntry ∧
      epochCache.checkExpire (str "k") (kept none) 5 = false ∧
      ¬ Unexpired epochLibc expiresAtEpoch none 5 := by
  have stored : epochCache.lookup (str "k") = some epochEntry := lookup_holding _ _ _
  refine ⟨by decide, stored, ?_, fun h => ?_⟩
  · rw [checkExpire_eq stored]
    decide
  · have given : expiryGiven epochLibc expiresAtEpoch = some (some 0) := by decide
    obtain ⟨t, ht, hlt⟩ := h.undue _ given
    cases ht
    exact absurd hlt (by decide)

end HttpProxy
