import HttpProxy.Completion
import HttpProxy.Rejected

/-!
# Request directives

What a client writes into Cache-Control, and what `getHostIp` reads out of it. Every
directive is looked for by a search of its own through the whole value. No word is found
in another directive, nor across a comma, so the searches find what was written
(`getHostIp_directives`).
-/

namespace HttpProxy

inductive Directive where
  | noCache
  | noStore
  | noTransform
  | onlyIfCached
  | mustRevalidate
  | maxAge (n : Nat)
  | maxStale (n : Nat)
  | minFresh (n : Nat)
  deriving DecidableEq, Repr

namespace Directive

def word : Directive → Bytes
  | noCache => str "no-cache"
  | noStore => str "no-store"
  | noTransform => str "no-transform"
  | onlyIfCached => str "only-if-cached"
  | mustRevalidate => str "must-revalidate"
  | maxAge _ => str "max-age="
  | maxStale _ => str "max-stale="
  | minFresh _ => str "min-fresh="

/-- All of them. -/
def words : List Bytes :=
  [str "no-cache", str "no-store", str "no-transform", str "only-if-cached", str "must-revalidate",
    str "max-age=", str "max-stale=", str "min-fresh="]

theorem word_mem (d : Directive) : d.word ∈ words := by
  cases d <;> simp [word, words]

def number : Directive → Option Nat
  | maxAge n | maxStale n | minFresh n => some n
  | noCache | noStore | noTransform | onlyIfCached | mustRevalidate => none

/-- The directive in writing, its number in decimal. -/
def Text (d : Directive) (t : Bytes) : Prop :=
  (d.number = none ∧ t = d.word) ∨
    ∃ n digits, d.number = some n ∧ Numeral 10 digits n ∧ t = d.word ++ digits

/-- The number that a directive gives under this word. -/
def numberOf (word : Bytes) (d : Directive) : Option Nat := if d.word = word then d.number else none

end Directive

/-- A value that lists these directives, with a comma or a comma and a blank between them. -/
inductive Lists : List Directive → Bytes → Prop
  | nil : Lists [] []
  | last {d : Directive} {t : Bytes} (h : d.Text t) : Lists [d] t
  | comma {d : Directive} {ds : List Directive} {t u : Bytes} (h : d.Text t) (rest : Lists ds u) :
      Lists (d :: ds) (t ++ ch ',' :: u)
  | blank {d : Directive} {ds : List Directive} {t u : Bytes} (h : d.Text t) (rest : Lists ds u) :
      Lists (d :: ds) (t ++ ch ',' :: ch ' ' :: u)

/-- Headers over which these directives are spread. -/
inductive Spread : List Directive → List HeaderItem → Prop
  | nil : Spread [] []
  | other {ds : List Directive} {its : List HeaderItem} {it : HeaderItem}
      (h : it.name ≠ str "Cache-Control") (rest : Spread ds its) : Spread ds (it :: its)
  | control {ds ds' : List Directive} {its : List HeaderItem} {value : Bytes}
      (h : Lists ds value) (rest : Spread ds' its) :
      Spread (ds ++ ds') (⟨str "Cache-Control", value⟩ :: its)

/-- No directive with a number twice, and numbers that an `int` holds. -/
structure Legible (ds : List Directive) : Prop where
  once : ∀ word ∈ numbered, (ds.filterMap (Directive.numberOf word)).length ≤ 1
  small : ∀ d ∈ ds, ∀ n ∈ d.number, n ≤ 2147483647

theorem Legible.left {ds ds' : List Directive} (h : Legible (ds ++ ds')) : Legible ds := by
  refine ⟨fun word hw => ?_, fun d hd => h.small d (List.mem_append_left _ hd)⟩
  have both := h.once word hw
  rw [List.filterMap_append, List.length_append] at both
  omega

theorem Legible.right {ds ds' : List Directive} (h : Legible (ds ++ ds')) : Legible ds' := by
  refine ⟨fun word hw => ?_, fun d hd => h.small d (List.mem_append_right _ hd)⟩
  have both := h.once word hw
  rw [List.filterMap_append, List.length_append] at both
  omega

/-! ## One directive -/

/-- The words that `getHostIp` looks for, each with the byte it ends in. -/
def searched : List (Bytes × UInt8) :=
  [(str "no-cach", ch 'e'), (str "must-revalidat", ch 'e'), (str "max-age", ch '='),
    (str "max-stale", ch '='), (str "min-fresh", ch '=')]

theorem searched_plain : ∀ p ∈ searched, ch ',' ∉ p.1 ++ [p.2] ∧ ch ' ' ∉ p.1 ++ [p.2] ∧
    digitVal 10 p.2 = none := by
  decide

theorem digit_plain {digits : Bytes} {n : Nat} (h : Numeral 10 digits n) :
    ch ',' ∉ digits ∧ ch '\r' ∉ digits := by
  obtain ⟨_, all, _⟩ := h
  exact ⟨fun hc => absurd (all _ hc) (by decide), fun hc => absurd (all _ hc) (by decide)⟩

namespace Directive

variable {d : Directive} {t : Bytes}

theorem words_plain : ∀ w ∈ words, ch ',' ∉ w ∧ ch '\r' ∉ w := by
  decide

theorem Text.plain (h : d.Text t) : ch ',' ∉ t ∧ ch '\r' ∉ t := by
  obtain ⟨comma, ret⟩ := words_plain _ d.word_mem
  rcases h with ⟨_, rfl⟩ | ⟨n, digits, _, numeral, rfl⟩
  · exact ⟨comma, ret⟩
  · obtain ⟨comma', ret'⟩ := digit_plain numeral
    simp only [List.mem_append, not_or]
    exact ⟨⟨comma, comma'⟩, ret, ret'⟩

/-- No word that is looked for stands in another one. -/
theorem find_word : ∀ w ∈ words, ∀ p ∈ searched,
    Search.find (p.1 ++ [p.2]) w = if w = p.1 ++ [p.2] then some 0 else none := by
  decide +kernel

/-- A word is found in a directive that begins with it and in no other. -/
theorem Text.find (h : d.Text t) {p : Bytes × UInt8} (hp : p ∈ searched) :
    Search.find (p.1 ++ [p.2]) t = if d.word = p.1 ++ [p.2] then some 0 else none := by
  have inWord := find_word _ d.word_mem p hp
  rcases h with ⟨_, rfl⟩ | ⟨n, digits, _, ⟨_, all, _⟩, rfl⟩
  · exact inWord
  · split_ifs at inWord ⊢ with same
    · exact Search.find_append digits inWord
    · refine Search.find_append_eq_none inWord fun hm => ?_
      have digit := all _ hm
      rw [(searched_plain p hp).2.2] at digit
      cases digit

end Directive

/-! ## One value -/

theorem stoi_numeral {digits : Bytes} {n : Nat} (h : Numeral 10 digits n) (small : n ≤ 2147483647) :
    stoi digits = .ok n := by
  have read := numeral_append h (w := []) (by simp)
  rw [List.append_nil] at read
  rw [stoi, read]
  exact if_pos (by omega)

section
variable {word a b : Bytes}

/-- The number behind a word that stands before the first comma. -/
theorem findNumber_first {i : Nat} (found : Search.find word a = some i) (comma : ch ',' ∉ a)
    (b : Bytes) : findNumber word (a ++ ch ',' :: b) = stoi (a.drop (i + word.length)) := by
  have bound := Search.find_bound found
  have uncut : ch ',' ∉ a.drop (i + word.length) := fun h => comma (List.mem_of_mem_drop h)
  have whole : substr (a ++ ch ',' :: b) (i + word.length) none =
      .ok (a.drop (i + word.length) ++ ch ',' :: b) := by
    rw [substr, if_neg (by rw [List.length_append]; omega), List.drop_append_of_le_length bound]
  have cut : Search.find (str ",") (a.drop (i + word.length) ++ ch ',' :: b) =
      some (a.drop (i + word.length)).length := Search.find_symbol uncut b
  simp only [findNumber, Search.find_append (ch ',' :: b) found, whole, cut, upTo, Except.bind,
    bind, List.take_left]

/-- The number behind a word in a value without a comma or a line end. -/
theorem findNumber_only {i : Nat} (found : Search.find word a = some i) (comma : ch ',' ∉ a)
    (ret : ch '\r' ∉ a) : findNumber word a = stoi (a.drop (i + word.length)) := by
  have bound := Search.find_bound found
  have whole : substr a (i + word.length) none = .ok (a.drop (i + word.length)) :=
    if_neg (by omega)
  have uncut : Search.find (str ",") (a.drop (i + word.length)) = none :=
    Search.find_eq_none (c := ch ',') (by decide) fun h => comma (List.mem_of_mem_drop h)
  have unended : Search.find (str "\r\n") (a.drop (i + word.length)) = none :=
    Search.find_eq_none (c := ch '\r') (by decide) fun h => ret (List.mem_of_mem_drop h)
  simp only [findNumber, found, whole, uncut, unended, upTo, Except.bind, bind]

/-- A part without the word is passed over. -/
theorem findNumber_behind {c : UInt8} (ne : word ≠ []) (hc : c ∉ word)
    (none : Search.find word a = none) (b : Bytes) :
    findNumber word (a ++ c :: b) = findNumber word b := by
  have shift := Search.find_sep ne hc a b
  rw [none, Option.none_or] at shift
  unfold findNumber
  rw [shift]
  cases found : Search.find word b with
  | none => rfl
  | some j =>
    have bound := Search.find_bound found
    have same : substr (a ++ c :: b) (j + (a.length + 1) + word.length) Option.none =
        substr b (j + word.length) Option.none := by
      have inside : ¬ b.length < j + word.length := by omega
      have behind : j + (a.length + 1) + word.length = a.length + (1 + (j + word.length)) := by omega
      rw [substr, substr, if_neg inside, if_neg (by rw [List.length_append, List.length_cons]; omega),
        behind, List.drop_append, List.drop_of_length_le (by omega)]
      simp [Nat.add_comm 1]
    simp only [Option.map_some, same]

end

theorem numbered_searched : ∀ w ∈ numbered, ∃ p ∈ searched, w = p.1 ++ [p.2] := by
  decide

namespace Directive

variable {d : Directive} {t word : Bytes}

theorem number_of_word (h : d.word ∈ numbered) : ∃ n, d.number = some n := by
  cases d with
  | maxAge n => exact ⟨n, rfl⟩
  | maxStale n => exact ⟨n, rfl⟩
  | minFresh n => exact ⟨n, rfl⟩
  | noCache | noStore | noTransform | onlyIfCached | mustRevalidate => exact absurd h (by decide)

theorem Text.find_numbered (h : d.Text t) (hw : word ∈ numbered) :
    Search.find word t = if d.word = word then some 0 else none := by
  obtain ⟨p, hp, rfl⟩ := numbered_searched word hw
  exact h.find hp

theorem Text.behind (h : d.Text t) {n : Nat} (hn : d.numberOf word = some n)
    (small : n ≤ 2147483647) : d.word = word ∧ stoi (t.drop (0 + word.length)) = .ok (n : Int) := by
  unfold numberOf at hn
  split_ifs at hn with same
  subst same
  refine ⟨rfl, ?_⟩
  rcases h with ⟨none, _⟩ | ⟨m, digits, hm, numeral, rfl⟩
  · rw [none] at hn
    cases hn
  · cases hm.symm.trans hn
    rw [Nat.zero_add, List.drop_left]
    exact stoi_numeral numeral small

theorem Text.absent (h : d.Text t) (hw : word ∈ numbered) (hn : d.numberOf word = none) :
    Search.find word t = none := by
  rw [h.find_numbered hw]
  refine if_neg fun same => ?_
  obtain ⟨n, number⟩ := number_of_word (same ▸ hw)
  rw [numberOf, if_pos same, number] at hn
  cases hn

end Directive

theorem numbered_plain : ∀ w ∈ numbered, w ≠ [] ∧ ch ',' ∉ w ∧ ch ' ' ∉ w := by
  decide

/-- The first number under a word, or -1. -/
def firstNumber (word : Bytes) (ds : List Directive) : Int :=
  ((ds.filterMap (Directive.numberOf word)).head?.map Nat.cast).getD (-1)

theorem firstNumber_some {word : Bytes} {d : Directive} {n : Nat} (h : d.numberOf word = some n)
    (ds : List Directive) : firstNumber word (d :: ds) = n := by
  rw [firstNumber, List.filterMap_cons, h]
  rfl

theorem firstNumber_none {word : Bytes} {d : Directive} (h : d.numberOf word = none)
    (ds : List Directive) : firstNumber word (d :: ds) = firstNumber word ds := by
  rw [firstNumber, List.filterMap_cons, h]
  rfl

/-- A search for a number finds the first directive with its word. -/
theorem Lists.findNumber {ds : List Directive} {value word : Bytes} (h : Lists ds value)
    (hw : word ∈ numbered) (small : ∀ d ∈ ds, ∀ n ∈ d.number, n ≤ 2147483647) :
    findNumber word value = .ok (firstNumber word ds) := by
  obtain ⟨ne, comma, blank⟩ := numbered_plain word hw
  have fits {d : Directive} (hd : d ∈ ds) {n : Nat} (hn : d.numberOf word = some n) :
      n ≤ 2147483647 := by
    unfold Directive.numberOf at hn
    split_ifs at hn
    exact small d hd n hn
  induction h with
  | nil =>
    rw [HttpProxy.findNumber, Search.find_nil ne]
    rfl
  | @last d t text =>
    cases hn : d.numberOf word with
    | none =>
      rw [HttpProxy.findNumber, text.absent hw hn, firstNumber_none hn]
      rfl
    | some n =>
      obtain ⟨same, read⟩ := text.behind hn (fits List.mem_cons_self hn)
      have found := text.find_numbered hw
      rw [if_pos same] at found
      rw [findNumber_only found text.plain.1 text.plain.2, read, firstNumber_some hn]
  | @comma d ds t u text rest ih =>
    cases hn : d.numberOf word with
    | none =>
      rw [findNumber_behind ne comma (text.absent hw hn), firstNumber_none hn]
      exact ih (fun d hd => small d (List.mem_cons_of_mem _ hd))
        fun hd => fits (List.mem_cons_of_mem _ hd)
    | some n =>
      obtain ⟨same, read⟩ := text.behind hn (fits List.mem_cons_self hn)
      have found := text.find_numbered hw
      rw [if_pos same] at found
      rw [findNumber_first found text.plain.1, read, firstNumber_some hn]
  | @blank d ds t u text rest ih =>
    cases hn : d.numberOf word with
    | none =>
      have skip := findNumber_behind ne blank (Search.find_nil ne) u
      rw [findNumber_behind ne comma (text.absent hw hn), firstNumber_none hn]
      refine skip.trans (ih (fun d hd => small d (List.mem_cons_of_mem _ hd)) ?_)
      exact fun hd => fits (List.mem_cons_of_mem _ hd)
    | some n =>
      obtain ⟨same, read⟩ := text.behind hn (fits List.mem_cons_self hn)
      have found := text.find_numbered hw
      rw [if_pos same] at found
      rw [findNumber_first found text.plain.1, read, firstNumber_some hn]

/-- A search for a word finds the directives that begin with it. -/
theorem Lists.contains {ds : List Directive} {value : Bytes} (h : Lists ds value)
    {p : Bytes × UInt8} (hp : p ∈ searched) :
    Search.contains (p.1 ++ [p.2]) value = true ↔ ∃ d ∈ ds, d.word = p.1 ++ [p.2] := by
  obtain ⟨comma, blank, _⟩ := searched_plain p hp
  have ne : p.1 ++ [p.2] ≠ [] := by simp
  have nothing : Search.contains (p.1 ++ [p.2]) [] = false := by
    rw [Search.contains, Search.find_nil ne]
    rfl
  have begins {d : Directive} {t : Bytes} (text : d.Text t) :
      Search.contains (p.1 ++ [p.2]) t = true ↔ d.word = p.1 ++ [p.2] := by
    rw [Search.contains, text.find hp]
    split_ifs with same <;> simp [same]
  induction h with
  | nil => simp [nothing]
  | last text => simp [begins text]
  | @comma d ds t u text rest ih =>
    have either := or_congr (begins text) ih
    rw [Search.contains_sep ne comma, Bool.or_eq_true, either]
    simp
  | @blank d ds t u text rest ih =>
    have skip := Search.contains_sep ne blank [] u
    rw [List.nil_append, nothing, Bool.false_or] at skip
    have either := or_congr (begins text) ih
    rw [Search.contains_sep ne comma, Bool.or_eq_true, skip, either]
    simp

/-! ## The loop -/

/-- The last number under a word, or what was there before. -/
def lastNumber (word : Bytes) (ds : List Directive) (old : Int) : Int :=
  ((ds.filterMap (Directive.numberOf word)).getLast?.map Nat.cast).getD old

theorem lastNumber_append (word : Bytes) (ds ds' : List Directive) (old : Int) :
    lastNumber word (ds ++ ds') old = lastNumber word ds' (lastNumber word ds old) := by
  unfold lastNumber
  rw [List.filterMap_append, List.getLast?_append]
  cases (ds'.filterMap (Directive.numberOf word)).getLast? <;> rfl

/-- One header overwrites the number if it has one. -/
theorem lastNumber_eq {word : Bytes} {ds : List Directive}
    (once : (ds.filterMap (Directive.numberOf word)).length ≤ 1) (old : Int) :
    lastNumber word ds old = if 0 ≤ firstNumber word ds then firstNumber word ds else old := by
  unfold lastNumber firstNumber
  cases found : ds.filterMap (Directive.numberOf word) with
  | nil => rfl
  | cons n ns =>
    rw [found, List.length_cons] at once
    obtain rfl : ns = [] := List.eq_nil_of_length_eq_zero (by omega)
    exact (if_pos (Int.natCast_nonneg n)).symm

/-- What `r` becomes when these directives are read. -/
structure Took (r : HttpRequest) (ds : List Directive) (r' : HttpRequest) : Prop where
  noCache : r'.noCache = true ↔ r.noCache = true ∨ .noCache ∈ ds ∨ .mustRevalidate ∈ ds
  maxAge : r'.maxAge = lastNumber (str "max-age=") ds r.maxAge
  maxStale : r'.maxStale = lastNumber (str "max-stale=") ds r.maxStale
  minFresh : r'.minFresh = lastNumber (str "min-fresh=") ds r.minFresh

theorem Took.nothing {r r' : HttpRequest} (noCache : r'.noCache = r.noCache)
    (maxAge : r'.maxAge = r.maxAge) (maxStale : r'.maxStale = r.maxStale)
    (minFresh : r'.minFresh = r.minFresh) : Took r [] r' :=
  ⟨by simp [noCache], maxAge, maxStale, minFresh⟩

theorem Took.append {r u r' : HttpRequest} {ds ds' : List Directive} (h : Took r ds u)
    (h' : Took u ds' r') : Took r (ds ++ ds') r' where
  noCache := by
    rw [h'.noCache, h.noCache, List.mem_append, List.mem_append]
    tauto
  maxAge := by rw [h'.maxAge, h.maxAge, lastNumber_append]
  maxStale := by rw [h'.maxStale, h.maxStale, lastNumber_append]
  minFresh := by rw [h'.minFresh, h.minFresh, lastNumber_append]

theorem Directive.word_noCache {d : Directive} : d.word = str "no-cache" ↔ d = .noCache := by
  cases d <;> simp only [word, reduceCtorEq, iff_false] <;> decide

theorem Directive.word_mustRevalidate {d : Directive} :
    d.word = str "must-revalidate" ↔ d = .mustRevalidate := by
  cases d <;> simp only [word, reduceCtorEq, iff_false] <;> decide

theorem readCacheControl_took {ds : List Directive} {value : Bytes} (h : Lists ds value)
    (legible : Legible ds) (r : HttpRequest) :
    ∃ r', r.readCacheControl value = .ok r' ∧ Took r ds r' := by
  have numbers : ∀ word ∈ numbered, findNumber word value = .ok (firstNumber word ds) :=
    fun word hw => h.findNumber hw legible.small
  have noCache := h.contains (p := (str "no-cach", ch 'e')) (by decide)
  have revalidate := h.contains (p := (str "must-revalidat", ch 'e')) (by decide)
  obtain ⟨r', run⟩ := (HttpRequest.readCacheControl_ok_iff r value).mpr
    fun word hw => ⟨_, numbers word hw⟩
  obtain ⟨maxAge, maxStale, minFresh, _⟩ := HttpRequest.readCacheControl_numbers
    (numbers _ (by decide)) (numbers _ (by decide)) (numbers _ (by decide)) run
  refine ⟨r', run, ?_, ?_, ?_, ?_⟩
  · have named : str "no-cach" ++ [ch 'e'] = str "no-cache" ∧
        str "must-revalidat" ++ [ch 'e'] = str "must-revalidate" := by decide
    simp only [named.1, named.2, Directive.word_noCache, Directive.word_mustRevalidate,
      exists_eq_right] at noCache revalidate
    rw [HttpRequest.readCacheControl_ok run, noCache, revalidate]
  · rw [lastNumber_eq (legible.once _ (by decide)), maxAge]
  · rw [lastNumber_eq (legible.once _ (by decide)), maxStale]
  · rw [lastNumber_eq (legible.once _ (by decide)), minFresh]

theorem Spread.took {ds : List Directive} {its : List HeaderItem} (h : Spread ds its)
    (legible : Legible ds) (r : HttpRequest) : ∃ r', r.getHostIp its = .ok r' ∧ Took r ds r' := by
  induction h generalizing r with
  | nil => exact ⟨r, rfl, .nothing rfl rfl rfl rfl⟩
  | @other ds its it other _ ih =>
    obtain ⟨u, step, kept⟩ : ∃ u, r.readHeader it = .ok u ∧ Took r [] u := by
      unfold HttpRequest.readHeader
      rw [if_neg other]
      split_ifs
      · refine ⟨_, rfl, ?_⟩
        unfold HttpRequest.readHost
        split <;> exact .nothing rfl rfl rfl rfl
      · exact ⟨r, rfl, .nothing rfl rfl rfl rfl⟩
    obtain ⟨r', run, took⟩ := ih legible u
    refine ⟨r', ?_, kept.append took⟩
    rw [HttpRequest.getHostIp, List.foldlM_cons, step]
    exact run
  | @control ds ds' its value lists _ ih =>
    obtain ⟨u, step, first⟩ := readCacheControl_took lists legible.left r
    obtain ⟨r', run, took⟩ := ih legible.right u
    refine ⟨r', ?_, first.append took⟩
    have control : r.readHeader ⟨str "Cache-Control", value⟩ = .ok u := by
      have unlike : str "Cache-Control" ≠ str "Host" := by decide
      rw [HttpRequest.readHeader, if_neg unlike, if_pos rfl]
      exact step
    rw [HttpRequest.getHostIp, List.foldlM_cons, control]
    exact run

/-- A field that some directive sets to its number, and that has a default without one. -/
structure Given (ds : List Directive) (make : Nat → Directive) (default field : Int) : Prop where
  present : ∀ n, make n ∈ ds → field = n
  absent : (∀ n, make n ∉ ds) → field = default

theorem Given.of_lastNumber {ds : List Directive} {make : Nat → Directive} {word : Bytes}
    {default : Int} (once : (ds.filterMap (Directive.numberOf word)).length ≤ 1)
    (makes : ∀ d n, Directive.numberOf word d = some n ↔ d = make n) :
    Given ds make default (lastNumber word ds default) := by
  constructor
  · intro n hn
    have mem : n ∈ ds.filterMap (Directive.numberOf word) :=
      List.mem_filterMap.mpr ⟨make n, hn, (makes _ n).mpr rfl⟩
    obtain ⟨m, hm⟩ := List.length_eq_one_iff.mp
      (Nat.le_antisymm once (List.length_pos_of_mem mem))
    rw [hm, List.mem_singleton] at mem
    rw [lastNumber, hm, mem]
    rfl
  · intro none
    have empty : ds.filterMap (Directive.numberOf word) = [] := by
      apply List.filterMap_eq_nil_iff.mpr
      intro d hd
      cases hn : d.numberOf word with
      | none => rfl
      | some n => exact absurd ((makes d n).mp hn ▸ hd) (none n)
    rw [lastNumber, empty]
    rfl

theorem Directive.number_of_numberOf {w : Bytes} {d : Directive} {n : Nat}
    (h : d.numberOf w = some n) : d.number = some n := by
  unfold numberOf at h
  split_ifs at h
  exact h

theorem Directive.numberOf_maxAge (d : Directive) (n : Nat) :
    numberOf (str "max-age=") d = some n ↔ d = .maxAge n := by
  have apart : str "max-stale=" ≠ str "max-age=" ∧ str "min-fresh=" ≠ str "max-age=" := by decide
  cases d with
  | maxAge m => simp [numberOf, word, number]
  | maxStale m | minFresh m => simp [numberOf, word, apart]
  | noCache | noStore | noTransform | onlyIfCached | mustRevalidate =>
    refine iff_of_false (fun h => ?_) (by simp)
    cases number_of_numberOf h

theorem Directive.numberOf_maxStale (d : Directive) (n : Nat) :
    numberOf (str "max-stale=") d = some n ↔ d = .maxStale n := by
  have apart : str "max-age=" ≠ str "max-stale=" ∧ str "min-fresh=" ≠ str "max-stale=" := by decide
  cases d with
  | maxStale m => simp [numberOf, word, number]
  | maxAge m | minFresh m => simp [numberOf, word, apart]
  | noCache | noStore | noTransform | onlyIfCached | mustRevalidate =>
    refine iff_of_false (fun h => ?_) (by simp)
    cases number_of_numberOf h

theorem Directive.numberOf_minFresh (d : Directive) (n : Nat) :
    numberOf (str "min-fresh=") d = some n ↔ d = .minFresh n := by
  have apart : str "max-age=" ≠ str "min-fresh=" ∧ str "max-stale=" ≠ str "min-fresh=" := by decide
  cases d with
  | minFresh m => simp [numberOf, word, number]
  | maxAge m | maxStale m => simp [numberOf, word, apart]
  | noCache | noStore | noTransform | onlyIfCached | mustRevalidate =>
    refine iff_of_false (fun h => ?_) (by simp)
    cases number_of_numberOf h

/-- The directives a client writes into its Cache-Control headers, in any order and spread,
are what the request has after `getHostIp`. -/
theorem getHostIp_directives {ds : List Directive} {its : List HeaderItem}
    {lineSend method uri httpVer : Bytes} (spread : Spread ds its) (legible : Legible ds) :
    ∃ r, HttpRequest.getHostIp { lineSend, method, uri, httpVer } its = .ok r ∧
      Given ds .maxAge (-1) r.maxAge ∧ Given ds .maxStale 0 r.maxStale ∧
      Given ds .minFresh 0 r.minFresh ∧
      (r.noCache = true ↔ .noCache ∈ ds ∨ .mustRevalidate ∈ ds) := by
  obtain ⟨r, run, took⟩ := spread.took legible { lineSend, method, uri, httpVer }
  refine ⟨r, run, ?_, ?_, ?_, ?_⟩
  · rw [took.maxAge]
    exact .of_lastNumber (legible.once _ (by decide)) Directive.numberOf_maxAge
  · rw [took.maxStale]
    exact .of_lastNumber (legible.once _ (by decide)) Directive.numberOf_maxStale
  · rw [took.minFresh]
    exact .of_lastNumber (legible.once _ (by decide)) Directive.numberOf_minFresh
  · simpa using took.noCache

/-- Two Cache-Control headers around a Host header. -/
def scattered : List HeaderItem :=
  [⟨str "Cache-Control", str "no-transform, max-age=0"⟩, ⟨str "Host", str "h"⟩,
    ⟨str "Cache-Control", str "min-fresh=10,must-revalidate"⟩]

theorem scattered_spread :
    Spread [.noTransform, .maxAge 0, .minFresh 10, .mustRevalidate] scattered := by
  have zero : Numeral 10 (str "0") 0 := by decide +kernel
  have ten : Numeral 10 (str "10") 10 := by decide +kernel
  have front : Lists [.noTransform, .maxAge 0] (str "no-transform, max-age=0") :=
    .blank (.inl ⟨rfl, rfl⟩) (.last (.inr ⟨0, _, rfl, zero, rfl⟩))
  have back : Lists [.minFresh 10, .mustRevalidate] (str "min-fresh=10,must-revalidate") :=
    .comma (.inr ⟨10, _, rfl, ten, rfl⟩) (.last (.inl ⟨rfl, rfl⟩))
  exact .control front (.other (by decide) (.control back .nil))

theorem scattered_legible : Legible [.noTransform, .maxAge 0, .minFresh 10, .mustRevalidate] :=
  ⟨by decide, by decide⟩

theorem getHostIp_directives_scattered :
    ∃ r, HttpRequest.getHostIp { lineSend := [] } scattered = .ok r ∧
      Given [.noTransform, .maxAge 0, .minFresh 10, .mustRevalidate] .maxAge (-1) r.maxAge ∧
      Given [.noTransform, .maxAge 0, .minFresh 10, .mustRevalidate] .maxStale 0 r.maxStale ∧
      Given [.noTransform, .maxAge 0, .minFresh 10, .mustRevalidate] .minFresh 0 r.minFresh ∧
      (r.noCache = true ↔
        .noCache ∈ [Directive.noTransform, .maxAge 0, .minFresh 10, .mustRevalidate] ∨
          .mustRevalidate ∈ [Directive.noTransform, .maxAge 0, .minFresh 10, .mustRevalidate]) :=
  getHostIp_directives scattered_spread scattered_legible

end HttpProxy
