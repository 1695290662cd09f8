import HttpProxy.Runs
import HttpProxy.Framing

/-!
# Which replies `chunkHandle` relays

`chunkHandle` searches the raw segment: for the first `Transfer-Encoding:`, spelled like
this, and for `chunked` behind it, where it takes the position of the line's end for a
length. `marking_iff` says for which responses that agrees with the header block, and
`marked_regardless_iff` for which header blocks it does whatever the body is.
-/

namespace HttpProxy

def marker : Bytes := str "Transfer-Encoding:"

/-- The first marker of a text has `before` in front of it, `line` behind it up to the end of
its line, and `after` from there on. -/
structure Marks (text before line after : Bytes) : Prop where
  parts : text = before ++ marker ++ line ++ after
  first : ¬ marker <:+: before ++ marker.dropLast
  inline : ch '\n' ∉ line
  ends : after = [] ∨ ∃ rest, after = ch '\n' :: rest

/-- Where the search looks for `chunked`: on the line, and behind it among as many bytes as
stand in front of the marker. -/
def InReach (before line after : Bytes) : Prop :=
  str "chunked" <:+: line ∨ str "chunked" <:+: after.take before.length

theorem exists_marks {text : Bytes} {start : Nat} (h : Search.find marker text = some start) :
    ∃ before line after, Marks text before line after := by
  obtain ⟨before, rest, parts, first, _⟩ := (Search.find_eq_some_iff (by decide)).mp h
  by_cases more : ch '\n' ∈ rest
  · obtain ⟨line, tail, rfl, inline⟩ := List.eq_append_cons_of_mem more
    exact ⟨before, line, ch '\n' :: tail, by rw [parts, List.append_assoc _ line], first, inline,
      .inr ⟨tail, rfl⟩⟩
  · exact ⟨before, rest, [], by rw [parts, List.append_nil], first, more, .inl rfl⟩

namespace Marks

variable {text before line after : Bytes}

theorem find (h : Marks text before line after) :
    Search.find marker text = some before.length := by
  refine (Search.find_eq_some_iff (by decide)).mpr ⟨before, line ++ after, ?_, h.first, rfl⟩
  rw [h.parts, List.append_assoc]

/-- What the search cuts out of the text. -/
theorem window (h : Marks text before line after) :
    upTo (text.drop before.length) (findFrom (str "\n") text before.length) =
      marker ++ line ++ after.take before.length := by
  have plain : ch '\n' ∉ marker ++ line := by
    rw [List.mem_append, not_or]
    exact ⟨by decide, h.inline⟩
  have behind : text.drop before.length = marker ++ line ++ after := by
    rw [h.parts, List.append_assoc, List.append_assoc, List.drop_left, List.append_assoc]
  have reaches : ¬ text.length < before.length := by
    rw [h.parts]
    simp only [List.length_append]
    omega
  rw [findFrom, if_neg reaches, behind]
  rcases h.ends with rfl | ⟨rest, rfl⟩
  · have none : Search.find (str "\n") (marker ++ line ++ []) = none :=
      Search.find_eq_none (c := ch '\n') (by decide) (by rwa [List.append_nil])
    rw [none, List.take_nil]
    rfl
  · have here : Search.find (str "\n") (marker ++ line ++ ch '\n' :: rest) =
        some (marker ++ line).length := Search.find_symbol plain rest
    rw [here]
    exact List.take_length_add_append before.length

/-- No `chunked` begins in the marker or reaches over the end of the line. -/
theorem contains_line (line : Bytes) {tail : Bytes}
    (ends : tail = [] ∨ ∃ rest, tail = ch '\n' :: rest) :
    Search.contains (str "chunked") (marker ++ line ++ tail) =
      (Search.contains (str "chunked") line || Search.contains (str "chunked") tail) := by
  have some : str "chunked" ≠ [] := by decide
  have unbroken : ch '\n' ∉ str "chunked" := by decide
  have front : Search.contains (str "chunked") (marker ++ line) =
      Search.contains (str "chunked") line := by
    have last : marker = str "Transfer-Encoding" ++ [ch ':'] := by decide
    have colon : marker ++ line = str "Transfer-Encoding" ++ ch ':' :: line := by
      rw [last, List.append_assoc, List.singleton_append]
    have none : Search.contains (str "chunked") (str "Transfer-Encoding") = false := by decide
    rw [colon, Search.contains_sep some (by decide), none, Bool.false_or]
  rcases ends with rfl | ⟨rest, rfl⟩
  · rw [List.append_nil, front]
    exact (Bool.or_false _).symm
  · rw [Search.contains_sep some unbroken, front, ← List.nil_append (ch '\n' :: rest),
      Search.contains_sep some unbroken]
    rfl

theorem contains_iff (h : Marks text before line after) :
    Search.contains (str "chunked") (marker ++ line ++ after.take before.length) = true ↔
      InReach before line after := by
  have ends : after.take before.length = [] ∨
      ∃ rest, after.take before.length = ch '\n' :: rest := by
    rcases h.ends with rfl | ⟨rest, rfl⟩
    · exact .inl List.take_nil
    · cases before with
      | nil => exact .inl rfl
      | cons c before => exact .inr ⟨_, rfl⟩
  rw [contains_line line ends, Bool.or_eq_true, Search.contains_iff, Search.contains_iff, InReach]

theorem marked_iff (h : Marks text before line after) :
    chunkMarked text = true ↔ InReach before line after := by
  rw [chunkMarked, ← marker, h.find]
  dsimp only
  rw [h.window]
  exact h.contains_iff

end Marks

/-! ## In a response -/

/-- The ways for a response to be marked: by the line of the first marker in the header block,
by what stands behind that line in the block, by the body as far as the search reaches, and by
a marker in the body. -/
inductive Evident (head body : Bytes) : Prop
  | header {before line after : Bytes} (marks : Marks head before line after)
      (here : str "chunked" <:+: line) : Evident head body
  | below {before line after : Bytes} (marks : Marks head before line after)
      (here : str "chunked" <:+: after.take before.length) : Evident head body
  | reaching {before line after : Bytes} (marks : Marks head before line after)
      (here : str "chunked" <:+: body.take (before.length - after.length)) : Evident head body
  | within {before line after : Bytes} (none : ¬ marker <:+: head)
      (marks : Marks body before line after) (here : InReach (head ++ before) line after) :
      Evident head body

section Ended
variable {head : Bytes} (ended : ∃ x, head = x ++ [ch '\n'])
include ended

/-- A pattern within one line lies on one side of the end of the header block. -/
theorem infix_ended (pat : Bytes) (ne : pat ≠ []) (inline : ch '\n' ∉ pat) (tail : Bytes) :
    pat <:+: head ++ tail ↔ pat <:+: head ∨ pat <:+: tail := by
  obtain ⟨x, rfl⟩ := ended
  have alone : Search.contains pat (x ++ [ch '\n']) = Search.contains pat x := by
    have none : Search.contains pat [] = false := by rw [Search.contains, Search.find_nil ne]; rfl
    rw [Search.contains_sep ne inline, none, Bool.or_false]
  rw [← Search.contains_iff, ← Search.contains_iff, ← Search.contains_iff, alone,
    List.append_assoc, List.singleton_append, Search.contains_sep ne inline, Bool.or_eq_true]

/-- The line of a marker in the header block ends there. -/
theorem Marks.line_ends {before line after : Bytes} (h : Marks head before line after) :
    ∃ x, after = x ++ [ch '\n'] := by
  obtain ⟨x, rfl⟩ := ended
  rcases List.eq_nil_or_concat after with rfl | ⟨rest, c, rfl⟩
  · exfalso
    have last : (before ++ (marker ++ line)).getLast? = some (ch '\n') := by
      rw [← List.append_assoc, ← List.append_nil (before ++ marker ++ line), ← h.parts,
        List.getLast?_concat]
    rw [List.getLast?_append_of_ne_nil _ (by simp [marker, str])] at last
    rcases List.mem_append.mp (List.mem_of_getLast? last) with mem | mem
    · exact absurd mem (by decide)
    · exact h.inline mem
  · have parts := h.parts
    rw [List.concat_eq_append, ← List.append_assoc] at parts
    rw [List.concat_eq_append, (List.append_inj_right' parts rfl).symm]
    exact ⟨rest, rfl⟩

theorem Marks.append {before line after : Bytes} (h : Marks head before line after) (body : Bytes) :
    Marks (head ++ body) before line (after ++ body) := by
  refine ⟨by rw [h.parts]; simp only [List.append_assoc], h.first, h.inline, .inr ?_⟩
  rcases h.ends with none | ⟨rest, rfl⟩
  · obtain ⟨x, some⟩ := h.line_ends ended
    rw [some] at none
    simp at none
  · exact ⟨rest ++ body, rfl⟩

theorem Marks.behind {body before line after : Bytes} (none : ¬ marker <:+: head)
    (h : Marks body before line after) : Marks (head ++ body) (head ++ before) line after := by
  refine ⟨by rw [h.parts]; simp only [List.append_assoc], ?_, h.inline, h.ends⟩
  rw [List.append_assoc, infix_ended ended marker (by decide) (by decide)]
  exact not_or.mpr ⟨none, h.first⟩

theorem evident_of_marked {body : Bytes} (marked : chunkMarked (head ++ body) = true) :
    Evident head body := by
  by_cases inHead : marker <:+: head
  · obtain ⟨start, found⟩ := Option.isSome_iff_exists.mp (Search.find_isSome_iff.mpr inHead)
    obtain ⟨before, line, after, marks⟩ := exists_marks found
    rcases (marks.append ended body).marked_iff.mp marked with here | behind
    · exact .header marks here
    · rw [List.take_append] at behind
      by_cases reaches : after.length ≤ before.length
      · rw [List.take_of_length_le reaches,
          infix_ended (marks.line_ends ended) (str "chunked") (by decide) (by decide)] at behind
        rcases behind with here | here
        · exact .below marks (by rwa [List.take_of_length_le reaches])
        · exact .reaching marks here
      · rw [show before.length - after.length = 0 by omega, List.take_zero, List.append_nil] at behind
        exact .below marks behind
  · have some : marker <:+: head ++ body := by
      rw [← Search.find_isSome_iff]
      cases found : Search.find marker (head ++ body) with
      | some start => rfl
      | none =>
        rw [chunkMarked, ← marker, found] at marked
        cases marked
    have inBody := ((infix_ended ended marker (by decide) (by decide) body).mp some).resolve_left inHead
    obtain ⟨start, found⟩ := Option.isSome_iff_exists.mp (Search.find_isSome_iff.mpr inBody)
    obtain ⟨before, line, after, marks⟩ := exists_marks found
    exact .within inHead marks ((marks.behind ended inHead).marked_iff.mp marked)

theorem marked_of_evident {body : Bytes} (h : Evident head body) :
    chunkMarked (head ++ body) = true := by
  cases h with
  | header marks here => exact (marks.append ended body).marked_iff.mpr (.inl here)
  | below marks here =>
    refine (marks.append ended body).marked_iff.mpr (.inr ?_)
    rw [List.take_append]
    exact here.trans (List.prefix_append _ _).isInfix
  | reaching marks here =>
    refine (marks.append ended body).marked_iff.mpr (.inr ?_)
    rw [List.take_append]
    exact here.trans (List.suffix_append _ _).isInfix
  | within none marks here => exact (marks.behind ended none).marked_iff.mpr here

end Ended

/-! ## The relay -/

/-- `chunkHandle` does more than return NULL at once. -/
def Relays (input : Bytes) (s : St) : Prop := chunkHandle input s ≠ .ok none s

theorem relays_iff (input : Bytes) (s : St) : Relays input s ↔ chunkMarked input = true := by
  cases marked : chunkMarked input with
  | false => exact iff_of_false (fun relays => relays (chunkHandle_unmarked marked s)) nofun
  | true =>
    refine iff_of_true (fun atOnce => ?_) rfl
    obtain ⟨w, evs, run, _⟩ := chunkHandle_marked marked s
    have parsed := newResponse_run (input ++ (relayed s.world.server).flatten) (s.after w evs)
    rw [← run, atOnce] at parsed
    generalize hs : (s.after w evs).alloc = t at parsed
    cases parsed with
    | failed =>
      -- a relay ends with a new object, also when it does not parse
      have next := congrArg St.next hs
      rw [alloc_next, after_next] at next
      omega

/-- A header that declares the chunked coding, in whatever case. -/
def DeclaresCoding (it : HeaderItem) : Prop :=
  isTransferEncoding it = true ∧ str "chunked" <:+: it.value.map toLower

/-- A response as its first segment brings it: a header block, and bytes of the body. -/
structure Answer where
  headers : List HeaderItem
  head : Bytes
  body : Bytes
  wellFormed : Head headers head

namespace Answer

variable (a : Answer)

def bytes : Bytes := a.head ++ a.body

def Chunked : Prop := ∃ it ∈ a.headers, DeclaresCoding it

theorem head_ended : ∃ x, a.head = x ++ [ch '\n'] := by
  obtain ⟨x, _, ends⟩ := a.wellFormed
  exact ⟨x ++ [ch '\r'], by rw [ends, List.append_assoc]; rfl⟩

/-- Nothing but the headers speaks for or against the relay: a declared coding is evident in the
bytes, and where none is declared, nothing makes it seem so. -/
structure Plainly : Prop where
  declared : a.Chunked → Evident a.head a.body
  undeclared : ¬ a.Chunked → ¬ Evident a.head a.body

end Answer

/-- The relay is entered just for the responses whose headers declare the chunked coding, as
far as the text of the response shows it `Plainly`. -/
theorem marking_iff (a : Answer) (s : St) : (Relays a.bytes s ↔ a.Chunked) ↔ a.Plainly := by
  have evident : Relays a.bytes s ↔ Evident a.head a.body := by
    rw [relays_iff, Answer.bytes]
    exact ⟨evident_of_marked a.head_ended, marked_of_evident a.head_ended⟩
  rw [evident]
  constructor
  · intro same
    exact ⟨same.mpr, fun none evident => none (same.mp evident)⟩
  · intro plainly
    refine ⟨fun evident => ?_, plainly.declared⟩
    by_contra none
    exact plainly.undeclared none evident

/-- A header block settles the matter for every body just when its own text holds the marker, shows
what it declares, and where it declares nothing ends close enough to the marker's line. -/
theorem marked_regardless_iff {its : List HeaderItem} {head : Bytes} (h : Head its head) :
    (∀ body, chunkMarked (head ++ body) = true ↔ ∃ it ∈ its, DeclaresCoding it) ↔
      ∃ before line after, Marks head before line after ∧
        ((∃ it ∈ its, DeclaresCoding it) ∧ InReach before line after ∨
          (¬ ∃ it ∈ its, DeclaresCoding it) ∧ ¬ InReach before line after ∧
            before.length < after.length + (str "chunked").length) := by
  have ended := (Answer.mk its head [] h).head_ended
  constructor
  · intro law
    have alone := law []
    rw [List.append_nil] at alone
    by_cases inHead : marker <:+: head
    · obtain ⟨start, found⟩ := Option.isSome_iff_exists.mp (Search.find_isSome_iff.mpr inHead)
      obtain ⟨before, line, after, marks⟩ := exists_marks found
      rw [marks.marked_iff] at alone
      refine ⟨before, line, after, marks, ?_⟩
      by_cases declared : ∃ it ∈ its, DeclaresCoding it
      · exact .inl ⟨declared, alone.mpr declared⟩
      · refine .inr ⟨declared, fun reach => declared (alone.mp reach), ?_⟩
        by_contra far
        -- a body that is the word itself is reached
        have here : Evident head (str "chunked") := by
          refine .reaching marks ?_
          rw [List.take_of_length_le (by omega)]
        exact declared ((law _).mp (marked_of_evident ended here))
    · -- without a marker the empty body is not marked, and another one is
      have unmarked : ¬ chunkMarked head = true := by
        intro marked
        rw [← List.append_nil head] at marked
        cases evident_of_marked ended marked with
        | header marks | below marks | reaching marks =>
          exact inHead (Search.find_isSome_iff.mp (by rw [marks.find]; rfl))
        | within _ marks => exact absurd (congrArg List.length marks.parts) (by simp [marker, str])
      have word : Marks (marker ++ str "chunked") [] (str "chunked") [] :=
        ⟨rfl, by decide, by decide, .inl rfl⟩
      have marked := marked_of_evident ended (.within inHead word (.inl List.infix_rfl))
      exact absurd (alone.mpr ((law _).mp marked)) unmarked
  · rintro ⟨before, line, after, marks, settled⟩ body
    rw [(marks.append ended body).marked_iff]
    rcases settled with ⟨declared, here | here⟩ | ⟨undeclared, unseen, near⟩
    · exact iff_of_true (.inl here) declared
    · refine iff_of_true (.inr ?_) declared
      rw [List.take_append]
      exact here.trans (List.prefix_append _ _).isInfix
    · refine iff_of_false ?_ undeclared
      rintro (here | behind)
      · exact unseen (.inl here)
      · rw [List.take_append] at behind
        by_cases reaches : after.length ≤ before.length
        · have whole := List.take_of_length_le reaches
          rw [whole, infix_ended (marks.line_ends ended) (str "chunked") (by decide) (by decide)]
            at behind
          rcases behind with here | here
          · exact unseen (.inr (whole.symm ▸ here))
          · have fits := here.length_le
            rw [List.length_take] at fits
            omega
        · rw [show before.length - after.length = 0 by omega, List.take_zero, List.append_nil] at behind
          exact unseen (.inr behind)

/-- A text within one line spells itself. -/
theorem spells_self {t : Bytes} (h : Inline t) : Spells t t := by
  induction t using List.reverseRecOn with
  | nil => exact .nil
  | append_singleton t c ih =>
    have front : Inline t := ⟨fun mem => h.1 (List.mem_append_left _ mem),
      fun mem => h.2 (List.mem_append_left _ mem)⟩
    have last : Inline [c] := ⟨fun mem => h.1 (List.mem_append_right _ mem),
      fun mem => h.2 (List.mem_append_right _ mem)⟩
    exact .char (ih front) last

theorem head_single {it : HeaderItem} (h : Inline it.name ∧ ch ':' ∉ it.name ∧ Inline it.value) :
    Head [it] (str "HTTP/1.1 200 OK\r\n" ++ it.name ++ str ": " ++ it.value ++ str "\r\n\r\n") := by
  have line : HeaderLines ([] ++ [it]) ([] ++ (it.name ++ str ": " ++ it.value) ++ crlf) :=
    .snoc .nil ⟨h.1, h.2.1, it.value, spells_self h.2.2, rfl⟩
  have lined : Lined [it] (str "HTTP/1.1 200 OK" ++ crlf ++
      ([] ++ (it.name ++ str ": " ++ it.value) ++ crlf)) :=
    ⟨_, _, by decide, by decide, line, rfl⟩
  refine ⟨_, lined, ?_⟩
  simp [crlf, str]

/-- A response with one header. -/
def Answer.single (it : HeaderItem) (body : Bytes)
    (h : Inline it.name ∧ ch ':' ∉ it.name ∧ Inline it.value) : Answer where
  headers := [it]
  head := str "HTTP/1.1 200 OK\r\n" ++ it.name ++ str ": " ++ it.value ++ str "\r\n\r\n"
  body := body
  wellFormed := head_single h

/-- A server that writes its header names in lower case. -/
def lowerCase : Answer :=
  .single ⟨str "transfer-encoding", str "chunked"⟩ (str "2\r\nhi\r\n0\r\n\r\n") (by decide)

/-- A body in no coding that speaks of one. -/
def aboutChunked : Answer :=
  .single ⟨str "Transfer-Encoding", str "identity"⟩ (str "chunked") (by decide)

/-- The first is not relayed although it is chunked, the second is although it is not. -/
theorem misjudged :
    let s := St.initial ⟨1, Nat.le_refl 1⟩
    (lowerCase.Chunked ∧ ¬ Relays lowerCase.bytes s) ∧
      ¬ aboutChunked.Chunked ∧ Relays aboutChunked.bytes s := by
  refine ⟨⟨?_, ?_⟩, ?_, ?_⟩
  · exact ⟨_, List.mem_singleton_self _, by decide, by decide⟩
  · rw [relays_iff]
    decide +kernel
  · rintro ⟨it, hit, _, coding⟩
    obtain rfl := List.mem_singleton.mp hit
    exact absurd coding (by decide)
  · rw [relays_iff]
    decide +kernel

end HttpProxy
