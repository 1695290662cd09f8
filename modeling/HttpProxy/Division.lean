import HttpProxy.Fetch

/-!
# How a server's stream falls into segments

A `Division` of a stream is what the `recv`s of a run give of it, one segment after the
other, before the close. `recvBuff` reads its first segment, and a relay all the others.
-/

namespace HttpProxy

/-- Results that bring bytes, with the close after the last of them. -/
def Steady (l : List Recv) : Prop := ∀ r ∈ l, ∃ bs, bs ≠ [] ∧ r = .data bs

/-- A `recv` on steady results gives bytes unless they are over. -/
theorem takeRecv_steady {n : Nat} {l : List Recv} (hn : 0 < n) (h : Steady l) :
    ∃ bs rest, takeRecv n l = (.data bs, rest) ∧ Steady rest ∧ (bs = [] → l = []) := by
  cases l with
  | nil => exact ⟨[], [], rfl, h, fun _ => rfl⟩
  | cons r l =>
    obtain ⟨bs, hne, rfl⟩ := h r List.mem_cons_self
    have later : Steady l := fun r hr => h r (List.mem_cons_of_mem _ hr)
    by_cases hle : bs.length ≤ n
    · exact ⟨bs, l, if_pos hle, later, fun hnil => absurd hnil hne⟩
    · refine ⟨bs.take n, .data (bs.drop n) :: l, if_neg hle, ?_, ?_⟩
      · intro r hr
        rcases List.mem_cons.mp hr with rfl | hr
        · exact ⟨bs.drop n, by simpa using by omega, rfl⟩
        · exact later r hr
      · intro hnil
        rcases List.take_eq_nil_iff.mp hnil with h0 | hbs
        · omega
        · exact absurd hbs hne

/-- `recvChar` takes from the front and leaves the rest as it was. -/
theorem charBlock_steady (fuel : Nat) {l : List Recv} (h : Steady l) :
    Steady (charBlock fuel l).2 ∧
      (charBlock fuel l).1 ++ pendingBytes (charBlock fuel l).2 = pendingBytes l := by
  induction fuel generalizing l with
  | zero => exact ⟨h, rfl⟩
  | succ fuel ih =>
    obtain ⟨bs, rest, ht, hrest, _⟩ := takeRecv_steady increment_pos h
    have front := takeRecv_pending ht
    by_cases hshort : bs.length < increment
    · rw [charBlock_short ht hshort]
      exact ⟨hrest, front⟩
    · obtain ⟨hrest', front'⟩ := ih hrest
      rw [charBlock_full ht hshort]
      exact ⟨hrest', by rw [List.append_assoc, front', front]⟩

/-- It comes back empty only at the close. -/
theorem charTaken_eq_nil {l : List Recv} (h : Steady l) (hnil : (charTaken l).1 = []) : l = [] := by
  obtain ⟨bs, rest, ht, _, hempty⟩ := takeRecv_steady increment_pos h
  apply hempty
  by_cases hshort : bs.length < increment
  · rwa [charTaken, charBlock_short ht hshort] at hnil
  · rw [charTaken, charBlock_full ht hshort] at hnil
    exact (List.append_eq_nil_iff.mp hnil).1

theorem relayBlocks_flatten (fuel : Nat) {l : List Recv} (h : Steady l)
    (hfuel : (pendingBytes l).length < fuel) : (relayBlocks fuel l).flatten = pendingBytes l := by
  induction fuel generalizing l with
  | zero => omega
  | succ fuel ih =>
    obtain ⟨hrest, front⟩ := charBlock_steady ((pendingBytes l).length + 1) h
    rw [← charTaken] at hrest front
    rw [relayBlocks]
    split_ifs with hzero
    · rw [charTaken_eq_nil h (List.eq_nil_of_length_eq_zero hzero)]
      rfl
    · have fewer := congrArg List.length front
      rw [List.length_append] at fewer
      rw [List.flatten_cons, ih hrest (by omega), front]

/-- A relay on steady results forwards all of them. -/
theorem relayed_flatten {l : List Recv} (h : Steady l) : (relayed l).flatten = pendingBytes l :=
  relayBlocks_flatten _ h (Nat.lt_succ_self _)

/-! ## Divisions -/

structure Division (stream : Bytes) where
  segments : List Bytes
  nonempty : ∀ b ∈ segments, b ≠ []
  whole : segments.flatten = stream

namespace Division

variable {stream : Bytes} (d : Division stream)

def recvs : List Recv := d.segments.map .data

/-- What `recvBuff` reads of the stream. -/
def first : Bytes := (takeRecv 65536 d.recvs).1.bytes

/-- What it leaves to read. -/
def rest : List Recv := (takeRecv 65536 d.recvs).2

theorem steady : Steady d.recvs := by
  intro r hr
  obtain ⟨b, hb, rfl⟩ := List.mem_map.mp hr
  exact ⟨b, d.nonempty b hb, rfl⟩

theorem pending : pendingBytes d.recvs = stream := by
  have same : pendingBytes d.recvs = d.segments.flatten := by
    rw [recvs, pendingBytes, List.flatMap_map]
    exact List.flatMap_id' ..
  rw [same, d.whole]

theorem take : takeRecv 65536 d.recvs = (.data d.first, d.rest) := by
  obtain ⟨bs, rest, ht, _⟩ := takeRecv_steady (by omega : 0 < 65536) d.steady
  rw [first, Division.rest, ht]
  rfl

theorem steady_rest : Steady d.rest := by
  obtain ⟨bs, rest, ht, hrest, _⟩ := takeRecv_steady (by omega : 0 < 65536) d.steady
  rw [Division.rest, ht]
  exact hrest

theorem first_append : d.first ++ pendingBytes d.rest = stream := by
  rw [takeRecv_pending d.take, d.pending]

theorem first_begins : d.first <+: stream := ⟨_, d.first_append⟩

theorem first_length : d.first.length ≤ 65536 := takeRecv_length d.take

/-- The first segment and a relay of the rest make up the stream. -/
theorem first_relayed : d.first ++ (relayed d.rest).flatten = stream := by
  rw [relayed_flatten d.steady_rest, d.first_append]

theorem fetched_marked (h : chunkMarked d.first = true) : fetched d.first d.rest = stream := by
  rw [fetched, if_pos h, d.first_relayed]

end Division

end HttpProxy
