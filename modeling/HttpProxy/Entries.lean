import HttpProxy.Completion
import HttpProxy.Provenance

/-!
# Cached entries as messages

What is stored is the buffer as received, once the parser has completed on some part of
it. `entries_whole`: as long as the runs that store have had the parser read all of the
buffer and take its framing as the headers declare it, every entry is one whole response.
The parser does not see to either: it stops where it completes, and without a length it
completes at the end of the header block.
-/

namespace HttpProxy

/-- Whatever the run of `j` may store from `s`, the parser has read exactly. -/
def StoresExactly (s : St) (j : Job) : Prop :=
  ∀ got r p, ResponseParser.parse j.world.libc.memory got = .halt (.completed p) →
    parseResponse j.world.libc got = .ok (some r) → r.statusCode = 200 →
    StoreSite j.req (s.enter j.world) got r →
    ReadExactly j.world.libc.memory (sentBeforeClose j.world.server) got p.msg

/-- Every entry holds one whole response of the server that the run which stored it
received it from. -/
def EntriesWhole (size : Capacity) (js : List Job) : Prop :=
  ∀ u r, (serveAll (.initial size) js).cache.lookup u = some r →
    ∃ k, ReceivedIn size js k r ∧ Whole (sentBeforeClose k.world.server) r.obj.lineRecv

/-- What a run stores exactly is whole. -/
theorem Stores.whole {s : St} {j : Job} {r : Ref} (h : Stores s j r) (exactly : StoresExactly s j) :
    Whole (sentBeforeClose j.world.server) r.obj.lineRecv := by
  obtain ⟨p, hp, hline, _⟩ := parseResponse_ok h.parsed
  rw [hline]
  exact whole_of_readExactly hp (exactly _ _ p hp h.parsed h.ok h.site)

/-- The entries stay whole when one more run stores exactly. -/
theorem entries_whole_step (size : Capacity) (js : List Job) (j : Job)
    (h : EntriesWhole size js) (exactly : StoresExactly (serveAll (.initial size) js) j) :
    EntriesWhole size (js ++ [j]) := by
  intro u r hu
  rw [serveAll_snoc] at hu
  rcases serve_lookup hu with hold | ⟨_, hstores⟩
  · obtain ⟨k, hfrom, whole⟩ := h u r hold
    exact ⟨k, hfrom.mono (List.prefix_append _ _), whole⟩
  · exact ⟨j, ReceivedIn.of_stores hstores, hstores.whole exactly⟩

/-- A server that sends its header block, then the body, then closes. -/
def headFirst : World :=
  { server := [.data (str "HTTP/1.1 200 OK\r\n\r\n"), .data (str "hello")] }

end HttpProxy
