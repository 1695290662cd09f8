import HttpProxy.Request
import HttpProxy.Reserving

/-!
# What the two header loops make of Cache-Control

`no_store` and `no_cache` are raised by the header values that contain one of the
words and by nothing else; the loops leave the other fields they do not name alone.
-/

namespace HttpProxy

/-- A Cache-Control header whose value contains one of these words. -/
def Mentions (words : List Bytes) (it : HeaderItem) : Prop :=
  it.name = str "Cache-Control" ∧ ∃ w ∈ words, Search.contains w it.value = true

def storeForbidding : List Bytes := [str "no-store", str "private"]

def revalidating : List Bytes := [str "no-cache", str "must-revalidate"]

instance (words : List Bytes) (it : HeaderItem) : Decidable (Mentions words it) :=
  inferInstanceAs (Decidable (_ ∧ _))

namespace HttpResponse

theorem readCacheControl_ok {r r' : HttpResponse} {value : Bytes}
    (h : r.readCacheControl value = .ok r') :
    (r'.noStore = true ↔ r.noStore = true ∨ Search.contains (str "no-store") value = true ∨
      Search.contains (str "private") value = true) ∧
    (r'.noCache = true ↔ r.noCache = true ∨ Search.contains (str "no-cache") value = true ∨
      Search.contains (str "must-revalidate") value = true) ∧
    r'.lineRecv = r.lineRecv ∧ r'.statusCode = r.statusCode := by
  unfold readCacheControl at h
  cases hn : findNumber (str "max-age=") value with
  | error e => rw [hn] at h; cases h
  | ok n =>
    rw [hn] at h
    cases h
    refine ⟨?_, ?_, ?_, ?_⟩
    · simp only [apply_ite HttpResponse.noStore]
      grind
    · simp only [apply_ite HttpResponse.noCache]
      grind
    · simp only [apply_ite HttpResponse.lineRecv, ite_self]
    · simp only [apply_ite HttpResponse.statusCode, ite_self]

theorem readHeader_ok {libc : Libc} {r r' : HttpResponse} {it : HeaderItem}
    (h : readHeader libc r it = .ok r') :
    (r'.noStore = true ↔ r.noStore = true ∨ Mentions storeForbidding it) ∧
    (r'.noCache = true ↔ r.noCache = true ∨ Mentions revalidating it) ∧
    r'.lineRecv = r.lineRecv ∧ r'.statusCode = r.statusCode := by
  unfold readHeader at h
  by_cases hcc : it.name = str "Cache-Control"
  · rw [if_pos hcc] at h
    simpa [Mentions, hcc, storeForbidding, revalidating] using readCacheControl_ok h
  · -- no other header touches the two flags
    rw [if_neg hcc] at h
    have quiet (words : List Bytes) : ¬ Mentions words it := fun hm => hcc hm.1
    simp only [quiet, or_false]
    split_ifs at h <;> cases h <;> exact ⟨Iff.rfl, Iff.rfl, rfl, rfl⟩

theorem getCacheExpire_ok {libc : Libc} {r r' : HttpResponse} {headers : List HeaderItem}
    (h : r.getCacheExpire libc headers = .ok r') :
    (r'.noStore = true ↔ r.noStore = true ∨ ∃ it ∈ headers, Mentions storeForbidding it) ∧
    (r'.noCache = true ↔ r.noCache = true ∨ ∃ it ∈ headers, Mentions revalidating it) ∧
    r'.lineRecv = r.lineRecv ∧ r'.statusCode = r.statusCode := by
  refine ⟨?_, ?_, ?_, ?_⟩
  · exact Fold.foldlM_flag (fun r => r.noStore = true) _ (fun _ _ _ h => (readHeader_ok h).1) h
  · exact Fold.foldlM_flag (fun r => r.noCache = true) _ (fun _ _ _ h => (readHeader_ok h).2.1) h
  · exact Fold.foldlM_keeps (fun s => s.lineRecv = r.lineRecv)
      (fun _ _ _ hs h => (readHeader_ok h).2.2.1.trans hs) rfl h
  · exact Fold.foldlM_keeps (fun s => s.statusCode = r.statusCode)
      (fun _ _ _ hs h => (readHeader_ok h).2.2.2.trans hs) rfl h

/-- Only the value of a header can make its reading throw. -/
theorem readHeader_regardless {libc : Libc} (r r' : HttpResponse) (it : HeaderItem)
    (t : HttpResponse) (h : readHeader libc r it = .ok t) :
    ∃ t', readHeader libc r' it = .ok t' := by
  unfold readHeader at h ⊢
  by_cases hcc : it.name = str "Cache-Control"
  · rw [if_pos hcc] at h ⊢
    unfold readCacheControl at h ⊢
    cases hn : findNumber (str "max-age=") it.value with
    | error e => rw [hn] at h; cases h
    | ok n => exact ⟨_, rfl⟩
  · rw [if_neg hcc]
    split_ifs <;> exact ⟨_, rfl⟩

end HttpResponse

/-- The headers of a reply that the parser completes on. -/
def headersOf (bytes : Bytes) : List HeaderItem :=
  match ResponseParser.parse maxSize bytes with
  | .halt (.completed p) => p.msg.headers
  | _ => []

theorem headersOf_parsed {memory : Nat} {bytes : Bytes} {p : Response}
    (h : ResponseParser.parse memory bytes = .halt (.completed p)) :
    headersOf bytes = p.msg.headers := by
  rw [headersOf, ResponseParser.parse_unlimited h]

/-- What an object that `parseResponse` accepts has to do with its bytes. -/
theorem parseResponse_ok {libc : Libc} {bytes : Bytes} {r : HttpResponse}
    (h : parseResponse libc bytes = .ok (some r)) :
    ∃ p, ResponseParser.parse libc.memory bytes = .halt (.completed p) ∧ r.lineRecv = bytes ∧
      r.statusCode = p.statusCode ∧
      (r.noStore = true ↔ ∃ it ∈ p.msg.headers, Mentions storeForbidding it) ∧
      (r.noCache = true ↔ ∃ it ∈ p.msg.headers, Mentions revalidating it) := by
  unfold parseResponse at h
  split at h
  · next p hp =>
    obtain ⟨r', hr, heq⟩ := Fold.map_ok h
    cases heq
    obtain ⟨hs, hc, hl, hst⟩ := HttpResponse.getCacheExpire_ok hr
    exact ⟨p, hp, hl, hst, by simpa using hs, by simpa using hc⟩
  all_goals cases h

/-- Bytes behind a reply that parses change neither that nor its status. -/
theorem parseResponse_append {libc : Libc} {bytes : Bytes} {r : HttpResponse} (more : Bytes)
    (h : parseResponse libc bytes = .ok (some r)) :
    ∃ r', parseResponse libc (bytes ++ more) = .ok (some r') ∧ r'.statusCode = r.statusCode := by
  obtain ⟨p, hp, _, hst, _⟩ := parseResponse_ok h
  have longer := ResponseParser.parse_append_halt more hp
  unfold parseResponse at h
  rw [hp] at h
  obtain ⟨t, ht, _⟩ := Fold.map_ok h
  obtain ⟨t', ht'⟩ := Fold.foldlM_regardless HttpResponse.readHeader_regardless
    { lineRecv := bytes ++ more, status := p.status, statusCode := p.statusCode,
      httpVer := httpVersion p.msg } ht
  refine ⟨t', ?_, ?_⟩
  · unfold parseResponse
    rw [longer]
    dsimp only
    rw [HttpResponse.getCacheExpire, ht']
    rfl
  · rw [hst]
    exact (HttpResponse.getCacheExpire_ok ht').2.2.2

namespace HttpRequest

theorem readCacheControl_ok {r r' : HttpRequest} {value : Bytes}
    (h : r.readCacheControl value = .ok r') :
    r'.noCache = true ↔ r.noCache = true ∨ Search.contains (str "no-cache") value = true ∨
      Search.contains (str "must-revalidate") value = true := by
  unfold readCacheControl at h
  cases h₁ : findNumber (str "max-age=") value with
  | error e => rw [h₁] at h; cases h
  | ok n₁ =>
    cases h₂ : findNumber (str "max-stale=") value with
    | error e => rw [h₁, h₂] at h; cases h
    | ok n₂ =>
      cases h₃ : findNumber (str "min-fresh=") value with
      | error e => rw [h₁, h₂, h₃] at h; cases h
      | ok n₃ =>
        rw [h₁, h₂, h₃] at h
        cases h
        simp only [apply_ite HttpRequest.noCache]
        grind

theorem readCacheControl_numbers {r r' : HttpRequest} {value : Bytes} {n₁ n₂ n₃ : Int}
    (age : findNumber (str "max-age=") value = .ok n₁)
    (stale : findNumber (str "max-stale=") value = .ok n₂)
    (fresh : findNumber (str "min-fresh=") value = .ok n₃) (h : r.readCacheControl value = .ok r') :
    r'.maxAge = (if 0 ≤ n₁ then n₁ else r.maxAge) ∧
      r'.maxStale = (if 0 ≤ n₂ then n₂ else r.maxStale) ∧
      r'.minFresh = (if 0 ≤ n₃ then n₃ else r.minFresh) ∧
      r'.hostName = r.hostName ∧ r'.hostPort = r.hostPort := by
  unfold readCacheControl at h
  rw [age, stale, fresh] at h
  cases h
  refine ⟨?_, ?_, ?_, ?_, ?_⟩
  · simp only [apply_ite HttpRequest.maxAge, ite_self]
  · simp only [apply_ite HttpRequest.maxStale, ite_self]
  · simp only [apply_ite HttpRequest.minFresh, ite_self]
  · simp only [apply_ite HttpRequest.hostName, ite_self]
  · simp only [apply_ite HttpRequest.hostPort, ite_self]

theorem getHostIp_noCache {r r' : HttpRequest} {headers : List HeaderItem}
    (h : r.getHostIp headers = .ok r') :
    r'.noCache = true ↔ r.noCache = true ∨ ∃ it ∈ headers, Mentions revalidating it := by
  refine Fold.foldlM_flag (fun r => r.noCache = true) _ (fun r it r' hstep => ?_) h
  unfold readHeader at hstep
  by_cases hcc : it.name = str "Cache-Control"
  · have hhost : it.name ≠ str "Host" := by rw [hcc]; decide
    rw [if_neg hhost, if_pos hcc] at hstep
    simpa [Mentions, hcc, revalidating] using readCacheControl_ok hstep
  · rw [if_neg hcc] at hstep
    have quiet : ¬ Mentions revalidating it := fun hm => hcc hm.1
    simp only [quiet, or_false]
    split_ifs at hstep <;> cases hstep
    · unfold readHost
      split <;> rfl
    · rfl

end HttpRequest

end HttpProxy
