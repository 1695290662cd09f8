import HttpProxy.Expiry
import HttpProxy.Logged

/-!
# The expiry that a line of the log announces

`receiveLog` and `proxyGET` each work out when an entry expires, and `checkExpire` does so
once more. An entry has up to two limits, its max-age and its Expires. `checkExpire` heeds
both, the lines name one; `logged_expiry_iff` says when that is the one that counts.
-/

namespace HttpProxy

/-- Once `r` is in the cache, `checkExpire` finds it expired from `T` on and not before. -/
def Enforced (r : Ref) (rmaxAge T : Int) : Prop :=
  ∀ (c : LruCache Ref) (url : Bytes), c.lookup url = some r →
    ∀ t, r.obj.date ≤ t → (c.checkExpire url rmaxAge t = true ↔ T ≤ t)

theorem enforced_iff {r : Ref} {rmaxAge T : Int} : Enforced r rmaxAge T ↔
    ∀ t, r.obj.date ≤ t → (expired r.obj rmaxAge t = true ↔ T ≤ t) := by
  constructor
  · intro h t ht
    rw [← checkExpire_eq (lookup_holding (str "k") r {})]
    exact h _ _ (lookup_holding ..) t ht
  · intro h c url held t ht
    rw [checkExpire_eq held]
    exact h t ht

/-- An object has two limits: the smaller max-age, and Expires. -/
theorem expired_iff {r : HttpResponse} {rmaxAge t : Int} : expired r rmaxAge t = true ↔
    minMaxAge r.maxAge rmaxAge ≠ -1 ∧ r.date + minMaxAge r.maxAge rmaxAge ≤ t ∨
      r.expires ≠ 0 ∧ r.expires ≤ t := by
  simp only [expired, Bool.not_eq_true', Bool.and_eq_false_iff, Bool.or_eq_false_iff,
    decide_eq_false_iff_not]
  omega

theorem minMaxAge_none {m : Int} (h : -1 ≤ m) : minMaxAge m (-1) = m := by
  unfold minMaxAge
  split_ifs <;> omega

theorem minMaxAge_ge {m rm : Int} (h : -1 ≤ m) (h' : -1 ≤ rm) : -1 ≤ minMaxAge m rm := by
  unfold minMaxAge
  split_ifs <;> omega

/-- The line of `receiveLog` gives max-age the first place. -/
theorem enforced_expiresAt {r : Ref} {T : Int} (h : -1 ≤ r.obj.maxAge)
    (line : verdict r.obj = .cachedExpiresAt T) : Enforced r (-1) T ↔
      r.obj.expires = 0 ∨ r.obj.maxAge ≤ 0 ∨ r.obj.date + r.obj.maxAge ≤ r.obj.expires := by
  have instant : r.obj.maxAge ≠ -1 ∧ T = r.obj.date + r.obj.maxAge ∨
      r.obj.maxAge = -1 ∧ r.obj.expires ≠ 0 ∧ T = r.obj.expires := by
    unfold verdict at line
    split_ifs at line with _ _ unlimited aged
    · exact .inl ⟨aged, (LogLine.cachedExpiresAt.inj line).symm⟩
    · have unaged : r.obj.maxAge = -1 := not_not.mp aged
      exact .inr ⟨unaged, fun undated => unlimited ⟨unaged, undated⟩,
        (LogLine.cachedExpiresAt.inj line).symm⟩
  simp only [enforced_iff, expired_iff, minMaxAge_none h]
  generalize r.obj.maxAge = m at *
  generalize r.obj.expires = e at *
  generalize r.obj.date = d at *
  constructor
  · intro enforced
    -- the first instant at which Expires is over
    have due := enforced (max d e) (le_max_left d e)
    omega
  · intro agree t ht
    omega

/-- The line of `proxyGET` gives Expires the first place. -/
theorem enforced_expiredAt {r : Ref} {rmaxAge now : Int} (h : -1 ≤ minMaxAge r.obj.maxAge rmaxAge)
    (past : expired r.obj rmaxAge now = true) :
    (Enforced r rmaxAge (if r.obj.expires ≠ 0 then r.obj.expires
        else r.obj.date + minMaxAge r.obj.maxAge rmaxAge) ∧
      (if r.obj.expires ≠ 0 then r.obj.expires
        else r.obj.date + minMaxAge r.obj.maxAge rmaxAge) ≤ now) ↔
      r.obj.expires = 0 ∨ minMaxAge r.obj.maxAge rmaxAge = -1 ∨
        r.obj.expires ≤ r.obj.date + minMaxAge r.obj.maxAge rmaxAge := by
  simp only [enforced_iff, expired_iff] at past ⊢
  generalize minMaxAge r.obj.maxAge rmaxAge = m at *
  generalize r.obj.expires = e at *
  generalize r.obj.date = d at *
  by_cases undated : e = 0
  · subst undated
    simp only [ne_eq, not_true, if_false, false_and, or_false, true_or, iff_true] at past ⊢
    exact ⟨fun t ht => by omega, by omega⟩
  · rw [if_pos undated]
    constructor
    · rintro ⟨enforced, _⟩
      -- the last instant within the max-age
      have due := enforced (d + m)
      omega
    · intro agree
      exact ⟨fun t ht => by omega, by omega⟩

/-- A run that writes `expired at` has found its key, and the entry expired. -/
theorem expiredAt_found {req : HttpRequest} {s : St} {T : Int}
    (logged : .log (.expiredAt T) ∈ ran (proxyGET req) s) :
    ∃ resp, s.cache.lookup req.uri = some resp ∧
      expired resp.obj req.maxAge s.world.now = true ∧
      T = if resp.obj.expires ≠ 0 then resp.obj.expires
        else resp.obj.date + minMaxAge resp.obj.maxAge req.maxAge := by
  cases found : s.cache.lookup req.uri with
  | none =>
    rw [ran, proxyGET_miss found] at logged
    cases (serveMiss_only req).of_mem (s := s.touched req.uri) logged with
    | reach h => cases h
    | fetch h => cases h
    | file h => cases h with
      | note h => cases h
      | judged h => cases h
  | some resp =>
    have renewed := handleValidation_only req resp req.uri
    have held : (s.touched req.uri).cache.lookup req.uri = some resp := by simpa using found
    rw [ran, proxyGET_hit found, serveHit, get_bind, checkExpire_eq held, touched_world] at logged
    refine ⟨resp, rfl, ?_⟩
    cases past : expired resp.obj req.maxAge s.world.now with
    | true =>
      rw [past, if_pos rfl] at logged
      have first := (only_log (P := fun e => e = .log (.expiredAt (if resp.obj.expires ≠ 0
        then resp.obj.expires else resp.obj.date + minMaxAge resp.obj.maxAge req.maxAge)))
        rfl).mem_ran_bind (fun _ => renewed) (s := s.touched req.uri) logged
      rcases first with h | ⟨_, _, _, h⟩
      · have same := (only_log rfl).of_mem h
        cases same
        exact ⟨rfl, rfl⟩
      · cases renewed.of_mem h with
        | reach h => cases h
    | false =>
      exfalso
      rw [past, if_neg Bool.false_ne_true] at logged
      have rest : Only (fun e => ∀ t, e ≠ .log (.expiredAt t))
          (if needsValidation req resp.obj s.world.now then
              log .requiresValidation >>= fun _ => handleValidation req resp req.uri
            else log .valid >>= fun _ =>
              sendVector .client (.cached resp.addr) resp.obj.lineRecv >>= fun _ => pure ()) := by
        split_ifs
        · apply (only_log (by simp)).bind
          intro _
          apply renewed.mono
          rintro _ h t rfl
          cases h with
          | reach h => cases h
        · apply (only_log (by simp)).bind
          intro _
          exact (only_sendVector _ (by simp)).bind fun _ => only_pure ()
      exact rest.of_mem (s := s.touched req.uri) logged T rfl

theorem parsed_maxAge {libc : Libc} {bytes : Bytes} {r : HttpResponse}
    (h : parseResponse libc bytes = .ok (some r)) : -1 ≤ r.maxAge := by
  unfold parseResponse at h
  split at h
  · obtain ⟨r', hr, heq⟩ := Fold.map_ok h
    cases heq
    rw [(HttpResponse.getCacheExpire_writes hr).1]
    cases maxAgeGiven _ with
    | none => exact le_refl _
    | some n => simp
  all_goals cases h

theorem held_maxAge (size : Capacity) (js : List Job) {u : Bytes} {r : Ref}
    (h : (serveAll (.initial size) js).cache.lookup u = some r) : -1 ≤ r.obj.maxAge := by
  induction js using List.reverseRecOn with
  | nil => cases h
  | append_singleton js j ih =>
    rw [serveAll_snoc] at h
    rcases serve_lookup h with old | ⟨_, stores⟩
    · exact ih old
    · exact parsed_maxAge stores.parsed

theorem HttpRequest.getHostIp_maxAge {r r' : HttpRequest} {headers : List HeaderItem}
    (h : r.getHostIp headers = .ok r') (start : -1 ≤ r.maxAge) : -1 ≤ r'.maxAge := by
  refine Fold.foldlM_keeps (fun r => -1 ≤ r.maxAge) (fun r it t hr hstep => ?_) start h
  unfold readHeader at hstep
  split_ifs at hstep with host cacheControl
  · cases hstep
    unfold readHost
    split <;> exact hr
  · obtain ⟨n, _, hstep⟩ := Fold.bind_ok hstep
    obtain ⟨_, _, hstep⟩ := Fold.bind_ok hstep
    obtain ⟨_, _, hstep⟩ := Fold.bind_ok hstep
    cases hstep
    simp only [apply_ite HttpRequest.maxAge, ite_self]
    split_ifs <;> omega
  · cases hstep
    exact hr

theorem AcceptedRequest.maxAge_ge (q : AcceptedRequest) : -1 ≤ q.maxAge := by
  obtain ⟨_, accepts⟩ := q.accepts
  obtain ⟨_, built, _, _, _, hbuilt, heq⟩ := HttpRequest.accepted_parts accepts
  have kept := HttpRequest.getHostIp_maxAge hbuilt (Int.le_refl (-1))
  rw [heq]
  exact kept

/-- After any list of runs: the instant that `cached, expires at` gives is the one
`checkExpire` enforces just when no Expires comes before the max-age is over, and the one
that `expired at` gives just when no max-age is over before the Expires. -/
theorem logged_expiry_iff (size : Capacity) (js : List (AcceptedRequest × World))
    (q : AcceptedRequest) (w : World) :
    let s := (serveAll (.initial size) (js.map fun p => p.1.job p.2)).enter w
    (∀ T, .log (.cachedExpiresAt T) ∈ ran (proxyGET q.toHttpRequest) s →
      ∃ r, (finalSt (proxyGET q.toHttpRequest s)).cache.lookup q.uri = some r ∧
        (Enforced r (-1) T ↔ r.obj.expires = 0 ∨ r.obj.maxAge ≤ 0 ∨
          r.obj.date + r.obj.maxAge ≤ r.obj.expires)) ∧
    ∀ T, .log (.expiredAt T) ∈ ran (proxyGET q.toHttpRequest) s →
      ∃ r, s.cache.lookup q.uri = some r ∧
        (Enforced r q.maxAge T ∧ T ≤ w.now ↔ r.obj.expires = 0 ∨
          minMaxAge r.obj.maxAge q.maxAge = -1 ∨
            r.obj.expires ≤ r.obj.date + minMaxAge r.obj.maxAge q.maxAge) := by
  intro s
  constructor
  · intro T logged
    obtain ⟨r, t, received, line⟩ := (judged_iff (.expiresAt T)).mp logged
    obtain ⟨⟨_, parsed⟩, _⟩ := proxyFetch_found received.fetch
    have reason := reason_of_parsed parsed
    have kept : r.obj.noStore = false := by
      by_contra forbidden
      have given : r.obj.noCacheReason.length ≠ 0 := by simpa using reason.mpr (by simpa using forbidden)
      rw [verdict, if_pos given] at line
      cases line
    exact ⟨r, received.stored_iff.mpr kept, enforced_expiresAt (parsed_maxAge parsed) line.symm⟩
  · intro T logged
    obtain ⟨r, found, past, rfl⟩ := expiredAt_found logged
    refine ⟨r, found, enforced_expiredAt ?_ past⟩
    exact minMaxAge_ge (held_maxAge size _ found) q.maxAge_ge

/-- At the first second of March 2023, a server whose response expires five seconds before
its max-age is over. -/
def soonWorld : World where
  server := [.data (str ("HTTP/1.1 200 OK\r\nDate: Wed, 01 Mar 2023 00:00:00 GMT\r\n" ++
    "Cache-Control: max-age=10\r\nExpires: Wed, 01 Mar 2023 00:00:05 GMT\r\n\r\n"))]
  libc :=
    { time := 1677628800
      strptime := fun v =>
        if v = str "Wed, 01 Mar 2023 00:00:05 GMT" then some 1677628805 else none
      memory := 2 ^ 40 }

theorem logged_expiry_iff_soon :
    ∃ r, (serve (.initial ⟨1, Nat.le_refl 1⟩) (AcceptedRequest.home.job soonWorld)).cache.lookup
        AcceptedRequest.home.uri = some r ∧
      (Enforced r (-1) 1677628810 ↔ r.obj.expires = 0 ∨ r.obj.maxAge ≤ 0 ∨
        r.obj.date + r.obj.maxAge ≤ r.obj.expires) :=
  (logged_expiry_iff ⟨1, Nat.le_refl 1⟩ [] AcceptedRequest.home soonWorld).1 1677628810
    (by decide +kernel)

/-- The log says that it expires at second 10, and at second 7 it has expired. -/
theorem soonWorld_misannounced :
    .log (.cachedExpiresAt 1677628810) ∈
        (serve (.initial ⟨1, Nat.le_refl 1⟩) (AcceptedRequest.home.job soonWorld)).trace ∧
      ∃ r, (serve (.initial ⟨1, Nat.le_refl 1⟩) (AcceptedRequest.home.job soonWorld)).cache.lookup
          AcceptedRequest.home.uri = some r ∧
        ¬ Enforced r (-1) 1677628810 := by
  have held : ((serve (.initial ⟨1, Nat.le_refl 1⟩)
      (AcceptedRequest.home.job soonWorld)).cache.lookup AcceptedRequest.home.uri).map
        (fun r => (r.obj.date, expired r.obj (-1) 1677628807)) = some (1677628800, true) := by
    decide +kernel
  obtain ⟨r, stored, heq⟩ := Option.map_eq_some_iff.mp held
  simp only [Prod.mk.injEq] at heq
  refine ⟨by decide +kernel, r, stored, fun enforced => ?_⟩
  have early := (enforced_iff.mp enforced 1677628807 (by rw [heq.1]; decide)).mp heq.2
  exact absurd early (by decide)

end HttpProxy
