import HttpProxy.Rejected

/-!
# The case of a header's name

The two header loops compare names byte by byte, the parser without regard to case. A header
in another spelling is passed over by the loops, so they see the same in all spellings of a
list just when nothing in it would make a difference (`spelling_iff`).
-/

namespace HttpProxy

/-- The same header, but for the case of its name. -/
def Alike (a b : HeaderItem) : Prop := strcasecmpEq a.name b.name = true ∧ a.value = b.value

/-- The same headers, but for the case of their names. -/
def Respelled (hs hs' : List HeaderItem) : Prop := List.Forall₂ Alike hs hs'

theorem Alike.refl (a : HeaderItem) : Alike a a := ⟨by simp [strcasecmpEq], rfl⟩

/-- The name in small letters. -/
def small (a : HeaderItem) : HeaderItem := { a with name := a.name.map toLower }

theorem toLower_toLower : ∀ c, toLower (toLower c) = toLower c := forall_byte (by decide +kernel)

theorem alike_small (a : HeaderItem) : Alike a (small a) := by
  refine ⟨?_, rfl⟩
  simp [strcasecmpEq, small, toLower_toLower, Function.comp_def]

/-- A name with a capital is not in small letters. -/
theorem small_ne {a : HeaderItem} {name : Bytes} (h : name.map toLower ≠ name) :
    (small a).name ≠ name := by
  rintro rfl
  exact h (by simp [small, toLower_toLower, Function.comp_def])

/-! ## Requests -/

namespace HttpRequest

/-- What `getHostIp` is compared by. -/
def view (r : HttpRequest) : Bytes × Bytes × Bool × Int × Int × Int :=
  (r.hostName, r.hostPort, r.noCache, r.maxAge, r.maxStale, r.minFresh)

/-- A new object. -/
def Blank (r : HttpRequest) : Prop := r.view = ([], [], false, -1, 0, 0)

/-- A Host value without a host and a port. -/
def HostSilent (value : Bytes) : Prop := value = str ":" ∨ value = str "\r"

/-- A Cache-Control value that asks for nothing. -/
structure ControlSilent (value : Bytes) : Prop where
  noCache : Search.contains (str "no-cache") value = false
  mustRevalidate : Search.contains (str "must-revalidate") value = false
  maxAge : ∃ n, findNumber (str "max-age=") value = .ok n ∧ n < 0
  maxStale : ∃ n, findNumber (str "max-stale=") value = .ok n ∧ n ≤ 0
  minFresh : ∃ n, findNumber (str "min-fresh=") value = .ok n ∧ n ≤ 0

theorem readHeader_small (r : HttpRequest) (a : HeaderItem) : r.readHeader (small a) = .ok r := by
  unfold readHeader
  rw [if_neg (small_ne (by decide)), if_neg (small_ne (by decide))]

variable {r : HttpRequest}

theorem blank_iff : r.Blank ↔ r.hostName = [] ∧ r.hostPort = [] ∧ r.noCache = false ∧
    r.maxAge = -1 ∧ r.maxStale = 0 ∧ r.minFresh = 0 := by
  simp only [Blank, view, Prod.mk.injEq]

theorem readHost_blank_iff (h : r.Blank) (value : Bytes) :
    (r.readHost value).Blank ↔ HostSilent value := by
  rw [blank_iff] at h ⊢
  unfold readHost HostSilent
  cases found : findFirstOf (str ":\r") value with
  | none =>
    have eighty : str "80" ≠ [] := by decide
    refine iff_of_false (fun blank => eighty blank.2.1) ?_
    rintro (rfl | rfl) <;> exact absurd found (by decide)
  | some i =>
    obtain ⟨bound, at_i, _⟩ := List.findIdx?_eq_some_iff_getElem.mp found
    dsimp only
    constructor
    · rintro ⟨front, behind, _⟩
      obtain rfl : i = 0 := by
        rcases List.take_eq_nil_iff.mp front with zero | empty
        · exact zero
        · rw [empty] at bound
          cases bound
      cases value with
      | nil => cases bound
      | cons c rest =>
        obtain rfl : rest = [] := behind
        simpa [str] using at_i
    · rintro (rfl | rfl) <;> cases found <;> exact ⟨rfl, rfl, h.2.2⟩

theorem readCacheControl_blank_iff (h : r.Blank) (value : Bytes) :
    (∃ t, r.readCacheControl value = .ok t ∧ t.Blank) ↔ ControlSilent value := by
  simp only [blank_iff] at h ⊢
  obtain ⟨name, port, cache, age, stale, fresh⟩ := h
  have reads {t : HttpRequest} (run : r.readCacheControl value = .ok t) :
      ∀ key ∈ numbered, ∃ n, findNumber key value = .ok n :=
    (readCacheControl_ok_iff r value).mp ⟨t, run⟩
  constructor
  · rintro ⟨t, run, _, _, cache', age', stale', fresh'⟩
    obtain ⟨n₁, h₁⟩ := reads run (str "max-age=") (by decide)
    obtain ⟨n₂, h₂⟩ := reads run (str "max-stale=") (by decide)
    obtain ⟨n₃, h₃⟩ := reads run (str "min-fresh=") (by decide)
    obtain ⟨eq₁, eq₂, eq₃, _⟩ := readCacheControl_numbers h₁ h₂ h₃ run
    have quiet := (readCacheControl_ok run).not.mp (by simp [cache'])
    simp only [not_or, Bool.not_eq_true] at quiet
    rw [age'] at eq₁
    rw [stale'] at eq₂
    rw [fresh'] at eq₃
    refine ⟨quiet.2.1, quiet.2.2, ⟨n₁, h₁, ?_⟩, ⟨n₂, h₂, ?_⟩, ⟨n₃, h₃, ?_⟩⟩
    · split_ifs at eq₁ <;> omega
    · split_ifs at eq₂ <;> omega
    · split_ifs at eq₃ <;> omega
  · rintro ⟨quiet, quiet', ⟨n₁, h₁, low₁⟩, ⟨n₂, h₂, low₂⟩, ⟨n₃, h₃, low₃⟩⟩
    obtain ⟨t, run⟩ := (readCacheControl_ok_iff r value).mpr (by simp [numbered, h₁, h₂, h₃])
    obtain ⟨eq₁, eq₂, eq₃, name', port'⟩ := readCacheControl_numbers h₁ h₂ h₃ run
    refine ⟨t, run, name'.trans name, port'.trans port, ?_, ?_, ?_, ?_⟩
    · rw [← Bool.not_eq_true, readCacheControl_ok run]
      simp [cache, quiet, quiet']
    · rw [eq₁, if_neg (by omega), age]
    · rw [eq₂]
      split_ifs <;> omega
    · rw [eq₃]
      split_ifs <;> omega

/-- A header that says nothing to the loop. -/
def Silent (it : HeaderItem) : Prop :=
  if it.name = str "Host" then HostSilent it.value
  else if it.name = str "Cache-Control" then ControlSilent it.value
  else True

theorem readHeader_blank_iff (h : r.Blank) (it : HeaderItem) :
    (∃ t, r.readHeader it = .ok t ∧ t.Blank) ↔ Silent it := by
  unfold readHeader Silent
  split_ifs
  · simp [readHost_blank_iff h]
  · exact readCacheControl_blank_iff h it.value
  · exact iff_of_true ⟨r, rfl, h⟩ trivial

/-- A header that says nothing in any spelling. -/
structure Quiet (it : HeaderItem) : Prop where
  host : strcasecmpEq it.name (str "Host") = true → HostSilent it.value
  cacheControl : strcasecmpEq it.name (str "Cache-Control") = true → ControlSilent it.value

theorem quiet_iff (it : HeaderItem) : (∀ b, Alike it b → Silent b) ↔ Quiet it := by
  constructor
  · intro silent
    refine ⟨fun named => ?_, fun named => ?_⟩
    · exact silent ⟨str "Host", it.value⟩ ⟨named, rfl⟩
    · exact silent ⟨str "Cache-Control", it.value⟩ ⟨named, rfl⟩
  · rintro quiet b ⟨named, value⟩
    unfold Silent
    split_ifs with host control
    · exact value ▸ quiet.host (host ▸ named)
    · exact value ▸ quiet.cacheControl (control ▸ named)

theorem getHostIp_spelling_iff (h : r.Blank) (hs : List HeaderItem) :
    (∀ hs', Respelled hs hs' → (r.getHostIp hs).map view = (r.getHostIp hs').map view) ↔
      ∀ it ∈ hs, Quiet it := by
  have idle {u : HttpRequest} (hu : u.view = r.view) (it : HeaderItem) :
      (∃ t, u.readHeader it = .ok t ∧ t.view = r.view) ↔ Silent it := by
    rw [h] at hu ⊢
    exact readHeader_blank_iff hu it
  have keeps (u : HttpRequest) (it : HeaderItem) (hu : u.view = r.view)
      (still : Fold.Idle view readHeader r it) : ∃ t, u.readHeader it = .ok t ∧ t.view = r.view :=
    (idle hu it).mpr ((idle rfl it).mp still)
  have spelled : (∀ hs', Respelled hs hs' → (r.getHostIp hs).map view = (r.getHostIp hs').map view) ↔
      ∀ it ∈ hs, ∀ b, Alike it b → Fold.Idle view readHeader r b :=
    Fold.foldlM_alike_iff alike_small readHeader_small Alike.refl keeps
  refine spelled.trans (forall₂_congr fun it _ => ?_)
  rw [← quiet_iff]
  exact forall₂_congr fun b _ => idle rfl b

end HttpRequest

/-! ## Responses -/

namespace HttpResponse

/-- What `get_cache_expire` is compared by. -/
def view (r : HttpResponse) : Bool × Bool × Int × Int × Int × Bytes × Bytes :=
  (r.noStore, r.noCache, r.maxAge, r.expires, r.date, r.etags, r.lastStr)

/-- A new object. -/
def Blank (r : HttpResponse) : Prop := r.view = (false, false, -1, 0, 0, [], [])

/-- A Cache-Control value that asks for nothing. -/
structure ControlSilent (value : Bytes) : Prop where
  noStore : Search.contains (str "no-store") value = false
  restricted : Search.contains (str "private") value = false
  noCache : Search.contains (str "no-cache") value = false
  mustRevalidate : Search.contains (str "must-revalidate") value = false
  maxAge : ∃ n, findNumber (str "max-age=") value = .ok n ∧ n < 0

theorem readHeader_small (libc : Libc) (r : HttpResponse) (a : HeaderItem) :
    readHeader libc r (small a) = .ok r := by
  unfold readHeader
  rw [if_neg (small_ne (by decide)), if_neg (small_ne (by decide)), if_neg (small_ne (by decide)),
    if_neg (small_ne (by decide)), if_neg (small_ne (by decide)), if_neg (small_ne (by decide))]

variable {r : HttpResponse}

theorem blank_iff : r.Blank ↔ r.noStore = false ∧ r.noCache = false ∧ r.maxAge = -1 ∧
    r.expires = 0 ∧ r.date = 0 ∧ r.etags = [] ∧ r.lastStr = [] := by
  simp only [Blank, view, Prod.mk.injEq]

theorem readCacheControl_fields {r' : HttpResponse} {value : Bytes} {n : Int}
    (age : findNumber (str "max-age=") value = .ok n) (h : r.readCacheControl value = .ok r') :
    r'.maxAge = (if 0 ≤ n then n else r.maxAge) ∧ r'.expires = r.expires ∧ r'.date = r.date ∧
      r'.etags = r.etags ∧ r'.lastStr = r.lastStr := by
  unfold readCacheControl at h
  rw [age] at h
  cases h
  refine ⟨?_, ?_, ?_, ?_, ?_⟩
  · simp only [apply_ite HttpResponse.maxAge, ite_self]
  · simp only [apply_ite HttpResponse.expires, ite_self]
  · simp only [apply_ite HttpResponse.date, ite_self]
  · simp only [apply_ite HttpResponse.etags, ite_self]
  · simp only [apply_ite HttpResponse.lastStr, ite_self]

theorem readCacheControl_blank_iff (h : r.Blank) (value : Bytes) :
    (∃ t, r.readCacheControl value = .ok t ∧ t.Blank) ↔ ControlSilent value := by
  simp only [blank_iff] at h ⊢
  obtain ⟨store, cache, age, rest⟩ := h
  constructor
  · rintro ⟨t, run, store', cache', age', _⟩
    obtain ⟨n, read, _⟩ := Fold.bind_ok run
    obtain ⟨eq, _⟩ := readCacheControl_fields read run
    have stored := (readCacheControl_ok run).1.not.mp (by simp [store'])
    have cached := (readCacheControl_ok run).2.1.not.mp (by simp [cache'])
    simp only [not_or, Bool.not_eq_true] at stored cached
    rw [age'] at eq
    refine ⟨stored.2.1, stored.2.2, cached.2.1, cached.2.2, n, read, ?_⟩
    split_ifs at eq <;> omega
  · rintro ⟨noStore, priv, noCache, mustRevalidate, n, read, low⟩
    obtain ⟨t, run⟩ : ∃ t, r.readCacheControl value = .ok t :=
      Fold.exists_bind_ok.mpr ⟨n, read, _, rfl⟩
    obtain ⟨eq, expires, date, etags, lastStr⟩ := readCacheControl_fields read run
    refine ⟨t, run, ?_, ?_, ?_, ?_⟩
    · rw [← Bool.not_eq_true, (readCacheControl_ok run).1]
      simp [store, noStore, priv]
    · rw [← Bool.not_eq_true, (readCacheControl_ok run).2.1]
      simp [cache, noCache, mustRevalidate]
    · rw [eq, if_neg (by omega), age]
    · rw [expires, date, etags, lastStr]
      exact rest

/-- A header that says nothing to the loop. -/
def Silent (libc : Libc) (it : HeaderItem) : Prop :=
  if it.name = str "Cache-Control" then ControlSilent it.value
  else if it.name = str "Expires" then it.value ≠ str "-1" ∧ libc.strptime it.value = some 0
  else if it.name = str "Date" then libc.time = 0
  else if it.name = str "Last-Modified" then it.value = []
  else if it.name = str "ETag" then it.value = []
  else True

theorem readHeader_blank_iff (h : r.Blank) (libc : Libc) (it : HeaderItem) :
    (∃ t, readHeader libc r it = .ok t ∧ t.Blank) ↔ Silent libc it := by
  unfold readHeader Silent
  have fields := blank_iff.mp h
  split_ifs with control expires past date modified etag coding
  · exact readCacheControl_blank_iff h it.value
  · simp [blank_iff, past]
  · simp only [Except.ok.injEq, exists_eq_left', blank_iff, stringTotime]
    cases libc.strptime it.value <;> simp [past, fields]
  · simp [blank_iff, fields]
  · simp [blank_iff, fields]
  · simp [blank_iff, fields]
  · exact iff_of_true ⟨_, rfl, h⟩ trivial
  · exact iff_of_true ⟨r, rfl, h⟩ trivial
  · exact iff_of_true ⟨r, rfl, h⟩ trivial

/-- A header that says nothing in any spelling. -/
structure Quiet (libc : Libc) (it : HeaderItem) : Prop where
  cacheControl : strcasecmpEq it.name (str "Cache-Control") = true → ControlSilent it.value
  expires : strcasecmpEq it.name (str "Expires") = true →
    it.value ≠ str "-1" ∧ libc.strptime it.value = some 0
  date : strcasecmpEq it.name (str "Date") = true → libc.time = 0
  lastModified : strcasecmpEq it.name (str "Last-Modified") = true → it.value = []
  etag : strcasecmpEq it.name (str "ETag") = true → it.value = []

theorem quiet_iff (libc : Libc) (it : HeaderItem) :
    (∀ b, Alike it b → Silent libc b) ↔ Quiet libc it := by
  constructor
  · intro silent
    refine ⟨fun named => ?_, fun named => ?_, fun named => ?_, fun named => ?_, fun named => ?_⟩
    · exact silent ⟨str "Cache-Control", it.value⟩ ⟨named, rfl⟩
    · exact silent ⟨str "Expires", it.value⟩ ⟨named, rfl⟩
    · exact silent ⟨str "Date", it.value⟩ ⟨named, rfl⟩
    · exact silent ⟨str "Last-Modified", it.value⟩ ⟨named, rfl⟩
    · exact silent ⟨str "ETag", it.value⟩ ⟨named, rfl⟩
  · rintro quiet b ⟨named, value⟩
    unfold Silent
    rw [← value]
    split_ifs with control expires date modified etag
    · exact quiet.cacheControl (control ▸ named)
    · exact quiet.expires (expires ▸ named)
    · exact quiet.date (date ▸ named)
    · exact quiet.lastModified (modified ▸ named)
    · exact quiet.etag (etag ▸ named)

theorem getCacheExpire_spelling_iff (h : r.Blank) (libc : Libc) (hs : List HeaderItem) :
    (∀ hs', Respelled hs hs' →
      (r.getCacheExpire libc hs).map view = (r.getCacheExpire libc hs').map view) ↔
      ∀ it ∈ hs, Quiet libc it := by
  have idle {u : HttpResponse} (hu : u.view = r.view) (it : HeaderItem) :
      (∃ t, readHeader libc u it = .ok t ∧ t.view = r.view) ↔ Silent libc it := by
    rw [h] at hu ⊢
    exact readHeader_blank_iff hu libc it
  have keeps (u : HttpResponse) (it : HeaderItem) (hu : u.view = r.view)
      (still : Fold.Idle view (readHeader libc) r it) :
      ∃ t, readHeader libc u it = .ok t ∧ t.view = r.view :=
    (idle hu it).mpr ((idle rfl it).mp still)
  have spelled : (∀ hs', Respelled hs hs' →
      (r.getCacheExpire libc hs).map view = (r.getCacheExpire libc hs').map view) ↔
      ∀ it ∈ hs, ∀ b, Alike it b → Fold.Idle view (readHeader libc) r b :=
    Fold.foldlM_alike_iff alike_small (readHeader_small libc) Alike.refl keeps
  refine spelled.trans (forall₂_congr fun it _ => ?_)
  rw [← quiet_iff]
  exact forall₂_congr fun b _ => idle rfl b

end HttpResponse

/-! ## Both -/

/-- What is read from a request's and from a response's headers is the same in all spellings
just when no header has a name that the loops know, in whatever case, and something to say. -/
theorem spelling_iff (libc : Libc) (lineSend method uri httpVer lineRecv replyVer status : Bytes)
    (statusCode : Nat) (hs : List HeaderItem) :
    ((∀ hs', Respelled hs hs' →
        (HttpRequest.getHostIp { lineSend, method, uri, httpVer } hs).map HttpRequest.view =
          (HttpRequest.getHostIp { lineSend, method, uri, httpVer } hs').map HttpRequest.view) ↔
      ∀ it ∈ hs, HttpRequest.Quiet it) ∧
    ((∀ hs', Respelled hs hs' →
        (HttpResponse.getCacheExpire libc { lineRecv, httpVer := replyVer, statusCode, status }
          hs).map HttpResponse.view =
          (HttpResponse.getCacheExpire libc { lineRecv, httpVer := replyVer, statusCode, status }
            hs').map HttpResponse.view) ↔
      ∀ it ∈ hs, HttpResponse.Quiet libc it) :=
  ⟨HttpRequest.getHostIp_spelling_iff (by exact rfl) hs,
    HttpResponse.getCacheExpire_spelling_iff (by exact rfl) libc hs⟩

/-- A response that is not to be stored, in the usual spelling and in small letters. -/
theorem spelling_matters :
    Respelled [⟨str "Cache-Control", str "no-store"⟩] [⟨str "cache-control", str "no-store"⟩] ∧
      (HttpResponse.getCacheExpire ⟨0, fun _ => none, 2 ^ 40⟩ { lineRecv := [] }
        [⟨str "Cache-Control", str "no-store"⟩]).map (·.noStore) = .ok true ∧
      (HttpResponse.getCacheExpire ⟨0, fun _ => none, 2 ^ 40⟩ { lineRecv := [] }
        [⟨str "cache-control", str "no-store"⟩]).map (·.noStore) = .ok false := by
  refine ⟨.cons ⟨by decide, rfl⟩ .nil, by decide, by decide⟩

end HttpProxy
