import HttpProxy.Traces

/-!
# How often a run opens a descriptor

`connectServer` is the only function that opens one, and a run calls it at most once: what
a run of `runProxy1` opens and connects is nothing, a socket, or a socket that is then
connected.
-/

namespace HttpProxy

def Event.contact : Event → Bool
  | .opened => true
  | .connected => true
  | _ => false

/-- The descriptors that some events open and connect. -/
def contacts (evs : List Event) : List Event := evs.filter Event.contact

@[simp] theorem contacts_append (evs evs' : List Event) :
    contacts (evs ++ evs') = contacts evs ++ contacts evs' := List.filter_append ..

/-- However the program ends, what it opens and connects is as `P` says. -/
def Emits {α : Type} (P : List Event → Prop) (x : M α) : Prop :=
  ∀ s, ∃ evs, (finalSt (x s)).trace = s.trace ++ evs ∧ P (contacts evs)

/-- It opens nothing. -/
def Quiet {α : Type} (x : M α) : Prop := Emits (· = []) x

section
variable {α β : Type}

/-- The first part may also be all that runs. -/
theorem Emits.bind {P Q R : List Event → Prop} {x : M α} {f : α → M β} (hx : Emits P x)
    (hf : ∀ a, Emits Q (f a)) (first : ∀ c, P c → R c)
    (both : ∀ c c', P c → Q c' → R (c ++ c')) : Emits R (x >>= f) := by
  intro s
  obtain ⟨evs, htrace, hP⟩ := hx s
  cases hrun : x s with
  | error e t =>
    rw [hrun] at htrace
    exact ⟨evs, by rw [bind_error _ hrun]; exact htrace, first _ hP⟩
  | ok a t =>
    rw [hrun] at htrace
    obtain ⟨evs', htrace', hQ⟩ := hf a t
    refine ⟨evs ++ evs', ?_, contacts_append evs evs' ▸ both _ _ hP hQ⟩
    rw [bind_ok _ hrun, htrace', ← List.append_assoc]
    exact congrArg (· ++ evs') htrace

end

/-- All that a run can do with the descriptors it has. -/
inductive Idle : Event → Prop
  | lookup (host port : Bytes) : Idle (.lookup host port)
  | send (dst : Sock) (what : Payload) (range : Bytes) (n : Int) : Idle (.send dst what range n)
  | recv (src : Sock) (r : Recv) : Idle (.recv src r)
  | log (line : LogLine) : Idle (.log line)

theorem Only.quiet {α : Type} {x : M α} (h : Only Idle x) : Quiet x := by
  intro s
  obtain ⟨evs, htrace, idle⟩ := h s
  refine ⟨evs, htrace, List.filter_eq_nil_iff.mpr fun e he => ?_⟩
  cases idle e he <;> exact Bool.false_ne_true

theorem Fetching.idle {e : Event} (h : Fetching e) : Idle e := by
  cases h <;> constructor

theorem Revising.idle {e : Event} (h : Revising e) : Idle e := by
  cases h <;> constructor

theorem Tunnelling.idle {e : Event} (h : Tunnelling e) : Idle e := by
  cases h <;> constructor

/-! ## One contact at most -/

/-- What `connectServer` may have opened and connected. -/
inductive Contact : List Event → Prop
  | none : Contact []
  | refused : Contact [.opened]
  | connected : Contact [.opened, .connected]

theorem Quiet.contact {α : Type} {x : M α} (h : Quiet x) : Emits Contact x := by
  intro s
  obtain ⟨evs, htrace, hquiet⟩ := h s
  exact ⟨evs, htrace, hquiet ▸ .none⟩

theorem Quiet.bind_contact {α β : Type} {x : M α} {f : α → M β} (hx : Quiet x)
    (hf : ∀ a, Emits Contact (f a)) : Emits Contact (x >>= f) := by
  apply Emits.bind hx hf
  · rintro c rfl
    exact .none
  · rintro c c' rfl contact
    exact contact

theorem contact_bind_quiet {α β : Type} {x : M α} {f : α → M β} (hx : Emits Contact x)
    (hf : ∀ a, Quiet (f a)) : Emits Contact (x >>= f) := by
  apply Emits.bind hx hf
  · exact fun _ => id
  · rintro c c' contact rfl
    exact (List.append_nil c).symm ▸ contact

theorem connectServer_contact (req : HttpRequest) : Emits Contact (connectServer req) := by
  have refuse (line : LogLine) : Quiet (log line >>= fun _ =>
      proxyERROR .notFound404 >>= fun _ => (throw .exception : M Unit)) := by
    apply Only.quiet
    apply (only_log (.log _)).bind
    intro _
    exact (only_proxyERROR (.send _ _) fun _ => .log _).bind fun _ => only_throw _
  have opened : Emits (· = [.opened]) (emit .opened) := fun _ => ⟨[.opened], rfl, rfl⟩
  have connected : Emits (· = [.connected]) (emit .connected) := fun _ => ⟨[.connected], rfl, rfl⟩
  apply (Only.quiet (only_emit (.lookup _ _))).bind_contact
  intro _
  apply (Only.quiet only_get).bind_contact
  intro s
  cases s.world.connect with
  | noAddress => exact (refuse _).contact
  | noSocket => exact (refuse _).contact
  | refused =>
    apply opened.bind fun _ => refuse .cannotConnect
    · rintro c rfl
      exact .refused
    · rintro c c' rfl rfl
      exact .refused
  | connected =>
    apply opened.bind fun _ => connected
    · rintro c rfl
      exact .refused
    · rintro c c' rfl rfl
      exact .connected

/-! ## The methods -/

theorem proxyPOST_contact (req : HttpRequest) : Emits Contact (proxyPOST req) := by
  apply contact_bind_quiet (connectServer_contact req)
  intro _
  apply Only.quiet
  apply ((proxyFetch_only req).mono fun _ => Fetching.idle).bind
  intro o
  cases o with
  | none => exact only_pure ()
  | some r => exact only_deleteResponse r

theorem handleValidation_contact (req : HttpRequest) (cached : Ref) (url : Bytes) :
    Emits Contact (handleValidation req cached url) := by
  apply contact_bind_quiet (connectServer_contact req)
  intro _
  apply Only.quiet
  apply (only_log (.log _)).bind
  intro _
  apply (only_sendVector _ (.send _ _)).bind
  intro _
  apply (only_recvBuff (.recv _)).bind
  intro reply
  apply (only_log (.log _)).bind
  intro _
  exact (validationReply_only cached url reply).mono fun _ => Revising.idle

theorem storeFetched_idle (url : Bytes) (r : Ref) :
    Only Idle (storeFetched url r) := by
  have logged : Only Idle (receiveLog r.obj) :=
    (receiveLog_run r.obj).only .log
  unfold storeFetched
  split_ifs
  · apply logged.bind
    intro _
    exact (only_cachePut url r).bind fun _ => only_logWhen _ (.log _)
  · exact logged.bind fun _ => only_pure ()
  · exact only_pure ()

theorem serveMiss_contact (req : HttpRequest) : Emits Contact (serveMiss req) := by
  apply (Only.quiet (only_log (.log _))).bind_contact
  intro _
  apply contact_bind_quiet (connectServer_contact req)
  intro _
  apply Only.quiet
  apply ((proxyFetch_only req).mono fun _ => Fetching.idle).bind
  intro o
  cases o with
  | none => exact only_pure ()
  | some r => exact storeFetched_idle req.uri r

theorem serveHit_contact (req : HttpRequest) (resp : Ref) : Emits Contact (serveHit req resp) := by
  apply (Only.quiet only_get).bind_contact
  intro s
  have validates (line : LogLine) :
      Emits Contact (log line >>= fun _ => handleValidation req resp req.uri) :=
    (Only.quiet (only_log (.log _))).bind_contact fun _ => handleValidation_contact req resp req.uri
  split_ifs
  · exact validates _
  · exact validates _
  · exact validates _
  · apply Quiet.contact
    apply Only.quiet
    apply (only_log (.log _)).bind
    intro _
    exact (only_sendVector _ (.send _ _)).bind fun _ => only_pure ()

theorem proxyGET_contact (req : HttpRequest) : Emits Contact (proxyGET req) := by
  apply (Only.quiet (only_cacheGet req.uri)).bind_contact
  intro o
  cases o with
  | none => exact serveMiss_contact req
  | some resp => exact serveHit_contact req resp

theorem proxyCONNECT_contact (fds : Descriptors) (rounds : List Ready) (req : HttpRequest) :
    Emits Contact (proxyCONNECT fds rounds req) := by
  apply contact_bind_quiet (connectServer_contact req)
  intro _
  apply Only.quiet
  apply (only_send _ (.send _ _)).bind
  intro error
  split_ifs
  · exact only_log (.log _)
  · apply (only_log (.log _)).bind
    intro _
    apply ((tunnelLoop_only fds rounds).mono fun _ => Tunnelling.idle).bind
    intro more
    cases more with
    | true => exact (only_log (.log _)).bind fun _ => only_throw _
    | false => exact only_pure ()

theorem judgeRequest_contact (fds : Descriptors) (rounds : List Ready) (req : HttpRequest) :
    Emits Contact (judgeRequest fds rounds req) := by
  unfold judgeRequest
  split_ifs
  · apply contact_bind_quiet (proxyCONNECT_contact fds rounds req)
    intro _
    exact Only.quiet (only_log (.log _))
  · exact proxyPOST_contact req
  · exact proxyGET_contact req
  · apply Quiet.contact
    exact Only.quiet (only_proxyERROR (.send _ _) fun _ => .log _)

/-- A whole run opens one descriptor at most, and connects it or gives it up. -/
theorem runProxy1_contact (fds : Descriptors) (rounds : List Ready) :
    Emits Contact (runProxy1 fds rounds) := by
  have body : Emits Contact (recvBuff .client >>= fun data => setRequest data >>= fun request =>
      judgeRequest fds rounds request) := by
    apply (Only.quiet (only_recvBuff (.recv _))).bind_contact
    intro data
    apply (Only.quiet (only_setRequest data (.send _ _) .log)).bind_contact
    exact judgeRequest_contact fds rounds
  intro s
  obtain ⟨evs, htrace, contact⟩ := body s
  refine ⟨evs, ?_, contact⟩
  rw [← htrace, runProxy1, finalSt_catch]

end HttpProxy
