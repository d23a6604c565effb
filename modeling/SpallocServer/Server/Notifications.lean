import SpallocServer.Controller.Changes
import SpallocServer.Server.Lines

namespace SpallocServer.Server

open Foundation Prog

variable {s s' t u : Server} {c : Socket} {id : Json}

/-- Something could not be sent to the client. -/
def Failed (s t : Server) (c : Socket) : Prop :=
  ∃ n, s.sends c ≤ n ∧ n < t.sends c ∧ ¬(s.sending c n).isOk

/-- The client has got all that was sent to it, and goes on as before. -/
structure Kept (s t : Server) (c : Socket) : Prop where
  registered : t.Registered c
  buffer : t.clientBuffers.get? c = s.clientBuffers.get? c
  jobWatches : t.clientJobWatches.get? c = s.clientJobWatches.get? c
  machineWatches : t.clientMachineWatches.get? c = s.clientMachineWatches.get? c
  heard : ¬Failed s t c

/-- The client was disconnected, as something could not be sent to it. -/
structure Lost (s t : Server) (c : Socket) : Prop where
  removed : t.Removed c
  failed : Failed s t c

theorem not_failed (h : t.sends c ≤ s.sends c) : ¬Failed s t c := by
  rintro ⟨n, hle, hlt, -⟩
  omega

theorem Failed.split (h : Failed s u c) (hsending : t.sending = s.sending) :
    Failed s t c ∨ Failed t u c := by
  obtain ⟨n, hle, hlt, hfailed⟩ := h
  by_cases hn : n < t.sends c
  · exact .inl ⟨n, hle, hn, hfailed⟩
  · exact .inr ⟨n, not_lt.mp hn, hlt, by rwa [hsending]⟩

theorem Kept.refl (h : s.Registered c) : Kept s s c := ⟨h, rfl, rfl, rfl, not_failed le_rfl⟩

theorem Kept.trans (h : Kept s t c) (h' : Kept t u c) (hsending : t.sending = s.sending) :
    Kept s u c :=
  ⟨h'.registered, h'.buffer.trans h.buffer, h'.jobWatches.trans h.jobWatches,
    h'.machineWatches.trans h.machineWatches, fun hf =>
      (hf.split hsending).elim h.heard h'.heard⟩

theorem Removed.not_registered (h : s.Removed c) : ¬s.Registered c := by
  intro hr
  have hbuffer := hr.buffer
  rw [h.buffer] at hbuffer
  cases hbuffer

theorem Apart.kept (h : Apart c s t) {c' : Socket} (hc : c' ≠ c) (hr : s.Registered c') :
    Kept s t c' :=
  ⟨h.registered c' hc hr, h.buffers c' hc, h.jobWatches c' hc, h.machineWatches c' hc,
    not_failed (h.sends c' hc).le⟩

structure Told (s t : Server) : Prop where
  sending : t.sending = s.sending
  sends : ∀ c, s.sends c ≤ t.sends c
  jobWatches : ∀ c items, t.clientJobWatches.get? c = some items →
    s.clientJobWatches.get? c = some items
  machineWatches : ∀ c items, t.clientMachineWatches.get? c = some items →
    s.clientMachineWatches.get? c = some items
  clients : ∀ c, s.Registered c → Kept s t c ∨ Lost s t c
  removed : ∀ c, s.Removed c → t.Removed c ∧ t.sends c = s.sends c

theorem Told.refl (s : Server) : Told s s :=
  ⟨rfl, fun _ => le_refl _, fun _ _ h => h, fun _ _ h => h, fun _ h => .inl (.refl h),
    fun _ h => ⟨h, rfl⟩⟩

theorem Told.trans (h : Told s t) (h' : Told t u) : Told s u where
  sending := h'.sending.trans h.sending
  sends c := (h.sends c).trans (h'.sends c)
  jobWatches c items hc := h.jobWatches c items (h'.jobWatches c items hc)
  machineWatches c items hc := h.machineWatches c items (h'.machineWatches c items hc)
  removed c hr := by
    obtain ⟨hr', hsends⟩ := h.removed c hr
    obtain ⟨hr'', hsends'⟩ := h'.removed c hr'
    exact ⟨hr'', hsends'.trans hsends⟩
  clients c hr := by
    obtain hkept | hlost := h.clients c hr
    · obtain hkept' | ⟨hremoved, n, hle, hlt, hfailed⟩ := h'.clients c hkept.registered
      · exact .inl (hkept.trans hkept' h.sending)
      · rw [h.sending] at hfailed
        exact .inr ⟨hremoved, n, (h.sends c).trans hle, hlt, hfailed⟩
    · obtain ⟨hremoved, n, hle, hlt, hfailed⟩ := hlost
      obtain ⟨hremoved', hsends⟩ := h'.removed c hremoved
      exact .inr ⟨hremoved', n, hle, hsends ▸ hlt, hfailed⟩

theorem Told.one (h : Apart c s t) (hsends : s.sends c ≤ t.sends c) (hreg : s.Registered c)
    (hclient : Kept s t c ∨ Lost s t c)
    (hremoved : ∀ c' ≠ c, s.Removed c' → t.Removed c') : Told s t where
  sending := h.sending
  sends c' := by
    by_cases hc : c' = c
    · rw [hc]
      exact hsends
    · exact (h.sends c' hc).ge
  jobWatches c' items hitems := by
    by_cases hc : c' = c
    · subst hc
      obtain hkept | hlost := hclient
      · rwa [← hkept.jobWatches]
      · rw [hlost.removed.jobWatches] at hitems
        cases hitems
    · rwa [← h.jobWatches c' hc]
  machineWatches c' items hitems := by
    by_cases hc : c' = c
    · subst hc
      obtain hkept | hlost := hclient
      · rwa [← hkept.machineWatches]
      · rw [hlost.removed.machineWatches] at hitems
        cases hitems
    · rwa [← h.machineWatches c' hc]
  clients c' hr := by
    by_cases hc : c' = c
    · rw [hc]
      exact hclient
    · exact .inl (h.kept hc hr)
  removed c' hr := by
    have hc : c' ≠ c := fun hc => (hc ▸ hr).not_registered hreg
    exact ⟨hremoved c' hc hr, h.sends c' hc⟩

/-- Only what the source catches is raised. -/
def RaisesOSErrors (sending : Socket → ℕ → Except Error Unit) : Prop :=
  ∀ c n e, sending c n = .error e → ∃ message, e = .osError message

structure Attended (s : Server) : Prop where
  roster : Controller.Roster 0 s.controller
  sending : RaisesOSErrors s.sending
  jobs : ∀ c items, s.clientJobWatches.get? c = some items → s.Registered c
  machines : ∀ c items, s.clientMachineWatches.get? c = some items → s.Registered c

theorem Attended.told (h : Attended s) (htold : Told s t)
    (hroster : Controller.Roster 0 t.controller) : Attended t where
  roster := hroster
  sending := htold.sending ▸ h.sending
  jobs c items hitems := by
    obtain hkept | hlost := htold.clients c (h.jobs c items (htold.jobWatches c items hitems))
    · exact hkept.registered
    · rw [hlost.removed.jobWatches] at hitems
      cases hitems
  machines c items hitems := by
    obtain hkept | hlost :=
      htold.clients c (h.machines c items (htold.machineWatches c items hitems))
    · exact hkept.registered
    · rw [hlost.removed.machineWatches] at hitems
      cases hitems

/-- What happens between two turns of the loop of `_run`, and the notifications at the end of a
turn. -/
inductive Event where
  | connect (client : Socket)
  | disconnect (client : Socket)
  | notifyJob (client : Socket) (id : Json)
  | noNotifyJob (client : Socket) (id : Json)
  | notifyMachine (client : Socket) (id : Json)
  | noNotifyMachine (client : Socket) (id : Json)
  | reply (client : Socket) (message : Message)
  | operate (op : Controller.Operation)
  | sendChangeNotifications

namespace Event

def run : Event → Call Unit
  | connect client => acceptClient (some client)
  | disconnect client => disconnectClient client
  | notifyJob client id => Server.notifyJob client id
  | noNotifyJob client id => Server.noNotifyJob client id
  | notifyMachine client id => Server.notifyMachine client id
  | noNotifyMachine client id => Server.noNotifyMachine client id
  | reply client message => msgClient client message
  | operate op => zoom Server.controller (fun c s => { s with controller := c }) (Controller.exec op)
  | sendChangeNotifications => Server.sendChangeNotifications

end Event

/-- What has been recorded stays until it is read. -/
structure Quiet (s t : Server) : Prop where
  attended : Attended t
  records : Controller.Records none s.controller.2 t.controller.2

theorem Quiet.refl (h : Attended s) : Quiet s s := ⟨h, .refl _ _⟩

theorem Quiet.trans (h : Quiet s t) (h' : Quiet t u) : Quiet s u :=
  ⟨h'.attended, h.records.step h'.records⟩

theorem Quiet.same (h : Attended t) (hcontroller : t.controller = s.controller) : Quiet s t :=
  ⟨h, by rw [hcontroller]; exact .refl _ _⟩

namespace Attended

theorem connect (h : Attended s) (hc : s.Unknown c) : Quiet s (s.accepted c) := by
  have hne {c' : Socket} (hr : s.Registered c') : c' ≠ c := by
    intro he
    exact hc.socket _ ((hr.fdmap _).mpr rfl |>.trans (congrArg some he))
  refine .same ⟨h.roster, h.sending, fun c' items hitems => ?_, fun c' items hitems => ?_⟩ rfl
  · have hr := h.jobs c' items hitems
    exact hc.apart.registered c' (hne hr) hr
  · have hr := h.machines c' items hitems
    exact hc.apart.registered c' (hne hr) hr

theorem disconnect (h : Attended s) (hc : s.Registered c) : Quiet s (s.disconnected c) := by
  refine .same ⟨h.roster, h.sending, fun c' items hitems => ?_, fun c' items hitems => ?_⟩ rfl
  · by_cases he : c' = c
    · rw [he, hc.removed.jobWatches] at hitems
      cases hitems
    · rw [hc.apart.jobWatches c' he] at hitems
      exact hc.apart.registered c' he (h.jobs c' items hitems)
  · by_cases he : c' = c
    · rw [he, hc.removed.machineWatches] at hitems
      cases hitems
    · rw [hc.apart.machineWatches c' he] at hitems
      exact hc.apart.registered c' he (h.machines c' items hitems)

theorem start (setup : Controller.Setup) (poll : Option (Finset ℤ)) (fileno : Socket → ℤ)
    {sending : Socket → ℕ → Except Error Unit} (h : RaisesOSErrors sending) :
    Attended (Server.new setup.start poll fileno sending) :=
  ⟨Controller.start_roster setup, h, nofun, nofun⟩

end Attended

section Runs

variable {setup : Controller.Setup} {poll : Option (Finset ℤ)} {fileno : Socket → ℤ}
  {sending : Socket → ℕ → Except Error Unit}

end Runs

end SpallocServer.Server
