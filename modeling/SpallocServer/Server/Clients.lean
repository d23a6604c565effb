import SpallocServer.Controller.Rules
import SpallocServer.Server

namespace SpallocServer.Server

open Foundation Prog

variable {s s' : Server} {c c' : Socket}

/-- The lines of a client that were passed to `_handle_command`. -/
def lines (s : Server) (c : Socket) : List Bytes := (s.handled.filter (·.1 = c)).map Prod.snd

/-- The client is connected, and the server has all that it needs to serve it. -/
structure Registered (s : Server) (c : Socket) : Prop where
  buffer : (s.clientBuffers.get? c).isSome
  fileno : 0 ≤ s.fileno c
  polled : ∀ fds, s.poll = some fds → s.fileno c ∈ fds
  fdmap : ∀ fd, s.fdmap.get? fd = some c ↔ fd = s.fileno c

/-- The server has forgotten the client, and its socket is closed. -/
structure Removed (s : Server) (c : Socket) : Prop where
  buffer : s.clientBuffers.get? c = none
  jobWatches : s.clientJobWatches.get? c = none
  machineWatches : s.clientMachineWatches.get? c = none
  fdmap : ∀ fd, s.fdmap.get? fd ≠ some c
  fileno : s.fileno c = -1

/-- Nothing has changed for other clients. -/
structure Apart (c : Socket) (s s' : Server) : Prop where
  sending : s'.sending = s.sending
  poll : s'.poll.isSome = s.poll.isSome
  buffers : ∀ c' ≠ c, s'.clientBuffers.get? c' = s.clientBuffers.get? c'
  jobWatches : ∀ c' ≠ c, s'.clientJobWatches.get? c' = s.clientJobWatches.get? c'
  machineWatches : ∀ c' ≠ c, s'.clientMachineWatches.get? c' = s.clientMachineWatches.get? c'
  registered : ∀ c' ≠ c, s.Registered c' → s'.Registered c'
  fdmap : ∀ c' ≠ c, ∀ fd, s'.fdmap.get? fd = some c' → s.fdmap.get? fd = some c'
  sends : ∀ c' ≠ c, s'.sends c' = s.sends c'
  lines : ∀ c' ≠ c, s'.lines c' = s.lines c'

theorem Apart.refl (c : Socket) (s : Server) : Apart c s s :=
  ⟨rfl, rfl, fun _ _ => rfl, fun _ _ => rfl, fun _ _ => rfl, fun _ _ h => h, fun _ _ _ h => h,
    fun _ _ => rfl, fun _ _ => rfl⟩

theorem Apart.trans {s'' : Server} (h : Apart c s s') (h' : Apart c s' s'') : Apart c s s'' where
  sending := h'.sending.trans h.sending
  poll := h'.poll.trans h.poll
  buffers c' hc := (h'.buffers c' hc).trans (h.buffers c' hc)
  jobWatches c' hc := (h'.jobWatches c' hc).trans (h.jobWatches c' hc)
  machineWatches c' hc := (h'.machineWatches c' hc).trans (h.machineWatches c' hc)
  registered c' hc hr := h'.registered c' hc (h.registered c' hc hr)
  fdmap c' hc fd hfd := h.fdmap c' hc fd (h'.fdmap c' hc fd hfd)
  sends c' hc := (h'.sends c' hc).trans (h.sends c' hc)
  lines c' hc := (h'.lines c' hc).trans (h.lines c' hc)

theorem Registered.congr (h : s.Registered c) (hbuffer : (s'.clientBuffers.get? c).isSome)
    (hfileno : s'.fileno = s.fileno) (hpoll : s'.poll = s.poll) (hfdmap : s'.fdmap = s.fdmap) :
    s'.Registered c where
  buffer := hbuffer
  fileno := by
    rw [hfileno]
    exact h.fileno
  polled := by
    rw [hfileno, hpoll]
    exact h.polled
  fdmap := by
    rw [hfileno, hfdmap]
    exact h.fdmap

theorem Registered.is_polled (h : s.Registered c) : s.polled c :=
  ⟨h.polled, (h.fdmap _).mpr rfl⟩

def forgotten (s : Server) (c : Socket) : Server :=
  { s with clientBuffers := s.clientBuffers.erase c }.clearWatches c

def unregistered (s : Server) (c : Socket) : Server :=
  { s with
    poll := s.poll.map (·.erase (s.fileno c))
    fdmap := s.fdmap.erase (s.fileno c) }

def disconnected (s : Server) (c : Socket) : Server := ((s.forgotten c).unregistered c).close c

theorem unregisterChannel_run (hopen : 0 ≤ s.fileno c)
    (hpolled : ∀ fds, s.poll = some fds → s.fileno c ∈ fds) :
    (unregisterChannel c).run s = (.ok (), s.unregistered c) := by
  suffices h : wp (unregisterChannel c) (fun _ t => t = s.unregistered c) (fun _ _ => False) s by
    obtain ⟨_, t, hrun, rfl⟩ := wp_returns h
    exact hrun
  simp only [unregisterChannel, unregisterPoll, wp_bind, wp_state]
  unfold unregistered
  cases hp : s.poll with
  | none => simp [hp]
  | some fds =>
    dsimp only
    rw [if_neg (not_lt.mpr hopen), if_pos (hpolled fds hp), wp_update, wp_update]
    rfl

theorem disconnectClient_run (h : s.Registered c) :
    (disconnectClient c).run s = (.ok (), s.disconnected c) := by
  have hrun : (unregisterChannel c).run (s.forgotten c) =
      (.ok (), (s.forgotten c).unregistered c) := unregisterChannel_run h.fileno h.polled
  suffices hwp : wp (disconnectClient c) (fun _ t => t = s.disconnected c) (fun _ _ => False) s by
    obtain ⟨_, t, hrun, rfl⟩ := wp_returns hwp
    exact hrun
  simp only [disconnectClient, ignoringKeyError, wp_bind, wp_update, wp_rescue]
  exact wp_intro_ok hrun rfl

theorem Registered.fileno_ne (h : s.Registered c) (h' : s.Registered c') (hc : c' ≠ c) :
    s.fileno c' ≠ s.fileno c := by
  intro he
  have hfd := (h'.fdmap (s.fileno c)).mpr he.symm
  rw [(h.fdmap _).mpr rfl] at hfd
  exact hc (Option.some.inj hfd).symm

theorem Registered.removed (h : s.Registered c) : (s.disconnected c).Removed c where
  buffer := Dict.get?_erase_self _ _
  jobWatches := Dict.get?_erase_self _ _
  machineWatches := Dict.get?_erase_self _ _
  fdmap fd hfd := by
    change (s.fdmap.erase (s.fileno c)).get? fd = some c at hfd
    rw [Dict.get?_erase] at hfd
    split at hfd
    · cases hfd
    · next hne => exact hne ((h.fdmap fd).mp hfd).symm
  fileno := Function.update_self _ _ _

theorem forgotten_apart (s : Server) (c : Socket) : Apart c s (s.forgotten c) where
  sending := rfl
  poll := rfl
  buffers _ hc := Dict.get?_erase_ne _ hc.symm
  jobWatches _ hc := Dict.get?_erase_ne _ hc.symm
  machineWatches _ hc := Dict.get?_erase_ne _ hc.symm
  registered _ hc hr := hr.congr
    (by
      change ((s.clientBuffers.erase c).get? _).isSome
      rw [Dict.get?_erase_ne _ hc.symm]
      exact hr.buffer) rfl rfl rfl
  fdmap _ _ _ hfd := hfd
  sends _ _ := rfl
  lines _ _ := rfl

theorem disconnected_apart (h : ∀ c' ≠ c, s.Registered c' → s.fileno c' ≠ s.fileno c) :
    Apart c s (s.disconnected c) where
  sending := rfl
  poll := by
    change (s.poll.map _).isSome = _
    exact Option.isSome_map
  buffers := (forgotten_apart s c).buffers
  jobWatches := (forgotten_apart s c).jobWatches
  machineWatches := (forgotten_apart s c).machineWatches
  registered c' hc hr := by
    have hne := h c' hc hr
    have hfileno : (s.disconnected c).fileno c' = s.fileno c' := Function.update_of_ne hc _ _
    constructor
    · exact ((forgotten_apart s c).registered c' hc hr).buffer
    · rw [hfileno]
      exact hr.fileno
    · intro fds hfds
      obtain ⟨fds', hfds', rfl⟩ := Option.map_eq_some_iff.mp hfds
      rw [hfileno]
      exact Finset.mem_erase.mpr ⟨hne, hr.polled fds' hfds'⟩
    · intro fd
      change (s.fdmap.erase (s.fileno c)).get? fd = some c' ↔ _
      rw [hfileno, Dict.get?_erase, ← hr.fdmap fd]
      split
      · next he =>
        rw [hr.fdmap, ← he]
        exact iff_of_false nofun hne.symm
      · rfl
  fdmap c' _ fd hfd := by
    change (s.fdmap.erase (s.fileno c)).get? fd = some c' at hfd
    rw [Dict.get?_erase] at hfd
    split at hfd
    · cases hfd
    · exact hfd
  sends _ _ := rfl
  lines _ _ := rfl

theorem Registered.apart (h : s.Registered c) : Apart c s (s.disconnected c) :=
  disconnected_apart fun _ hc hr => h.fileno_ne hr hc

theorem Removed.apart (h : s.Removed c) : Apart c s (s.disconnected c) := by
  apply disconnected_apart
  intro c' _ hr
  have hclosed := h.fileno
  have hopen := hr.fileno
  omega

theorem Removed.disconnected (h : s.Removed c) : (s.disconnected c).Removed c where
  buffer := Dict.get?_erase_self _ _
  jobWatches := Dict.get?_erase_self _ _
  machineWatches := Dict.get?_erase_self _ _
  fdmap fd hfd := by
    change (s.fdmap.erase (s.fileno c)).get? fd = some c at hfd
    rw [Dict.get?_erase] at hfd
    split at hfd
    · cases hfd
    · exact h.fdmap fd hfd
  fileno := Function.update_self _ _ _

theorem unregisterChannel_none (hpoll : s.poll = none) :
    (unregisterChannel c).run s = (.ok (), s.unregistered c) := by
  suffices h : wp (unregisterChannel c) (fun _ t => t = s.unregistered c) (fun _ _ => False) s by
    obtain ⟨_, t, hrun, rfl⟩ := wp_returns h
    exact hrun
  simp only [unregisterChannel, unregisterPoll, wp_bind, wp_state, wp_pure, wp_update, hpoll,
    unregistered, Option.map_none]

theorem unregisterChannel_closed (hclosed : s.fileno c = -1) {fds : Finset ℤ}
    (hpoll : s.poll = some fds) : (unregisterChannel c).run s =
      (.error (.valueError "file descriptor cannot be a negative integer (-1)"), s) := by
  have h : (unregisterPoll c).run s =
      (.error (.valueError "file descriptor cannot be a negative integer (-1)"), s) := by
    have hneg : s.fileno c < 0 := by omega
    rw [unregisterPoll, run_bind]
    change Prog.run _ s = _
    rw [hpoll]
    exact congrFun (if_pos hneg) s
  change Prog.bind _ _ s = _
  unfold Prog.bind
  rw [h]

/-- A client that has been disconnected can be disconnected again only where there is no
`select.poll`. -/
theorem disconnectClient_closed (hclosed : s.fileno c = -1) {Q : Unit → Server → Prop}
    {E : Error → Server → Prop}
    (hsome : ∀ e, s.poll ≠ none → E e (s.forgotten c))
    (hnone : s.poll = none → Q () (s.disconnected c)) : wp (disconnectClient c) Q E s := by
  simp only [disconnectClient, ignoringKeyError, wp_bind, wp_update, wp_rescue]
  change wp (unregisterChannel c) _ _ (s.forgotten c)
  cases hp : s.poll with
  | none => exact wp_intro_ok (unregisterChannel_none (s := s.forgotten c) hp) (hnone hp)
  | some fds =>
    apply wp_intro_error (unregisterChannel_closed (s := s.forgotten c) hclosed hp)
    rw [if_neg (by simp)]
    exact hsome _ (by rw [hp]; simp)

def accepted (s : Server) (c : Socket) : Server :=
  { s with
    clientBuffers := s.clientBuffers.set c []
    poll := s.poll.map (insert (s.fileno c))
    fdmap := s.fdmap.set (s.fileno c) c }

/-- The socket and its descriptor are not known yet. -/
structure Unknown (s : Server) (c : Socket) : Prop where
  fileno : 0 ≤ s.fileno c
  socket : ∀ fd, s.fdmap.get? fd ≠ some c
  fdmap : s.fdmap.get? (s.fileno c) = none

theorem Unknown.registered (h : s.Unknown c) : (s.accepted c).Registered c where
  buffer := by
    change ((s.clientBuffers.set c []).get? c).isSome
    rw [Dict.get?_set_self]
    rfl
  fileno := h.fileno
  polled fds hfds := by
    obtain ⟨fds', -, rfl⟩ := Option.map_eq_some_iff.mp hfds
    exact Finset.mem_insert_self _ _
  fdmap fd := by
    change (s.fdmap.set (s.fileno c) c).get? fd = some c ↔ fd = s.fileno c
    rw [Dict.get?_set]
    split
    · next he => exact iff_of_true rfl he.symm
    · next hne => exact iff_of_false (h.socket fd) (Ne.symm hne)

theorem Unknown.apart (h : s.Unknown c) : Apart c s (s.accepted c) where
  sending := rfl
  poll := by
    change (s.poll.map _).isSome = _
    exact Option.isSome_map
  buffers _ hc := Dict.get?_set_ne _ hc.symm _
  jobWatches _ _ := rfl
  machineWatches _ _ := rfl
  registered c' hc hr := by
    have hne : s.fileno c ≠ s.fileno c' := by
      intro he
      have hget := (hr.fdmap _).mpr rfl
      rw [← he, h.fdmap] at hget
      cases hget
    constructor
    · change ((s.clientBuffers.set c []).get? c').isSome
      rw [Dict.get?_set_ne _ hc.symm]
      exact hr.buffer
    · exact hr.fileno
    · intro fds hfds
      obtain ⟨fds', hfds', rfl⟩ := Option.map_eq_some_iff.mp hfds
      exact Finset.mem_insert_of_mem (hr.polled fds' hfds')
    · intro fd
      change (s.fdmap.set (s.fileno c) c).get? fd = some c' ↔ fd = s.fileno c'
      rw [Dict.get?_set]
      split
      · next he =>
        subst he
        exact iff_of_false (fun heq => hc (Option.some.inj heq).symm) hne
      · exact hr.fdmap fd
  fdmap c' hc fd hfd := by
    change (s.fdmap.set (s.fileno c) c).get? fd = some c' at hfd
    rw [Dict.get?_set] at hfd
    split at hfd
    · exact absurd (Option.some.inj hfd).symm hc
    · exact hfd
  sends _ _ := rfl
  lines _ _ := rfl

end SpallocServer.Server
