import SpallocServer.Foundation.System
import SpallocServer.AsyncBmpController.Attempts

namespace SpallocServer.AsyncBmpController

open Foundation Prog

/-- Where the thread is in `_run`. -/
inductive Position where
  /-- `_on_thread_start` is to be called. -/
  | starting
  /-- `_requests_pending.wait()` -/
  | waiting
  /-- There may be a request. -/
  | woken
  /-- There was a request, which is to be taken. -/
  | popping
  | processing (request : AtomicRequests)
  /-- The lock is to be taken. -/
  | closing
  | returned
  /-- Something was raised, and the lock is to be taken. -/
  | failing
  | crashed

/-- The request that has been taken and not been completed. -/
def Position.request : Position → List AtomicRequests
  | .processing r => [r]
  | _ => []

structure Thread where
  hostname : String
  onThreadStart : Except String Unit
  surroundings : Surroundings
  stop : Bool
  /-- `_requests_pending` -/
  event : Bool
  requests : List AtomicRequests
  position : Position
  /-- The requests that were ever added. -/
  accepted : List AtomicRequests
  /-- The requests whose processing is over. -/
  processed : List AtomicRequests

namespace Thread

def new (hostname : String) (onThreadStart : Except String Unit) (surroundings : Surroundings) :
    Thread where
  hostname := hostname
  onThreadStart := onThreadStart
  surroundings := surroundings
  stop := false
  event := false
  requests := []
  position := .starting
  accepted := []
  processed := []

/-- `add_requests` asserts that the controller is not stopped. -/
def addRequests (t : Thread) (r : AtomicRequests) : Thread :=
  if t.stop then t
  else { t with
    requests := t.requests ++ [r]
    event := true
    accepted := t.accepted ++ [r] }

def stopping (t : Thread) : Thread := { t with stop := true, event := true }

def close (t : Thread) : Thread :=
  if t.requests = [] then
    { t with event := false, position := if t.stop then .returned else .waiting }
  else { t with position := .waiting }

/-- The next step of the thread, if it is not blocked and not over. -/
def work (t : Thread) : Option Thread :=
  match t.position with
  | .starting =>
    match t.onThreadStart with
    | .ok _ => some { t with position := .waiting }
    | .error _ => some { t with position := .failing }
  | .waiting => if t.event then some { t with position := .woken } else none
  | .woken =>
    if t.requests = [] then some { t with position := .closing }
    else some { t with position := .popping }
  | .popping =>
    match t.requests with
    | [] => some { t with position := .failing }
    | r :: rest => some { t with requests := rest, position := .processing r }
  | .processing r =>
    match (process t.hostname r).run t.surroundings with
    | (.ok _, s) => some { t with
        surroundings := s
        position := .closing
        processed := t.processed ++ [r] }
    | (.error _, s) => some { t with surroundings := s, position := .failing }
  | .closing => some t.close
  | .failing => some { t with stop := true, position := .crashed }
  | .returned => none
  | .crashed => none

end Thread

inductive Step where
  | addRequests (r : AtomicRequests)
  | stop
  | work

def Step.isWork : Step → Bool
  | .work => true
  | _ => false

def thread (hostname : String) (onThreadStart : Except String Unit) (s : Surroundings) :
    System Thread Step where
  init t := t = .new hostname onThreadStart s
  step t i t' := match i with
    | .addRequests r => t' = t.addRequests r
    | .stop => t' = t.stopping
    | .work => t.work = some t'

variable {hostname : String} {onThreadStart : Except String Unit} {s : Surroundings}
  {t t' : Thread} {r : AtomicRequests} {run : List Step}

/-- Every request that was accepted is processed, being processed or waiting, in the order in
which they came. -/
structure Intact (s : Surroundings) (t : Thread) : Prop where
  start : t.onThreadStart = .ok ()
  callback : ∀ n, (t.surroundings.callback n).isOk
  line : t.processed ++ t.position.request ++ t.requests = t.accepted
  reported : t.surroundings.reported.length = s.reported.length + t.processed.length
  event : t.position ≠ .returned → t.requests ≠ [] ∨ t.stop = true → t.event = true
  popping : t.position = .popping → t.requests ≠ []
  running : t.position ≠ .failing ∧ t.position ≠ .crashed
  returned : t.position = .returned → t.stop = true ∧ t.requests = []

theorem intact_new (hstart : onThreadStart = .ok ()) (hcall : ∀ n, (s.callback n).isOk) :
    Intact s (.new hostname onThreadStart s) where
  start := hstart
  callback := hcall
  line := rfl
  reported := rfl
  event _ h := by
    obtain h | h := h
    · exact absurd rfl h
    · cases h
  popping := nofun
  running := ⟨nofun, nofun⟩
  returned := nofun

theorem Intact.addRequests (h : Intact s t) (r : AtomicRequests) : Intact s (t.addRequests r) := by
  unfold Thread.addRequests
  split
  · exact h
  · next hstop =>
    exact {
      start := h.start
      callback := h.callback
      line := by rw [← List.append_assoc, h.line]
      reported := h.reported
      event := fun _ _ => rfl
      popping := fun _ => List.append_ne_nil_of_right_ne_nil _ nofun
      running := h.running
      returned := fun hp => absurd (h.returned hp).1 hstop }

theorem Intact.stopping (h : Intact s t) : Intact s t.stopping :=
  { h with
    event := fun _ _ => rfl
    returned := fun hp => ⟨rfl, (h.returned hp).2⟩ }

theorem Intact.moved (h : Intact s t) {p : Position} (hold : t.position ≠ .returned)
    (hrequest : p.request = t.position.request) (hpop : p = .popping → t.requests ≠ [])
    (hrun : p ≠ .failing ∧ p ≠ .crashed) (hp : p ≠ .returned) :
    Intact s { t with position := p } :=
  { h with
    line := by
      change t.processed ++ p.request ++ t.requests = t.accepted
      rw [hrequest]
      exact h.line
    event := fun _ => h.event hold
    popping := hpop
    running := hrun
    returned := fun hret => absurd hret hp }

theorem Intact.close (h : Intact s t) (hp : t.position = .closing) : Intact s t.close := by
  have hline := h.line
  rw [hp] at hline
  unfold Thread.close
  split
  · next hreq =>
    cases hstop : t.stop with
    | true =>
      exact { h with
        line := hline
        event := fun hne => absurd rfl hne
        popping := nofun
        running := ⟨nofun, nofun⟩
        returned := fun _ => ⟨rfl, hreq⟩ }
    | false =>
      exact { h with
        line := hline
        event := fun _ hor => by simp_all
        popping := nofun
        running := ⟨nofun, nofun⟩
        returned := nofun }
  · exact h.moved (by rw [hp]; exact nofun) (by rw [hp]; rfl) nofun ⟨nofun, nofun⟩ nofun

theorem Intact.work (h : Intact s t) (hwork : t.work = some t') : Intact s t' := by
  have hline := h.line
  unfold Thread.work at hwork
  split at hwork
  case h_1 hp =>
    have hmoved := h.moved (p := .waiting) (by rw [hp]; exact nofun) (by rw [hp]; rfl) nofun
      ⟨nofun, nofun⟩ nofun
    split at hwork
    · cases hwork
      exact hmoved
    · next hstart =>
      rw [h.start] at hstart
      cases hstart
  case h_2 hp =>
    split at hwork
    · cases hwork
      exact h.moved (by rw [hp]; exact nofun) (by rw [hp]; rfl) nofun ⟨nofun, nofun⟩ nofun
    · cases hwork
  case h_3 hp =>
    split at hwork
    · cases hwork
      exact h.moved (by rw [hp]; exact nofun) (by rw [hp]; rfl) nofun ⟨nofun, nofun⟩ nofun
    · next hreq =>
      cases hwork
      exact h.moved (by rw [hp]; exact nofun) (by rw [hp]; rfl) (fun _ => hreq)
        ⟨nofun, nofun⟩ nofun
  case h_4 hp =>
    rw [hp] at hline
    split at hwork
    · next hreq => exact absurd hreq (h.popping hp)
    · next r rest hreq =>
      cases hwork
      rw [hreq] at hline
      have hevent : t.event = true :=
        h.event (by rw [hp]; exact nofun) (.inl (by rw [hreq]; exact nofun))
      exact { h with
        line := by
          rw [← hline]
          simp [Position.request]
        event := fun _ _ => hevent
        popping := nofun
        running := ⟨nofun, nofun⟩
        returned := nofun }
  case h_5 r hp =>
    rw [hp] at hline
    have hprocess := process_returns t.hostname r h.callback
    split at hwork
    · next a s' hrun =>
      cases hwork
      obtain ⟨hcall, hlen⟩ := wp_of_eq_ok hprocess hrun
      exact { h with
        callback := by
          intro n
          rw [hcall]
          exact h.callback n
        line := by
          rw [← hline]
          simp [Position.request]
        reported := by
          rw [hlen, h.reported, List.length_append]
          rfl
        event := fun _ => h.event (by rw [hp]; exact nofun)
        popping := nofun
        running := ⟨nofun, nofun⟩
        returned := nofun }
    · next e s' hrun => exact (wp_of_eq_error hprocess hrun).elim
  case h_6 hp =>
    cases hwork
    exact h.close hp
  case h_7 hp => exact absurd hp h.running.1
  case h_8 => cases hwork
  case h_9 => cases hwork

theorem Intact.step (h : Intact s t) {i : Step}
    (hstep : (thread hostname onThreadStart s).step t i t') : Intact s t' := by
  cases i with
  | addRequests r =>
    obtain rfl : t' = t.addRequests r := hstep
    exact h.addRequests r
  | stop =>
    obtain rfl : t' = t.stopping := hstep
    exact h.stopping
  | work => exact h.work hstep

theorem reachable_intact (hstart : onThreadStart = .ok ()) (hcall : ∀ n, (s.callback n).isOk)
    (h : (thread hostname onThreadStart s).Reachable t) : Intact s t := by
  apply h.invariant
  · intro t ht
    obtain rfl : t = .new hostname onThreadStart s := ht
    exact intact_new hstart hcall
  · exact fun _ _ _ _ ht hstep => ht.step hstep

def Position.offset : Position → ℕ
  | .starting => 6
  | .waiting => 5
  | .woken => 4
  | .popping => 3
  | .processing _ => 2
  | .closing => 6
  | .returned => 0
  | .failing => 0
  | .crashed => 0

def Thread.distance (t : Thread) (n : ℕ) : ℕ := 5 * (n - t.processed.length) + t.position.offset

theorem Intact.length (h : Intact s t) :
    t.processed.length + t.position.request.length + t.requests.length = t.accepted.length := by
  rw [← h.line, List.length_append, List.length_append]

theorem Intact.requests_ne (h : Intact s t) {n : ℕ} (hn : n ≤ t.accepted.length)
    (hlt : t.processed.length < n) (hp : t.position.request = []) : t.requests ≠ [] := by
  intro hreq
  have hlen := h.length
  rw [hp, hreq, List.length_nil] at hlen
  omega

theorem Intact.enabled (h : Intact s t) (hne : t.processed ≠ t.accepted) : t.work.isSome := by
  have hline := h.line
  unfold Thread.work
  split
  case h_1 => split <;> rfl
  case h_2 hp =>
    rw [hp] at hline
    have hreq : t.requests ≠ [] := by
      intro hreq
      rw [hreq] at hline
      exact hne (by simpa [Position.request] using hline)
    rw [if_pos (h.event (by rw [hp]; exact nofun) (.inl hreq))]
    rfl
  case h_3 => split <;> rfl
  case h_4 => split <;> rfl
  case h_5 => split <;> rfl
  case h_6 => rfl
  case h_7 => rfl
  case h_8 hp =>
    rw [hp, (h.returned hp).2] at hline
    exact absurd (by simpa [Position.request] using hline) hne
  case h_9 hp => exact absurd hp h.running.2

theorem Intact.distance_work (h : Intact s t) {n : ℕ} (hn : n ≤ t.accepted.length)
    (hlt : t.processed.length < n) (hwork : t.work = some t') :
    t'.distance n + 1 ≤ t.distance n := by
  have hne := h.requests_ne hn hlt
  unfold Thread.work at hwork
  unfold Thread.distance
  split at hwork
  case h_1 hp =>
    split at hwork
    · cases hwork
      rw [hp]
      rfl
    · next hstart =>
      rw [h.start] at hstart
      cases hstart
  case h_2 hp =>
    split at hwork
    · cases hwork
      rw [hp]
      rfl
    · cases hwork
  case h_3 hp =>
    rw [if_neg (hne (by rw [hp]; rfl))] at hwork
    cases hwork
    rw [hp]
    rfl
  case h_4 hp =>
    split at hwork
    · next hreq => exact absurd hreq (h.popping hp)
    · cases hwork
      rw [hp]
      rfl
  case h_5 r hp =>
    have hprocess := process_returns t.hostname r h.callback
    split at hwork
    · cases hwork
      rw [hp, List.length_append, List.length_singleton]
      simp only [Position.offset]
      omega
    · next hrun => exact (wp_of_eq_error hprocess hrun).elim
  case h_6 hp =>
    have hreq := hne (by rw [hp]; rfl)
    rw [Thread.close, if_neg hreq] at hwork
    cases hwork
    rw [hp]
    rfl
  case h_7 hp => exact absurd hp h.running.1
  case h_8 => cases hwork
  case h_9 => cases hwork

theorem Thread.work_processed (hwork : t.work = some t') : t.processed <+: t'.processed ∧
    t'.accepted = t.accepted := by
  unfold Thread.work at hwork
  split at hwork
  case h_6 =>
    cases hwork
    unfold Thread.close
    split <;> exact ⟨List.prefix_rfl, rfl⟩
  case h_5 =>
    split at hwork <;> cases hwork
    · exact ⟨List.prefix_append _ _, rfl⟩
    · exact ⟨List.prefix_rfl, rfl⟩
  all_goals
    first
    | (split at hwork <;> cases hwork <;> exact ⟨List.prefix_rfl, rfl⟩)
    | (cases hwork; exact ⟨List.prefix_rfl, rfl⟩)
    | cases hwork

theorem step_extends {i : Step} (hstep : (thread hostname onThreadStart s).step t i t') :
    t.accepted <+: t'.accepted ∧ t.processed <+: t'.processed := by
  cases i with
  | addRequests r =>
    obtain rfl : t' = t.addRequests r := hstep
    unfold Thread.addRequests
    split
    · exact ⟨List.prefix_rfl, List.prefix_rfl⟩
    · exact ⟨List.prefix_append _ _, List.prefix_rfl⟩
  | stop =>
    obtain rfl : t' = t.stopping := hstep
    exact ⟨List.prefix_rfl, List.prefix_rfl⟩
  | work =>
    obtain ⟨hprocessed, haccepted⟩ := Thread.work_processed hstep
    rw [haccepted]
    exact ⟨List.prefix_rfl, hprocessed⟩

theorem run_extends (hrun : (thread hostname onThreadStart s).Run t run t') :
    t.accepted <+: t'.accepted ∧ t.processed <+: t'.processed := by
  induction hrun with
  | nil => exact ⟨List.prefix_rfl, List.prefix_rfl⟩
  | cons hstep _ ih =>
    have hfirst := step_extends hstep
    exact ⟨hfirst.1.trans ih.1, hfirst.2.trans ih.2⟩

theorem Intact.distance_step (h : Intact s t) {n : ℕ} (hn : n ≤ t.accepted.length)
    (hlt : t.processed.length < n) {i : Step}
    (hstep : (thread hostname onThreadStart s).step t i t') :
    t'.distance n + (if i.isWork then 1 else 0) ≤ t.distance n := by
  cases i with
  | addRequests r =>
    obtain rfl : t' = t.addRequests r := hstep
    unfold Thread.addRequests
    split <;> exact le_rfl
  | stop =>
    obtain rfl : t' = t.stopping := hstep
    exact le_rfl
  | work => exact h.distance_work hn hlt hstep

theorem Intact.run_processed (h : Intact s t) {n : ℕ} (hn : n ≤ t.accepted.length)
    (hrun : (thread hostname onThreadStart s).Run t run t')
    (hsteps : t.distance n ≤ run.countP (·.isWork)) : n ≤ t'.processed.length := by
  induction hrun with
  | nil =>
    rw [List.countP_nil] at hsteps
    unfold Thread.distance at hsteps
    omega
  | @cons t i u run v hstep hrest ih =>
    have hextends := step_extends hstep
    by_cases hlt : t.processed.length < n
    · have hdist := h.distance_step hn hlt hstep
      rw [List.countP_cons] at hsteps
      apply ih (h.step hstep) (hn.trans hextends.1.length_le)
      omega
    · have hlen := (hextends.2.trans (run_extends hrest).2).length_le
      omega

theorem Thread.distance_le (t : Thread) (n : ℕ) : t.distance n ≤ 5 * n + 6 := by
  have hoffset : t.position.offset ≤ 6 := by
    cases t.position <;> simp only [Position.offset] <;> omega
  unfold Thread.distance
  omega

/-- No wake-up is lost, no request is lost or processed again, and the thread ends when it is
told to and has processed everything. -/
theorem thread_loses_nothing (hstart : onThreadStart = .ok ()) (hcall : ∀ n, (s.callback n).isOk)
    (h : (thread hostname onThreadStart s).Reachable t) :
    (t.position = .waiting → t.requests ≠ [] ∨ t.stop = true → t.event = true) ∧
    t.processed ++ t.position.request ++ t.requests = t.accepted ∧
    t.surroundings.reported.length = s.reported.length + t.processed.length ∧
    (t.processed ≠ t.accepted → t.work.isSome) ∧
    (∀ run t', (thread hostname onThreadStart s).Run t run t' →
      5 * t.accepted.length + 6 ≤ run.countP (·.isWork) → t.accepted <+: t'.processed) ∧
    (t.position = .returned → t.stop = true ∧ t.requests = [] ∧ t.processed = t.accepted) := by
  have hintact := reachable_intact hstart hcall h
  refine ⟨?_, hintact.line, hintact.reported, hintact.enabled, ?_, ?_⟩
  · intro hp
    exact hintact.event (by rw [hp]; exact nofun)
  · intro run t' hrun hsteps
    have hintact' := reachable_intact hstart hcall (h.run hrun)
    have hlen := hintact.run_processed le_rfl hrun ((t.distance_le _).trans hsteps)
    have hprocessed : t'.processed <+: t'.accepted := by
      rw [← hintact'.line, List.append_assoc]
      exact List.prefix_append _ _
    exact List.prefix_of_prefix_length_le (run_extends hrun).1 hprocessed hlen
  · intro hp
    have hline := hintact.line
    obtain ⟨hstop, hreq⟩ := hintact.returned hp
    rw [hp, hreq] at hline
    exact ⟨hstop, hreq, by simpa [Position.request] using hline⟩

/-- Hardware and callbacks that never fail. -/
def quiet : Surroundings where
  reply _ := .ok 0
  callback _ := .ok ()
  sent := []
  reported := []

theorem thread_loses_nothing_stopped : ∃ t, (thread "bmp" (.ok ()) quiet).Reachable t ∧
    t.position = .returned ∧ t.accepted = [.new 0] ∧ t.processed = t.accepted := by
  have started := System.Reachable.next (i := Step.work) (M := thread "bmp" (.ok ()) quiet)
    (.start rfl) rfl
  have added := started.next (i := Step.addRequests (.new 0)) rfl
  have stopped := added.next (i := Step.stop) rfl
  have woken := stopped.next (i := Step.work) rfl
  have popping := woken.next (i := Step.work) rfl
  have processing := popping.next (i := Step.work) rfl
  have closing := processing.next (i := Step.work) rfl
  have returned := closing.next (i := Step.work) rfl
  have hall := thread_loses_nothing rfl (fun _ => rfl) returned
  exact ⟨_, returned, rfl, rfl, (hall.2.2.2.2.2 rfl).2.2⟩

/-- A request that is being processed still waits to be completed. -/
def Thread.controller (t : Thread) : AsyncBmpController :=
  ⟨t.hostname, t.stop, t.position.request ++ t.requests⟩

theorem controller_addRequests (t : Thread) (r : AtomicRequests) :
    (t.addRequests r).controller =
      if t.stop then t.controller else t.controller.accepted r := by
  unfold Thread.addRequests
  split
  · rfl
  · unfold Thread.controller AsyncBmpController.accepted
    rw [List.append_assoc]

theorem controller_stopping (t : Thread) : t.stopping.controller = t.controller.stop := rfl

theorem Intact.controller_work (h : Intact s t) (hwork : t.work = some t') :
    t'.controller = t.controller ∧ t'.processed = t.processed ∨
    ∃ r, t.controller.requests.head? = some r ∧ t'.controller = t.controller.popped ∧
      t'.processed = t.processed ++ [r] := by
  unfold Thread.work at hwork
  split at hwork
  case h_1 hp =>
    left
    split at hwork <;> cases hwork <;> simp [Thread.controller, hp, Position.request]
  case h_2 hp =>
    left
    split at hwork <;> cases hwork
    simp [Thread.controller, hp, Position.request]
  case h_3 hp =>
    left
    split at hwork <;> cases hwork <;> simp [Thread.controller, hp, Position.request]
  case h_4 hp =>
    left
    split at hwork
    · next hreq => exact absurd hreq (h.popping hp)
    · next hreq =>
      cases hwork
      simp [Thread.controller, hp, hreq, Position.request]
  case h_5 r hp =>
    right
    have hprocess := process_returns t.hostname r h.callback
    split at hwork
    · cases hwork
      refine ⟨r, ?_, ?_, rfl⟩ <;>
        simp [Thread.controller, hp, Position.request, AsyncBmpController.popped]
    · next hrun => exact (wp_of_eq_error hprocess hrun).elim
  case h_6 hp =>
    left
    cases hwork
    unfold Thread.close
    split
    · cases hstop : t.stop <;> simp [Thread.controller, hp, hstop, Position.request]
    · simp [Thread.controller, hp, Position.request]
  case h_7 hp => exact absurd hp h.running.1
  case h_8 => cases hwork
  case h_9 => cases hwork

end SpallocServer.AsyncBmpController
