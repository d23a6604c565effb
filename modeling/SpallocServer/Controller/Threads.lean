import SpallocServer.AsyncBmpController.Thread
import SpallocServer.Controller.Carrying
import SpallocServer.Controller.Creation

namespace SpallocServer.Controller

open Foundation Prog JobQueue AsyncBmpController

variable {s : Setup} {b : ℕ} {c c' : Controller} {t t' : JobQueue × Controller} {success : Bool}

/-- A request that is being carried out is not in the queue of its BMP controller any more. Threads
that have not been started yet are at the start. -/
structure Threaded where
  tables : JobQueue × Controller
  position : ℕ → Position
  /-- `_requests_pending` -/
  event : ℕ → Bool
  /-- `n_tries` -/
  tries : ℕ → ℕ
  /-- The BMP controllers that `on_thread_start` joins. -/
  joined : ℕ → List ℕ

def shutDown (c : Controller) : Operation → List ℕ
  | .setMachines machines =>
    (c.nameOrder.list (removedNames c.machines machines.dict)).flatMap fun name =>
      ((c.bmpControllers.get? name).getD Dict.empty).values
  | _ => []

def roused (c c' : Controller) (b : ℕ) : Bool :=
  (c.bmp b).requests.length < (c'.bmp b).requests.length ∨
    (c'.bmp b).stopped = true ∧ (b < c.nextBmp → (c.bmp b).stopped = false)

/-- `join` returns. -/
def ended : Position → Bool
  | .returned => true
  | .crashed => true
  | _ => false

/-- What happens at a time. Operations and callbacks hold the lock of the controller. -/
inductive Action where
  | operate (op : Operation)
  /-- A step of the thread of a BMP controller that does not carry out a request. -/
  | work (b : ℕ)
  /-- The hardware commands of a request are sent, and answered or not. -/
  | attempt (b : ℕ) (success : Bool)

namespace Threaded

def start (s : Setup) : Threaded where
  tables := s.start
  position _ := .starting
  event _ := false
  tries _ := 0
  joined _ := []

def became (u : Threaded) (t : JobQueue × Controller) : Threaded :=
  { u with
    tables := t
    event := fun b => u.event b || roused u.tables.2 t.2 b }

def moved (u : Threaded) (b : ℕ) (position : Position) : Threaded :=
  { u with position := Function.update u.position b position }

def operated (u : Threaded) (op : Operation) : Threaded :=
  { u.became (next u.tables op) with
    joined := fun b => if u.tables.2.nextBmp ≤ b then shutDown u.tables.2 op else u.joined b }

/-- `_bmp_on_request_complete`. What it raises is caught in `_run`. -/
def called (u : Threaded) (r : AtomicRequests) (success : Bool) (reason : Option String) :
    Except Error Unit × Threaded :=
  Prod.map id u.became ((bmpOnRequestComplete r.onDone success reason).run u.tables)

def retried (u : Threaded) (b : ℕ) (r : AtomicRequests) : Threaded :=
  if u.tries b + 1 < nRequestTries then
    { u with tries := Function.update u.tries b (u.tries b + 1) }
  else
    match u.called r false (some (u.tables.2.bmp b).reason) with
    | (.ok _, u) => u.moved b .closing
    | (.error _, u) => u.moved b .failing

def attempted (u : Threaded) (b : ℕ) (success : Bool) : Option Threaded :=
  match u.position b with
  | .processing r =>
    if success then
      match u.called r true none with
      | (.ok _, u) => some (u.moved b .closing)
      | (.error _, u) => some (u.retried b r)
    else some (u.retried b r)
  | _ => none

/-- `popleft` -/
def popped (u : Threaded) (b : ℕ) : Threaded :=
  match (u.tables.2.bmp b).requests with
  | [] => u.moved b .failing
  | r :: _ =>
    { u.moved b (.processing r) with
      tables := (u.tables.1, u.tables.2.setBmp b (u.tables.2.bmp b).popped)
      tries := Function.update u.tries b 0 }

def closed (u : Threaded) (b : ℕ) : Threaded :=
  if (u.tables.2.bmp b).requests = [] then
    { u.moved b (if (u.tables.2.bmp b).stopped then .returned else .waiting) with
      event := Function.update u.event b false }
  else u.moved b .waiting

def worked (u : Threaded) (b : ℕ) : Option Threaded :=
  match u.position b with
  | .starting =>
    if ∀ b' ∈ u.joined b, ended (u.position b') then some (u.moved b .waiting) else none
  | .waiting => if u.event b then some (u.moved b .woken) else none
  | .woken =>
    if (u.tables.2.bmp b).requests = [] then some (u.moved b .closing) else some (u.moved b .popping)
  | .popping => some (u.popped b)
  | .processing _ => none
  | .closing => some (u.closed b)
  | .returned => none
  | .failing => some { u.moved b .crashed with
      tables := (u.tables.1, u.tables.2.setBmp b (u.tables.2.bmp b).stop) }
  | .crashed => none

/-- What comes of an action, if it can happen. -/
def turn (u : Threaded) : Action → Option Threaded
  | .operate (.complete _ _) => none
  | .operate op => some (u.operated op)
  | .work b => if b < u.tables.2.nextBmp then u.worked b else none
  | .attempt b success => u.attempted b success

/-- The tables as if requests stayed in their queues until they are completed. -/
def merged (u : Threaded) : JobQueue × Controller :=
  (u.tables.1, u.tables.2.carrying fun b => (u.position b).request)

def after (u : Threaded) (actions : List Action) : Threaded :=
  actions.foldl (fun u a => (u.turn a).getD u) u

/-- The operations that an action amounts to. -/
def amounts (u : Threaded) : Action → List Operation
  | .operate op => [op]
  | .work _ => []
  | .attempt b success =>
    if success then [.complete b true]
    else if u.tries b + 1 < nRequestTries then []
    else [.complete b false]

end Threaded

def threads (s : Setup) : System Threaded Action where
  init u := u = .start s
  step u a u' := u.turn a = some u'

structure Extends (c c' : Controller) : Prop where
  nextBmp : c.nextBmp ≤ c'.nextBmp
  hostname : ∀ b < c.nextBmp, (c'.bmp b).hostname = (c.bmp b).hostname
  requests : ∀ b < c.nextBmp, (c.bmp b).requests <+: (c'.bmp b).requests
  stopped : ∀ b < c.nextBmp, (c.bmp b).stopped = true →
    (c'.bmp b).stopped = true ∧ (c'.bmp b).requests = (c.bmp b).requests

namespace Extends

theorem refl (c : Controller) : Extends c c :=
  ⟨le_rfl, fun _ _ => rfl, fun _ _ => List.prefix_rfl, fun _ _ hs => ⟨hs, rfl⟩⟩

theorem trans {c'' : Controller} (h : Extends c c') (h' : Extends c' c'') : Extends c c'' := by
  refine ⟨h.nextBmp.trans h'.nextBmp, fun b hb => ?_, fun b hb => ?_, fun b hb hs => ?_⟩
  · exact (h'.hostname b (hb.trans_le h.nextBmp)).trans (h.hostname b hb)
  · exact (h.requests b hb).trans (h'.requests b (hb.trans_le h.nextBmp))
  · obtain ⟨hs', hsame⟩ := h.stopped b hb hs
    obtain ⟨hs'', hsame'⟩ := h'.stopped b (hb.trans_le h.nextBmp) hs'
    exact ⟨hs'', hsame'.trans hsame⟩

theorem of_bmp (hbmp : c'.bmp = c.bmp) (hnext : c'.nextBmp = c.nextBmp) : Extends c c' := by
  refine ⟨hnext.ge, fun b _ => by rw [hbmp], fun b _ => ?_, fun b _ hs => ?_⟩
  · rw [hbmp]
  · rw [hbmp]
    exact ⟨hs, rfl⟩

theorem wired (c : Controller) (name : String) (frame : ℤ × ℤ) (hostname : String) :
    Extends c (c.wired name frame hostname) := by
  have hold (b : ℕ) (hb : b < c.nextBmp) : (c.wired name frame hostname).bmp b = c.bmp b :=
    Function.update_of_ne hb.ne _ _
  refine ⟨Nat.le_succ _, fun b hb => ?_, fun b hb => ?_, fun b hb hs => ?_⟩
  · rw [hold b hb]
  · rw [hold b hb]
  · rw [hold b hb]
    exact ⟨hs, rfl⟩

theorem created (c : Controller) (machine : Configuration.Machine) :
    Extends c (c.wiredUp machine) := by
  have hwired (l : List ((ℤ × ℤ) × String)) (c : Controller) :
      Extends c (l.foldl (fun c p => c.wired machine.name p.1 p.2) c) := by
    induction l generalizing c with
    | nil => exact refl c
    | cons frame l ih => exact (wired c _ _ _).trans (ih _)
  have hempty : Extends c
      { c with bmpControllers := c.bmpControllers.set machine.name Dict.empty } := of_bmp rfl rfl
  exact hempty.trans (hwired _ _)

theorem accepted (c : Controller) (r : AtomicRequests) (hs : (c.bmp b).stopped = false) :
    Extends c (c.setBmp b ((c.bmp b).accepted r)) := by
  have hbmp (b' : ℕ) : (c.setBmp b ((c.bmp b).accepted r)).bmp b' =
      if b' = b then (c.bmp b).accepted r else c.bmp b' := Function.update_apply _ _ _ _
  refine ⟨le_rfl, fun b' _ => ?_, fun b' _ => ?_, fun b' _ hs' => ?_⟩
  · rw [hbmp]
    split
    · next hb =>
      rw [hb]
      rfl
    · rfl
  · rw [hbmp]
    split
    · next hb =>
      rw [hb]
      exact List.prefix_append _ _
    · exact List.prefix_rfl
  · rw [hbmp, if_neg]
    · exact ⟨hs', rfl⟩
    · rintro rfl
      rw [hs] at hs'
      cases hs'

theorem stoppedAll (c : Controller) (bmps : List ℕ) : Extends c (c.stopped bmps) := by
  have hbmp (b : ℕ) : (c.stopped bmps).bmp b = if b ∈ bmps then (c.bmp b).stop else c.bmp b := rfl
  refine ⟨le_rfl, fun b _ => ?_, fun b _ => ?_, fun b _ hs => ?_⟩
  · rw [hbmp]
    split <;> rfl
  · rw [requests_stopped]
  · refine ⟨?_, requests_stopped bmps b⟩
    rw [hbmp]
    split
    · rfl
    · exact hs

theorem conducts :
    Conducts (fun _ => Brings Extends) fun _ => Brings fun t t' => Extends t.2 t'.2 :=
  conducts_brings (handles_brings (fun _ _ _ => trans) (fun _ _ => of_bmp)
    (fun c _ r => accepted c r) stoppedAll) (fun _ _ _ => trans) refl

theorem creates : Creates fun _ => Brings Extends := fun machine c => created c machine

end Extends

/-- Threads have been started for the BMP controllers there are, none has crashed, and one that
waits will go on if there is something to do. -/
structure Attentive (u : Threaded) : Prop where
  idle : ∀ b, u.tables.2.nextBmp ≤ b →
    u.position b = .starting ∧ (u.tables.2.bmp b).requests = []
  popping : ∀ b, u.position b = .popping → (u.tables.2.bmp b).requests ≠ []
  running : ∀ b, u.position b ≠ .failing ∧ u.position b ≠ .crashed
  event : ∀ b < u.tables.2.nextBmp, u.position b ≠ .returned →
    (u.tables.2.bmp b).requests ≠ [] ∨ (u.tables.2.bmp b).stopped = true → u.event b = true
  returned : ∀ b, u.position b = .returned →
    (u.tables.2.bmp b).stopped = true ∧ (u.tables.2.bmp b).requests = []

namespace Attentive

variable {u u' : Threaded} {p : Position} {r : AtomicRequests}

theorem lt (h : Attentive u) (hb : u.position b ≠ .starting) : b < u.tables.2.nextBmp := by
  by_contra hge
  exact hb (h.idle b (not_lt.mp hge)).1

theorem beside (h : Attentive u) : Beside (fun b => (u.position b).request) u.tables u.merged :=
  ⟨rfl, rfl, fun b hb => by rw [(h.idle b hb).1]; rfl⟩

theorem became (h : Attentive u) (hx : Extends u.tables.2 t.2)
    (hidle : ∀ b, t.2.nextBmp ≤ b → (t.2.bmp b).requests = []) : Attentive (u.became t) where
  idle b hb := ⟨(h.idle b (hx.nextBmp.trans hb)).1, hidle b hb⟩
  popping b hb := by
    have hlt : b < u.tables.2.nextBmp := h.lt fun hs => by
      change u.position b = .popping at hb
      rw [hs] at hb
      cases hb
    intro hnil
    apply h.popping b hb
    have hprefix := hx.requests b hlt
    change (t.2.bmp b).requests = [] at hnil
    rw [hnil] at hprefix
    exact List.prefix_nil.mp hprefix
  running := h.running
  event b _ hp hor := by
    change (u.event b || roused u.tables.2 t.2 b) = true
    by_cases hroused : roused u.tables.2 t.2 b = true
    · rw [hroused, Bool.or_true]
    rw [Bool.or_eq_true]
    left
    unfold roused at hroused
    rw [decide_eq_true_iff, not_or, not_and, not_lt] at hroused
    obtain ⟨hfewer, hstop⟩ := hroused
    obtain hne | hstopped := hor
    · have hold : (u.tables.2.bmp b).requests ≠ [] := by
        intro hnil
        rw [hnil, List.length_nil, Nat.le_zero] at hfewer
        exact hne (List.eq_nil_of_length_eq_zero hfewer)
      have hlt : b < u.tables.2.nextBmp := by
        by_contra hge
        exact hold (h.idle b (not_lt.mp hge)).2
      exact h.event b hlt hp (.inl hold)
    · obtain ⟨hlt, hs⟩ := Classical.not_imp.mp (hstop hstopped)
      exact h.event b hlt hp (.inr (Bool.eq_true_of_not_eq_false hs))
  returned b hb := by
    have hlt : b < u.tables.2.nextBmp := h.lt fun hs => by
      change u.position b = .returned at hb
      rw [hs] at hb
      cases hb
    obtain ⟨hs, hnil⟩ := h.returned b hb
    obtain ⟨hs', hsame⟩ := hx.stopped b hlt hs
    exact ⟨hs', hsame.trans hnil⟩

theorem moved (h : Attentive u) (ht : u'.tables = u.tables)
    (hp : u'.position = Function.update u.position b p) (hlt : b < u.tables.2.nextBmp)
    (hpop : p = .popping → (u.tables.2.bmp b).requests ≠ [])
    (hrun : p ≠ .failing ∧ p ≠ .crashed) (hother : ∀ b', b' ≠ b → u'.event b' = u.event b')
    (hevent : p ≠ .returned → (u.tables.2.bmp b).requests ≠ [] ∨
      (u.tables.2.bmp b).stopped = true → u'.event b = true)
    (hret : p = .returned →
      (u.tables.2.bmp b).stopped = true ∧ (u.tables.2.bmp b).requests = []) :
    Attentive u' := by
  have hpos (b' : ℕ) : u'.position b' = if b' = b then p else u.position b' := by
    rw [hp, Function.update_apply]
  refine ⟨fun b' hb' => ?_, fun b' hb' => ?_, fun b' => ?_, fun b' hb' hp' hor => ?_,
    fun b' hb' => ?_⟩
  · rw [ht] at hb' ⊢
    rw [hpos, if_neg (hlt.trans_le hb').ne']
    exact h.idle b' hb'
  · rw [ht]
    rw [hpos] at hb'
    split at hb'
    · next heq =>
      rw [heq]
      exact hpop hb'
    · exact h.popping b' hb'
  · rw [hpos]
    split
    · exact hrun
    · exact h.running b'
  · rw [ht] at hb' hor
    rw [hpos] at hp'
    split at hp'
    · next heq =>
      rw [heq] at hor ⊢
      exact hevent hp' hor
    · next hne =>
      rw [hother b' hne]
      exact h.event b' hb' hp' hor
  · rw [ht]
    rw [hpos] at hb'
    split at hb'
    · next heq =>
      rw [heq]
      exact hret hb'
    · exact h.returned b' hb'

theorem popped (h : Attentive u) (hb : u.position b = .popping) : Attentive (u.popped b) := by
  have hlt : b < u.tables.2.nextBmp := h.lt (by rw [hb]; nofun)
  unfold Threaded.popped
  split
  · next hnil => exact absurd hnil (h.popping b hb)
  next r rest hreq =>
  have hpos (b' : ℕ) : (u.moved b (.processing r)).position b' =
      if b' = b then .processing r else u.position b' := Function.update_apply _ _ _ _
  have hbmp (b' : ℕ) : (u.tables.2.setBmp b (u.tables.2.bmp b).popped).bmp b' =
      if b' = b then (u.tables.2.bmp b).popped else u.tables.2.bmp b' :=
    Function.update_apply _ _ _ _
  refine ⟨fun b' hb' => ?_, fun b' hb' => ?_, fun b' => ?_, fun b' hlt' hp' hor => ?_,
    fun b' hb' => ?_⟩ <;> dsimp only at *
  · rw [hpos, hbmp, if_neg (hlt.trans_le hb').ne', if_neg (hlt.trans_le hb').ne']
    exact h.idle b' hb'
  · rw [hpos] at hb'
    split at hb'
    · cases hb'
    · next hne =>
      rw [hbmp, if_neg hne]
      exact h.popping b' hb'
  · rw [hpos]
    split
    · exact ⟨nofun, nofun⟩
    · exact h.running b'
  · by_cases heq : b' = b
    · rw [heq]
      exact h.event b hlt (by rw [hb]; nofun) (.inl (by rw [hreq]; nofun))
    · rw [hpos, if_neg heq] at hp'
      rw [hbmp, if_neg heq] at hor
      exact h.event b' hlt' hp' hor
  · rw [hpos] at hb'
    split at hb'
    · cases hb'
    · next hne =>
      rw [hbmp, if_neg hne]
      exact h.returned b' hb'

end Attentive

section Merged

variable {u u' : Threaded} {p : Position} {r : AtomicRequests}

theorem merged_congr (ht : u'.tables = u.tables)
    (hp : ∀ b, (u'.position b).request = (u.position b).request) : u'.merged = u.merged := by
  unfold Threaded.merged
  rw [ht, funext hp]

theorem request_moved (hp : u'.position = Function.update u.position b p)
    (hreq : p.request = (u.position b).request) (b' : ℕ) :
    (u'.position b').request = (u.position b').request := by
  rw [hp, Function.update_apply]
  split
  · next heq => rw [heq, hreq]
  · rfl

theorem merged_popped (h : Attentive u) (hb : u.position b = .popping) :
    (u.popped b).merged = u.merged := by
  unfold Threaded.popped
  split
  · next hnil => exact absurd hnil (h.popping b hb)
  next r rest hreq =>
  refine Prod.ext rfl (carrying_of_bmp (funext fun b' => ?_) rfl)
  change { Function.update u.tables.2.bmp b (u.tables.2.bmp b).popped b' with
    requests := (Function.update u.position b (.processing r) b').request ++
      (Function.update u.tables.2.bmp b (u.tables.2.bmp b).popped b').requests } = _
  rw [Function.update_apply, Function.update_apply]
  split
  · next heq =>
    rw [heq]
    simp only [carrying, Position.request, AsyncBmpController.popped, hb, hreq, List.tail_cons,
      List.singleton_append, List.nil_append]
  · rfl

theorem merged_operated (h : Attentive u) {op : Operation}
    (hop : ∀ b success, op ≠ .complete b success) :
    (u.operated op).merged = next u.merged op ∧
      ((exec op).run u.merged).1 = ((exec op).run u.tables).1 := by
  obtain ⟨hsame, hq, hc⟩ := (firm_conducts _).exec (steady_create _) hop _ _ h.beside
  have htables : (u.operated op).merged = ((next u.tables op).1,
      (next u.tables op).2.carrying fun b => (u.position b).request) := rfl
  refine ⟨?_, hsame.symm⟩
  rw [htables]
  exact Prod.ext hq hc.eq.symm

theorem called_eq (success : Bool) (reason : Option String) :
    u.called r success reason =
      (((bmpOnRequestComplete r.onDone success reason).run u.tables).1,
        u.became ((bmpOnRequestComplete r.onDone success reason).run u.tables).2) := rfl

theorem run_complete {rest : List AtomicRequests} (hreq : (t.2.bmp b).requests = r :: rest) :
    (exec (.complete b success)).run t =
      (bmpOnRequestComplete r.onDone success
        (if success then none else some (t.2.bmp b).reason)).run
          (t.1, t.2.setBmp b (t.2.bmp b).popped) := by
  apply run_eq_of_wp
  apply complete_wp (q := t.1) (c := t.2)
  · intro hnil
    rw [hnil] at hreq
    cases hreq
  · intro r' rest' hreq'
    rw [hreq'] at hreq
    obtain rfl := (List.cons.inj hreq).1
    exact wp_run _ _

theorem called_completes (h : Attentive u) (hb : u.position b = .processing r) (success : Bool) :
    let reason := if success then none else some (u.tables.2.bmp b).reason
    (exec (.complete b success)).run u.merged =
      ((u.called r success reason).1, ((u.called r success reason).2.moved b .closing).merged) := by
  intro reason
  have hlt : b < u.tables.2.nextBmp := h.lt (by rw [hb]; nofun)
  have hpos (b' : ℕ) : (u.moved b .closing).position b' =
      if b' = b then .closing else u.position b' := Function.update_apply _ _ _ _
  have hbeside : Beside (fun b' => ((u.moved b .closing).position b').request) u.tables
      (u.moved b .closing).merged := by
    refine ⟨rfl, rfl, fun b' hb' => ?_⟩
    rw [hpos, if_neg (hlt.trans_le hb').ne', (h.idle b' hb').1]
    rfl
  have hreq : (u.merged.2.bmp b).requests = r :: (u.tables.2.bmp b).requests := by
    change (u.position b).request ++ _ = _
    rw [hb]
    rfl
  have hpop : u.merged.2.setBmp b (u.merged.2.bmp b).popped = (u.moved b .closing).merged.2 := by
    refine carrying_of_bmp (funext fun b' => ?_) rfl
    change Function.update u.merged.2.bmp b (u.merged.2.bmp b).popped b' = { u.tables.2.bmp b' with
      requests := ((u.moved b .closing).position b').request ++ (u.tables.2.bmp b').requests }
    rw [hpos, Function.update_apply]
    split
    · next heq =>
      rw [heq]
      unfold AsyncBmpController.popped
      rw [hreq]
      rfl
    · rfl
  have hreason : (u.merged.2.bmp b).reason = (u.tables.2.bmp b).reason := rfl
  have htables : (u.merged.1, (u.moved b .closing).merged.2) = (u.moved b .closing).merged := rfl
  obtain ⟨hsame, hq, hc⟩ :=
    (firm_conducts _).bmpOnRequestComplete r.onDone success reason _ _ hbeside
  rw [run_complete hreq, hpop, hreason, htables, called_eq]
  refine Prod.ext hsame.symm (Prod.ext ?_ ?_)
  · exact hq.symm
  · exact hc.eq

end Merged

/-- What the action amounts to meets a condition. -/
def Action.Meets (ok : JobQueue × Controller → Operation → Prop) (u : Threaded) (a : Action) : Prop :=
  System.Along next ok u.merged (u.amounts a)

/-- Threads see their requests, and nothing raises but what cannot be served. -/
structure Going (u : Threaded) : Prop extends Attentive u where
  serving : Serving Allocator.Robust settled 0 u.merged

namespace Going

variable {u u' : Threaded} {a : Action} {r : AtomicRequests} {op : Operation}

theorem turn_operate : u.turn (.operate op) = some u' ↔
    (∀ b success, op ≠ .complete b success) ∧ u' = u.operated op := by
  cases op
  case complete b success => simp [Threaded.turn]
  all_goals simp [Threaded.turn, eq_comm]

theorem operated (h : Going u) (hop : ∀ b success, op ≠ .complete b success)
    (hserved : Served u.merged op) : Going (u.operated op) := by
  have hmerged : (u.operated op).merged = next u.merged op := (merged_operated h.toAttentive hop).1
  have hserving : Serving Allocator.Robust settled 0 (u.operated op).merged := by
    rw [hmerged]
    exact wp_same (exec_serving h.serving hserved)
  have hx : Extends u.tables.2 (next u.tables op).2 :=
    Extends.conducts.exec Extends.creates hop u.tables
  have hidle (b : ℕ) (hb : (next u.tables op).2.nextBmp ≤ b) :
      ((next u.tables op).2.bmp b).requests = [] :=
    (List.append_eq_nil_iff.mp (hserving.tally.idle b hb)).2
  have hbecame := h.toAttentive.became hx hidle
  exact ⟨⟨hbecame.idle, hbecame.popping, hbecame.running, hbecame.event, hbecame.returned⟩, hserving⟩

theorem moved {p : Position} (h : Going u) (ht : u'.tables = u.tables)
    (hp : u'.position = Function.update u.position b p) (hlt : b < u.tables.2.nextBmp)
    (hreq : p.request = (u.position b).request)
    (hpop : p = .popping → (u.tables.2.bmp b).requests ≠ [])
    (hrun : p ≠ .failing ∧ p ≠ .crashed) (hother : ∀ b', b' ≠ b → u'.event b' = u.event b')
    (hevent : p ≠ .returned → (u.tables.2.bmp b).requests ≠ [] ∨
      (u.tables.2.bmp b).stopped = true → u'.event b = true)
    (hret : p = .returned →
      (u.tables.2.bmp b).stopped = true ∧ (u.tables.2.bmp b).requests = []) :
    Going u' ∧ u'.merged = u.merged := by
  have hmerged : u'.merged = u.merged := merged_congr ht (request_moved hp hreq)
  refine ⟨⟨h.toAttentive.moved ht hp hlt hpop hrun hother hevent hret, ?_⟩, hmerged⟩
  rw [hmerged]
  exact h.serving

theorem called (h : Going u) (hb : u.position b = .processing r) (success : Bool) :
    let reason := if success then none else some (u.tables.2.bmp b).reason
    (u.called r success reason).1 = .ok () ∧ Going ((u.called r success reason).2.moved b .closing) ∧
      ((u.called r success reason).2.moved b .closing).merged =
        next u.merged (.complete b success) := by
  intro reason
  have hcompletes := called_completes h.toAttentive hb success
  have hreturns : wp (complete b success) (fun _ => Serving Allocator.Robust settled 0) (fun _ _ => False) u.merged :=
    h.serving.complete
  obtain ⟨_, t, hrun, hserving⟩ := wp_returns hreturns
  change (exec (.complete b success)).run u.merged = _ at hrun
  have hnext : next u.merged (.complete b success) =
      ((u.called r success reason).2.moved b .closing).merged := congrArg Prod.snd hcompletes
  have hok : (u.called r success reason).1 = .ok () :=
    (congrArg Prod.fst hcompletes).symm.trans (congrArg Prod.fst hrun)
  have hmerged : ((u.called r success reason).2.moved b .closing).merged = t :=
    hnext.symm.trans (congrArg Prod.snd hrun)
  have hlt : b < u.tables.2.nextBmp := h.lt (by rw [hb]; nofun)
  refine ⟨hok, ⟨?_, hmerged ▸ hserving⟩, hnext.symm⟩
  rw [called_eq] at hmerged ⊢
  generalize hcall : (bmpOnRequestComplete r.onDone success reason).run u.tables = res at hmerged ⊢
  have hx : Extends u.tables.2 res.2.2 := by
    rw [← hcall]
    exact Extends.conducts.bmpOnRequestComplete r.onDone success reason u.tables
  have hidle (b' : ℕ) (hb' : res.2.2.nextBmp ≤ b') : (res.2.2.bmp b').requests = [] := by
    rw [← hmerged] at hserving
    exact (List.append_eq_nil_iff.mp (hserving.tally.idle b' hb')).2
  have hbecame := h.toAttentive.became hx hidle
  exact hbecame.moved rfl rfl (hlt.trans_le hx.nextBmp) nofun ⟨nofun, nofun⟩ (fun _ _ => rfl)
    (fun _ hor => hbecame.event b (hlt.trans_le hx.nextBmp) (by
      change u.position b ≠ _
      rw [hb]
      nofun) hor) nofun

theorem attempt_cases (h : Going u) {success : Bool} (hturn : u.attempted b success = some u') :
    ∃ r, u.position b = .processing r ∧
      (success = false ∧ u.tries b + 1 < nRequestTries ∧
          u' = { u with tries := Function.update u.tries b (u.tries b + 1) } ∨
        (success = false → ¬u.tries b + 1 < nRequestTries) ∧
          u' = (u.called r success
            (if success then none else some (u.tables.2.bmp b).reason)).2.moved b .closing) := by
  unfold Threaded.attempted at hturn
  split at hturn
  case h_2 => cases hturn
  next r hb =>
  refine ⟨r, hb, ?_⟩
  obtain ⟨hok, -, -⟩ := h.called hb success
  cases success with
  | true =>
    simp only [if_true] at hok hturn ⊢
    refine .inr ⟨nofun, ?_⟩
    generalize u.called r true none = called at hok hturn ⊢
    obtain ⟨res, u₁⟩ := called
    subst hok
    exact (Option.some.inj hturn).symm
  | false =>
    simp only [Bool.false_eq_true, if_false, Option.some.injEq] at hok hturn
    subst hturn
    unfold Threaded.retried
    split
    · next htries => exact .inl ⟨rfl, htries, rfl⟩
    · next htries =>
      refine .inr ⟨fun _ => htries, ?_⟩
      rw [if_neg Bool.false_ne_true]
      generalize u.called r false (some (u.tables.2.bmp b).reason) = called at hok ⊢
      obtain ⟨res, u₁⟩ := called
      subst hok
      rfl

theorem attempted (h : Going u) {success : Bool} (hturn : u.attempted b success = some u') :
    Going u' ∧ u'.merged = runs u.merged (u.amounts (.attempt b success)) := by
  obtain ⟨r, hb, ⟨rfl, htries, rfl⟩ | ⟨hlast, rfl⟩⟩ := h.attempt_cases hturn
  · have hamounts : u.amounts (.attempt b false) = [] := if_pos htries
    rw [hamounts]
    exact ⟨⟨⟨h.idle, h.popping, h.running, h.event, h.returned⟩, h.serving⟩, rfl⟩
  · have hamounts : u.amounts (.attempt b success) = [.complete b success] := by
      cases success with
      | true => rfl
      | false => exact if_neg (hlast rfl)
    rw [hamounts]
    exact (h.called hb success).2

theorem proceeds {p : Position} (h : Going u) (hlt : b < u.tables.2.nextBmp)
    (hgoing : u.position b ≠ .returned) (hreq : p.request = (u.position b).request)
    (hpop : p = .popping → (u.tables.2.bmp b).requests ≠ [])
    (hrun : p ≠ .failing ∧ p ≠ .crashed) (hret : p ≠ .returned) :
    Going (u.moved b p) ∧ (u.moved b p).merged = u.merged :=
  h.moved rfl rfl hlt hreq hpop hrun (fun _ _ => rfl) (fun _ => h.event b hlt hgoing) fun heq =>
    absurd heq hret

theorem closed (h : Going u) (hlt : b < u.tables.2.nextBmp) (hb : u.position b = .closing) :
    Going (u.closed b) ∧ (u.closed b).merged = u.merged := by
  unfold Threaded.closed
  split
  · next hnil =>
    have hcleared (b' : ℕ) (hne : b' ≠ b) : Function.update u.event b false b' = u.event b' :=
      Function.update_of_ne hne _ _
    cases hs : (u.tables.2.bmp b).stopped with
    | true =>
      exact h.moved rfl rfl hlt (by rw [hb]; rfl) nofun ⟨nofun, nofun⟩ hcleared
        (fun hne => absurd rfl hne) fun _ => ⟨hs, hnil⟩
    | false =>
      refine h.moved rfl rfl hlt (by rw [hb]; rfl) nofun ⟨nofun, nofun⟩ hcleared
        (fun _ hor => ?_) nofun
      obtain hne | hstop := hor
      · exact absurd hnil hne
      · rw [hs] at hstop
        cases hstop
  · exact h.proceeds hlt (by rw [hb]; nofun) (by rw [hb]; rfl) nofun ⟨nofun, nofun⟩ nofun

theorem worked (h : Going u) (hlt : b < u.tables.2.nextBmp) (hturn : u.worked b = some u') :
    Going u' ∧ u'.merged = u.merged := by
  unfold Threaded.worked at hturn
  split at hturn
  case h_1 hb =>
    split at hturn
    · obtain rfl := Option.some.inj hturn
      exact h.proceeds hlt (by rw [hb]; nofun) (by rw [hb]; rfl) nofun ⟨nofun, nofun⟩ nofun
    · cases hturn
  case h_2 hb =>
    split at hturn
    · obtain rfl := Option.some.inj hturn
      exact h.proceeds hlt (by rw [hb]; nofun) (by rw [hb]; rfl) nofun ⟨nofun, nofun⟩ nofun
    · cases hturn
  case h_3 hb =>
    split at hturn
    · obtain rfl := Option.some.inj hturn
      exact h.proceeds hlt (by rw [hb]; nofun) (by rw [hb]; rfl) nofun ⟨nofun, nofun⟩ nofun
    · next hne =>
      obtain rfl := Option.some.inj hturn
      exact h.proceeds hlt (by rw [hb]; nofun) (by rw [hb]; rfl) (fun _ => hne) ⟨nofun, nofun⟩
        nofun
  case h_4 hb =>
    obtain rfl := Option.some.inj hturn
    have hmerged := merged_popped h.toAttentive hb
    refine ⟨⟨h.toAttentive.popped hb, ?_⟩, hmerged⟩
    rw [hmerged]
    exact h.serving
  case h_5 => cases hturn
  case h_6 hb =>
    obtain rfl := Option.some.inj hturn
    exact h.closed hlt hb
  case h_7 => cases hturn
  case h_8 hb => exact absurd hb (h.running b).1
  case h_9 => cases hturn

theorem turn (h : Going u) (hserved : a.Meets Served u) (hturn : u.turn a = some u') :
    Going u' ∧ u'.merged = runs u.merged (u.amounts a) := by
  cases a with
  | operate op =>
    obtain ⟨hop, rfl⟩ := turn_operate.mp hturn
    exact ⟨h.operated hop hserved.1, (merged_operated h.toAttentive hop).1⟩
  | work b =>
    unfold Threaded.turn at hturn
    dsimp only at hturn
    split at hturn
    · next hlt => exact h.worked hlt hturn
    · cases hturn
  | attempt b success => exact h.attempted hturn

theorem start (s : Setup) : Going (.start s) where
  idle _ _ := ⟨rfl, rfl⟩
  popping _ hb := nomatch hb
  running _ := ⟨nofun, nofun⟩
  event _ hb := absurd hb (Nat.not_lt_zero _)
  returned _ hb := nomatch hb
  serving := start_serving s

end Going

/-- Threads are at any speed, and what is done meets a condition. -/
def threadsWith (s : Setup) (ok : JobQueue × Controller → Operation → Prop) :
    System Threaded Action := (threads s).restrict fun u a => a.Meets ok u

section Runs

variable {s : Setup} {u : Threaded} {a : Action} {ok : JobQueue × Controller → Operation → Prop}

theorem Action.Meets.mono (h : a.Meets ok u) (hok : ∀ t op, ok t op → Served t op) :
    a.Meets Served u := System.Along.mono hok h

theorem reachable_going (hok : ∀ t op, ok t op → Served t op)
    (h : (threadsWith s ok).Reachable u) : Going u := by
  apply h.invariant
  · rintro u rfl
    exact .start s
  · intro u a u' _ hu hstep
    exact (hu.turn (hstep.1.mono hok) hstep.2).1

theorem reachable_merged (hok : ∀ t op, ok t op → Served t op)
    (h : (threadsWith s ok).Reachable u) : ((system s).restrict ok).Reachable u.merged := by
  induction h with
  | start hu =>
    subst hu
    exact .start rfl
  | next hu hstep ih =>
    obtain ⟨-, hmerged⟩ := (reachable_going hok hu).turn (hstep.1.mono hok) hstep.2
    rw [hmerged]
    exact reachable_runs ih hstep.1

theorem reachable_after (h : (threadsWith s ok).Reachable u) {actions : List Action}
    (hok : System.Along (fun u a => (u.turn a).getD u)
      (fun u a => a.Meets ok u ∧ (u.turn a).isSome) u actions) :
    (threadsWith s ok).Reachable (u.after actions) := by
  induction actions generalizing u with
  | nil => exact h
  | cons a actions ih =>
    obtain ⟨⟨hmeets, hsome⟩, hrest⟩ := hok
    obtain ⟨u', hu'⟩ := Option.isSome_iff_exists.mp hsome
    have hturn : u.turn a = some ((u.turn a).getD u) := by
      rw [hu']
      rfl
    exact ih (.next h ⟨hmeets, hturn⟩) hrest

end Runs

/-- Whatever the order in which clients and threads take their turns, the tables are those of a
controller whose requests are completed in one go, and clients are told the same. No callback
raises, and no thread crashes. -/
theorem threads_refine {s : Setup} {u : Threaded} {ok : JobQueue × Controller → Operation → Prop}
    (hok : ∀ t op, ok t op → Served t op) (h : (threadsWith s ok).Reachable u) :
    ((system s).restrict ok).Reachable u.merged ∧
      (∀ a u', a.Meets ok u → u.turn a = some u' → u'.merged = runs u.merged (u.amounts a)) ∧
      (∀ op, (∀ b success, op ≠ .complete b success) →
        ((exec op).run u.tables).1 = ((exec op).run u.merged).1) ∧
      (∀ b r success, u.position b = .processing r →
        (u.called r success (if success then none else some (u.tables.2.bmp b).reason)).1 = .ok ()) ∧
      ∀ b, u.position b ≠ .failing ∧ u.position b ≠ .crashed := by
  have hu := reachable_going hok h
  refine ⟨reachable_merged hok h, fun a u' hmeets hturn => (hu.turn (hmeets.mono hok) hturn).2,
    fun op hop => ((merged_operated hu.toAttentive hop).2).symm,
    fun b r success hb => (hu.called hb success).1, hu.running⟩

def poweringThread : List Action := poweringOn.map .operate ++ List.replicate 4 (.work 0)

theorem reachable_poweringThread :
    (threadsWith .quiet Served).Reachable ((Threaded.start .quiet).after poweringThread) := by
  apply reachable_after (.start rfl)
  refine ⟨⟨⟨⟨nofun, sized_oneBoard, fun _ _ _ hold => ?_⟩, trivial⟩, ?_⟩,
    ⟨⟨⟨nofun, trivial, trivial⟩, trivial⟩, ?_⟩, ⟨trivial, ?_⟩, ⟨trivial, ?_⟩, ⟨trivial, ?_⟩,
    ⟨trivial, ?_⟩, trivial⟩
  · cases hold
  all_goals decide +kernel

theorem threads_refine_poweringThread :
    ((system .quiet).restrict Served).Reachable
        ((Threaded.start .quiet).after poweringThread).merged ∧
      (((Threaded.start .quiet).after poweringThread).position 0).request.length = 1 ∧
      (((Threaded.start .quiet).after poweringThread).tables.2.bmp 0).requests.length = 0 ∧
      (((Threaded.start .quiet).after poweringThread).merged.2.bmp 0).requests.length = 1 :=
  ⟨(threads_refine (fun _ _ h => h) reachable_poweringThread).1, by decide +kernel,
    by decide +kernel, by decide +kernel⟩

end SpallocServer.Controller
