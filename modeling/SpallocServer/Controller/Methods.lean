import SpallocServer.Foundation.Relational
import SpallocServer.JobQueue.Methods
import SpallocServer.Controller.Rules

namespace SpallocServer.Controller

open Foundation Prog JobQueue

variable {α : Type} {P : (α : Type) → Prog Error Controller α → Prop}
  {C : (α : Type) → Call α → Prop}

/-- Calls may be put together. All they do with BMP controllers is to give them requests and to stop
them. -/
structure Handles (P : (α : Type) → Prog Error Controller α → Prop) : Prop where
  pure : ∀ {α : Type} (a : α), P α (Pure.pure a)
  raise : ∀ {α : Type} (e : Error), P α (Prog.raise e)
  bind : ∀ {α β : Type} {m : Prog Error Controller α} {f : α → Prog Error Controller β},
    P α m → (∀ a, P β (f a)) → P β (m >>= f)
  look : ∀ {α : Type} {f : Controller → Prog Error Controller α},
    (∀ c bmp, f { c with bmp := bmp } = f c) → (∀ c, P α (f c)) → P α (state >>= f)
  change : ∀ {f : Controller → Controller},
    (∀ c bmp, f { c with bmp := bmp } = { f c with bmp := bmp }) → (∀ c, (f c).bmp = c.bmp) →
    (∀ c, (f c).nextBmp = c.nextBmp) → P Unit (update f)
  addRequests : ∀ b r, P Unit (addRequests b r)
  stopped : ∀ bmps, P Unit (update fun c => c.stopped bmps)

def Creates (P : (α : Type) → Prog Error Controller α → Prop) : Prop :=
  ∀ machine, P Unit (update fun c => c.wiredUp machine)

namespace Handles

theorem ofExcept (h : Handles P) (x : Except Error α) : P α (Prog.ofExcept x) := by
  cases x with
  | error e => exact h.raise e
  | ok a => exact h.pure a

theorem ite {p : Prop} [Decidable p] {m n : Prog Error Controller α} (hm : P α m) (hn : P α n) :
    P α (if p then m else n) := by
  split
  · exact hm
  · exact hn

theorem forEach {β : Type} (h : Handles P) {f : β → Prog Error Controller Unit} {l : List β}
    (hf : ∀ b, P Unit (f b)) : P Unit (Prog.forEach l f) := by
  induction l with
  | nil => exact h.pure ()
  | cons b l ih => exact h.bind (hf b) fun _ => ih

theorem changed (h : Handles P) {f : Controller → Controller}
    {m : Unit → Prog Error Controller α}
    (hf : ∀ c bmp, f { c with bmp := bmp } = { f c with bmp := bmp })
    (hbmp : ∀ c, (f c).bmp = c.bmp) (hnext : ∀ c, (f c).nextBmp = c.nextBmp) (hm : P α (m ())) :
    P α (update f >>= m) := h.bind (h.change hf hbmp hnext) fun _ => hm

theorem timestamp (h : Handles P) : P ℚ timestamp :=
  h.look (fun _ _ => rfl) fun _ =>
    h.changed (fun _ _ => rfl) (fun _ => rfl) (fun _ => rfl) (h.pure _)

theorem aliveUntil (h : Handles P) (keepalive : Option ℚ) : P _ (aliveUntil keepalive) := by
  cases keepalive with
  | none => exact h.pure none
  | some seconds => exact h.bind h.timestamp fun _ => h.pure _

theorem updateKeepalive (h : Handles P) (id : ℕ) (host : Option String) :
    P Unit (updateKeepalive id host) := by
  refine h.changed (fun _ _ => rfl) (fun _ => rfl) (fun _ => rfl) ?_
  refine h.look (fun _ _ => rfl) fun c => h.bind (h.aliveUntil _) fun keepalive => ?_
  exact h.change (fun _ _ => rfl) (fun _ => rfl) fun _ => rfl

theorem jobKeepalive (h : Handles P) (host : Option String) (id : ℕ) :
    P Unit (jobKeepalive host id) :=
  h.look (fun _ _ => rfl) fun _ => ite (h.updateKeepalive id host) (h.pure ())

theorem setJobPowerAndLinks (h : Handles P) (id : ℕ) (power : Bool) (linkEnable : Option Bool) :
    P Unit (setJobPowerAndLinks id power linkEnable) := by
  refine h.look (fun _ _ => rfl) fun c => h.bind (h.ofExcept _) fun commands => ?_
  refine h.changed (fun _ _ => rfl) (fun _ => rfl) (fun _ => rfl) ?_
  refine h.bind (h.forEach fun command => h.addRequests _ _) fun _ => ?_
  exact h.change (fun _ _ => rfl) (fun _ => rfl) fun _ => rfl

theorem setJobBoards (h : Handles P) (host : Option String) (id : ℕ) (power : Bool)
    (linkEnable : Option Bool) : P Unit (setJobBoards host id power linkEnable) :=
  h.bind (h.jobKeepalive host id) fun _ => h.look (fun _ _ => rfl) fun _ =>
    ite (h.setJobPowerAndLinks id power linkEnable) (h.pure ())

theorem onAllocate (h : Handles P) (id : ℕ) (name : String) (boards : Finset Board)
    (periphery : Finset BoardLink) (torus : WrapAround) :
    P Unit (onAllocate id name boards periphery torus) := by
  refine h.look (fun _ _ => rfl) fun c => ite (h.raise _) ?_
  rcases c.machines.get? name with - | machine
  · exact h.raise _
  refine h.changed (fun _ _ => rfl) (fun _ => rfl) (fun _ => rfl) ?_
  refine h.bind (h.ofExcept _) fun origin => h.bind (h.ofExcept _) fun top => ?_
  refine h.changed (fun _ _ => rfl) (fun _ => rfl) (fun _ => rfl) ?_
  refine h.bind (h.ofExcept _) fun connections => ?_
  exact h.changed (fun _ _ => rfl) (fun _ => rfl) (fun _ => rfl) (h.setJobBoards _ _ _ _)

theorem teardownJob (h : Handles P) (id : ℕ) (reason : Option String) :
    P Unit (teardownJob id reason) := by
  refine h.look (fun _ _ => rfl) fun c => ite (h.raise _) ?_
  refine h.changed (fun _ _ => rfl) (fun _ => rfl) (fun _ => rfl) ?_
  exact ite (h.setJobPowerAndLinks id false none) (h.pure ())

theorem onFree (h : Handles P) (id : ℕ) (reason : Option String) : P Unit (onFree id reason) := by
  refine h.look (fun _ _ => rfl) fun c => ite (h.raise _) ?_
  rcases (c.job id).allocatedMachine with - | machine
  · exact h.raise _
  · exact h.changed (fun _ _ => rfl) (fun _ => rfl) (fun _ => rfl) (h.teardownJob id reason)

theorem stopMachines (h : Handles P) (names : List String) : P Unit (stopMachines names) := by
  induction names with
  | nil => exact h.pure ()
  | cons name names ih =>
    refine h.look (fun _ _ => rfl) fun c => ?_
    rcases c.bmpControllers.get? name with - | controllers
    · exact h.raise _
    · exact h.bind (h.stopped _) fun _ => ih

end Handles

/-- The same for calls that use the job queue. -/
structure Conducts (P : (α : Type) → Prog Error Controller α → Prop)
    (C : (α : Type) → Call α → Prop) : Prop where
  handles : Handles P
  composes : Composes C
  own : ∀ {α : Type} {m : Prog Error Controller α}, P α m → C α (own m)
  look : ∀ {α : Type} {f : Controller → Call α}, (∀ c bmp, f { c with bmp := bmp } = f c) →
    (∀ c, C α (f c)) → C α (controller >>= f)

namespace Conducts

open Composes (ite)

theorem callable (h : Conducts P C) : Callable C callbacks where
  toComposes := h.composes
  onAllocate _ _ _ _ _ := h.own (h.handles.onAllocate _ _ _ _ _)
  onFree _ _ := h.own (h.handles.onFree _ _)
  onCancel _ _ := h.own (h.handles.teardownJob _ _)

theorem adjust (h : Conducts P C) {f : Controller → Controller}
    (hf : ∀ c bmp, f { c with bmp := bmp } = { f c with bmp := bmp })
    (hbmp : ∀ c, (f c).bmp = c.bmp) (hnext : ∀ c, (f c).nextBmp = c.nextBmp) :
    C Unit (adjust f) := h.own (h.handles.change hf hbmp hnext)

theorem adjusted (h : Conducts P C) {f : Controller → Controller} {m : Unit → Call α}
    (hf : ∀ c bmp, f { c with bmp := bmp } = { f c with bmp := bmp })
    (hbmp : ∀ c, (f c).bmp = c.bmp) (hnext : ∀ c, (f c).nextBmp = c.nextBmp) (hm : C α (m ())) :
    C α (Controller.adjust f >>= m) := h.composes.bind (h.adjust hf hbmp hnext) fun _ => hm

theorem createJob (h : Conducts P C) (ownerhost owner : Option String)
    (keepalive : Option (Option ℚ)) (machine : Option MachineName) (tags : Option Tags)
    (request : Request) : C ℕ (createJob ownerhost owner keepalive machine tags request) := by
  rcases owner with - | owner
  · exact h.composes.raise _
  rcases keepalive with - | keepalive
  · exact h.composes.raise _
  refine h.look (fun _ _ => rfl) fun c => ?_
  refine h.adjusted (fun _ _ => rfl) (fun _ => rfl) (fun _ => rfl) ?_
  refine h.composes.bind (h.own (h.handles.aliveUntil keepalive)) fun alive => ?_
  refine h.adjusted (fun _ _ => rfl) (fun _ => rfl) (fun _ => rfl) ?_
  refine h.composes.bind (h.callable.createJob _ _ _ _) fun _ => ?_
  exact h.adjusted (fun _ _ => rfl) (fun _ => rfl) (fun _ => rfl) (h.composes.pure _)

theorem destroyJob (h : Conducts P C) (id : ℕ) (reason : Option String) :
    C Unit (destroyJob id reason) :=
  h.look (fun _ _ => rfl) fun _ => ite (h.callable.destroyJob _ _) (h.composes.pure ())

theorem destroyTimedOutJobs (h : Conducts P C) : C Unit destroyTimedOutJobs := by
  refine h.composes.bind (h.own h.handles.timestamp) fun now => ?_
  refine h.look (fun _ _ => rfl) fun c => h.composes.forEach fun id => ?_
  refine h.look (fun _ _ => rfl) fun c => ?_
  rcases (c.job id).keepalive with - | alive
  · exact h.composes.pure ()
  · exact ite (h.destroyJob _ _) (h.composes.pure ())

theorem bmpOnRequestComplete (h : Conducts P C) (id : ℕ) (success : Bool)
    (reason : Option String) : C Unit (bmpOnRequestComplete id success reason) := by
  refine h.composes.bind (ite (h.composes.pure ()) (h.destroyJob _ _)) fun _ => ?_
  refine h.adjusted (fun _ _ => rfl) (fun _ => rfl) (fun _ => rfl) ?_
  refine h.look (fun _ _ => rfl) fun c => ite (h.composes.raise _) (ite ?_ (h.composes.pure ()))
  refine h.adjusted (fun _ _ => rfl) (fun _ => rfl) (fun _ => rfl) (h.composes.bind ?_ fun _ => ?_)
  · exact h.look (fun _ _ => rfl) fun c => ite (h.callable.free id) (h.composes.pure ())
  · exact h.look (fun _ _ => rfl) fun c =>
      ite (h.adjust (fun _ _ => rfl) (fun _ => rfl) fun _ => rfl) (h.composes.pure ())

theorem removeMachines (h : Conducts P C) (names : List String) :
    C (List ℕ) (removeMachines names) := by
  induction names with
  | nil => exact h.composes.pure _
  | cons name names ih =>
    refine h.composes.bind (h.callable.removeMachine name) fun _ => ?_
    refine h.look (fun _ _ => rfl) fun c => ite (h.composes.raise _) ?_
    refine h.adjusted (fun _ _ => rfl) (fun _ => rfl) (fun _ => rfl) ?_
    rcases c.bmpControllers.get? name with - | controllers
    · exact h.composes.raise _
    · exact h.adjusted (fun _ _ => rfl) (fun _ => rfl) (fun _ => rfl)
        (h.composes.bind ih fun _ => h.composes.pure _)

theorem changeMachine (h : Conducts P C) (machines : Dict String Configuration.Machine)
    (name : String) : C Unit (changeMachine machines name) := by
  unfold Controller.changeMachine
  rcases machines.get? name with - | new
  · exact h.composes.raise _
  · exact h.composes.bind (h.callable.modifyMachine _ _ _ _) fun _ =>
      h.adjust (fun _ _ => rfl) (fun _ => rfl) fun _ => rfl

theorem addMachine (h : Conducts P C) (hcreate : Creates P)
    (machines : Dict String Configuration.Machine) (name : String) : C Unit (addMachine machines name) := by
  cases hnew : machines.get? name with
  | none =>
    rw [addMachine_none hnew]
    exact h.composes.raise _
  | some new =>
  rw [addMachine_some hnew]
  refine h.adjusted (fun _ _ => rfl) (fun _ => rfl) (fun _ => rfl) ?_
  exact h.composes.bind (h.own (hcreate new)) fun _ => h.callable.addMachine _ _ _ _ _ _

theorem moveToEnd (h : Conducts P C) (name : String) : C Unit (moveToEnd name) :=
  h.look (fun _ _ => rfl) fun _ => ite (h.composes.raise _)
    (h.adjusted (fun _ _ => rfl) (fun _ => rfl) (fun _ => rfl) (h.composes.moveMachineToEnd name))

theorem setMachines (h : Conducts P C) (hcreate : Creates P) (machines : Machines) :
    C Unit (setMachines machines) := by
  refine h.look (fun _ _ => rfl) fun c => h.composes.changed ?_
  refine h.composes.bind (h.composes.ensuring ?_ h.callable.exit) fun _ =>
    h.adjust (fun _ _ => rfl) (fun _ => rfl) fun _ => rfl
  refine h.composes.bind (h.removeMachines _) fun bmps => ?_
  refine h.composes.bind (h.own (h.handles.stopped bmps)) fun _ => ?_
  refine h.composes.bind (h.composes.forEach fun name => h.changeMachine _ name) fun _ => ?_
  refine h.composes.bind (h.composes.forEach fun name => h.addMachine hcreate _ name) fun _ => ?_
  exact h.composes.forEach h.moveToEnd

theorem exec (h : Conducts P C) (hcreate : Creates P) {op : Operation}
    (hop : ∀ b success, op ≠ .complete b success) : C Unit (exec op) := by
  cases op with
  | createJob ownerhost owner keepalive machine tags request =>
    exact h.composes.bind (h.createJob _ _ _ _ _ _) fun _ => h.composes.pure ()
  | jobKeepalive clienthost id => exact h.own (h.handles.jobKeepalive clienthost id)
  | powerOnJobBoards clienthost id => exact h.own (h.handles.setJobBoards _ _ _ _)
  | powerOffJobBoards clienthost id => exact h.own (h.handles.setJobBoards _ _ _ _)
  | destroyJob id reason => exact h.destroyJob id reason
  | destroyTimedOutJobs => exact h.destroyTimedOutJobs
  | checkFree => exact h.callable.checkFree
  | setMaxRetiredJobs value =>
    change C Unit (Controller.own (Controller.setMaxRetiredJobs value))
    rw [setMaxRetiredJobs_nat]
    exact h.own (h.handles.change (fun _ _ => rfl) (fun _ => rfl) fun _ => rfl)
  | setMachines machines => exact h.setMachines hcreate machines
  | stop => exact h.own (h.handles.look (fun _ _ => rfl) fun _ => h.handles.stopMachines _)
  | complete b success => exact absurd rfl (hop b success)

end Conducts

section Brings

variable {S : Controller → Controller → Prop}

theorem handles_brings (htrans : ∀ c c' c'', S c c' → S c' c'' → S c c'')
    (hsame : ∀ c c', c'.bmp = c.bmp → c'.nextBmp = c.nextBmp → S c c')
    (hadd : ∀ c b r, (c.bmp b).stopped = false → S c (c.setBmp b ((c.bmp b).accepted r)))
    (hstop : ∀ c bmps, S c (c.stopped bmps)) : Handles fun _ => Brings S where
  pure _ := brings_same (fun c => hsame c c rfl rfl) fun _ => rfl
  raise _ := brings_same (fun c => hsame c c rfl rfl) fun _ => rfl
  bind h hf := h.bind htrans hf
  look _ h c := h c c
  change _ hbmp hnext c := hsame c _ (hbmp c) (hnext c)
  addRequests b r c := by
    cases hs : (c.bmp b).stopped with
    | true =>
      have hrun : (addRequests b r).run c = (.error .assertionError, c) := by
        change (if (c.bmp b).stopped then Prog.raise _ else Prog.update _ : Prog _ _ _).run c = _
        rw [hs]
        rfl
      rw [hrun]
      exact hsame c c rfl rfl
    | false =>
      have hrun : (addRequests b r).run c = (.ok (), c.setBmp b ((c.bmp b).accepted r)) := by
        change (if (c.bmp b).stopped then Prog.raise _ else Prog.update _ : Prog _ _ _).run c = _
        rw [hs]
        rfl
      rw [hrun]
      exact hadd c b r hs
  stopped bmps c := hstop c bmps

theorem conducts_brings (h : Handles fun _ => Brings S)
    (htrans : ∀ c c' c'', S c c' → S c' c'' → S c c'') (hrefl : ∀ c, S c c) :
    Conducts (fun _ => Brings S) fun _ => Brings fun t t' => S t.2 t'.2 where
  handles := h
  composes := {
    pure := fun _ => brings_same (fun t => hrefl t.2) fun _ => rfl
    raise := fun _ => brings_same (fun t => hrefl t.2) fun _ => rfl
    bind := fun h hf => h.bind (fun t t' t'' => htrans t.2 t'.2 t''.2) hf
    ensuring := fun h hlast => h.ensuring (fun t t' t'' => htrans t.2 t'.2 t''.2) hlast
    queue := brings_same (fun t => hrefl t.2) fun _ => rfl
    change := fun _ t => hrefl t.2
    onAllocator := fun _ _ t => hrefl t.2 }
  own h t := h t.2
  look _ h t := h t.2 t

end Brings

end SpallocServer.Controller
