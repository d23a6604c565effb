import SpallocServer.JobQueue

namespace SpallocServer.JobQueue

open Foundation Prog

variable {ω α : Type} {P : (α : Type) → Call ω α → Prop} {cb : Callbacks ω}

structure Composes (P : (α : Type) → Call ω α → Prop) : Prop where
  pure : ∀ {α : Type} (a : α), P α (Pure.pure a)
  raise : ∀ {α : Type} (e : Error), P α (Prog.raise e)
  bind : ∀ {α β : Type} {m : Call ω α} {f : α → Call ω β}, P α m → (∀ a, P β (f a)) →
    P β (m >>= f)
  ensuring : ∀ {α : Type} {m : Call ω α} {last : Call ω Unit}, P α m → P Unit last →
    P α (Prog.ensuring m last)
  queue : P JobQueue JobQueue.queue
  change : ∀ f, P Unit (JobQueue.change f)
  onAllocator : ∀ {α : Type} (m : ℕ) (p : Prog Error Allocator α), P α (JobQueue.onAllocator m p)

structure Callable (P : (α : Type) → Call ω α → Prop) (cb : Callbacks ω) : Prop extends
    Composes P where
  onAllocate : ∀ id name boards periphery torus,
    P Unit (report (cb.onAllocate id name boards periphery torus))
  onFree : ∀ id reason, P Unit (report (cb.onFree id reason))
  onCancel : ∀ id reason, P Unit (report (cb.onCancel id reason))

namespace Composes

theorem ofExcept (h : Composes P) (x : Except Error α) : P α (Prog.ofExcept x) := by
  cases x with
  | error e => exact h.raise e
  | ok a => exact h.pure a

theorem ite {p : Prop} [Decidable p] {m n : Call ω α} (hm : P α m) (hn : P α n) :
    P α (if p then m else n) := by
  split
  · exact hm
  · exact hn

theorem forEach {β : Type} (h : Composes P) {f : β → Call ω Unit} {l : List β}
    (hf : ∀ b, P Unit (f b)) : P Unit (Prog.forEach l f) := by
  induction l with
  | nil => exact h.pure ()
  | cons b l ih => exact h.bind (hf b) fun _ => ih

theorem look (h : Composes P) {f : JobQueue → Call ω α} (hf : ∀ q, P α (f q)) :
    P α (JobQueue.queue >>= f) := h.bind h.queue hf

theorem changed (h : Composes P) {f : JobQueue → JobQueue} {m : Unit → Call ω α}
    (hm : P α (m ())) : P α (JobQueue.change f >>= m) := h.bind (h.change f) fun _ => hm

theorem offer (h : Composes P) (j : ℕ) (l : List ℕ) : P Bool (JobQueue.offer j l) := by
  induction l with
  | nil => exact h.pure false
  | cons m l ih =>
    refine h.look fun q => h.bind (h.ofExcept _) fun possible => ?_
    exact ite (h.changed (h.bind ih fun _ => h.pure true)) ih

theorem moveMachineToEnd (h : Composes P) (name : String) :
    P Unit (JobQueue.moveMachineToEnd name) :=
  h.look fun _ => ite (h.raise _) (h.change _)

theorem checkFreeMachines (h : Composes P) (l : List ℕ) :
    P Bool (JobQueue.checkFreeMachines l) := by
  induction l with
  | nil => exact h.pure false
  | cons m l ih =>
    exact h.bind (h.onAllocator m _) fun _ => h.bind ih fun _ => h.pure _

end Composes

namespace Callable

open Composes (ite)

theorem tryJob (h : Callable P cb) (j m : ℕ) : P Bool (JobQueue.tryJob cb j m) := by
  refine h.look fun q => h.bind (h.onAllocator m _) fun res => ?_
  cases res with
  | none => exact h.pure false
  | some al => exact h.changed (h.bind (h.onAllocate _ _ _ _ _) fun _ => h.pure true)

theorem processHead (h : Callable P cb) (m n : ℕ) : P Bool (JobQueue.processHead cb m n) := by
  induction n with
  | zero => exact h.pure false
  | succ n ih =>
    refine h.look fun q => ?_
    rcases (q.machine m).queue with - | ⟨j, rest⟩
    · exact h.pure false
    · refine ite (h.changed ih) (h.bind (h.tryJob j m) fun started => ?_)
      exact ite (h.changed (h.pure true)) (h.pure false)

theorem processMachines (h : Callable P cb) (l : List ℕ) :
    P Bool (JobQueue.processMachines cb l) := by
  induction l with
  | nil => exact h.pure false
  | cons m l ih =>
    exact h.look fun q => h.bind (h.processHead m _) fun _ => h.bind ih fun _ => h.pure _

theorem processLoop (h : Callable P cb) (n : ℕ) : P Unit (JobQueue.processLoop cb n) := by
  induction n with
  | zero => exact h.pure ()
  | succ n ih =>
    exact h.look fun q => h.bind (h.processMachines _) fun _ => ite ih (h.pure ())

theorem processQueue (h : Callable P cb) : P Unit (JobQueue.processQueue cb) :=
  h.look fun _ => ite (h.pure ()) (h.processLoop _)

theorem destroyJob (h : Callable P cb) (id : ℕ) (reason : Option String) :
    P Unit (JobQueue.destroyJob cb id reason) := by
  refine h.look fun q => ?_
  rcases q.jobs.get? id with - | j
  · exact h.raise _
  · refine ite ?_ (h.bind (h.onFree _ _) fun _ => h.processQueue)
    exact h.changed (h.bind (h.onCancel _ _) fun _ => h.changed h.processQueue)

theorem enqueueJob (h : Callable P cb) (j : ℕ) : P Unit (JobQueue.enqueueJob cb j) := by
  refine h.look fun q => ite (h.pure ()) (h.bind (h.ofExcept _) fun _ => ?_)
  refine h.bind (h.offer j _) fun found => ?_
  exact ite (h.bind (h.destroyJob _ _) fun _ => h.processQueue) h.processQueue

theorem regenerateLoop (h : Callable P cb) (l : List ℕ) :
    P Unit (JobQueue.regenerateLoop cb l) := by
  induction l with
  | nil => exact h.pure ()
  | cons j l ih =>
    refine h.look fun q => ?_
    have hrest : P Unit (do
        let q' ← (JobQueue.queue : Call ω JobQueue)
        if q'.jobs.keys ≠ q.jobs.keys ∧ l ≠ [] then Prog.raise mutated
        else JobQueue.regenerateLoop cb l) := h.look fun q' => ite (h.raise _) ih
    exact ite (h.bind (h.enqueueJob j) fun _ => hrest) hrest

theorem regenerateQueues (h : Callable P cb) : P Unit (JobQueue.regenerateQueues cb) :=
  h.look fun _ => ite (h.pure ()) (h.changed (h.regenerateLoop _))

theorem exit (h : Callable P cb) : P Unit (JobQueue.exit cb) := h.changed h.regenerateQueues

theorem addMachine (h : Callable P cb) (name : String) (width height : ℤ)
    (tags : Option (Finset String)) (deadBoards : Finset Board) (deadLinks : Finset BoardLink) :
    P Unit (JobQueue.addMachine cb name width height tags deadBoards deadLinks) :=
  h.look fun _ => ite (h.raise _) (h.changed h.regenerateQueues)

theorem modifyMachine (h : Callable P cb) (name : String) (tags : Option (Finset String))
    (deadBoards : Option (Finset Board)) (deadLinks : Option (Finset BoardLink)) :
    P Unit (JobQueue.modifyMachine cb name tags deadBoards deadLinks) := by
  refine h.look fun q => ?_
  rcases q.machines.get? name with - | m
  · exact h.raise _
  · exact h.changed h.regenerateQueues

theorem free (h : Callable P cb) (id : ℕ) : P Unit (JobQueue.free cb id) := by
  refine h.look fun q => ?_
  rcases q.jobs.get? id with - | j
  · exact h.pure ()
  refine h.changed ?_
  rcases (q.job j).machine with - | m
  · exact h.raise _
  rcases (q.job j).allocationId with - | allocationId
  · exact h.raise _
  · exact h.bind (h.onAllocator m _) fun _ => h.processQueue

theorem removeMachine (h : Callable P cb) (name : String) :
    P Unit (JobQueue.removeMachine cb name) := by
  refine h.look fun q => ?_
  rcases q.machines.get? name with - | m
  · exact h.raise _
  refine h.changed (h.ensuring (h.bind (h.forEach fun j => ?_) fun _ => h.change _) h.exit)
  exact h.look fun q => ite (h.bind (h.destroyJob _ _) fun _ => h.free _) (h.pure _)

theorem createJob (h : Callable P cb) (jobId : Option ℕ) (machine : Option MachineName)
    (tags : Option Tags) (request : Request) :
    P Unit (JobQueue.createJob cb jobId machine tags request) := by
  refine h.look fun q => ?_
  rcases jobId with - | id
  · exact h.raise _
  · exact ite (h.raise _) (h.bind (h.ofExcept _) fun _ => h.changed (h.enqueueJob _))

theorem checkFree (h : Callable P cb) : P Unit (JobQueue.checkFree cb) :=
  h.look fun _ => ite (h.pure ())
    (h.bind (h.checkFreeMachines _) fun _ => ite h.processQueue (h.pure ()))

end Callable

end SpallocServer.JobQueue
