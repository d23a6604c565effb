import SpallocServer.JobQueue.Standstill
import SpallocServer.Controller.Assignment

namespace SpallocServer.Controller

open Foundation Prog JobQueue

variable {machines : Machines} {t : JobQueue × Controller} {q : JobQueue}
  {connect : String → Except Error Unit}

/-- The controller has the machines already, in this order, and giving them to it once more moves
no job. -/
structure Stationary (machines : Machines) (t : JobQueue × Controller) : Prop where
  registered : t.2.machines = machines.dict
  queued : ∀ name ∈ machines.dict.keys, (t.1.machines.get? name).isSome
  stalls : t.1.postpone = 0 → t.1.Stalls [] t.1.jobs.values

theorem common_self (machines : Dict String Configuration.Machine) {change : Change}
    (h : change ≠ .none) : common machines machines change = ∅ := by
  rw [Finset.eq_empty_iff_forall_notMem]
  intro name hname
  obtain ⟨old, new, hold, hnew, hchange⟩ := mem_common.mp hname
  obtain rfl := Option.some.inj (hold.symm.trans hnew)
  rw [compare, if_pos (Configuration.Machine.Same.refl old)] at hchange
  exact h hchange.symm

theorem addedNames_self (machines : Dict String Configuration.Machine) :
    addedNames machines machines = ∅ := by
  rw [addedNames, common_self machines (by simp), sdiff_self]
  rfl

theorem removedNames_self (machines : Dict String Configuration.Machine) :
    removedNames machines machines = ∅ := by
  rw [removedNames, common_self machines (by simp), sdiff_self]
  rfl

theorem list_empty {α : Type} (order : SetOrder α) : order.list ∅ = [] := by
  rw [List.eq_nil_iff_forall_not_mem]
  intro a ha
  exact absurd ((order.mem ∅ a).mp ha) (Finset.notMem_empty a)

theorem stopped_nil (c : Controller) : c.stopped [] = c := by
  simp [stopped]

theorem moveMachines_known {names : List String}
    (hc : ∀ name ∈ names, (t.2.machines.get? name).isSome)
    (hq : ∀ name ∈ names, (t.1.machines.get? name).isSome) :
    wp (forEach names moveToEnd) (fun _ t' => t' = reordered names t) (fun _ _ => False) t := by
  induction names generalizing t with
  | nil => rfl
  | cons name names ih =>
    change wp (moveToEnd name >>= fun _ => forEach names moveToEnd) _ _ t
    simp only [moveToEnd, moveMachineToEnd, wp_bind, wp_controller]
    rw [if_neg (by simp [Option.isSome_iff_ne_none.mp (hc name List.mem_cons_self)])]
    simp only [wp_bind, wp_adjust, wp_queue]
    rw [if_neg (by simp [Option.isSome_iff_ne_none.mp (hq name List.mem_cons_self)])]
    apply ih
    · intro name' hname'
      dsimp only
      rw [Dict.get?_moveToEnd]
      exact hc name' (List.mem_cons_of_mem name hname')
    · intro name' hname'
      change ((t.1.machines.moveToEnd name).get? name').isSome
      rw [Dict.get?_moveToEnd]
      exact hq name' (List.mem_cons_of_mem name hname')

theorem mem_candidates_reordered {names : List String} {j m : ℕ} :
    m ∈ JobQueue.candidates { q with machines := names.foldl Dict.moveToEnd q.machines } j ↔
      m ∈ q.candidates j := by
  unfold JobQueue.candidates
  dsimp only
  split
  · rw [Dict.get?_foldl_moveToEnd]
  · rfl
  · simp only [List.mem_filter, Dict.mem_values, Dict.get?_foldl_moveToEnd]

theorem stalls_reordered {names : List String} {ahead l : List ℕ} (h : q.Stalls ahead l) :
    JobQueue.Stalls { q with machines := names.foldl Dict.moveToEnd q.machines } ahead l := by
  apply Stalls.congr h
  · rfl
  · intro j e he
    obtain hhash | ⟨m, hm, hposs⟩ := he
    · exact .inl hhash
    · exact .inr ⟨m, mem_candidates_reordered.mpr hm, hposs⟩
  · exact fun j m => and_congr_left fun _ => mem_candidates_reordered
  · exact fun _ _ hroom => hroom

theorem Stationary.setMachinesWith (h : Stationary machines t) :
    wp (setMachinesWith connect machines) (fun _ => Untouched t.1 t.2)
      (fun _ => Untouched t.1 t.2) t := by
  obtain ⟨q, c⟩ := t
  have hmachines : c.machines = machines.dict := h.registered
  have hexit : wp (JobQueue.exit callbacks) (fun _ => Untouched q c) (fun _ => Untouched q c)
      (reordered machines.dict.keys ({ q with postpone := q.postpone + 1 }, c)) := by
    have hsame : { c with machines := machines.dict.keys.foldl Dict.moveToEnd c.machines } = c := by
      rw [hmachines, Dict.foldl_moveToEnd_keys, ← hmachines]
    unfold reordered
    dsimp only
    rw [hsame]
    simp only [JobQueue.exit, wp_bind, wp_change, add_sub_cancel_right]
    apply (regenerateQueues_stalls fun hpost => stalls_reordered (h.stalls hpost)).mono
    · exact fun _ _ ht => ht
    · exact fun _ _ ht => ht
  simp only [Controller.setMachinesWith, enter, wp_bind, wp_controller, wp_change, wp_ensuring,
    hmachines, removedNames_self, addedNames_self, common_self _ (by simp : Change.minor ≠ .none),
    list_empty, removeMachines, wp_pure, wp_adjust, stopped_nil]
  have hskip (f : String → Call Unit) : forEach [] f = pure () := rfl
  simp only [hskip, wp_bind, wp_pure]
  apply (moveMachines_known (t := ({ q with postpone := q.postpone + 1 }, c)) _ h.queued).mono _
    fun _ _ hf => hf.elim
  · intro name hname
    rw [Option.isSome_iff_exists, ← Dict.mem_keys]
    dsimp only
    rw [hmachines]
    exact hname
  · rintro _ _ rfl
    apply hexit.mono _ fun _ _ ht => ht
    intro _ t ht
    simpa only [wp_adjust, Finset.union_empty] using ht

end SpallocServer.Controller
