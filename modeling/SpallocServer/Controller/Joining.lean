import SpallocServer.Controller.Threads

namespace SpallocServer.Controller

open Foundation Prog JobQueue AsyncBmpController

variable {s : Setup} {b : ℕ} {t : JobQueue × Controller} {u u' : Threaded} {a : Action}
  {ok : JobQueue × Controller → Operation → Prop}

theorem counting : Conducts (fun _ => Brings fun c c' : Controller => c'.nextBmp = c.nextBmp)
    fun _ => Brings fun t t' : JobQueue × Controller => t'.2.nextBmp = t.2.nextBmp :=
  conducts_brings (handles_brings (fun _ _ _ h h' => h'.trans h) (fun _ _ _ h => h)
    (fun _ _ _ _ => rfl) fun _ _ => rfl) (fun _ _ _ h h' => h'.trans h) fun _ => rfl

def controllersOf (c : Controller) (name : String) : List ℕ :=
  ((c.bmpControllers.get? name).getD Dict.empty).values

theorem removeMachines_collects {names : List String} (hdepth : 0 < t.1.postpone)
    (hn : names.Nodup) :
    wp (removeMachines names)
      (fun bmps _ => ∀ name ∈ names, ∀ b ∈ controllersOf t.2 name, b ∈ bmps)
      (fun _ _ => True) t := by
  induction names generalizing t with
  | nil => exact fun _ hname => absurd hname List.not_mem_nil
  | cons name names ih =>
    obtain ⟨hnotin, hn⟩ := List.nodup_cons.mp hn
    simp only [Controller.removeMachines, wp_bind]
    apply (removeMachine_tables hdepth).mono _ fun _ _ _ => trivial
    intro _ t' htables
    obtain ⟨hpost, hsame⟩ := htables
    have hwired : t'.2.bmpControllers = t.2.bmpControllers :=
      congrArg (fun tables => tables.2.1) hsame
    rw [wp_bind, wp_controller]
    split
    · trivial
    rw [wp_bind, wp_adjust]
    split
    · trivial
    next controllers hc =>
    rw [hwired] at hc
    rw [wp_bind, wp_adjust, wp_bind]
    apply (ih (hpost ▸ hdepth) hn).mono _ fun _ _ _ => trivial
    intro bmps t'' hrest name' hname'
    obtain heq | hmem := List.mem_cons.mp hname'
    · intro b hb
      unfold controllersOf at hb
      rw [heq, hc] at hb
      exact List.mem_append_left _ hb
    · intro b hb
      refine List.mem_append_right _ (hrest name' hmem b ?_)
      have hne : name ≠ name' := fun heq => hnotin (heq ▸ hmem)
      unfold controllersOf at hb ⊢
      dsimp only
      rwa [hwired, Dict.get?_erase_ne _ hne]

theorem mem_shutDown {machines : Machines} {c : Controller} :
    b ∈ shutDown c (.setMachines machines) ↔
      ∃ name ∈ c.nameOrder.list (removedNames c.machines machines.dict),
        b ∈ controllersOf c name := List.mem_flatMap

theorem reassigning_extends (machines : Dict String Configuration.Machine)
    (changed added keys : List String) :
    Brings (fun t t' : JobQueue × Controller => Extends t.2 t'.2)
      (forEach changed (changeMachine machines) >>= fun _ =>
        forEach added (addMachine machines) >>= fun _ => forEach keys moveToEnd) := by
  have h := Extends.conducts
  refine h.composes.bind (h.composes.forEach fun name => h.changeMachine _ name) fun _ => ?_
  refine h.composes.bind
    (h.composes.forEach fun name => h.addMachine Extends.creates _ name) fun _ => ?_
  exact h.composes.forEach h.moveToEnd

structure Stopping (n : ℕ) (bmps : List ℕ) (c : Controller) : Prop where
  le : n ≤ c.nextBmp
  stopped : c.nextBmp = n ∨ ∀ b ∈ bmps, (c.bmp b).stopped = true

theorem Stopping.extends {n : ℕ} {bmps : List ℕ} {c c' : Controller} (hle : n ≤ c.nextBmp)
    (hknown : ∀ b ∈ bmps, b < n) (hs : ∀ b ∈ bmps, (c.bmp b).stopped = true)
    (hx : Extends c c') : Stopping n bmps c' :=
  ⟨hle.trans hx.nextBmp, .inr fun b hb =>
    (hx.stopped b ((hknown b hb).trans_le hle) (hs b hb)).1⟩

theorem Stopping.exit {n : ℕ} {bmps : List ℕ} (h : Stopping n bmps t.2)
    (hknown : ∀ b ∈ bmps, b < n) :
    wp (JobQueue.exit callbacks) (fun _ t' => Stopping n bmps t'.2)
      (fun _ t' => Stopping n bmps t'.2) t := by
  have hboth (t' : JobQueue × Controller) (hx : Extends t.2 t'.2)
      (hcount : t'.2.nextBmp = t.2.nextBmp) : Stopping n bmps t'.2 := by
    obtain hsame | hs := h.stopped
    · exact ⟨h.le.trans hcount.ge, .inl (hcount.trans hsame)⟩
    · exact .extends h.le hknown hs hx
  exact ((Extends.conducts.callable.exit.wp t).and (counting.callable.exit.wp t)).mono
    (fun _ t' ht => hboth t' ht.1 ht.2) fun _ t' ht => hboth t' ht.1 ht.2

theorem setMachines_stops {machines : Machines} (hdepth : 0 ≤ t.1.postpone)
    (hknown : ∀ b ∈ shutDown t.2 (.setMachines machines), b < t.2.nextBmp) :
    Stopping t.2.nextBmp (shutDown t.2 (.setMachines machines))
      (next t (.setMachines machines)).2 := by
  apply wp_same (m := setMachines machines)
    (I := fun t' => Stopping t.2.nextBmp (shutDown t.2 (.setMachines machines)) t'.2)
  simp only [Controller.setMachines, setMachinesWith, enter, wp_bind, wp_controller, wp_change, wp_ensuring]
  have hdeeper : 0 < t.1.postpone + 1 := by omega
  apply ((removeMachines_collects (t := ({ t.1 with postpone := t.1.postpone + 1 }, t.2)) hdeeper
    (t.2.nameOrder.nodup _)).and ((counting.removeMachines _).wp _)).mono
  · intro bmps t₁ ht₁
    obtain ⟨hcollected, hcount⟩ := ht₁
    have hstopped (b : ℕ) (hb : b ∈ shutDown t.2 (.setMachines machines)) :
        ((t₁.2.stopped bmps).bmp b).stopped = true := by
      obtain ⟨name, hname, hb⟩ := mem_shutDown.mp hb
      have hmem : b ∈ bmps := hcollected name hname b hb
      change (if b ∈ bmps then _ else _ : AsyncBmpController).stopped = true
      rw [if_pos hmem]
      rfl
    have hle : t.2.nextBmp ≤ (t₁.2.stopped bmps).nextBmp := hcount.ge
    have hexit (t₂ : JobQueue × Controller) (hx : Extends (t₁.2.stopped bmps) t₂.2) :=
      (Stopping.extends hle hknown hstopped hx).exit hknown
    rw [wp_bind, wp_adjust]
    apply ((reassigning_extends _ _ _ _).wp (t₁.1, t₁.2.stopped bmps)).mono
    · intro _ t₂ hx
      apply (hexit t₂ hx).mono _ fun _ _ ht => ht
      intro _ t₃ ht
      rw [wp_adjust]
      exact ⟨ht.le, ht.stopped⟩
    · exact fun _ t₂ hx => hexit t₂ hx
  · intro e t₁ ht₁
    have hnone : Stopping t.2.nextBmp (shutDown t.2 (.setMachines machines)) t₁.2 :=
      ⟨ht₁.2.ge, .inl ht₁.2⟩
    exact hnone.exit hknown

theorem operation_stops (op : Operation) (hdepth : 0 ≤ t.1.postpone)
    (hknown : ∀ name controllers, t.2.bmpControllers.get? name = some controllers →
      ∀ b ∈ controllers.values, b < t.2.nextBmp) :
    (∀ b ∈ shutDown t.2 op, b < t.2.nextBmp) ∧ ((next t op).2.nextBmp = t.2.nextBmp ∨
      ∀ b ∈ shutDown t.2 op, ((next t op).2.bmp b).stopped = true) := by
  cases op with
  | setMachines machines =>
    have hlt (b : ℕ) (hb : b ∈ shutDown t.2 (.setMachines machines)) : b < t.2.nextBmp := by
      obtain ⟨name, _, hb⟩ := mem_shutDown.mp hb
      unfold controllersOf at hb
      cases hc : t.2.bmpControllers.get? name with
      | none =>
        rw [hc] at hb
        cases hb
      | some controllers =>
        rw [hc] at hb
        exact hknown name controllers hc b hb
    exact ⟨hlt, (setMachines_stops hdepth hlt).stopped⟩
  | _ => exact ⟨fun _ hb => absurd hb List.not_mem_nil, .inr fun _ hb => absurd hb List.not_mem_nil⟩

/-- A thread is only past its start if those that it joins have returned. All of them are older,
and are told to stop. -/
structure Joining (u : Threaded) : Prop where
  told : ∀ b < u.tables.2.nextBmp, ∀ b' ∈ u.joined b,
    b' < b ∧ (u.tables.2.bmp b').stopped = true
  ended : ∀ b, u.position b ≠ .starting → ∀ b' ∈ u.joined b, u.position b' = .returned

theorem returned_of_ended {p : Position} (h : ended p = true) (hp : p ≠ .crashed) :
    p = .returned := by
  cases p
  case returned => rfl
  case crashed => exact absurd rfl hp
  all_goals cases h

structure Moves (b : ℕ) (u u' : Threaded) : Prop where
  joined : u'.joined = u.joined
  others : ∀ b', b' ≠ b → u'.position b' = u.position b'
  going : u.position b ≠ .returned
  waited : u.position b = .starting → ∀ b' ∈ u.joined b, ended (u.position b') = true
  nextBmp : u'.tables.2.nextBmp = u.tables.2.nextBmp
  stopped : ∀ b' < u.tables.2.nextBmp, (u.tables.2.bmp b').stopped = true →
    (u'.tables.2.bmp b').stopped = true

theorem stopped_update {bmp : ℕ → AsyncBmpController} {k : AsyncBmpController} {b' : ℕ}
    (hk : (bmp b).stopped = true → k.stopped = true) (hs : (bmp b').stopped = true) :
    (Function.update bmp b k b').stopped = true := by
  rw [Function.update_apply]
  split
  · next heq =>
    rw [heq] at hs
    exact hk hs
  · exact hs

namespace Moves

theorem of_position {p : Position} (hj : u'.joined = u.joined)
    (hp : u'.position = Function.update u.position b p) (hgoing : u.position b ≠ .returned)
    (hstart : u.position b ≠ .starting) (hn : u'.tables.2.nextBmp = u.tables.2.nextBmp)
    (hs : ∀ b' < u.tables.2.nextBmp, (u.tables.2.bmp b').stopped = true →
      (u'.tables.2.bmp b').stopped = true) : Moves b u u' where
  joined := hj
  others b' hne := by rw [hp, Function.update_of_ne hne]
  going := hgoing
  waited heq := absurd heq hstart
  nextBmp := hn
  stopped := hs

theorem worked (hturn : u.worked b = some u') : Moves b u u' := by
  unfold Threaded.worked at hturn
  split at hturn
  case h_1 hb =>
    split at hturn
    · next hended =>
      obtain rfl := Option.some.inj hturn
      exact ⟨rfl, fun b' hne => Function.update_of_ne hne _ _, by rw [hb]; nofun, fun _ => hended,
        rfl, fun _ _ hs => hs⟩
    · cases hturn
  case h_2 hb =>
    split at hturn
    · obtain rfl := Option.some.inj hturn
      exact of_position rfl rfl (by rw [hb]; nofun) (by rw [hb]; nofun) rfl fun _ _ hs => hs
    · cases hturn
  case h_3 hb =>
    split at hturn
    all_goals
      obtain rfl := Option.some.inj hturn
      exact of_position rfl rfl (by rw [hb]; nofun) (by rw [hb]; nofun) rfl fun _ _ hs => hs
  case h_4 hb =>
    obtain rfl := Option.some.inj hturn
    unfold Threaded.popped
    split
    · exact of_position rfl rfl (by rw [hb]; nofun) (by rw [hb]; nofun) rfl fun _ _ hs => hs
    · exact of_position rfl rfl (by rw [hb]; nofun) (by rw [hb]; nofun) rfl fun _ _ hs =>
        stopped_update id hs
  case h_5 => cases hturn
  case h_6 hb =>
    obtain rfl := Option.some.inj hturn
    unfold Threaded.closed
    split
    all_goals
      exact of_position rfl rfl (by rw [hb]; nofun) (by rw [hb]; nofun) rfl fun _ _ hs => hs
  case h_7 => cases hturn
  case h_8 hb =>
    obtain rfl := Option.some.inj hturn
    exact of_position rfl rfl (by rw [hb]; nofun) (by rw [hb]; nofun) rfl fun _ _ hs =>
      stopped_update (fun _ => rfl) hs
  case h_9 => cases hturn

theorem called {r : AtomicRequests} {success : Bool} {reason : Option String} {p : Position}
    (hb : u.position b = .processing r) :
    Moves b u ((u.called r success reason).2.moved b p) := by
  rw [called_eq]
  have hcount := counting.bmpOnRequestComplete r.onDone success reason u.tables
  have hx := Extends.conducts.bmpOnRequestComplete r.onDone success reason u.tables
  exact of_position rfl rfl (by rw [hb]; nofun) (by rw [hb]; nofun) hcount fun b' hlt hs =>
    (hx.stopped b' hlt hs).1

theorem attempted (h : Going u) {success : Bool} (hturn : u.attempted b success = some u') :
    Moves b u u' := by
  obtain ⟨r, hb, ⟨-, -, rfl⟩ | ⟨-, rfl⟩⟩ := h.attempt_cases hturn
  · exact ⟨rfl, fun _ _ => rfl, by rw [hb]; nofun, fun hs => absurd (hb.symm.trans hs) nofun, rfl,
      fun _ _ hs => hs⟩
  · exact called hb

theorem joining (h : Moves b u u') (hg : Going u) (hj : Joining u) : Joining u' where
  told b₁ hb₁ b₂ hb₂ := by
    rw [h.nextBmp] at hb₁
    rw [h.joined] at hb₂
    obtain ⟨hlt, hs⟩ := hj.told b₁ hb₁ b₂ hb₂
    exact ⟨hlt, h.stopped b₂ (hlt.trans hb₁) hs⟩
  ended b₁ hp b₂ hb₂ := by
    rw [h.joined] at hb₂
    have hreturned : u.position b₂ = .returned := by
      by_cases hstart : u.position b₁ = .starting
      · obtain rfl : b₁ = b := by
          by_contra hne
          exact hp ((h.others b₁ hne).trans hstart)
        exact returned_of_ended (h.waited hstart b₂ hb₂) (hg.running b₂).2
      · exact hj.ended b₁ hstart b₂ hb₂
    have hne : b₂ ≠ b := by
      rintro rfl
      exact h.going hreturned
    exact (h.others b₂ hne).trans hreturned

end Moves

namespace Joining

theorem operated (h : Joining u) (hg : Going u) {op : Operation}
    (hop : ∀ b success, op ≠ .complete b success) : Joining (u.operated op) where
  told b hb b' hb' := by
    have hdepth : 0 ≤ u.tables.1.postpone := hg.serving.roster.postpone.ge
    obtain ⟨hlt, hstops⟩ := operation_stops op hdepth hg.serving.tally.known
    have hx : Extends u.tables.2 (next u.tables op).2 :=
      Extends.conducts.exec Extends.creates hop u.tables
    change b < (next u.tables op).2.nextBmp at hb
    change b' ∈ if u.tables.2.nextBmp ≤ b then shutDown u.tables.2 op else u.joined b at hb'
    split at hb'
    · next hnew =>
      obtain hsame | hs := hstops
      · omega
      · exact ⟨(hlt b' hb').trans_le hnew, hs b' hb'⟩
    · next hold =>
      obtain ⟨hless, hs⟩ := h.told b (not_le.mp hold) b' hb'
      exact ⟨hless, (hx.stopped b' (hless.trans (not_le.mp hold)) hs).1⟩
  ended b hp b' hb' := by
    have hlt : b < u.tables.2.nextBmp := hg.lt hp
    change b' ∈ if u.tables.2.nextBmp ≤ b then shutDown u.tables.2 op else u.joined b at hb'
    rw [if_neg (not_le.mpr hlt)] at hb'
    exact h.ended b hp b' hb'

theorem turn (h : Joining u) (hg : Going u) (hturn : u.turn a = some u') : Joining u' := by
  cases a with
  | operate op =>
    obtain ⟨hop, rfl⟩ := Going.turn_operate.mp hturn
    exact h.operated hg hop
  | work b =>
    unfold Threaded.turn at hturn
    dsimp only at hturn
    split at hturn
    · exact (Moves.worked hturn).joining hg h
    · cases hturn
  | attempt b success => exact (Moves.attempted hg hturn).joining hg h

end Joining

theorem reachable_joining (hok : ∀ t op, ok t op → Served t op)
    (h : (threadsWith s ok).Reachable u) : Joining u := by
  apply h.invariant
  · rintro _ rfl
    exact ⟨fun _ _ _ hb' => absurd hb' List.not_mem_nil, fun _ hp => absurd rfl hp⟩
  · intro u a u' hr hu hstep
    exact hu.turn (reachable_going hok hr) hstep.2

/-- Whatever the order in which clients and threads take their turns, a BMP controller carries out
no request, and has carried out none, unless those that it replaces have carried out all of theirs
and have ended. Each of them is older and is told to stop, so that no two wait for one another. -/
theorem threads_hand_over (hok : ∀ t op, ok t op → Served t op)
    (h : (threadsWith s ok).Reachable u) (hb : b < u.tables.2.nextBmp) {b' : ℕ}
    (hb' : b' ∈ u.joined b) :
    b' < b ∧ (u.tables.2.bmp b').stopped = true ∧
      (u.position b ≠ .starting →
        u.position b' = .returned ∧ (u.merged.2.bmp b').requests = []) := by
  have hg := reachable_going hok h
  have hj := reachable_joining hok h
  obtain ⟨hlt, hs⟩ := hj.told b hb b' hb'
  refine ⟨hlt, hs, fun hstart => ?_⟩
  have hreturned := hj.ended b hstart b' hb'
  refine ⟨hreturned, ?_⟩
  change (u.position b').request ++ (u.tables.2.bmp b').requests = []
  rw [hreturned, (hg.returned b' hreturned).2]
  rfl

def renamed : Machines where
  dict := Dict.empty.set "n" (.ofBoard "n" {"default"} "bmp" "board")
  named name machine h := by
    rw [Dict.get?_set] at h
    split at h
    · next hn =>
      cases h
      exact hn
    · cases h

def handingOver : List Action :=
  [.operate (.setMachines oneBoard), .operate (.setMachines renamed), .work 0, .work 0, .work 0,
    .work 0, .work 1]

theorem reachable_handingOver :
    (threadsWith .quiet Served).Reachable ((Threaded.start .quiet).after handingOver) := by
  have hsized : (Operation.setMachines renamed).Assigns Sized := by
    intro name new hnew
    change (Dict.empty.set "n" _).get? name = some new at hnew
    rw [Dict.get?_set] at hnew
    split at hnew
    · cases hnew
      exact ⟨le_rfl, le_rfl⟩
    · cases hnew
  apply reachable_after (.start rfl)
  refine ⟨⟨⟨⟨nofun, sized_oneBoard, fun _ _ _ hold => ?_⟩, trivial⟩, ?_⟩,
    ⟨⟨⟨nofun, hsized, fun name old new hold hnew => ?_⟩, trivial⟩, ?_⟩, ⟨trivial, ?_⟩,
    ⟨trivial, ?_⟩, ⟨trivial, ?_⟩, ⟨trivial, ?_⟩, ⟨trivial, ?_⟩, trivial⟩
  · cases hold
  · decide +kernel
  · change (Dict.empty.set "n" _).get? name = some new at hnew
    rw [Dict.get?_set] at hnew
    split at hnew
    · next hname =>
      have hnone : ((next Setup.quiet.start (.setMachines oneBoard)).2.machines.get? "n").isSome =
          false := by decide +kernel
      change (next Setup.quiet.start (.setMachines oneBoard)).2.machines.get? name = some old at hold
      rw [← hname] at hold
      rw [hold] at hnone
      cases hnone
    · cases hnew
  all_goals decide +kernel

theorem threads_hand_over_handingOver :
    ((Threaded.start .quiet).after handingOver).position 1 = .waiting ∧
      ((Threaded.start .quiet).after handingOver).position 0 = .returned := by
  have hcreated : 1 < ((Threaded.start .quiet).after handingOver).tables.2.nextBmp := by
    decide +kernel
  have hjoined : 0 ∈ ((Threaded.start .quiet).after handingOver).joined 1 := by decide +kernel
  have hwaiting : ((Threaded.start .quiet).after handingOver).position 1 = .waiting := by rfl
  obtain ⟨-, -, hover⟩ :=
    threads_hand_over (fun _ _ h => h) reachable_handingOver hcreated hjoined
  exact ⟨hwaiting, (hover (by rw [hwaiting]; nofun)).1⟩

end SpallocServer.Controller
