import Mathlib.Data.Prod.Lex
import Mathlib.Order.WellFounded
import SpallocServer.Controller.Joining

namespace SpallocServer.Controller

open Foundation Prog JobQueue AsyncBmpController

variable {q q' : JobQueue} {c c' : Controller} {t : JobQueue × Controller} {s : Setup} {b id : ℕ}
  {depth : ℤ} {debt : ℕ → ℕ} {bound : ℕ} {left : ℕ → List AtomicRequests} {u u' : Threaded}
  {ok : JobQueue × Controller → Operation → Prop}

def unstarted (q : JobQueue) : Finset ℕ :=
  (Finset.range q.nextJob).filter fun j => (q.job j).pending

def load (t : JobQueue × Controller) : ℕ := t.2.jobs.length + (unstarted t.1).card

theorem unstarted_congr (hj : q'.job = q.job) (hn : q'.nextJob = q.nextJob) :
    unstarted q' = unstarted q := by
  unfold unstarted
  rw [hj, hn]

theorem unstarted_placed {j m a : ℕ} (hj : j < q.nextJob) (hp : (q.job j).pending = true) :
    (unstarted (q.placed j m a)).card < (unstarted q).card := by
  apply Finset.card_lt_card
  rw [Finset.ssubset_iff_of_subset]
  · refine ⟨j, Finset.mem_filter.mpr ⟨Finset.mem_range.mpr hj, hp⟩, fun hin => ?_⟩
    have hpending : ((q.placed j m a).job j).pending = true := (Finset.mem_filter.mp hin).2
    unfold placed at hpending
    rw [job_setJob_self] at hpending
    cases hpending
  · intro i hi
    obtain ⟨hrange, hpending⟩ := Finset.mem_filter.mp hi
    refine Finset.mem_filter.mpr ⟨hrange, ?_⟩
    by_cases heq : i = j
    · rw [heq]
      exact hp
    · unfold placed at hpending
      rwa [job_setJob_ne heq] at hpending

theorem length_retired {reason : Option String} (hid : id ∈ c.jobs) :
    (c.retired id reason).jobs.length < c.jobs.length := by
  change (c.jobs.filter (· ≠ id)).length < _
  rw [List.length_filter_lt_length_iff_exists]
  exact ⟨id, hid, by simp⟩

def Spent (bound : ℕ) (left : ℕ → List AtomicRequests) (t : JobQueue × Controller) : Prop :=
  load t < bound ∨ load t = bound ∧ ∀ b, (t.2.bmp b).requests = left b

theorem Spent.le (h : Spent bound left t) : load t ≤ bound := by
  obtain h | h := h
  · exact h.le
  · exact h.1.le

theorem Spent.congr (h : Spent bound left (q, c)) (hq : q'.job = q.job)
    (hn : q'.nextJob = q.nextJob) (hj : c'.jobs = c.jobs) (hb : c'.bmp = c.bmp) :
    Spent bound left (q', c') := by
  unfold Spent load at h ⊢
  dsimp only at h ⊢
  rw [unstarted_congr hq hn, hj, hb]
  exact h

theorem spent_process (debt : ℕ → ℕ) (depth : ℤ) (bound : ℕ) (left : ℕ → List AtomicRequests) :
    ProcessRules callbacks (fun t => Serving Allocator.Robust debt depth t ∧ Spent bound left t)
      fun _ _ => False where
  alloc q c m j rest h hh hp := by
    apply ((serving_steps Allocator.sound_robust debt depth).alloc q c m j rest h.1 hh hp).mono _ fun _ _ hf => hf
    intro res a hres
    cases res with
    | none => exact ⟨hres, h.2.congr rfl rfl rfl rfl⟩
    | some al =>
      apply (hres.and onAllocate_touches).mono _ fun _ _ hf => hf.1
      intro _ c' hc
      obtain ⟨hserving, ht⟩ := hc
      refine ⟨hserving, .inl ?_⟩
      have hj : j < q.nextJob := by
        have hlinked := h.1.roster.linked
        exact (hlinked.ids _ j (hlinked.known j hp)).2
      have hless := unstarted_placed (q := q.setAllocator m a) (m := m) (a := al.id) hj hp
      have hle := h.2.le
      have hsame : unstarted (q.setAllocator m a) = unstarted q := unstarted_congr rfl rfl
      unfold load at hle ⊢
      dsimp only at hle ⊢
      rw [ht.jobs]
      rw [hsame] at hless
      omega
  skip q c m j rest h hh hp :=
    ⟨(serving_steps Allocator.sound_robust debt depth).skip q c m j rest h.1 hh hp, h.2.congr rfl rfl rfl rfl⟩

theorem spent_popped {r : AtomicRequests} {rest : List AtomicRequests}
    (hr : (c.bmp b).requests = r :: rest) :
    Spent (load (q, c)) (fun b' => if b' = b then rest else (c.bmp b').requests)
      (q, c.setBmp b (c.bmp b).popped) := by
  refine .inr ⟨rfl, fun b' => ?_⟩
  change (Function.update c.bmp b (c.bmp b).popped b').requests =
    if b' = b then rest else (c.bmp b').requests
  rw [Function.update_apply]
  by_cases hb : b' = b
  · rw [if_pos hb, if_pos hb]
    unfold AsyncBmpController.popped
    rw [hr]
    rfl
  · rw [if_neg hb, if_neg hb]

namespace Serving

theorem destroyJob_spent {reason : Option String} (h : Serving Allocator.Robust (owing id) depth t)
    (hs : Spent bound left t) :
    wp (Controller.destroyJob id reason)
      (fun _ t => Serving Allocator.Robust (owing id) depth t ∧ Spent bound left t) (fun _ _ => False) t := by
  obtain ⟨q, c⟩ := t
  have hwaits : 1 ≤ (c.job id).bmpRequestsUntilReady := owing_waits h.tally.toCounted
  have hids := h.roster.indexed.ids
  have hne : (c.job id).bmpRequestsUntilReady ≠ 0 := by omega
  have hmachine : (c.job id).allocatedMachine ≠ none := h.employed id hne
  simp only [Controller.destroyJob, wp_bind, wp_controller]
  split
  · next hid =>
    apply destroyJob_wp (I := fun t => Serving Allocator.Robust (owing id) depth t ∧ Spent bound left t)
    · exact fun t ht => processQueue_wp (q := t.1) (w := t.2) (spent_process _ _ _ _) ht
    · intro hnone
      obtain ⟨j, hj⟩ := h.known_of_allocated hid hmachine
      rw [hnone] at hj
      cases hj
    · intro j hj hp
      have hb := (h.roster.pending j hp).2
      dsimp only at hb
      rw [hids id j hj] at hb
      exact absurd hb ((h.furnished.boards id).mpr hmachine)
    · intro j hj hp
      rw [hids id j hj]
      apply (((serving_steps Allocator.sound_robust _ _).freed q c id j reason h hid hj hp).and onFree_retires).mono _
        fun _ _ hf => hf.1
      intro _ c' hc
      obtain ⟨hserving, names, ht⟩ := hc
      refine ⟨hserving, .inl ?_⟩
      have hless : (Controller.retired { c with changedMachines := names } id reason).jobs.length <
          c.jobs.length := length_retired hid
      have hle := hs.le
      unfold load at hle ⊢
      dsimp only at hle hless ⊢
      rw [ht.jobs]
      omega
  · exact ⟨h, hs⟩

/-- A completed request is taken away, and if there are others instead, then fewer jobs can be
started or ended. -/
theorem complete_spent {success : Bool} {r : AtomicRequests} {rest : List AtomicRequests}
    (h : Serving Allocator.Robust settled depth t) (hr : (t.2.bmp b).requests = r :: rest) :
    wp (Controller.complete b success)
      (fun _ => Spent (load t) fun b' => if b' = b then rest else (t.2.bmp b').requests)
      (fun _ _ => False) t := by
  obtain ⟨q, c⟩ := t
  apply complete_wp
  · intro hnil
    dsimp only at hr
    rw [hnil] at hr
    cases hr
  intro r' rest' hr'
  dsimp only at hr
  rw [hr'] at hr
  obtain ⟨rfl, rfl⟩ := List.cons.inj hr
  let Spends := Spent (load (q, c)) fun b' => if b' = b then rest' else (c.bmp b').requests
  have hpopped : Spends (q, c.setBmp b (c.bmp b).popped) := spent_popped hr'
  apply (bmpOnRequestComplete_wp (J := fun t => Serving Allocator.Robust (owing r'.onDone) depth t ∧ Spends t)
    (I := fun t => Serving Allocator.Robust settled depth t ∧ Spends t)
    ⟨h.popped hr', hpopped⟩ ?_ ?_ ?_ ?_ ?_).mono (fun _ _ ht => ht.2) fun _ _ hf => hf
  · exact fun _ reason t ht => ht.1.destroyJob_spent ht.2
  · intro q c ht hneg
    have hwaits : 1 ≤ (c.job r'.onDone).bmpRequestsUntilReady := owing_waits ht.1.tally.toCounted
    omega
  · exact fun q c ht _ => ⟨ht.1.uncounted, ht.2.congr rfl rfl rfl rfl⟩
  · intro q c ht _
    have hready : Spends (q, (c.uncounted r'.onDone).readied r'.onDone) :=
      ht.2.congr rfl rfl rfl rfl
    apply freeRetired_wp
    · exact fun _ => ⟨ht.1.readied, hready⟩
    · intro hretired
      have hgone := ht.1.roster.gone _ hretired
      apply ht.1.readied.roster.free_wp hgone (K := fun t => Serving Allocator.Robust settled depth t ∧ Spends t)
      · exact fun t ht => processQueue_wp (q := t.1) (w := t.2) (spent_process _ _ _ _) ht
      · exact fun _ => ⟨ht.1.readied, hready⟩
      · exact fun j m a after hj hh hm hrun =>
          ⟨ht.1.readied.freed hgone hj hh hm hrun, hready.congr rfl rfl rfl rfl⟩
  · exact fun q c ids ht => ⟨ht.1.seen ids, ht.2.congr rfl rfl rfl rfl⟩

end Serving

/-- A step of a thread. -/
def Ticks (u u' : Threaded) : Prop :=
  ∃ b, u.turn (.work b) = some u' ∨ ∃ success, u.turn (.attempt b success) = some u'

namespace Threaded

def steps (u : Threaded) (b : ℕ) : ℕ :=
  let idle := decide ((u.tables.2.bmp b).requests = [])
  match u.position b with
  | .starting => nRequestTries + 5
  | .closing => if idle then 1 else nRequestTries + 4
  | .waiting => if u.event b then (if idle then 3 else nRequestTries + 3) else 0
  | .woken => if idle then 2 else nRequestTries + 2
  | .popping => nRequestTries + 1
  | .processing _ => nRequestTries - u.tries b
  | .failing => 1
  | .returned => 0
  | .crashed => 0

/-- Requests that are not completed. -/
def pending (u : Threaded) : ℕ :=
  ∑ b ∈ Finset.range u.tables.2.nextBmp, (u.merged.2.bmp b).requests.length

def rank (u : Threaded) : ℕ ×ₗ ℕ ×ₗ ℕ :=
  toLex (load u.merged, toLex (u.pending,
    ∑ b ∈ Finset.range u.tables.2.nextBmp, u.steps b))

end Threaded

theorem sum_lt_of_one {f g : ℕ → ℕ} {n : ℕ} (hb : b < n) (hlt : f b < g b)
    (hother : ∀ b', b' ≠ b → f b' = g b') :
    ∑ b ∈ Finset.range n, f b < ∑ b ∈ Finset.range n, g b := by
  apply Finset.sum_lt_sum
  · intro b' _
    by_cases heq : b' = b
    · rw [heq]
      exact hlt.le
    · exact (hother b' heq).le
  · exact ⟨b, Finset.mem_range.mpr hb, hlt⟩

theorem rank_stepped (hm : u'.merged = u.merged) (hb : b < u.tables.2.nextBmp)
    (hlt : u'.steps b < u.steps b) (hother : ∀ b', b' ≠ b → u'.steps b' = u.steps b') :
    u'.rank < u.rank := by
  have hn : u'.tables.2.nextBmp = u.tables.2.nextBmp := congrArg (fun t => t.2.nextBmp) hm
  have hpending : u'.pending = u.pending := by
    unfold Threaded.pending
    rw [hm, hn]
  unfold Threaded.rank
  rw [hm, hpending, hn]
  exact Prod.Lex.right _ (Prod.Lex.right _ (sum_lt_of_one hb hlt hother))

theorem steps_other {p : Position} {b' : ℕ} (hne : b' ≠ b)
    (hp : u'.position = Function.update u.position b p)
    (hr : (u'.tables.2.bmp b').requests = (u.tables.2.bmp b').requests)
    (he : u'.event b' = u.event b') (ht : u'.tries b' = u.tries b') : u'.steps b' = u.steps b' := by
  unfold Threaded.steps
  rw [hp, Function.update_of_ne hne, hr, he, ht]

theorem steps_waiting (hp : u.position b = .waiting) : u.steps b ≤ nRequestTries + 3 := by
  unfold Threaded.steps
  rw [hp]
  dsimp only
  split
  · split <;> omega
  · omega

theorem moved_position (p : Position) : (u.moved b p).position b = p :=
  Function.update_self _ _ _

theorem rank_moved {p : Position} (hm : (u.moved b p).merged = u.merged)
    (hb : b < u.tables.2.nextBmp) (hlt : (u.moved b p).steps b < u.steps b) :
    (u.moved b p).rank < u.rank :=
  rank_stepped hm hb hlt fun _ hne => steps_other hne rfl rfl rfl rfl

theorem popped_rank (hm : (u.popped b).merged = u.merged) (hlt : b < u.tables.2.nextBmp)
    (hb : u.position b = .popping) (hne : (u.tables.2.bmp b).requests ≠ []) :
    (u.popped b).rank < u.rank := by
  unfold Threaded.popped at hm ⊢
  split
  · next hnil => exact absurd hnil hne
  next r rest hreq =>
  rw [hreq] at hm
  refine rank_stepped hm hlt ?_ fun b' hne => steps_other hne rfl ?_ rfl ?_
  · unfold Threaded.steps
    dsimp only
    rw [moved_position, hb]
    dsimp only
    rw [Function.update_self]
    omega
  · change (Function.update u.tables.2.bmp b _ b').requests = _
    rw [Function.update_of_ne hne]
  · exact Function.update_of_ne hne _ _

theorem closed_rank (hm : (u.closed b).merged = u.merged) (hlt : b < u.tables.2.nextBmp)
    (hb : u.position b = .closing) : (u.closed b).rank < u.rank := by
  unfold Threaded.closed at hm ⊢
  split
  · next hnil =>
    rw [if_pos hnil] at hm
    refine rank_stepped hm hlt ?_ fun b' hne => steps_other hne rfl rfl ?_ rfl
    · unfold Threaded.steps
      dsimp only
      rw [moved_position, hb]
      dsimp only
      rw [if_pos (decide_eq_true hnil)]
      by_cases hs : (u.tables.2.bmp b).stopped = true
      · rw [if_pos hs]
        exact Nat.one_pos
      · rw [if_neg hs]
        have hcleared : ¬Function.update u.event b false b = true := by
          rw [Function.update_self]
          exact Bool.false_ne_true
        exact lt_of_eq_of_lt (if_neg hcleared) Nat.one_pos
    · exact Function.update_of_ne hne _ _
  · next hne =>
    rw [if_neg hne] at hm
    refine rank_moved hm hlt ?_
    have hbefore : u.steps b = nRequestTries + 4 := by
      unfold Threaded.steps
      rw [hb]
      dsimp only
      rw [if_neg (by simpa using hne)]
    have hafter := steps_waiting (moved_position (u := u) (b := b) .waiting)
    omega

theorem worked_rank (h : Going u) (hlt : b < u.tables.2.nextBmp) (hturn : u.worked b = some u') :
    u'.rank < u.rank := by
  obtain ⟨-, hm⟩ := h.worked hlt hturn
  unfold Threaded.worked at hturn
  split at hturn
  case h_1 hb =>
    split at hturn
    · obtain rfl := Option.some.inj hturn
      refine rank_moved hm hlt ?_
      have hbefore : u.steps b = nRequestTries + 5 := by
        unfold Threaded.steps
        rw [hb]
      have hafter := steps_waiting (moved_position (u := u) (b := b) .waiting)
      omega
    · cases hturn
  case h_2 hb =>
    split at hturn
    · next hevent =>
      obtain rfl := Option.some.inj hturn
      refine rank_moved hm hlt ?_
      unfold Threaded.steps
      rw [moved_position, hb]
      dsimp only
      rw [if_pos hevent]
      change (if decide ((u.tables.2.bmp b).requests = []) = true then 2 else nRequestTries + 2) < _
      split <;> omega
    · cases hturn
  case h_3 hb =>
    split at hturn
    · next hnil =>
      obtain rfl := Option.some.inj hturn
      refine rank_moved hm hlt ?_
      unfold Threaded.steps
      rw [moved_position, hb]
      dsimp only
      rw [if_pos (decide_eq_true hnil)]
      change (if decide ((u.tables.2.bmp b).requests = []) = true then 1 else nRequestTries + 4) < _
      rw [if_pos (decide_eq_true hnil)]
      omega
    · next hne =>
      obtain rfl := Option.some.inj hturn
      refine rank_moved hm hlt ?_
      unfold Threaded.steps
      rw [moved_position, hb]
      dsimp only
      rw [if_neg (by simpa using hne)]
      omega
  case h_4 hb =>
    obtain rfl := Option.some.inj hturn
    exact popped_rank hm hlt hb (h.popping b hb)
  case h_5 => cases hturn
  case h_6 hb =>
    obtain rfl := Option.some.inj hturn
    exact closed_rank hm hlt hb
  case h_7 => cases hturn
  case h_8 hb => exact absurd hb (h.running b).1
  case h_9 => cases hturn

theorem rank_spent {r : AtomicRequests} {rest : List AtomicRequests}
    (hn : u'.tables.2.nextBmp = u.tables.2.nextBmp) (hb : b < u.tables.2.nextBmp)
    (hreq : (u.merged.2.bmp b).requests = r :: rest)
    (hs : Spent (load u.merged)
      (fun b' => if b' = b then rest else (u.merged.2.bmp b').requests) u'.merged) :
    u'.rank < u.rank := by
  unfold Threaded.rank
  obtain hless | ⟨hsame, hleft⟩ := hs
  · exact Prod.Lex.left _ _ hless
  rw [hsame]
  refine Prod.Lex.right _ (Prod.Lex.left _ _ ?_)
  unfold Threaded.pending
  rw [hn]
  apply sum_lt_of_one hb
  · rw [hleft b]
    dsimp only
    rw [if_pos rfl, hreq]
    exact Nat.lt_succ_self _
  · intro b' hne
    rw [hleft b']
    dsimp only
    rw [if_neg hne]

theorem attempted_rank (h : Going u) {success : Bool} (hturn : u.attempted b success = some u') :
    u'.rank < u.rank := by
  obtain ⟨r, hb, hcases⟩ := h.attempt_cases hturn
  have hlt : b < u.tables.2.nextBmp := h.lt (by rw [hb]; nofun)
  obtain ⟨-, htries, rfl⟩ | ⟨-, rfl⟩ := hcases
  · refine rank_stepped rfl hlt ?_ fun b' hne => ?_
    · unfold Threaded.steps
      dsimp only
      rw [hb]
      dsimp only
      rw [Function.update_self]
      omega
    · unfold Threaded.steps
      dsimp only
      rw [Function.update_of_ne hne]
  · have hmoves := (Moves.attempted h hturn).nextBmp
    obtain ⟨-, -, hmerged⟩ := h.called hb success
    have hreq : (u.merged.2.bmp b).requests = r :: (u.tables.2.bmp b).requests := by
      change (u.position b).request ++ _ = _
      rw [hb]
      rfl
    have hspent : wp (complete b success) (fun _ => Spent (load u.merged) fun b' =>
        if b' = b then (u.tables.2.bmp b).requests else (u.merged.2.bmp b').requests)
        (fun _ _ => False) u.merged := h.serving.complete_spent hreq
    obtain ⟨_, t, hrun, hspent⟩ := wp_returns hspent
    have hnext : next u.merged (.complete b success) = t := congrArg Prod.snd hrun
    rw [← hnext, ← hmerged] at hspent
    exact rank_spent hmoves hlt hreq hspent

theorem ticks_rank (h : Going u) (ht : Ticks u u') : Going u' ∧ u'.rank < u.rank := by
  obtain ⟨b, hwork | ⟨success, hattempt⟩⟩ := ht
  · have hgoing := h.turn (a := .work b) trivial hwork
    unfold Threaded.turn at hwork
    dsimp only at hwork
    split at hwork
    · next hlt => exact ⟨hgoing.1, worked_rank h hlt hwork⟩
    · cases hwork
  · exact ⟨(h.attempted hattempt).1, attempted_rank h hattempt⟩

/-- No thread can move. -/
def Rests (u : Threaded) : Prop := ∀ u', ¬Ticks u u'

namespace Rests

theorem worked (h : Rests u) (hb : b < u.tables.2.nextBmp) : u.worked b = none := by
  cases hw : u.worked b with
  | none => rfl
  | some u' =>
    refine absurd ⟨b, .inl ?_⟩ (h u')
    unfold Threaded.turn
    dsimp only
    rw [if_pos hb, hw]

/-- Threads wait, or have returned: one that has not started could, as those that it joins have
returned. -/
theorem position (h : Rests u) (hg : Going u) (hj : Joining u) (hb : b < u.tables.2.nextBmp) :
    u.position b = .waiting ∧ u.event b = false ∨ u.position b = .returned := by
  induction b using Nat.strong_induction_on with
  | _ b ih =>
    have hw := h.worked hb
    have hrunning := hg.running b
    unfold Threaded.worked at hw
    split at hw
    case h_1 hp =>
      refine absurd (fun b' hb' => ?_) (fun hall => by rw [if_pos hall] at hw; cases hw)
      obtain ⟨hless, hstopped⟩ := hj.told b hb b' hb'
      have hlt := hless.trans hb
      obtain ⟨hpos, hevent⟩ | hpos := ih b' hless hlt
      · have hset := hg.event b' hlt (by rw [hpos]; nofun) (.inr hstopped)
        rw [hevent] at hset
        cases hset
      · rw [hpos]
        rfl
    case h_2 hp =>
      split at hw
      · cases hw
      · next hevent => exact .inl ⟨hp, by simpa using hevent⟩
    case h_3 hp =>
      split at hw
      · cases hw
      · cases hw
    case h_4 => cases hw
    case h_5 r hp =>
      refine absurd ⟨b, .inr ⟨false, ?_⟩⟩ (h (u.retried b r))
      unfold Threaded.turn Threaded.attempted
      dsimp only
      rw [hp]
      rfl
    case h_6 => cases hw
    case h_7 hp => exact .inr hp
    case h_8 hp => exact absurd hp hrunning.1
    case h_9 hp => exact absurd hp hrunning.2

theorem requests (h : Rests u) (hg : Going u) (hj : Joining u) (b : ℕ) :
    (u.merged.2.bmp b).requests = [] := by
  change (u.position b).request ++ (u.tables.2.bmp b).requests = []
  by_cases hb : b < u.tables.2.nextBmp
  · obtain ⟨hp, hevent⟩ | hp := h.position hg hj hb
    · have hnil : (u.tables.2.bmp b).requests = [] := by
        by_contra hne
        have hset := hg.event b hb (by rw [hp]; nofun) (.inl hne)
        rw [hevent] at hset
        cases hset
      rw [hp, hnil]
      rfl
    · rw [hp, (hg.returned b hp).2]
      rfl
  · obtain ⟨hp, hnil⟩ := hg.idle b (not_lt.mp hb)
    rw [hp, hnil]
    rfl

end Rests

theorem Going.rests (h : Going u)
    (hidle : ∀ b < u.tables.2.nextBmp, u.worked b = none ∧ (u.position b).request = []) :
    Rests u := by
  rintro u' ⟨b, hwork | ⟨success, hattempt⟩⟩
  · unfold Threaded.turn at hwork
    dsimp only at hwork
    split at hwork
    · next hlt =>
      rw [(hidle b hlt).1] at hwork
      cases hwork
    · cases hwork
  · obtain ⟨r, hp, -⟩ := h.attempt_cases hattempt
    have hnone := (hidle b (h.lt (by rw [hp]; nofun))).2
    rw [hp] at hnone
    cases hnone

/-- Whatever the order in which threads take their turns and whatever the hardware answers, if
clients do nothing then threads come to rest. Then all requests are completed, the threads of BMP
controllers that are shut down have returned, and live jobs are queued or ready, if nothing that
clients did has raised. -/
theorem threads_settle (hok : ∀ t op, ok t op → Served t op)
    (h : (threadsWith s ok).Reachable u) :
    Acc (fun u' u => Ticks u u') u ∧ (Rests u →
      (∀ b, (u.merged.2.bmp b).requests = []) ∧
      (∀ b < u.tables.2.nextBmp, u.position b = .returned ↔ (u.tables.2.bmp b).stopped = true) ∧
      (∀ id, (u.tables.2.job id).bmpRequestsUntilReady = 0) ∧
      ((∀ t op, ok t op → Continues t op) → ∀ id ∈ u.tables.2.jobs,
        (u.tables.2.job id).state = .queued ∨ (u.tables.2.job id).state = .ready)) := by
  have hg := reachable_going hok h
  have hj := reachable_joining hok h
  refine ⟨System.acc_of_rank Threaded.rank (fun _ _ => ticks_rank) hg, fun hrests => ?_⟩
  have hnone := hrests.requests hg hj
  have hzero (id : ℕ) : (u.tables.2.job id).bmpRequestsUntilReady = 0 := by
    have hcount := hg.serving.tally.count id
    have hout : u.merged.2.outstanding id = 0 :=
      Finset.sum_eq_zero fun b _ => by rw [hnone b]; rfl
    rw [hout] at hcount
    exact hcount
  refine ⟨hnone, fun b hb => ⟨fun hp => (hg.returned b hp).1, fun hs => ?_⟩, hzero,
    fun hcontinues id hid => ?_⟩
  · obtain ⟨hp, hevent⟩ | hp := hrests.position hg hj hb
    · have hset := hg.event b hb (by rw [hp]; nofun) (.inr hs)
      rw [hevent] at hset
      cases hset
    · exact hp
  · have htracked := reachable_tracked ((reachable_merged hok h).mono hcontinues)
    cases htracked.live id hid with
    | queued j hj hp hboards hstate hidle => exact .inl hstate
    | placed j hj hp hboards hstate =>
      obtain ⟨hready, -⟩ | ⟨-, hwaits⟩ := hstate
      · exact .inr hready
      · exact absurd (hzero id) hwaits.ne'
    | stranded hlost => exact hlost.elim

def Accomplished (t : JobQueue × Controller) (op : Operation) : Prop := Served t op ∧ Returns t op

def poweredThread : List Action := poweringThread ++ [.attempt 0 true, .work 0]

theorem reachable_poweredThread :
    (threadsWith .quiet Accomplished).Reachable ((Threaded.start .quiet).after poweredThread) := by
  apply reachable_after (.start rfl)
  refine ⟨⟨⟨⟨⟨nofun, sized_oneBoard, fun _ _ _ hold => ?_⟩, ?_⟩, trivial⟩, ?_⟩,
    ⟨⟨⟨⟨nofun, trivial, trivial⟩, ?_⟩, trivial⟩, ?_⟩, ⟨trivial, ?_⟩, ⟨trivial, ?_⟩,
    ⟨trivial, ?_⟩, ⟨trivial, ?_⟩, ⟨⟨⟨⟨nofun, trivial, trivial⟩, ?_⟩, trivial⟩, ?_⟩,
    ⟨trivial, ?_⟩, trivial⟩
  · cases hold
  all_goals decide +kernel

theorem threads_settle_poweredThread :
    Acc (fun u' u => Ticks u u') ((Threaded.start .quiet).after poweringThread) ∧
      Rests ((Threaded.start .quiet).after poweredThread) ∧
      1 ∈ ((Threaded.start .quiet).after poweredThread).tables.2.jobs ∧
      ∀ id ∈ ((Threaded.start .quiet).after poweredThread).tables.2.jobs,
        (((Threaded.start .quiet).after poweredThread).tables.2.job id).state = .queued ∨
          (((Threaded.start .quiet).after poweredThread).tables.2.job id).state = .ready := by
  have hserved (t : JobQueue × Controller) (op : Operation) (h : Accomplished t op) : Served t op :=
    h.1
  have hrests : Rests ((Threaded.start .quiet).after poweredThread) := by
    apply (reachable_going hserved reachable_poweredThread).rests
    have hone : ((Threaded.start .quiet).after poweredThread).tables.2.nextBmp = 1 := by
      decide +kernel
    have hnone : (((Threaded.start .quiet).after poweredThread).worked 0).isNone = true := by
      decide +kernel
    have hidle :
        (((Threaded.start .quiet).after poweredThread).position 0).request.isEmpty = true := by
      decide +kernel
    intro b hb
    rw [hone, Nat.lt_one_iff] at hb
    rw [hb]
    exact ⟨Option.isNone_iff_eq_none.mp hnone, List.isEmpty_iff.mp hidle⟩
  obtain ⟨hends, -⟩ := threads_settle (fun _ _ h => h) reachable_poweringThread
  obtain ⟨-, hsettled⟩ := threads_settle hserved reachable_poweredThread
  exact ⟨hends, hrests, by decide +kernel,
    (hsettled hrests).2.2.2 fun _ _ h => ⟨h.2, h.1.1⟩⟩

end SpallocServer.Controller
