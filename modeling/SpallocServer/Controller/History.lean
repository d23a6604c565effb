import SpallocServer.Controller.Causes
import SpallocServer.Controller.Counter
import SpallocServer.Foundation.Journal

namespace SpallocServer.Controller

open Foundation Prog JobQueue

variable {c c' c'' : Controller} {t : JobQueue × Controller} {id : ℕ}

/-- Whose job it is and how long it may go without being kept alive is settled when it is created,
and where it runs is settled once. A job that has been started is not queued again. -/
structure Follows (job job' : Job) : Prop where
  owner : job'.owner = job.owner
  startTime : job'.startTime = job.startTime
  patience : job'.keepalive.map (·.keepalive) = job.keepalive.map (·.keepalive)
  machine : job.boards ≠ none → job'.allocatedMachine = job.allocatedMachine
  boards : job.boards ≠ none → job'.boards = job.boards
  periphery : job.boards ≠ none → job'.periphery = job.periphery
  torus : job.boards ≠ none → job'.torus = job.torus
  size : job.boards ≠ none → (job'.width, job'.height) = (job.width, job.height)
  connections : job.boards ≠ none → job'.connections = job.connections
  started : job.state ≠ .queued → job'.state ≠ .queued
  powered : job.power ≠ none → job'.power ≠ none

theorem Follows.refl (job : Job) : Follows job job where
  owner := rfl
  startTime := rfl
  patience := rfl
  machine _ := rfl
  boards _ := rfl
  periphery _ := rfl
  torus _ := rfl
  size _ := rfl
  connections _ := rfl
  started h := h
  powered h := h

theorem Follows.trans {job job' job'' : Job} (h : Follows job job') (h' : Follows job' job'') :
    Follows job job'' := by
  have hb (hne : job.boards ≠ none) : job'.boards ≠ none := by
    rw [h.boards hne]
    exact hne
  exact {
    owner := h'.owner.trans h.owner
    startTime := h'.startTime.trans h.startTime
    patience := h'.patience.trans h.patience
    machine := fun hne => (h'.machine (hb hne)).trans (h.machine hne)
    boards := fun hne => (h'.boards (hb hne)).trans (h.boards hne)
    periphery := fun hne => (h'.periphery (hb hne)).trans (h.periphery hne)
    torus := fun hne => (h'.torus (hb hne)).trans (h.torus hne)
    size := fun hne => (h'.size (hb hne)).trans (h.size hne)
    connections := fun hne => (h'.connections (hb hne)).trans (h.connections hne)
    started := fun hne => h'.started (h.started hne)
    powered := fun hne => h'.powered (h.powered hne) }

theorem Turn.follows {job job' : Job} (h : Turn job job') : Follows job job' := by
  have hsame := Follows.refl job
  cases h with
  | same => exact hsame
  | tell hb =>
    have hno {p : Prop} (hne : job.boards ≠ none) : p := absurd hb hne
    exact ⟨rfl, rfl, rfl, hno, hno, hno, hno, hno, hno, fun hne => hne, fun hne => hne⟩
  | keep hk => exact { hsame with patience := hk }
  | await n hb => exact { hsame with }
  | power hb => exact { hsame with started := fun _ => by simp, powered := fun _ => by simp }
  | uncount => exact { hsame with }
  | ready hone => exact { hsame with started := fun _ => by simp }

def Ordered (c : Controller) : Prop := (c.jobs ++ [c.nextId]).Pairwise (· < ·)

theorem Ordered.lt (h : Ordered c) (hid : id ∈ c.jobs) : id < c.nextId :=
  (List.pairwise_append.mp h).2.2 id hid c.nextId (List.mem_singleton_self _)

theorem Ordered.nodup (h : Ordered c) : c.jobs.Nodup :=
  (List.pairwise_append.mp h).1.imp fun hlt => hlt.ne

/-- The ids that have been given since. -/
def since (c c' : Controller) : List ℕ := List.range' c.nextId (c'.nextId - c.nextId)

theorem since_append (h : c.nextId ≤ c'.nextId) (h' : c'.nextId ≤ c''.nextId) :
    since c c' ++ since c' c'' = since c c'' := by
  unfold since
  have hend : c'.nextId = c.nextId + 1 * (c'.nextId - c.nextId) := by omega
  have hlen : c''.nextId - c.nextId = (c'.nextId - c.nextId) + (c''.nextId - c'.nextId) := by omega
  rw [hlen, ← List.range'_append, ← hend]

def Keeping (c : Controller) (l : Journal (ℕ × Option String)) : Prop :=
  c.maxRetiredJobs = l.limit ∧ c.retiredJobs.entries = l.entries

structure Elapses (c c' : Controller) (events : List (Journal.Event (ℕ × Option String))) :
    Prop where
  nextId : c.nextId ≤ c'.nextId
  clock : c'.clock = c.clock
  job : ∀ id, id < c.nextId → Follows (c.job id) (c'.job id)
  ordered : Ordered c → Ordered c'
  jobs : c'.jobs.Sublist (c.jobs ++ since c c')
  conserved : Ordered c →
    (c'.jobs ++ (Journal.recorded events).map Prod.fst).Perm (c.jobs ++ since c c')
  keeping : ∀ l, Keeping c l → Keeping c' (l.after events)

namespace Elapses

variable {events events' : List (Journal.Event (ℕ × Option String))}

theorem refl (c : Controller) : Elapses c c [] where
  nextId := le_rfl
  clock := rfl
  job _ _ := .refl _
  ordered h := h
  jobs := by simp [since]
  conserved _ := by simp [since, Journal.recorded]
  keeping _ h := h

theorem trans (h : Elapses c c' events) (h' : Elapses c' c'' events') :
    Elapses c c'' (events ++ events') where
  nextId := h.nextId.trans h'.nextId
  clock := h'.clock.trans h.clock
  job id hid := (h.job id hid).trans (h'.job id (hid.trans_le h.nextId))
  ordered ho := h'.ordered (h.ordered ho)
  jobs := by
    rw [← since_append h.nextId h'.nextId, ← List.append_assoc]
    exact h'.jobs.trans (h.jobs.append_right _)
  conserved ho := by
    have hrecorded : Journal.recorded (events ++ events') =
        Journal.recorded events ++ Journal.recorded events' := List.filterMap_append
    rw [hrecorded, List.map_append, ← since_append h.nextId h'.nextId]
    have hlast := (h'.conserved (h.ordered ho)).append_right
      ((Journal.recorded events).map Prod.fst)
    have hfirst := (h.conserved ho).append_right (since c' c'')
    have hswap (l m n : List ℕ) : (l ++ (m ++ n)).Perm ((l ++ n) ++ m) := by
      rw [List.append_assoc]
      exact List.perm_append_comm.append_left l
    rw [← List.append_assoc c.jobs]
    refine (hswap _ _ _).trans (hlast.trans ?_)
    rw [List.append_assoc]
    exact (hswap _ _ _).trans hfirst
  keeping l hl := by
    rw [Journal.after_append]
    exact h'.keeping _ (h.keeping l hl)

theorem still {d : Deed} (h : Still d c c') : Elapses c c' [] := by
  have hsince : since c c' = [] := by simp [since, h.nextId]
  exact {
    nextId := h.nextId.ge
    clock := h.clock
    job := fun id _ => (h.job id).follows
    ordered := fun ho => by
      unfold Ordered
      rw [h.nextId, h.jobs]
      exact ho
    jobs := by rw [hsince, List.append_nil, h.jobs]
    conserved := fun _ => by
      rw [hsince, h.jobs]
      exact List.Perm.refl _
    keeping := fun l hl =>
      ⟨h.maxRetiredJobs.trans hl.1, (congrArg Dict.entries h.retiredJobs).trans hl.2⟩ }

theorem enlisted (c : Controller) (owner : String) (seconds : Option ℚ) (host : Option String) :
    Elapses c (c.enlisted owner seconds host) [] := by
  have hsince : since c (c.enlisted owner seconds host) = [c.nextId] := by
    change List.range' c.nextId (c.nextId + 1 - c.nextId) = _
    rw [Nat.add_sub_cancel_left, List.range'_one]
  exact {
    nextId := Nat.le_succ _
    clock := rfl
    job := fun id hid => by
      rw [Controller.enlisted, job_createdJob, if_neg hid.ne]
      exact .refl _
    ordered := fun ho => by
      refine List.pairwise_append.mpr ⟨ho, List.pairwise_singleton _ _, fun k hk n hn => ?_⟩
      obtain rfl := List.mem_singleton.mp hn
      obtain hk | hk := List.mem_append.mp hk
      · exact (ho.lt hk).trans (Nat.lt_succ_self _)
      · obtain rfl := List.mem_singleton.mp hk
        exact Nat.lt_succ_self _
    jobs := by
      rw [hsince]
      exact List.Sublist.refl _
    conserved := fun _ => by
      rw [hsince, Journal.recorded, List.filterMap_nil, List.map_nil, List.append_nil]
      exact List.Perm.refl _
    keeping := fun l hl => hl }

theorem retired {reason : Option String} (hid : id ∈ c.jobs) (hnew : c.retiredJobs.get? id = none) :
    Elapses c (c.retired id reason) [.record (id, reason)] := by
  have hsince : since c (c.retired id reason) = [] := by
    change List.range' c.nextId (c.nextId - c.nextId) = _
    rw [Nat.sub_self, List.range'_zero]
  exact {
    nextId := le_rfl
    clock := rfl
    job := fun id _ => .refl _
    ordered := fun ho => ho.sublist (List.filter_sublist.append_right _)
    jobs := by
      rw [hsince, List.append_nil]
      exact List.filter_sublist
    conserved := fun ho => by
      rw [hsince, List.append_nil]
      change (c.jobs.filter (· ≠ id) ++ [id]).Perm c.jobs
      have herase : c.jobs.erase id = c.jobs.filter (· ≠ id) :=
        (ho.nodup.erase_eq_filter id).trans (List.filter_congr fun k _ => by
          by_cases hk : k = id <;> simp [hk])
      rw [← herase]
      exact (List.perm_append_singleton _ _).trans (List.perm_cons_erase hid).symm
    keeping := fun l hl => by
      obtain ⟨hlimit, hentries⟩ := hl
      refine ⟨hlimit, ?_⟩
      have hset : (c.retiredJobs.set id reason).entries = l.entries ++ [(id, reason)] := by
        rw [← hentries]
        exact Dict.put_eq_append (Dict.get?_eq_none.mp hnew)
      change (retain c.maxRetiredJobs (c.retiredJobs.set id reason)).entries =
        (l.entries ++ [(id, reason)]).rtake l.limit
      have hbounded := l.bounded
      rw [retain, hset, hlimit, List.length_append, List.length_singleton]
      split
      · next hmore =>
        have hfull : l.entries.length = l.limit := by omega
        change (c.retiredJobs.set id reason).entries.tail = _
        rw [hset, List.rtake, List.length_append, List.length_singleton, hfull,
          Nat.add_sub_cancel_left, List.drop_one]
      · rw [hset, rtake_of_length_le]
        rw [List.length_append, List.length_singleton]
        omega }

theorem limited (c : Controller) (value : ℕ) :
    Elapses c (c.limited value) [.resize value] where
  nextId := le_rfl
  clock := rfl
  job _ _ := .refl _
  ordered ho := ho
  jobs := by simp [since, Controller.limited]
  conserved _ := by simp [since, Controller.limited, Journal.recorded]
  keeping l hl := by
    have hdrop (n : ℕ) (d : Dict ℕ (Option String)) :
        (Dict.dropFirst^[n] d).entries = d.entries.drop n := by
      induction n generalizing d with
      | zero => rfl
      | succ n ih =>
        rw [Function.iterate_succ_apply, ih]
        change d.entries.tail.drop n = _
        rw [List.drop_tail]
    refine ⟨rfl, ?_⟩
    change (Dict.dropFirst^[(c.retiredJobs.entries.length - (value : ℤ)).toNat] _).entries = _
    rw [hdrop, hl.2, Int.toNat_sub]
    rfl

end Elapses

theorem Deed.elapses {d : Deed} (h : d.does c c') : ∃ events, Elapses c c' events ∧
    ((∀ value, d ≠ .limit value) → Journal.limits events = []) := by
  obtain hstill | ⟨owner, seconds, host, rfl⟩ | ⟨id, reason, rfl⟩ | ⟨value, rfl⟩ := Deed.still h
  · exact ⟨[], .still hstill, fun _ => rfl⟩
  · obtain rfl := h
    exact ⟨[], .enlisted c owner seconds host, fun _ => rfl⟩
  · obtain ⟨hid, hnew, -, rfl⟩ := h
    exact ⟨_, .retired hid hnew, fun _ => rfl⟩
  · obtain rfl := h
    exact ⟨_, .limited c value, fun hno => absurd rfl (hno value)⟩

theorem Does.elapses {ok : Controller → Deed → Prop} (h : Does ok c c') :
    ∃ events, Elapses c c' events ∧
      ((∀ c value, ¬ok c (.limit value)) → Journal.limits events = []) := by
  apply h.relates (R := fun c c' => ∃ events, Elapses c c' events ∧
    ((∀ c value, ¬ok c (.limit value)) → Journal.limits events = []))
  · exact fun c => ⟨[], .refl c, fun _ => rfl⟩
  · rintro c c' c'' ⟨events, h, hlimits⟩ ⟨events', h', hlimits'⟩
    refine ⟨events ++ events', h.trans h', fun hno => ?_⟩
    rw [Journal.limits, List.filterMap_append, List.append_eq_nil_iff]
    exact ⟨hlimits hno, hlimits' hno⟩
  · intro c d c' hok hd
    obtain ⟨events, helapses, hlimits⟩ := Deed.elapses hd
    refine ⟨events, helapses, fun hno => hlimits fun value hd => ?_⟩
    rw [hd] at hok
    exact hno c value hok

theorem Elapses.gone {events : List (Journal.Event (ℕ × Option String))} (h : Elapses c c' events)
    (hid : id < c.nextId) (hgone : id ∉ c.jobs) : id ∉ c'.jobs := by
  intro hlive
  obtain hold | hnew := List.mem_append.mp (h.jobs.subset hlive)
  · exact hgone hold
  · have hle := (List.mem_range'_1.mp hnew).1
    omega

theorem runs_does {s : Setup} (h : (system s).Reachable t) (ops : List Operation) :
    Does (fun c d => ∃ op ∈ ops, ∃ c₀, op.Allows c₀ c d) t.2 (runs t ops).2 := by
  induction ops generalizing t with
  | nil => exact .refl _
  | cons op ops ih =>
    have hfirst : Does (fun c d => ∃ op' ∈ op :: ops, ∃ c₀, op'.Allows c₀ c d) t.2 (next t op).2 :=
      (next_does h op).mono fun c d hd => ⟨op, List.mem_cons_self, t.2, hd⟩
    have hrest : Does (fun c d => ∃ op' ∈ op :: ops, ∃ c₀, op'.Allows c₀ c d) (next t op).2
        (runs (next t op) ops).2 :=
      (ih (.next h rfl)).mono fun c d ⟨op', hop', hd⟩ => ⟨op', List.mem_cons_of_mem op hop', hd⟩
    exact hfirst.trans hrest

theorem runs_elapses {s : Setup} (h : (system s).Reachable t) (ops : List Operation) :
    ∃ events, Elapses t.2 (runs t ops).2 events ∧
      ((∀ value, .setMaxRetiredJobs value ∉ ops) → Journal.limits events = []) := by
  obtain ⟨events, helapses, hlimits⟩ := (runs_does h ops).elapses
  refine ⟨events, helapses, fun hno => hlimits fun c value hd => ?_⟩
  obtain ⟨op, hop, c₀, rfl⟩ := hd
  exact hno value hop

/-- At any time the jobs are in the order in which they were created, and the table of retired jobs
is a journal. -/
theorem reachable_ordered {s : Setup} (h : (system s).Reachable t) :
    Ordered t.2 ∧ ∃ l, Keeping t.2 l := by
  apply h.invariant
  · rintro _ rfl
    exact ⟨List.pairwise_singleton _ _, ⟨s.maxRetiredJobs, [], Nat.zero_le _⟩, rfl, rfl⟩
  · rintro t op _ hr ⟨hordered, l, hl⟩ rfl
    obtain ⟨events, helapses, -⟩ := (next_does hr op).elapses
    exact ⟨helapses.ordered hordered, _, helapses.keeping l hl⟩

/-- In any run, also where calls raise, a job goes forward only: jobs are listed in the order in
which they were created, no id is given twice or comes back, and what a job has been told about
its boards does not change. -/
theorem jobs_advance {s : Setup} (h : (system s).Reachable t) (ops : List Operation) :
    (runs t ops).2.jobs.Pairwise (· < ·) ∧
      (runs t ops).2.jobs.Sublist (t.2.jobs ++ since t.2 (runs t ops).2) ∧
      (∀ id, id < t.2.nextId → Follows (t.2.job id) ((runs t ops).2.job id)) ∧
      ∀ id, id < t.2.nextId → id ∉ t.2.jobs → id ∉ (runs t ops).2.jobs := by
  obtain ⟨events, helapses, -⟩ := runs_elapses h ops
  have hordered := helapses.ordered (reachable_ordered h).1
  exact ⟨(List.pairwise_append.mp hordered).1, helapses.jobs, helapses.job,
    fun id hid hgone => helapses.gone hid hgone⟩

theorem jobs_advance_poweringOn :
    Follows ((runs Setup.quiet.start poweringOn).2.job 1)
      ((runs (runs Setup.quiet.start poweringOn) [.destroyJob 1 none]).2.job 1) :=
  (jobs_advance (reachable_poweringOn .quiet) [.destroyJob 1 none]).2.2.1 1 (by decide +kernel)

/-- In any run every job that was there or that was created is still there or has ended, once, and
the table of retired jobs has the last ones that have ended, no more than it may have and no fewer
than it could have. -/
theorem retired_recently {s : Setup} (h : (system s).Reachable t) (ops : List Operation) :
    ∃ ended : List (ℕ × Option String),
      ((runs t ops).2.jobs ++ ended.map Prod.fst).Perm
        (t.2.jobs ++ since t.2 (runs t ops).2) ∧
      (runs t ops).2.retiredJobs.entries <:+ t.2.retiredJobs.entries ++ ended ∧
      (runs t ops).2.retiredJobs.entries.length ≤ (runs t ops).2.maxRetiredJobs ∧
      ((∀ value, .setMaxRetiredJobs value ∉ ops) → (runs t ops).2.retiredJobs.entries =
        (t.2.retiredJobs.entries ++ ended).rtake t.2.maxRetiredJobs.toNat) := by
  obtain ⟨events, helapses, hlimits⟩ := runs_elapses h ops
  obtain ⟨hordered, l, hl⟩ := reachable_ordered h
  obtain ⟨hlimit, hentries⟩ := helapses.keeping l hl
  refine ⟨Journal.recorded events, helapses.conserved hordered, ?_, ?_, fun hno => ?_⟩
  · rw [hentries, hl.2]
    exact l.after_suffix events
  · rw [hentries, hlimit]
    exact_mod_cast (l.after events).bounded
  · rw [hentries, hl.1, hl.2, Int.toNat_natCast]
    exact (l.after_entries (hlimits hno)).2

theorem retired_recently_poweringOn :
    (runs (runs Setup.quiet.start poweringOn) [.destroyJob 1 none]).2.retiredJobs.entries =
        [(1, none)] ∧
      (runs (runs Setup.quiet.start poweringOn) [.destroyJob 1 none]).2.retiredJobs.entries.length ≤
        (runs (runs Setup.quiet.start poweringOn) [.destroyJob 1 none]).2.maxRetiredJobs := by
  obtain ⟨ended, -, -, hbounded, -⟩ :=
    retired_recently (reachable_poweringOn .quiet) [.destroyJob 1 none]
  exact ⟨by decide +kernel, hbounded⟩

theorem Deed.over {d : Deed} (hd : d.does c c') (hid : id < c.nextId) (hgone : id ∉ c.jobs) :
    (c'.job id).boards = (c.job id).boards ∧ (c'.job id).keepalive = (c.job id).keepalive := by
  obtain hstill | ⟨owner, seconds, host, rfl⟩ | ⟨k, reason, rfl⟩ | ⟨value, rfl⟩ := Deed.still hd
  · refine ⟨hstill.boards id hgone, ?_⟩
    obtain hkeep | ⟨⟨host, rfl⟩, -⟩ := hstill.keepalive id
    · exact hkeep
    · exact absurd hd.1 hgone
  · obtain rfl := hd
    rw [enlisted, job_createdJob, if_neg hid.ne]
    exact ⟨rfl, rfl⟩
  · obtain ⟨-, -, -, rfl⟩ := hd
    exact ⟨rfl, rfl⟩
  · obtain rfl := hd
    exact ⟨rfl, rfl⟩

theorem Operation.Ends.congr {op : Operation} {c₀ : Controller} {reason : Option String}
    (h : op.Ends c₀ c id reason) (hb : (c'.job id).boards = (c.job id).boards)
    (hk : (c'.job id).keepalive = (c.job id).keepalive) : op.Ends c₀ c' id reason := by
  cases op <;> simp only [Operation.Ends, worded, hb, hk] at h ⊢ <;> exact h

/-- Every end since the first controller is explained, and so is every entry that is new in the
table of retired jobs. -/
structure Explained (op : Operation) (c₀ c : Controller) : Prop where
  ordered : Ordered c
  since : c₀.nextId ≤ c.nextId
  ended : ∀ id, id < c.nextId → id ∉ c.jobs →
    id < c₀.nextId ∧ id ∉ c₀.jobs ∨ ∃ reason, op.Ends c₀ c id reason
  recorded : ∀ id reason, c.retiredJobs.get? id = some reason →
    c₀.retiredJobs.get? id = some reason ∨ id < c.nextId ∧ id ∉ c.jobs ∧ op.Ends c₀ c id reason

theorem Deed.explained {op : Operation} {c₀ : Controller} {d : Deed} (h : Explained op c₀ c)
    (hok : op.Allows c₀ c d) (hd : d.does c c') : Explained op c₀ c' := by
  obtain ⟨events, helapses, -⟩ := Deed.elapses hd
  have hkept (k : ℕ) (reason : Option String) (hold : c.retiredJobs.get? k = some reason) :
      c₀.retiredJobs.get? k = some reason ∨
        k < c'.nextId ∧ k ∉ c'.jobs ∧ op.Ends c₀ c' k reason := by
    refine (h.recorded k reason hold).imp_right fun hnew => ?_
    obtain ⟨hlt, hgone, hends⟩ := hnew
    obtain ⟨hb, hkeep⟩ := Deed.over hd hlt hgone
    exact ⟨hlt.trans_le helapses.nextId, helapses.gone hlt hgone, hends.congr hb hkeep⟩
  have hover (k : ℕ) (hlt : k < c.nextId) (hgone : k ∉ c.jobs) :
      k < c₀.nextId ∧ k ∉ c₀.jobs ∨ ∃ reason, op.Ends c₀ c' k reason := by
    refine (h.ended k hlt hgone).imp_right fun hends => ?_
    obtain ⟨reason, hends⟩ := hends
    obtain ⟨hb, hkeep⟩ := Deed.over hd hlt hgone
    exact ⟨reason, hends.congr hb hkeep⟩
  obtain hstill | ⟨owner, seconds, host, rfl⟩ | ⟨id, reason', rfl⟩ | ⟨value, rfl⟩ := Deed.still hd
  · refine ⟨helapses.ordered h.ordered, h.since.trans helapses.nextId, fun k hlt hgone => ?_,
      fun k reason hk => ?_⟩
    · rw [hstill.nextId] at hlt
      rw [hstill.jobs] at hgone
      exact hover k hlt hgone
    · rw [hstill.retiredJobs] at hk
      exact hkept k reason hk
  · obtain rfl := hd
    refine ⟨helapses.ordered h.ordered, h.since.trans helapses.nextId, fun k hlt hgone => ?_,
      hkept⟩
    have hlive : k ∉ c.jobs ++ [c.nextId] := hgone
    rw [List.mem_append, List.mem_singleton, not_or] at hlive
    exact hover k ((Nat.lt_succ_iff.mp hlt).lt_of_ne hlive.2) hlive.1
  · obtain ⟨hid, -, -, rfl⟩ := hd
    refine ⟨helapses.ordered h.ordered, h.since.trans helapses.nextId, fun k hlt hgone => ?_,
      fun k reason hk => ?_⟩
    · by_cases hik : id = k
      · subst hik
        exact .inr ⟨reason', hok.congr rfl rfl⟩
      · exact hover k hlt fun hin => hgone (mem_retired.mpr ⟨hin, Ne.symm hik⟩)
    · have hset := get?_retain hk
      rw [Dict.get?_set] at hset
      split at hset
      · next hik =>
        subst hik
        obtain rfl := Option.some.inj hset
        exact .inr ⟨h.ordered.lt hid, fun hin => (mem_retired.mp hin).2 rfl, hok.congr rfl rfl⟩
      · exact hkept k reason hset
  · obtain rfl := hd
    exact ⟨helapses.ordered h.ordered, h.since.trans helapses.nextId, hover,
      fun k reason hk => hkept k reason (get?_iterate_dropFirst _ hk)⟩

/-- A job that an operation ends is one that the operation may end, whether or not that is recorded,
and the reason that is recorded is the operation's. The job is said to be cancelled exactly if it
never had boards. -/
theorem reason_recorded {s : Setup} (h : (system s).Reachable t) (op : Operation) (id : ℕ) :
    (t.2.nextId ≤ id ∧ id < (next t op).2.nextId ∨ id ∈ t.2.jobs → id ∉ (next t op).2.jobs →
      ∃ reason, op.Ends t.2 (next t op).2 id reason) ∧
    ∀ reason, t.2.retiredJobs.get? id = none →
      (next t op).2.retiredJobs.get? id = some reason →
      op.Ends t.2 (next t op).2 id reason := by
  have hordered := (reachable_ordered h).1
  have hstart : Explained op t.2 t.2 :=
    ⟨hordered, le_rfl, fun _ hlt hgone => .inl ⟨hlt, hgone⟩, fun _ _ hold => .inl hold⟩
  have hrest : Does (op.Allows t.2) t.2 (next t op).2 := next_does h op
  have hafter : Explained op t.2 (next t op).2 :=
    hrest.invariant hstart fun _ _ _ hI hok hd => Deed.explained hI hok hd
  constructor
  · intro hlive hgone
    have hlt : id < (next t op).2.nextId := by
      obtain hnew | hold := hlive
      · exact hnew.2
      · exact (hordered.lt hold).trans_le hafter.since
    refine (hafter.ended id hlt hgone).resolve_left fun hbefore => ?_
    obtain hnew | hold := hlive
    · exact absurd hbefore.1 (not_lt.mpr hnew.1)
    · exact hbefore.2 hold
  · intro reason hnew hkept
    obtain hold | ⟨-, -, hends⟩ := hafter.recorded id reason hkept
    · rw [hnew] at hold
      cases hold
    · exact hends

theorem reason_recorded_poweringOn : (Operation.destroyJob 1 none).Ends
    (runs Setup.quiet.start poweringOn).2
    (next (runs Setup.quiet.start poweringOn) (.destroyJob 1 none)).2 1 none :=
  (reason_recorded (reachable_poweringOn .quiet) (.destroyJob 1 none) 1).2 none
    (by decide +kernel) (by decide +kernel)

end SpallocServer.Controller
