import SpallocServer.Controller.Roster

namespace SpallocServer.Controller

open Foundation Prog JobQueue

variable {q : JobQueue} {c c' c₀ : Controller} {t : JobQueue × Controller} {id k : ℕ}
  {recent : Option ℕ} {depth : ℤ}

/-- The job was created, is no longer live, or has another state, power or other boards. -/
def JobChanged (id : ℕ) (c c' : Controller) : Prop :=
  c.nextId ≤ id ∧ id < c'.nextId ∨
    id ∈ c.jobs ∧ (id ∉ c'.jobs ∨ (c'.job id).state ≠ (c.job id).state ∨
      (c'.job id).power ≠ (c.job id).power ∨ (c'.job id).boards ≠ (c.job id).boards)

theorem JobChanged.cases (c' : Controller) {c'' : Controller} (h : JobChanged id c c'') :
    JobChanged id c c' ∨ JobChanged id c' c'' := by
  obtain ⟨hle, hlt⟩ | ⟨hid, hchanged⟩ := h
  · by_cases hnew : id < c'.nextId
    · exact .inl (.inl ⟨hle, hnew⟩)
    · exact .inr (.inl ⟨Nat.not_lt.mp hnew, hlt⟩)
  · by_cases hid' : id ∈ c'.jobs
    · by_cases hsame : (c'.job id).state = (c.job id).state ∧
          (c'.job id).power = (c.job id).power ∧ (c'.job id).boards = (c.job id).boards
      · right
        rw [← hsame.1, ← hsame.2.1, ← hsame.2.2] at hchanged
        exact .inr ⟨hid', hchanged⟩
      · left
        exact .inr ⟨hid, .inr (by tauto)⟩
    · exact .inl (.inr ⟨hid, .inl hid'⟩)

theorem JobChanged.irrefl (id : ℕ) (c : Controller) : ¬JobChanged id c c := by
  intro h
  obtain ⟨hle, hlt⟩ | ⟨hid, hgone | hstate | hpower | hboards⟩ := h
  · omega
  · exact absurd hid hgone
  · exact absurd rfl hstate
  · exact absurd rfl hpower
  · exact absurd rfl hboards

structure Records (recent : Option ℕ) (c c' : Controller) : Prop where
  grows : c.changedJobs ⊆ c'.changedJobs
  changed : ∀ id, JobChanged id c c' → id ∈ c'.changedJobs ∨ recent = some id ∧ id ∈ c'.jobs

theorem Records.refl (recent : Option ℕ) (c : Controller) : Records recent c c where
  grows := Finset.Subset.refl _
  changed id h := absurd h (JobChanged.irrefl id c)

theorem Records.step (h : Records recent c₀ c) (h' : Records none c c') :
    Records recent c₀ c' where
  grows := h.grows.trans h'.grows
  changed id hid := by
    have hlater (hid : JobChanged id c c') : id ∈ c'.changedJobs :=
      (h'.changed id hid).resolve_right nofun
    obtain hid | hid := hid.cases c
    · obtain hin | ⟨hrecent, hlive⟩ := h.changed id hid
      · exact .inl (h'.grows hin)
      · by_cases hlive' : id ∈ c'.jobs
        · exact .inr ⟨hrecent, hlive'⟩
        · exact .inl (hlater (.inr ⟨hlive, .inl hlive'⟩))
    · exact .inl (hlater hid)

theorem Records.unseen (hn : c'.nextId = c.nextId) (hj : c'.jobs = c.jobs)
    (hjob : ∀ k, ((c'.job k).state, (c'.job k).power, (c'.job k).boards) =
      ((c.job k).state, (c.job k).power, (c.job k).boards))
    (hchanged : c.changedJobs ⊆ c'.changedJobs) : Records none c c' where
  grows := hchanged
  changed id h := by
    have hsame := hjob id
    simp only [Prod.mk.injEq] at hsame
    unfold JobChanged at h
    rw [hn, hj, hsame.1, hsame.2.1, hsame.2.2] at h
    obtain ⟨hle, hlt⟩ | ⟨hid, hgone | hne | hne | hne⟩ := h
    · omega
    · exact absurd hid hgone
    all_goals exact absurd rfl hne

theorem Records.touched (h : Touches id c c') (hin : id ∈ c'.changedJobs)
    (hgrows : c.changedJobs ⊆ c'.changedJobs) : Records none c c' where
  grows := hgrows
  changed k hk := by
    by_cases hid : k = id
    · rw [hid]
      exact .inl hin
    · unfold JobChanged at hk
      rw [h.nextId, h.jobs, h.job k hid] at hk
      obtain ⟨hle, hlt⟩ | ⟨hlive, hgone | hne | hne | hne⟩ := hk
      · omega
      · exact absurd hlive hgone
      all_goals exact absurd rfl hne

namespace Records

theorem tables (h : Records recent c₀ c) (hn : c'.nextId = c.nextId) (hj : c'.jobs = c.jobs)
    (hjob : c'.job = c.job) (hchanged : c'.changedJobs = c.changedJobs) :
    Records recent c₀ c' :=
  h.step (.unseen hn hj (fun k => by rw [hjob]) (by rw [hchanged]))

theorem enlisted {owner : String} {alive : Option Keepalive} {host : Option String} {reads : ℕ}
    (h : Records none c₀ c) :
    Records (some c.nextId) c₀ (Controller.createdJob
      { c with nextId := c.nextId + 1, reads := reads } c.nextId owner alive host) where
  grows := h.grows
  changed id hid := by
    obtain hid | hid := hid.cases c
    · exact .inl ((h.changed id hid).resolve_right nofun)
    · by_cases hk : id = c.nextId
      · rw [hk]
        exact .inr ⟨rfl, List.mem_append_right _ (List.mem_singleton_self _)⟩
      · unfold JobChanged at hid
        rw [job_createdJob, if_neg hk] at hid
        obtain ⟨hle, hlt⟩ | ⟨hlive, hgone | hne | hne | hne⟩ := hid
        · change id < c.nextId + 1 at hlt
          omega
        · exact absurd (List.mem_append_left _ hlive) hgone
        all_goals exact absurd rfl hne

theorem readied (h : Records none c₀ c) :
    Records (some id) c₀ ((c.uncounted id).readied id) where
  grows := h.grows
  changed k hk := by
    obtain hk | hk := hk.cases c
    · exact .inl ((h.changed k hk).resolve_right nofun)
    · have hrewrites : Touches id c ((c.uncounted id).readied id) :=
        (rewrites_uncounted.trans rewrites_readied).toTouches
      by_cases hid : k = id
      · rw [hid] at hk ⊢
        obtain ⟨hle, hlt⟩ | ⟨hlive, -⟩ := hk
        · rw [hrewrites.nextId] at hlt
          omega
        · exact .inr ⟨rfl, hlive⟩
      · unfold JobChanged at hk
        rw [hrewrites.nextId, hrewrites.jobs, hrewrites.job k hid] at hk
        obtain ⟨hle, hlt⟩ | ⟨hlive, hgone | hne | hne | hne⟩ := hk
        · omega
        · exact absurd hlive hgone
        all_goals exact absurd rfl hne

theorem announced (h : Records (some id) c₀ c) :
    Records none c₀ { c with changedJobs := insert id c.changedJobs } where
  grows := h.grows.trans (Finset.subset_insert _ _)
  changed k hk := by
    left
    obtain hin | ⟨hrecent, -⟩ := h.changed k hk
    · exact Finset.mem_insert_of_mem hin
    · rw [Option.some.inj hrecent]
      exact Finset.mem_insert_self _ _

theorem gone (h : Records (some id) c₀ c) (hid : id ∉ c.jobs) : Records none c₀ c where
  grows := h.grows
  changed k hk := by
    left
    obtain hin | ⟨hrecent, hlive⟩ := h.changed k hk
    · exact hin
    · rw [← Option.some.inj hrecent] at hlive
      exact absurd hlive hid

end Records

end SpallocServer.Controller
