import SpallocServer.Server.Clients

namespace SpallocServer.Server

open Foundation Prog Framing

variable {s s' : Server} {c : Socket} {line data : Bytes}
  {dejson : Bytes → Except Error Json} {answer : Answers}

structure Unmoved (c : Socket) (s s' : Server) : Prop where
  clientBuffers : s'.clientBuffers = s.clientBuffers
  jobWatches : ∀ c' ≠ c, s'.clientJobWatches.get? c' = s.clientJobWatches.get? c'
  machineWatches : ∀ c' ≠ c, s'.clientMachineWatches.get? c' = s.clientMachineWatches.get? c'
  poll : s'.poll = s.poll
  fdmap : s'.fdmap = s.fdmap
  fileno : s'.fileno = s.fileno
  sending : s'.sending = s.sending
  sends : s'.sends = s.sends
  handled : s'.handled = s.handled

theorem Unmoved.refl (c : Socket) (s : Server) : Unmoved c s s :=
  ⟨rfl, fun _ _ => rfl, fun _ _ => rfl, rfl, rfl, rfl, rfl, rfl, rfl⟩

theorem register_other {watchset watchset' : Dict Socket Watches} {id : Json}
    (h : registerForNotifications watchset c id = .ok watchset') {c' : Socket} (hc : c' ≠ c) :
    watchset'.get? c' = watchset.get? c' := by
  unfold registerForNotifications at h
  split at h
  · cases h
    exact Dict.get?_set_ne _ hc.symm _
  split at h
  · obtain ⟨k, -, hk⟩ := bind_eq_ok.mp h
    cases hk
    exact Dict.get?_set_ne _ hc.symm _
  · obtain ⟨k, -, hk⟩ := bind_eq_ok.mp h
    cases hk
    exact Dict.get?_set_ne _ hc.symm _
  · cases h
    rfl

theorem unregister_other {watchset watchset' : Dict Socket Watches} {id : Json}
    (h : unregisterForNotifications watchset c id = .ok watchset') {c' : Socket} (hc : c' ≠ c) :
    watchset'.get? c' = watchset.get? c' := by
  unfold unregisterForNotifications at h
  split at h
  · cases h
    rfl
  split at h
  · cases h
    exact Dict.get?_erase_ne _ hc.symm
  · cases h
    rfl
  · obtain ⟨k, -, hk⟩ := bind_eq_ok.mp h
    cases hk
    split
    · exact Dict.get?_erase_ne _ hc.symm
    · exact Dict.get?_set_ne _ hc.symm _

theorem notify_unmoved {name : String} {args : List Json} {kwargs : List (String × Json)}
    {f : Json → Call Unit}
    (hf : ∀ id, wp (f id) (fun _ => Unmoved c s) (fun _ => Unmoved c s) s) :
    wp (notify name args kwargs f) (fun _ => Unmoved c s) (fun _ => Unmoved c s) s := by
  simp only [notify, wp_bind]
  apply wp_ofExcept
  · intro id _
    rw [wp_bind]
    exact (hf id).mono (fun _ _ h => h) fun _ _ h => h
  · exact fun _ _ => Unmoved.refl c s

variable (answer) in
theorem execute_unmoved (name : String) (args : List Json) (kwargs : List (String × Json)) :
    wp (execute answer name c args kwargs) (fun _ => Unmoved c s) (fun _ => Unmoved c s) s := by
  unfold execute
  split
  · apply notify_unmoved
    intro id
    simp only [notifyJob, wp_bind, wp_state]
    apply wp_ofExcept
    · exact fun w hw => { Unmoved.refl c s with jobWatches := fun _ hc => register_other hw hc }
    · exact fun _ _ => Unmoved.refl c s
  · apply notify_unmoved
    intro id
    simp only [noNotifyJob, wp_bind, wp_state]
    apply wp_ofExcept
    · exact fun w hw => { Unmoved.refl c s with jobWatches := fun _ hc => unregister_other hw hc }
    · exact fun _ _ => Unmoved.refl c s
  · apply notify_unmoved
    intro id
    simp only [notifyMachine, wp_bind, wp_state]
    apply wp_ofExcept
    · exact fun w hw => { Unmoved.refl c s with machineWatches := fun _ hc => register_other hw hc }
    · exact fun _ _ => Unmoved.refl c s
  · apply notify_unmoved
    intro id
    simp only [noNotifyMachine, wp_bind, wp_state]
    apply wp_ofExcept
    · exact fun w hw =>
        { Unmoved.refl c s with machineWatches := fun _ hc => unregister_other hw hc }
    · exact fun _ _ => Unmoved.refl c s
  · rw [wp_zoom]
    exact (wp_trivial _).mono (fun _ _ _ => { Unmoved.refl c s with })
      fun _ _ _ => { Unmoved.refl c s with }

def handling (s : Server) (c : Socket) (line : Bytes) : Server :=
  { s with handled := s.handled ++ [(c, line)] }

theorem handleCommand_wp :
    wp (handleCommand dejson answer c line)
      (fun _ t => (decode dejson line).isOk ∧ Unmoved c (s.handling c line) t)
      (fun _ t => ¬(decode dejson line).isOk ∧ t = s.handling c line) s := by
  simp only [handleCommand, wp_bind, wp_update]
  apply wp_ofExcept
  · intro a ha
    rw [wp_rescue, wp_map, ha]
    have h := execute_unmoved (s := s.handling c line) (c := c) answer a.1 a.2.1 a.2.2
    exact h.mono (fun _ _ h => ⟨rfl, h⟩) fun _ _ h => ⟨rfl, h⟩
  · intro e he
    exact ⟨by simp [he, Except.isOk, Except.toBool], rfl⟩

def fate (dejson : Bytes → Except Error Json) (s : Server) (c : Socket) (n : ℕ) (line : Bytes) :
    Fate :=
  if (decode dejson line).isOk then
    if (s.sending c n).isOk then .served else .unanswered
  else .refused

structure Passed (c : Socket) (s : Server) (ls : List Bytes) (t : Server) : Prop where
  apart : Apart c s t
  lines : t.lines c = s.lines c ++ ls

structure Answered (c : Socket) (s : Server) (ls : List Bytes) (t : Server) : Prop extends
    Passed c s ls t where
  registered : t.Registered c
  sends : t.sends c = s.sends c + ls.length

theorem lines_handling (s : Server) (c : Socket) (line : Bytes) :
    (s.handling c line).lines c = s.lines c ++ [line] := by
  simp [lines, handling]

theorem lines_handling_ne (s : Server) {c' : Socket} (h : c' ≠ c) (line : Bytes) :
    (s.handling c line).lines c' = s.lines c' := by
  simp [lines, handling, h.symm]

theorem Unmoved.passed (h : Unmoved c (s.handling c line) s') : Passed c s [line] s' where
  apart :=
    { sending := h.sending
      poll := by
        rw [h.poll]
        rfl
      buffers := fun _ _ => by
        rw [h.clientBuffers]
        rfl
      jobWatches := h.jobWatches
      machineWatches := h.machineWatches
      registered := fun _ _ hr => hr.congr (by rw [h.clientBuffers]; exact hr.buffer)
        h.fileno h.poll h.fdmap
      fdmap := fun _ _ _ hfd => by
        rw [h.fdmap] at hfd
        exact hfd
      sends := fun _ _ => by
        rw [h.sends]
        rfl
      lines := fun c' hc => by
        rw [← lines_handling_ne s hc line]
        unfold Server.lines
        rw [h.handled] }
  lines := by
    rw [← lines_handling s c line]
    unfold Server.lines
    rw [h.handled]

def attempted (s : Server) (c : Socket) : Server :=
  { s with sends := Function.update s.sends c (s.sends c + 1) }

theorem attempted_apart (s : Server) (c : Socket) : Apart c s (s.attempted c) where
  sending := rfl
  poll := rfl
  buffers _ _ := rfl
  jobWatches _ _ := rfl
  machineWatches _ _ := rfl
  registered _ _ hr := hr.congr hr.buffer rfl rfl rfl
  fdmap _ _ _ hfd := hfd
  sends _ hc := Function.update_of_ne hc _ _
  lines _ _ := rfl

theorem msgClient_wp (h : s.Registered c) (message : Message) :
    wp (msgClient c message)
      (fun _ t => (s.sending c (s.sends c)).isOk ∧
        t = { s.attempted c with sent := s.sent ++ [(c, message)] })
      (fun e t => s.sending c (s.sends c) = .error e ∧ t = (s.attempted c).disconnected c) s := by
  have hattempted : (s.attempted c).Registered c := h.congr h.buffer rfl rfl rfl
  simp only [msgClient, send, wp_rescue, wp_bind, wp_state, wp_update]
  apply wp_ofExcept
  · intro _ hok
    rw [hok]
    exact ⟨rfl, rfl⟩
  · intro e he
    rw [wp_bind]
    exact wp_intro_ok (disconnectClient_run hattempted) ⟨he, rfl⟩

variable (dejson answer) in
theorem respond_wp (h : s.Registered c) (hline : line ≠ []) :
    wp (respond dejson answer c line)
      (fun _ t => fate dejson s c (s.sends c) line = .served ∧ Answered c s [line] t ∧
        t.clientBuffers.get? c = s.clientBuffers.get? c)
      (fun _ t => fate dejson s c (s.sends c) line = .refused ∧ Passed c s [line] t ∧
          t.Registered c ∨
        fate dejson s c (s.sends c) line = .unanswered ∧ Passed c s [line] t ∧ t.Removed c) s := by
  unfold respond
  rw [if_neg hline, wp_bind]
  apply handleCommand_wp.mono
  · intro message t ht
    obtain ⟨hok, ht⟩ := ht
    have hreg : t.Registered c :=
      h.congr (by rw [ht.clientBuffers]; exact h.buffer) ht.fileno ht.poll ht.fdmap
    have hsend : t.sending c (t.sends c) = s.sending c (s.sends c) := by
      rw [ht.sending, ht.sends]
      rfl
    have hpassed := ht.passed
    apply (msgClient_wp hreg message).mono
    · intro _ u hu
      obtain ⟨hsent, rfl⟩ := hu
      rw [hsend] at hsent
      have hlast : Apart c t { t.attempted c with sent := t.sent ++ [(c, message)] } :=
        { attempted_apart t c with
          registered := fun _ _ hr => hr.congr hr.buffer rfl rfl rfl }
      refine ⟨?_, ⟨⟨hpassed.apart.trans hlast, hpassed.lines⟩, ?_, ?_⟩, ?_⟩
      · rw [fate, if_pos hok, if_pos hsent]
      · exact hreg.congr hreg.buffer rfl rfl rfl
      · change Function.update t.sends c (t.sends c + 1) c = _
        rw [Function.update_self, ht.sends]
        rfl
      · change t.clientBuffers.get? c = _
        rw [ht.clientBuffers]
        rfl
    · intro _ u hu
      obtain ⟨hsent, rfl⟩ := hu
      rw [hsend] at hsent
      have hattempted : (t.attempted c).Registered c := hreg.congr hreg.buffer rfl rfl rfl
      right
      refine ⟨?_, ⟨?_, hpassed.lines⟩, hattempted.removed⟩
      · rw [fate, if_pos hok, hsent]
        exact if_neg nofun
      · exact hpassed.apart.trans ((attempted_apart t c).trans hattempted.apart)
  · intro _ t ht
    obtain ⟨hok, rfl⟩ := ht
    left
    refine ⟨?_, (Unmoved.refl c _).passed, h.congr h.buffer rfl rfl rfl⟩
    rw [fate, if_neg hok]

/-- The lines of a stream that are handled: blank lines are skipped. -/
def requests (stream : Bytes) : List Bytes := (Framing.lines newline stream).filter (· ≠ [])

/-- All of the lines have been answered. -/
structure Completed (dejson : Bytes → Except Error Json) (c : Socket) (s : Server)
    (stream : Bytes) (t : Server) : Prop extends Answered c s (requests stream) t where
  outcome : outcome (fate dejson s c) (s.sends c) (requests stream) = .served
  buffer : t.clientBuffers.get? c = some (rest newline stream)

structure Aborted (dejson : Bytes → Except Error Json) (c : Socket) (s : Server)
    (stream : Bytes) (t : Server) : Prop extends
    Passed c s (through (fate dejson s c) (s.sends c) (requests stream)) t where
  outcome : outcome (fate dejson s c) (s.sends c) (requests stream) = .refused ∧
      t.Registered c ∨
    outcome (fate dejson s c) (s.sends c) (requests stream) = .unanswered ∧ t.Removed c

def buffered (s : Server) (c : Socket) (buffer : Bytes) : Server :=
  { s with clientBuffers := s.clientBuffers.set c buffer }

theorem buffered_apart (s : Server) (c : Socket) (buffer : Bytes) :
    Apart c s (s.buffered c buffer) where
  sending := rfl
  poll := rfl
  buffers _ hc := Dict.get?_set_ne _ hc.symm _
  jobWatches _ _ := rfl
  machineWatches _ _ := rfl
  registered _ hc hr := hr.congr
    (by
      unfold buffered
      rw [Dict.get?_set_ne _ hc.symm]
      exact hr.buffer) rfl rfl rfl
  fdmap _ _ _ hfd := hfd
  sends _ _ := rfl
  lines _ _ := rfl

theorem Registered.buffered (h : s.Registered c) (buffer : Bytes) :
    (s.buffered c buffer).Registered c :=
  h.congr (by unfold Server.buffered; rw [Dict.get?_set_self]; rfl) rfl rfl rfl

variable (dejson) in
theorem Apart.fate (h : Apart c s s') : fate dejson s' c = fate dejson s c := by
  unfold Server.fate
  rw [h.sending]

theorem Passed.after {t : Server} {ls : List Bytes} (h : Passed c s' ls t) (hs : Apart c s s')
    (hlines : s'.lines c = s.lines c) : Passed c s ls t :=
  ⟨hs.trans h.apart, by rw [h.lines, hlines]⟩

theorem Passed.trans {t : Server} {ls ls' : List Bytes} (h : Passed c s ls s')
    (h' : Passed c s' ls' t) : Passed c s (ls ++ ls') t :=
  ⟨h.apart.trans h'.apart, by rw [h'.lines, h.lines, List.append_assoc]⟩

theorem Answered.after {t : Server} {ls : List Bytes} (h : Answered c s' ls t) (hs : Apart c s s')
    (hlines : s'.lines c = s.lines c) (hsends : s'.sends c = s.sends c) : Answered c s ls t :=
  ⟨h.toPassed.after hs hlines, h.registered, by rw [h.sends, hsends]⟩

theorem requests_of_none {buffer : Bytes} (h : partition newline buffer = none) :
    requests buffer = [] := by
  simp only [requests, Framing.lines, split_of_partition_none h, List.filter_nil]

theorem requests_blank {buffer stream : Bytes}
    (h : partition newline buffer = some ([], stream)) : requests buffer = requests stream := by
  simp only [requests, Framing.lines, (split_of_partition h).1, ne_eq, not_true_eq_false,
    decide_false, Bool.false_eq_true, not_false_eq_true, List.filter_cons_of_neg]

theorem requests_cons {buffer stream : Bytes}
    (h : partition newline buffer = some (line, stream)) (hline : line ≠ []) :
    requests buffer = line :: requests stream := by
  simp only [requests, Framing.lines, (split_of_partition h).1]
  exact List.filter_cons_of_pos (decide_eq_true hline)

theorem rest_of_partition {buffer stream : Bytes}
    (h : partition newline buffer = some (line, stream)) :
    rest newline buffer = rest newline stream := by
  rw [rest, (split_of_partition h).1]

theorem completed_of_none {buffer : Bytes} (h : s.Registered c)
    (hbuffer : s.clientBuffers.get? c = some buffer) (hpart : partition newline buffer = none) :
    Completed dejson c s buffer s := by
  have hrest : rest newline buffer = buffer := by
    simp only [rest, split_of_partition_none hpart]
  refine ⟨⟨?_, h, ?_⟩, ?_, ?_⟩
  · rw [requests_of_none hpart]
    exact ⟨Apart.refl c s, (List.append_nil _).symm⟩
  · rw [requests_of_none hpart]
    rfl
  · rw [requests_of_none hpart]
    rfl
  · rw [hrest]
    exact hbuffer

section

variable {buffer stream : Bytes} {t u : Server}

theorem Completed.blank (hpart : partition newline buffer = some ([], stream))
    (h : Completed dejson c (s.buffered c stream) stream t) : Completed dejson c s buffer t := by
  have hapart := buffered_apart s c stream
  refine ⟨?_, ?_, ?_⟩
  · rw [requests_blank hpart]
    exact h.toAnswered.after hapart rfl rfl
  · rw [requests_blank hpart, ← hapart.fate dejson]
    exact h.outcome
  · rw [rest_of_partition hpart]
    exact h.buffer

theorem Aborted.blank (hpart : partition newline buffer = some ([], stream))
    (h : Aborted dejson c (s.buffered c stream) stream t) : Aborted dejson c s buffer t := by
  have hapart := buffered_apart s c stream
  refine ⟨?_, ?_⟩
  · rw [requests_blank hpart, ← hapart.fate dejson]
    exact h.toPassed.after hapart rfl
  · rw [requests_blank hpart, ← hapart.fate dejson]
    exact h.outcome

theorem outcome_answered (hpart : partition newline buffer = some (line, stream))
    (hline : line ≠ []) (hserved : fate dejson s c (s.sends c) line = .served)
    (hu : Answered c s [line] u) :
    outcome (fate dejson s c) (s.sends c) (requests buffer) =
      outcome (fate dejson u c) (u.sends c) (requests stream) := by
  have hsends : u.sends c = s.sends c + 1 := hu.sends
  rw [requests_cons hpart hline, outcome, if_pos hserved, hu.apart.fate dejson, hsends]

theorem through_answered (hpart : partition newline buffer = some (line, stream))
    (hline : line ≠ []) (hserved : fate dejson s c (s.sends c) line = .served)
    (hu : Answered c s [line] u) :
    through (fate dejson s c) (s.sends c) (requests buffer) =
      [line] ++ through (fate dejson u c) (u.sends c) (requests stream) := by
  have hsends : u.sends c = s.sends c + 1 := hu.sends
  rw [requests_cons hpart hline, through, if_pos hserved, hu.apart.fate dejson, hsends]
  rfl

theorem Completed.cons (hpart : partition newline buffer = some (line, stream))
    (hline : line ≠ []) (hserved : fate dejson s c (s.sends c) line = .served)
    (hu : Answered c s [line] u) (h : Completed dejson c u stream t) :
    Completed dejson c s buffer t := by
  refine ⟨⟨?_, h.registered, ?_⟩, (outcome_answered hpart hline hserved hu).trans h.outcome, ?_⟩
  · rw [requests_cons hpart hline]
    exact hu.toPassed.trans h.toPassed
  · have hsends : u.sends c = s.sends c + 1 := hu.sends
    rw [h.sends, hsends, requests_cons hpart hline, List.length_cons]
    omega
  · rw [rest_of_partition hpart]
    exact h.buffer

theorem Aborted.cons (hpart : partition newline buffer = some (line, stream))
    (hline : line ≠ []) (hserved : fate dejson s c (s.sends c) line = .served)
    (hu : Answered c s [line] u) (h : Aborted dejson c u stream t) :
    Aborted dejson c s buffer t := by
  refine ⟨?_, ?_⟩
  · rw [through_answered hpart hline hserved hu]
    exact hu.toPassed.trans h.toPassed
  · rw [outcome_answered hpart hline hserved hu]
    exact h.outcome

theorem aborted_of_first (hpart : partition newline buffer = some (line, stream))
    (hline : line ≠ []) (hpassed : Passed c s [line] t)
    (hfate : fate dejson s c (s.sends c) line = .refused ∧ t.Registered c ∨
      fate dejson s c (s.sends c) line = .unanswered ∧ t.Removed c) :
    Aborted dejson c s buffer t := by
  have hne : fate dejson s c (s.sends c) line ≠ .served := by
    obtain ⟨hf, -⟩ | ⟨hf, -⟩ := hfate
    · rw [hf]
      simp
    · rw [hf]
      simp
  refine ⟨?_, ?_⟩
  · rw [requests_cons hpart hline, through, if_neg hne]
    exact hpassed
  · rw [requests_cons hpart hline, outcome, if_neg hne]
    exact hfate

end

theorem processLines_wp {bound : ℕ} {buffer : Bytes} (h : s.Registered c)
    (hbuffer : s.clientBuffers.get? c = some buffer) (hbound : buffer.length < bound) :
    wp (processLines dejson answer c bound)
      (fun _ => Completed dejson c s buffer) (fun _ => Aborted dejson c s buffer) s := by
  induction bound generalizing s buffer with
  | zero => omega
  | succ bound ih =>
    simp only [processLines, wp_bind, wp_state, hbuffer]
    cases hpart : partition newline buffer with
    | none => exact completed_of_none h hbuffer hpart
    | some p =>
      obtain ⟨line, stream⟩ := p
      have hlen := (split_of_partition hpart).2
      have hreg := h.buffered stream
      have hapart := buffered_apart s c stream
      have hget : (s.buffered c stream).clientBuffers.get? c = some stream :=
        Dict.get?_set_self _ _ _
      rw [wp_bind, wp_update, wp_bind]
      change wp _ _ _ (s.buffered c stream)
      by_cases hline : line = []
      · subst hline
        unfold respond
        rw [if_pos rfl, wp_pure]
        apply (ih hreg hget (by omega)).mono
        · exact fun _ t ht => ht.blank hpart
        · exact fun _ t ht => ht.blank hpart
      · have hfirst := respond_wp dejson answer hreg hline
        rw [hapart.fate dejson] at hfirst
        apply hfirst.mono
        · intro _ u hu
          obtain ⟨hserved, hanswered, hu⟩ := hu
          have hone : Answered c s [line] u := hanswered.after hapart rfl rfl
          apply (ih hanswered.registered (hu.trans hget) (by omega)).mono
          · exact fun _ t ht => ht.cons hpart hline hserved hone
          · exact fun _ t ht => ht.cons hpart hline hserved hone
        · intro _ t ht
          obtain ⟨hf, hpassed, hreg'⟩ | ⟨hf, hpassed, hremoved⟩ := ht
          · exact aborted_of_first hpart hline (hpassed.after hapart rfl) (.inl ⟨hf, hreg'⟩)
          · exact aborted_of_first hpart hline (hpassed.after hapart rfl) (.inr ⟨hf, hremoved⟩)

structure Dismissed (dejson : Bytes → Except Error Json) (c : Socket) (s : Server)
    (stream : Bytes) (t : Server) : Prop extends
    Passed c s (through (fate dejson s c) (s.sends c) (requests stream)) t where
  removed : t.Removed c
  outcome : outcome (fate dejson s c) (s.sends c) (requests stream) ≠ .served

theorem receive_wp {buffer : Bytes} (h : s.Registered c)
    (hbuffer : s.clientBuffers.get? c = some buffer) :
    wp (rescue (receive dejson answer c data) fun _ => disconnectClient c)
      (fun _ t => Completed dejson c s (buffer ++ data) t ∨
        Dismissed dejson c s (buffer ++ data) t ∧
          (outcome (fate dejson s c) (s.sends c) (requests (buffer ++ data)) = .refused ∨
            s.poll = none))
      (fun _ t => Passed c s (through (fate dejson s c) (s.sends c) (requests (buffer ++ data))) t ∧
        outcome (fate dejson s c) (s.sends c) (requests (buffer ++ data)) = .unanswered ∧
        s.poll ≠ none) s := by
  have hreg := h.buffered (buffer ++ data)
  have hapart := buffered_apart s c (buffer ++ data)
  have hfate := hapart.fate dejson
  simp only [receive, wp_rescue, wp_bind, wp_state, hbuffer]
  rw [wp_update]
  change wp _ _ _ (s.buffered c (buffer ++ data))
  apply (processLines_wp hreg (Dict.get?_set_self _ _ _) (Nat.lt_succ_self _)).mono
  · intro _ t ht
    left
    refine ⟨ht.toAnswered.after hapart rfl rfl, ?_, ht.buffer⟩
    rw [← hfate]
    exact ht.outcome
  · intro _ t ht
    have hpassed := ht.toPassed.after hapart rfl
    have houtcome := ht.outcome
    rw [hfate] at hpassed houtcome
    change Passed c s (through (fate dejson s c) (s.sends c) _) t at hpassed
    change outcome (fate dejson s c) (s.sends c) _ = _ ∧ _ ∨
      outcome (fate dejson s c) (s.sends c) _ = _ ∧ _ at houtcome
    obtain ⟨hout, hregistered⟩ | ⟨hout, hremoved⟩ := houtcome
    · apply wp_intro_ok (disconnectClient_run hregistered)
      right
      refine ⟨⟨⟨hpassed.apart.trans hregistered.apart, hpassed.lines⟩, hregistered.removed, ?_⟩,
        .inl hout⟩
      rw [hout]
      simp
    · have hnone : t.poll = none ↔ s.poll = none := by
        have hpoll := hpassed.apart.poll
        rw [← Option.not_isSome_iff_eq_none, hpoll, Option.not_isSome_iff_eq_none]
      apply disconnectClient_closed hremoved.fileno
      · intro _ hpoll
        exact ⟨⟨hpassed.apart.trans (forgotten_apart t c), hpassed.lines⟩, hout,
          fun hs => hpoll (hnone.mpr hs)⟩
      · intro hpoll
        right
        refine ⟨⟨⟨hpassed.apart.trans (hremoved.apart), hpassed.lines⟩,
          hremoved.disconnected, ?_⟩, .inr (hnone.mp hpoll)⟩
        rw [hout]
        simp

/-- A line of what has been read is handled, and its answer cannot be sent. -/
def LosesAnswer (dejson : Bytes → Except Error Json) (s : Server) (c : Socket)
    (recv : Option Bytes) (peername : Except Error Unit) : Prop :=
  ∃ buffer data, s.clientBuffers.get? c = some buffer ∧ recv = some data ∧ data ≠ [] ∧
    peername.isOk ∧
    outcome (fate dejson s c) (s.sends c) (requests (buffer ++ data)) = .unanswered

theorem handleCommands_data (hdata : data ≠ []) (peername : Except Error Unit) :
    handleCommands dejson answer c (some data) peername =
      rescue (do
        ofExcept peername
        receive dejson answer c data) fun _ => disconnectClient c := by
  cases data with
  | nil => exact absurd rfl hdata
  | cons _ _ => rfl

variable (dejson answer) in
theorem handleCommands_wp (h : s.Registered c) (recv : Option Bytes)
    (peername : Except Error Unit) :
    wp (handleCommands dejson answer c recv peername)
      (fun _ t => (¬LosesAnswer dejson s c recv peername ∨ s.poll = none) ∧
        (t.Registered c ∨ t.Removed c))
      (fun _ _ => LosesAnswer dejson s c recv peername ∧ s.poll ≠ none) s := by
  have hgone (hno : ¬LosesAnswer dejson s c recv peername) :
      wp (disconnectClient c)
        (fun _ t => (¬LosesAnswer dejson s c recv peername ∨ s.poll = none) ∧
          (t.Registered c ∨ t.Removed c))
        (fun _ _ => LosesAnswer dejson s c recv peername ∧ s.poll ≠ none) s :=
    wp_intro_ok (disconnectClient_run h) ⟨.inl hno, .inr h.removed⟩
  cases recv with
  | none =>
    apply hgone
    intro ⟨_, _, _, hrecv, _⟩
    cases hrecv
  | some data =>
    by_cases hdata : data = []
    · subst hdata
      apply hgone
      intro ⟨_, _, _, hrecv, hne, _⟩
      exact hne (Option.some.inj hrecv).symm
    rw [handleCommands_data hdata]
    cases peername with
    | error e =>
      rw [wp_rescue, wp_bind, wp_ofExcept_error]
      apply hgone
      intro ⟨_, _, _, _, _, hpeer, _⟩
      cases hpeer
    | ok _ =>
      obtain ⟨buffer, hbuffer⟩ := Option.isSome_iff_exists.mp h.buffer
      have hloses : LosesAnswer dejson s c (some data) (.ok ()) ↔
          outcome (fate dejson s c) (s.sends c) (requests (buffer ++ data)) = .unanswered := by
        constructor
        · intro ⟨buffer', data', hbuffer', hdata', _, _, hout⟩
          rw [hbuffer] at hbuffer'
          cases hbuffer'
          cases hdata'
          exact hout
        · exact fun hout => ⟨buffer, data, hbuffer, rfl, hdata, rfl, hout⟩
      change wp (rescue (receive dejson answer c data) _) _ _ s
      rw [hloses]
      apply (receive_wp h hbuffer).mono
      · rintro _ t (ht | ⟨ht, hout⟩)
        · refine ⟨.inl ?_, .inl ht.registered⟩
          rw [ht.outcome]
          exact nofun
        · refine ⟨hout.imp_left fun hout => ?_, .inr ht.removed⟩
          rw [hout]
          exact nofun
      · exact fun _ t ht => ⟨ht.2.1, ht.2.2⟩

/-- A call for a client returns, with the client served or removed, exactly when no answer is
lost: the client is disconnected where an answer cannot be sent, and then once more. -/
theorem handleCommands_settles (h : s.Registered c) (recv : Option Bytes)
    (peername : Except Error Unit) :
    (∃ t, (handleCommands dejson answer c recv peername).run s = (.ok (), t) ∧
      (t.Registered c ∨ t.Removed c)) ↔
    ¬LosesAnswer dejson s c recv peername ∨ s.poll = none := by
  have hwp := handleCommands_wp dejson answer h recv peername
  rcases hrun : (handleCommands dejson answer c recv peername).run s with ⟨e | _, t⟩
  · have herror := wp_of_eq_error hwp hrun
    refine iff_of_false ?_ (not_or.mpr ⟨not_not.mpr herror.1, herror.2⟩)
    rintro ⟨_, hok, -⟩
    cases hok
  · have hok := wp_of_eq_ok hwp hrun
    exact iff_of_true ⟨t, rfl, hok.2⟩ hok.1

def oneClient (sending : Except Error Unit) : Server :=
  (Server.new Controller.Setup.quiet.start (some ∅) Nat.cast fun _ _ => sending).accepted 0

theorem oneClient_registered (sending : Except Error Unit) : (oneClient sending).Registered 0 :=
  Unknown.registered ⟨le_rfl, nofun, rfl⟩

def asksVersion (_ : Bytes) : Except Error Json := .ok (.object [("command", .string "version")])

def answersVersion (_ : String) (_ : Socket) (_ : List Json) (_ : List (String × Json)) :
    Prog Error (JobQueue × Controller) Json := return .string "5"

theorem handleCommands_settles_version :
    ∃ t, (handleCommands asksVersion answersVersion 0 (some [118, 10]) (.ok ())).run
      (oneClient (.ok ())) = (.ok (), t) ∧ (t.Registered 0 ∨ t.Removed 0) := by
  apply (handleCommands_settles (oneClient_registered (.ok ())) _ _).mpr
  left
  intro ⟨buffer, data, hbuffer, hdata, _, _, hout⟩
  cases hbuffer
  cases hdata
  revert hout
  decide

/-- The answer cannot be sent, and the client is disconnected twice. -/
theorem handleCommands_not_settles : ¬∀ (dejson : Bytes → Except Error Json)
    (answer : Answers) (s : Server) (c : Socket) (recv : Option Bytes) (peername : Except Error Unit),
    s.Registered c → ∃ t, (handleCommands dejson answer c recv peername).run s = (.ok (), t) ∧
      (t.Registered c ∨ t.Removed c) := by
  intro h
  obtain ⟨t, hrun, -⟩ := h asksVersion answersVersion (oneClient (.error (.osError "Broken pipe"))) 0
    (some [118, 10]) (.ok ()) (oneClient_registered _)
  have hraises : ((handleCommands asksVersion answersVersion 0 (some [118, 10]) (.ok ())).run
      (oneClient (.error (.osError "Broken pipe")))).1.isOk = false := by decide +kernel
  rw [hrun] at hraises
  cases hraises

end SpallocServer.Server
