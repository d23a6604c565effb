import SpallocServer.Server.Lines

namespace SpallocServer.Server

open Foundation Prog Framing

variable {s t : Server} {c : Socket} {events pre post : List (Socket × Bytes)}
  {dejson : Bytes → Except Error Json} {answer : Answers}

def stream (events : List (Socket × Bytes)) (c : Socket) : Bytes :=
  (events.filter (·.1 = c)).flatMap Prod.snd

/-- The loop of `_run`, for what clients send. -/
def serveAll (dejson : Bytes → Except Error Json) (answer : Answers)
    (events : List (Socket × Bytes)) : Call Unit :=
  forEach events fun (c, data) => serve dejson answer c data

/-- The lines of a client that are to be handled: those before the first that raises something,
and that one. -/
def due (dejson : Bytes → Except Error Json) (s : Server) (events : List (Socket × Bytes))
    (c : Socket) : List Bytes := through (fate dejson s c) 0 (requests (stream events c))

def ending (dejson : Bytes → Except Error Json) (s : Server) (events : List (Socket × Bytes))
    (c : Socket) : Fate := outcome (fate dejson s c) 0 (requests (stream events c))

theorem requests_append (u v : Bytes) :
    requests (u ++ v) = requests u ++ requests (rest newline u ++ v) := by
  rw [requests, lines_append, List.filter_append]
  rfl

theorem stream_append (pre post : List (Socket × Bytes)) (c : Socket) :
    stream (pre ++ post) c = stream pre c ++ stream post c := by
  simp only [stream, List.filter_append, List.flatMap_append]

theorem stream_same (pre : List (Socket × Bytes)) (c : Socket) (data : Bytes) :
    stream (pre ++ [(c, data)]) c = stream pre c ++ data := by
  rw [stream_append]
  simp [stream]

theorem stream_other (pre : List (Socket × Bytes)) {c c' : Socket} (h : c' ≠ c) (data : Bytes) :
    stream (pre ++ [(c, data)]) c' = stream pre c' := by
  rw [stream_append]
  simp [stream, h.symm]

theorem ending_append (h : ending dejson s pre c ≠ .served) (post : List (Socket × Bytes)) :
    ending dejson s (pre ++ post) c = ending dejson s pre c ∧
      due dejson s (pre ++ post) c = due dejson s pre c := by
  unfold ending at h
  unfold ending due
  rw [stream_append, requests_append, outcome_append, if_neg h, through_append, if_neg h]
  exact ⟨rfl, rfl⟩

theorem due_prefix : due dejson s pre c <+: due dejson s (pre ++ post) c := by
  unfold due
  rw [stream_append, requests_append]
  exact through_prefix

/-- The client is connected and has sent nothing yet. -/
structure Fresh (s : Server) (c : Socket) : Prop where
  registered : s.Registered c
  buffer : s.clientBuffers.get? c = some []
  sends : s.sends c = 0
  lines : s.lines c = []

structure Current (dejson : Bytes → Except Error Json) (s : Server)
    (events : List (Socket × Bytes)) (t : Server) (c : Socket) : Prop where
  lines : t.lines c = due dejson s events c
  served : ending dejson s events c = .served → t.Registered c ∧
    t.clientBuffers.get? c = some (rest newline (stream events c)) ∧
    t.sends c = (requests (stream events c)).length
  gone : ending dejson s events c ≠ .served → ∀ fd, t.fdmap.get? fd ≠ some c
  answered : ending dejson s events c = .unanswered → s.poll = none

structure UpToDate (dejson : Bytes → Except Error Json) (s : Server)
    (events : List (Socket × Bytes)) (t : Server) : Prop where
  sending : t.sending = s.sending
  poll : t.poll.isSome = s.poll.isSome
  current : ∀ c, s.Fresh c → Current dejson s events t c

structure Down (dejson : Bytes → Except Error Json) (s : Server)
    (events : List (Socket × Bytes)) (t : Server) : Prop where
  poll : s.poll ≠ none
  some : ∃ pre p post, events = pre ++ p :: post ∧
    (∀ c, s.Fresh c → ending dejson s pre c ≠ .unanswered) ∧
    (∃ c, s.Fresh c ∧ ending dejson s (pre ++ [p]) c = .unanswered) ∧
    ∀ c, s.Fresh c → t.lines c = due dejson s (pre ++ [p]) c

theorem upToDate_start : UpToDate dejson s [] s where
  sending := rfl
  poll := rfl
  current _ h :=
    { lines := h.lines
      served := fun _ => ⟨h.registered, h.buffer, h.sends⟩
      gone := fun hne => absurd rfl hne
      answered := nofun }

theorem Current.other {t' : Server} {c' : Socket} (h : Current dejson s events t c')
    (hapart : Apart c t t') (hc : c' ≠ c) (data : Bytes) :
    Current dejson s (events ++ [(c, data)]) t' c' := by
  have hstream := stream_other events hc data
  have hending : ending dejson s (events ++ [(c, data)]) c' = ending dejson s events c' := by
    unfold ending
    rw [hstream]
  constructor
  · rw [hapart.lines c' hc, h.lines]
    unfold due
    rw [hstream]
  · intro hserved
    rw [hending] at hserved
    obtain ⟨hreg, hbuffer, hsends⟩ := h.served hserved
    rw [hapart.buffers c' hc, hapart.sends c' hc, hstream]
    exact ⟨hapart.registered c' hc hreg, hbuffer, hsends⟩
  · intro hne fd hfd
    rw [hending] at hne
    exact h.gone hne fd (hapart.fdmap c' hc fd hfd)
  · rw [hending]
    exact h.answered

theorem ending_chunk (h : ending dejson s events c = .served) (data : Bytes) :
    ending dejson s (events ++ [(c, data)]) c =
      outcome (fate dejson s c) (requests (stream events c)).length
        (requests (rest newline (stream events c) ++ data)) ∧
    due dejson s (events ++ [(c, data)]) c = due dejson s events c ++
      through (fate dejson s c) (requests (stream events c)).length
        (requests (rest newline (stream events c) ++ data)) ∧
    requests (stream (events ++ [(c, data)]) c) = requests (stream events c) ++
      requests (rest newline (stream events c) ++ data) := by
  unfold ending at h
  unfold ending due
  rw [stream_same, requests_append, outcome_append, if_pos h, Nat.zero_add, through_append,
    if_pos h, Nat.zero_add, through_of_served h]
  exact ⟨rfl, rfl, rfl⟩

theorem serve_wp {data : Bytes} (h : UpToDate dejson s events t) (hc : s.Fresh c)
    (hdata : data ≠ []) :
    wp (serve dejson answer c data)
      (fun _ => UpToDate dejson s (events ++ [(c, data)]))
      (fun _ u => s.poll ≠ none ∧ ending dejson s (events ++ [(c, data)]) c = .unanswered ∧
        ∀ c', s.Fresh c' → u.lines c' = due dejson s (events ++ [(c, data)]) c') t := by
  have hcurrent := h.current c hc
  simp only [serve, wp_bind, wp_state]
  by_cases hending : ending dejson s events c = .served
  · obtain ⟨hreg, hbuffer, hsends⟩ := hcurrent.served hending
    obtain ⟨hending', hdue, hrequests⟩ := ending_chunk hending data
    have hfate : fate dejson t c = fate dejson s c := by
      unfold fate
      rw [h.sending]
    have hpoll : t.poll = none ↔ s.poll = none := by
      rw [← Option.not_isSome_iff_eq_none, h.poll, Option.not_isSome_iff_eq_none]
    rw [if_pos hreg.is_polled, handleCommands_data hdata]
    change wp (rescue (receive dejson answer c data) _) _ _ t
    apply (receive_wp hreg hbuffer).mono
    · intro _ u hu
      have hother (hapart : Apart c t u) {c' : Socket} (hc' : s.Fresh c') (he : c' ≠ c) :=
        (h.current c' hc').other hapart he data
      obtain hu | ⟨hu, hout⟩ := hu
      · have hpassed := hu.toPassed
        have houtcome := hu.outcome
        rw [hfate, hsends] at houtcome
        refine ⟨hpassed.apart.sending.trans h.sending, hpassed.apart.poll.trans h.poll,
          fun c' hc' => ?_⟩
        by_cases he : c' = c
        · subst he
          have hserved := hending'.trans houtcome
          constructor
          · rw [hpassed.lines, hcurrent.lines, hdue, through_of_served houtcome]
          · intro _
            refine ⟨hu.registered, ?_, ?_⟩
            · rw [hu.buffer, stream_same, rest_append (stream events c')]
            · rw [hu.sends, hsends, hrequests, List.length_append]
          · exact fun hne => absurd hserved hne
          · intro hun
            rw [hserved] at hun
            cases hun
        · exact hother hpassed.apart hc' he
      · have hpassed := hu.toPassed
        have houtcome := hu.outcome
        rw [hfate, hsends] at hpassed houtcome hout
        refine ⟨hpassed.apart.sending.trans h.sending, hpassed.apart.poll.trans h.poll,
          fun c' hc' => ?_⟩
        by_cases he : c' = c
        · subst he
          constructor
          · rw [hpassed.lines, hcurrent.lines, hdue]
          · exact fun hserved => absurd (hending'.symm.trans hserved) houtcome
          · exact fun _ => hu.removed.fdmap
          · intro hun
            obtain hrefused | hnone := hout
            · rw [hending', hrefused] at hun
              cases hun
            · exact hpoll.mp hnone
        · exact hother hpassed.apart hc' he
    · intro _ u hu
      obtain ⟨hpassed, hout, hnone⟩ := hu
      rw [hfate, hsends] at hpassed hout
      refine ⟨fun hs => hnone (hpoll.mpr hs), hending'.trans hout, fun c' hc' => ?_⟩
      by_cases he : c' = c
      · subst he
        rw [hpassed.lines, hcurrent.lines, hdue]
      · exact ((h.current c' hc').other hpassed.apart he data).lines
  · have hpolled : ¬t.polled c := fun hp => hcurrent.gone hending _ hp.2
    obtain ⟨hending', hdue⟩ := ending_append hending [(c, data)]
    rw [if_neg hpolled, wp_pure]
    refine ⟨h.sending, h.poll, fun c' hc' => ?_⟩
    have hcurrent' := h.current c' hc'
    by_cases he : c' = c
    · subst he
      constructor
      · rw [hdue]
        exact hcurrent'.lines
      · intro hserved
        exact absurd (hending'.symm.trans hserved) hending
      · exact fun _ => hcurrent'.gone hending
      · rw [hending']
        exact hcurrent'.answered
    · exact hcurrent'.other (Apart.refl c t) he data

variable (dejson answer) in
theorem serveAll_wp (hevents : ∀ p ∈ events, s.Fresh p.1 ∧ p.2 ≠ []) :
    wp (serveAll dejson answer events) (fun _ => UpToDate dejson s events)
      (fun _ => Down dejson s events) s := by
  have hloop := wp_forEach (f := fun p : Socket × Bytes => serve dejson answer p.1 p.2)
    (I := fun rest t => ∃ pre, events = pre ++ rest ∧ UpToDate dejson s pre t)
    (E := fun _ => Down dejson s events) (l := events) (s := s)
    (fun p rest t hp ht => by
      obtain ⟨pre, hpre, ht⟩ := ht
      obtain ⟨hfresh, hdata⟩ := hevents p hp
      apply (serve_wp ht hfresh hdata).mono
      · intro _ u hu
        exact ⟨pre ++ [p], by rw [hpre, List.append_assoc]; rfl, hu⟩
      · intro _ u hu
        obtain ⟨hpoll, hending, hlines⟩ := hu
        refine ⟨hpoll, pre, p, rest, hpre, ?_, ⟨p.1, hfresh, hending⟩, hlines⟩
        exact fun c hc hun => hpoll ((ht.current c hc).answered hun))
    ⟨[], rfl, upToDate_start⟩
  apply hloop.mono
  · intro _ t ht
    obtain ⟨pre, hpre, ht⟩ := ht
    rwa [hpre, List.append_nil]
  · exact fun _ _ h => h

/-- Where an answer is lost, no client has another line to be handled. -/
def NothingDue (dejson : Bytes → Except Error Json) (s : Server)
    (events : List (Socket × Bytes)) : Prop :=
  ∀ pre post, events = pre ++ post → (∃ c, s.Fresh c ∧ ending dejson s pre c = .unanswered) →
    ∀ c, s.Fresh c → due dejson s pre c = due dejson s events c

/-- However the clients' streams are cut and interleaved, the lines that are handled are those
that are due, provided that none are due after an answer was lost. -/
theorem serveAll_lines (hevents : ∀ p ∈ events, s.Fresh p.1 ∧ p.2 ≠ []) :
    (∀ c, s.Fresh c →
      ((serveAll dejson answer events).run s).2.lines c = due dejson s events c) ↔
    s.poll = none ∨ NothingDue dejson s events := by
  have hwp := serveAll_wp dejson answer hevents
  rcases hrun : (serveAll dejson answer events).run s with ⟨e | _, t⟩
  · obtain ⟨hpoll, pre, p, post, rfl, hbefore, hlost, hlines⟩ := wp_of_eq_error hwp hrun
    have hsplit : pre ++ p :: post = (pre ++ [p]) ++ post := by rw [List.append_assoc]; rfl
    constructor
    · intro hall
      right
      intro pre' post' hpre ⟨c', hc', hlost'⟩ c hc
      have hle : pre' <+: pre ++ p :: post := ⟨post', hpre.symm⟩
      have hlonger : pre ++ [p] <+: pre' := by
        apply List.prefix_of_prefix_length_le ⟨post, hsplit.symm⟩ hle
        by_contra hshort
        rw [List.length_append, List.length_singleton, not_le, Nat.lt_succ_iff] at hshort
        obtain ⟨r, rfl⟩ := List.prefix_of_prefix_length_le hle (List.prefix_append _ _) hshort
        apply hbefore c' hc'
        rw [(ending_append (by rw [hlost']; exact nofun) _).1, hlost']
      obtain ⟨r, rfl⟩ := hlonger
      have hdue := hall c hc
      rw [hlines c hc] at hdue
      have hmore : due dejson s (pre ++ [p] ++ r) c <+: due dejson s (pre ++ p :: post) c := by
        rw [hpre]
        exact due_prefix
      have hfirst : due dejson s (pre ++ [p]) c <+: due dejson s (pre ++ [p] ++ r) c := due_prefix
      apply hmore.eq_of_length_le
      rw [← hdue]
      exact hfirst.length_le
    · intro hcond c hc
      obtain hnone | hcond := hcond
      · exact absurd hnone hpoll
      · rw [hlines c hc]
        exact hcond _ _ hsplit hlost c hc
  · have ht := wp_of_eq_ok hwp hrun
    apply iff_of_true
    · exact fun c hc => (ht.current c hc).lines
    · by_cases hpoll : s.poll = none
      · exact .inl hpoll
      · right
        intro pre post hpre ⟨c, hc, hlost⟩
        have hending : ending dejson s events c = .unanswered := by
          rw [hpre, (ending_append (by rw [hlost]; exact nofun) _).1, hlost]
        exact absurd ((ht.current c hc).answered hending) hpoll

def twoClients (sending : Except Error Unit) : Server :=
  ((Server.new Controller.Setup.quiet.start (some ∅) Nat.cast fun c _ =>
    if c = 0 then sending else .ok ()).accepted 0).accepted 1

theorem twoClients_fresh (sending : Except Error Unit) :
    (twoClients sending).Fresh 0 ∧ (twoClients sending).Fresh 1 := by
  have h0 : (Server.new Controller.Setup.quiet.start (some ∅) Nat.cast fun c _ =>
      if c = 0 then sending else .ok ()).Unknown 0 := ⟨le_rfl, nofun, rfl⟩
  have h1 : ((Server.new Controller.Setup.quiet.start (some ∅) Nat.cast fun c _ =>
      if c = 0 then sending else .ok ()).accepted 0).Unknown 1 := by
    refine ⟨Int.one_nonneg, ?_, rfl⟩
    intro fd hfd
    change (Dict.empty.set (0 : ℤ) (0 : Socket)).get? fd = some 1 at hfd
    rw [Dict.get?_set] at hfd
    split at hfd <;> cases hfd
  exact ⟨⟨h1.apart.registered 0 nofun h0.registered, rfl, rfl, rfl⟩, ⟨h1.registered, rfl, rfl, rfl⟩⟩

theorem outcome_ne_unanswered (h : ∀ n, (s.sending c n).isOk) (n : ℕ) (ls : List Bytes) :
    outcome (fate dejson s c) n ls ≠ .unanswered := by
  induction ls generalizing n with
  | nil => simp [outcome]
  | cons line ls ih =>
    unfold outcome
    split
    · exact ih (n + 1)
    · unfold fate
      rw [if_pos (h n)]
      split <;> simp

theorem serveAll_lines_cut :
    (twoClients (.ok ())).Fresh 0 ∧
      ((serveAll asksVersion answersVersion [(0, [118]), (1, [49, 10]), (0, [49, 10, 10])]).run
        (twoClients (.ok ()))).2.lines 0 = [[118, 49]] := by
  obtain ⟨h0, h1⟩ := twoClients_fresh (.ok ())
  have hall := (@serveAll_lines (twoClients (.ok ()))
    [(0, [118]), (1, [49, 10]), (0, [49, 10, 10])] asksVersion answersVersion (by
      intro p hp
      simp only [List.mem_cons, List.not_mem_nil, or_false] at hp
      obtain rfl | rfl | rfl := hp
      · exact ⟨h0, nofun⟩
      · exact ⟨h1, nofun⟩
      · exact ⟨h0, nofun⟩)).mpr (.inr (by
        intro _ _ _ ⟨c, _, hlost⟩
        refine absurd hlost (outcome_ne_unanswered (fun n => ?_) _ _)
        change (if c = 0 then Except.ok () else Except.ok () : Except Error Unit).isOk
        split <;> rfl))
  exact ⟨h0, (hall 0 h0).trans (by decide)⟩

/-- The server is down after the first answer, and the second client's line is not handled. -/
theorem serveAll_not_lines : ¬∀ (dejson : Bytes → Except Error Json)
    (answer : Answers) (s : Server) (events : List (Socket × Bytes)),
    (∀ p ∈ events, s.Fresh p.1 ∧ p.2 ≠ []) → ∀ c, s.Fresh c →
      ((serveAll dejson answer events).run s).2.lines c = due dejson s events c := by
  intro h
  obtain ⟨h0, h1⟩ := twoClients_fresh (.error (.osError "Broken pipe"))
  have hall := h asksVersion answersVersion (twoClients (.error (.osError "Broken pipe")))
    [(0, [118, 10]), (1, [118, 10])]
    (by
      intro p hp
      simp only [List.mem_cons, List.not_mem_nil, or_false] at hp
      obtain rfl | rfl := hp
      · exact ⟨h0, nofun⟩
      · exact ⟨h1, nofun⟩) 1 h1
  have hlines : ((serveAll asksVersion answersVersion [(0, [118, 10]), (1, [118, 10])]).run
      (twoClients (.error (.osError "Broken pipe")))).2.lines 1 = [] := by decide +kernel
  have hdue : due asksVersion (twoClients (.error (.osError "Broken pipe")))
      [(0, [118, 10]), (1, [118, 10])] 1 = [[118]] := by decide
  rw [hlines, hdue] at hall
  cases hall

end SpallocServer.Server
