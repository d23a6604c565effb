import Mathlib.Data.List.Chain
import Mathlib.Data.List.Forall2
import SpallocServer.AsyncBmpController.Attempts

namespace SpallocServer.AsyncBmpController

open Foundation Prog

variable {α β : Type} {s s' s'' : Surroundings} {l l' : List (Command × Except String ℤ)}

abbrev Entry := Command × Except String ℤ

def Surroundings.log (s : Surroundings) : List Entry :=
  s.sent.mapIdx fun n c => (c, s.reply n)

/-- Commands have been sent, and nobody has been called back. -/
structure Sends (s : Surroundings) (l : List Entry) (s' : Surroundings) : Prop
    extends Uncalled s s' where
  reply : s'.reply = s.reply
  log : s'.log = s.log ++ l

theorem Sends.refl (s : Surroundings) : Sends s [] s :=
  ⟨.refl s, rfl, (List.append_nil _).symm⟩

theorem Sends.trans (h : Sends s l s') (h' : Sends s' l' s'') : Sends s (l ++ l') s'' :=
  ⟨h.toUncalled.trans h'.toUncalled, h'.reply.trans h.reply,
    by rw [h'.log, h.log, List.append_assoc]⟩

def Does (m : Prog String Surroundings α) (P : Except String α → List Entry → Prop) : Prop :=
  ∀ s, wp m (fun a s' => ∃ l, Sends s l s' ∧ P (.ok a) l)
    (fun e s' => ∃ l, Sends s l s' ∧ P (.error e) l) s

section Rules

variable {m : Prog String Surroundings α} {f : α → Prog String Surroundings β}
  {P : Except String α → List Entry → Prop} {R : Except String β → List Entry → Prop}

theorem does_pure {a : α} (h : P (.ok a) []) : Does (pure a) P := fun s => ⟨[], .refl s, h⟩

theorem does_raise {e : String} (h : P (.error e) []) : Does (raise e) P :=
  fun s => ⟨[], .refl s, h⟩

theorem Does.bind (hm : Does m P) (herror : ∀ e l, P (.error e) l → R (.error e) l)
    (hok : ∀ a l, P (.ok a) l → Does (f a) fun x l' => R x (l ++ l')) : Does (m >>= f) R := by
  intro s
  rw [wp_bind]
  apply (hm s).mono
  · intro a s' ⟨l, hsends, hp⟩
    apply (hok a l hp s').mono
    · exact fun b _ ⟨l', hsends', hr⟩ => ⟨l ++ l', hsends.trans hsends', hr⟩
    · exact fun e _ ⟨l', hsends', hr⟩ => ⟨l ++ l', hsends.trans hsends', hr⟩
  · exact fun e s' ⟨l, hsends, hp⟩ => ⟨l, hsends, herror e l hp⟩

theorem Does.mono {P' : Except String α → List Entry → Prop} (h : Does m P)
    (hp : ∀ x l, P x l → P' x l) : Does m P' := by
  intro s
  apply (h s).mono
  · exact fun a _ ⟨l, hsends, hl⟩ => ⟨l, hsends, hp _ l hl⟩
  · exact fun e _ ⟨l, hsends, hl⟩ => ⟨l, hsends, hp _ l hl⟩

theorem does_command {c : Command} {P : Except String ℤ → List Entry → Prop}
    (h : ∀ x, P x [(c, x)]) : Does (command c) P := by
  intro s
  have hsends : Sends s [(c, s.reply s.sent.length)] { s with sent := s.sent ++ [c] } :=
    ⟨⟨rfl, rfl⟩, rfl, by simp [Surroundings.log, List.mapIdx_append]⟩
  simp only [command, wp_bind, wp_state, wp_update]
  apply wp_ofExcept
  · intro a ha
    rw [ha] at hsends
    exact ⟨_, hsends, h _⟩
  · intro e he
    rw [he] at hsends
    exact ⟨_, hsends, h _⟩

theorem Does.run (h : Does m P) (s : Surroundings) :
    ∃ l, Sends s l (m.run s).2 ∧ P (m.run s).1 l := by
  have hs := h s
  unfold wp at hs
  rcases hrun : m.run s with ⟨e | a, s'⟩ <;> rw [hrun] at hs <;> exact hs

end Rules

def Raised (l : List Entry) : Prop := ∃ p ∈ l, ∃ e, p.2 = .error e

def oldBmp : Except String ℤ → Bool
  | .ok version => version < bmpVerMin
  | .error _ => false

def ownId (fpga : ℕ) : Except String ℤ → Bool
  | .ok flag => fpgaFlagId flag = fpga
  | .error _ => false

def wrongId (fpga : ℕ) : Except String ℤ → Bool
  | .ok flag => fpgaFlagId flag ≠ fpga
  | .error _ => false

def ownIds : List ℕ → List (Except String ℤ) → Bool
  | [], [] => true
  | fpga :: fpgas, flag :: flags => ownId fpga flag && ownIds fpgas flags
  | _, _ => false

def wrongIds : List ℕ → List (Except String ℤ) → Bool
  | fpga :: fpgas, flag :: flags => wrongId fpga flag || wrongIds fpgas flags
  | _, _ => false

structure Check where
  board : ℤ
  version : Except String ℤ
  flags : List (Except String ℤ)
  few : flags.length ≤ nFpgas
  skipped : oldBmp version → flags = []

namespace Check

def unread (board : ℤ) (version : Except String ℤ) : Check :=
  ⟨board, version, [], Nat.zero_le _, fun _ => rfl⟩

def good (c : Check) : Bool := oldBmp c.version || ownIds (List.range nFpgas) c.flags

def bad (c : Check) : Bool := wrongIds (List.range nFpgas) c.flags

def flagLog (board : ℤ) (fpgas : List ℕ) (flags : List (Except String ℤ)) : List Entry :=
  (fpgas.zip flags).map fun p => (.readFpgaRegister p.1 fpgaFlagRegisterAddress board, p.2)

@[simp] theorem flagLog_nil (board : ℤ) (fpgas : List ℕ) : flagLog board fpgas [] = [] := by
  simp only [flagLog, List.zip_nil_right, List.map_nil]

@[simp] theorem flagLog_cons (board : ℤ) (fpga : ℕ) (fpgas : List ℕ) (flag : Except String ℤ)
    (flags : List (Except String ℤ)) : flagLog board (fpga :: fpgas) (flag :: flags) =
      (.readFpgaRegister fpga fpgaFlagRegisterAddress board, flag) :: flagLog board fpgas flags :=
  rfl

def log (c : Check) : List Entry :=
  (.readBmpVersion c.board, c.version) :: flagLog c.board (List.range nFpgas) c.flags

end Check

/-- Boards that are powered on together, and their checks. -/
structure Round where
  boards : List ℤ
  powered : Except String ℤ
  checks : List Check

namespace Round

def log (r : Round) : List Entry := (.powerOn r.boards, r.powered) :: r.checks.flatMap Check.log

def failed (r : Round) : List ℤ := (r.checks.filter Check.bad).map (·.board)

structure Complete (r : Round) : Prop where
  checked : r.checks.map (·.board) = r.boards
  settled : ∀ c ∈ r.checks, c.good = !c.bad
  answered : ¬Raised r.log

def Verifies (r : Round) (board : ℤ) : Prop :=
  (∃ c ∈ r.checks, c.board = board) ∧ ∀ c ∈ r.checks, c.board = board → c.good

end Round

/-- The rounds there can be with a number of tries left. -/
inductive Powers : ℕ → List ℤ → List Round → Except String Unit → Prop where
  | exhausted {boards e} : Powers 0 boards [] (.error e)
  | raised {tries r e} (h : Raised r.log) : Powers (tries + 1) r.boards [r] (.error e)
  | done {tries r} (h : r.Complete) (hgood : r.failed = []) : Powers (tries + 1) r.boards [r] (.ok ())
  | retry {tries r rounds x} (h : r.Complete) (hbad : r.failed ≠ [])
      (hrest : Powers tries r.failed rounds x) : Powers (tries + 1) r.boards (r :: rounds) x

theorem raised_append : Raised (l ++ l') ↔ Raised l ∨ Raised l' := by
  simp only [Raised, List.mem_append, or_and_right, exists_or]

theorem not_raised_nil : ¬Raised [] := nofun

def Passes (x : Except String α) (l : List Entry) (h : α → Prop) : Prop :=
  match x with
  | .ok a => ¬Raised l ∧ h a
  | .error _ => Raised l

theorem Passes.imp {x : Except String α} {h h' : α → Prop} (hx : Passes x l h)
    (himp : ∀ a, h a → h' a) : Passes x l h' := by
  cases x with
  | error e => exact hx
  | ok a => exact ⟨hx.1, himp a hx.2⟩

theorem passes_append {x : Except String α} {h : α → Prop} (hn : ¬Raised l) :
    Passes x (l ++ l') h ↔ Passes x l' h := by
  cases x with
  | error e => simp only [Passes, raised_append, hn, false_or]
  | ok a => simp only [Passes, raised_append, hn, false_or]

theorem does_command_passes (c : Command) : Does (command c) fun x l =>
    l = [(c, x)] ∧ Passes x l fun _ => True := by
  apply does_command
  intro x
  refine ⟨rfl, ?_⟩
  cases x with
  | error e => exact ⟨_, List.mem_singleton_self _, e, rfl⟩
  | ok a =>
    refine ⟨?_, trivial⟩
    simp [Raised]

theorem goodFpga_does (board : ℤ) (fpga : ℕ) : Does (goodFpga board fpga) fun x l =>
    ∃ flag, l = [(.readFpgaRegister fpga fpgaFlagRegisterAddress board, flag)] ∧
      Passes x l fun good => good = ownId fpga flag ∧ good = !wrongId fpga flag := by
  apply (does_command_passes _).bind
  · exact fun e l ⟨hl, hraised⟩ => ⟨.error e, hl, hraised⟩
  · intro flag l ⟨hl, hn, _⟩
    apply does_pure
    rw [List.append_nil]
    refine ⟨.ok flag, hl, hn, rfl, ?_⟩
    simp only [wrongId, ne_eq, decide_not, Bool.not_not]

theorem goodFpgas_does (board : ℤ) (fpgas : List ℕ) : Does (goodFpgas board fpgas) fun x l =>
    ∃ flags, flags.length ≤ fpgas.length ∧ l = Check.flagLog board fpgas flags ∧
      Passes x l fun good => good = ownIds fpgas flags ∧ good = !wrongIds fpgas flags := by
  induction fpgas with
  | nil => exact does_pure ⟨[], Nat.le_refl _, rfl, not_raised_nil, rfl, rfl⟩
  | cons fpga fpgas ih =>
    apply (goodFpga_does board fpga).bind
    · intro e l ⟨flag, hl, hraised⟩
      exact ⟨[flag], by simp, by rw [hl, Check.flagLog_cons, Check.flagLog_nil], hraised⟩
    · intro good l ⟨flag, hl, hn, hgood, hwrong⟩
      cases good with
      | false =>
        apply does_pure
        rw [List.append_nil]
        refine ⟨[flag], by simp, by rw [hl, Check.flagLog_cons, Check.flagLog_nil], hn, ?_, ?_⟩
        · rw [ownIds, ← hgood, Bool.false_and]
        · rw [wrongIds, Bool.not_or, ← hwrong, Bool.false_and]
      | true =>
        apply ih.mono
        intro x l' ⟨flags, hfew, hl', hpass⟩
        refine ⟨flag :: flags, Nat.succ_le_succ hfew,
          by rw [hl, hl', Check.flagLog_cons, List.singleton_append], ?_⟩
        rw [passes_append hn, ownIds, wrongIds, Bool.not_or, ← hgood, ← hwrong, Bool.true_and,
          Bool.true_and]
        exact hpass

theorem retryBoards_does (boards : List ℤ) : Does (retryBoards boards) fun x l =>
    ∃ checks : List Check, l = checks.flatMap Check.log ∧ Passes x l fun retry =>
      checks.map (·.board) = boards ∧ (∀ c ∈ checks, c.good = !c.bad) ∧
        retry = (checks.filter Check.bad).map (·.board) := by
  induction boards with
  | nil => exact does_pure ⟨[], rfl, not_raised_nil, rfl, nofun, rfl⟩
  | cons board boards ih =>
    apply (does_command_passes _).bind
    · intro e l ⟨hl, hraised⟩
      exact ⟨[.unread board (.error e)], by simp [hl, Check.log, Check.unread], hraised⟩
    · intro version l ⟨hl, hn, _⟩
      by_cases hold : version < bmpVerMin
      · rw [if_pos hold]
        apply ih.mono
        intro x l' ⟨checks, hl', hpass⟩
        let c : Check := .unread board (.ok version)
        have hold' : oldBmp c.version = true := decide_eq_true hold
        have hgood : c.good = true := by rw [Check.good, hold', Bool.true_or]
        have hbad : c.bad = false := rfl
        refine ⟨c :: checks, by simp [hl, hl', c, Check.log, Check.unread], ?_⟩
        apply ((passes_append hn).mpr hpass).imp
        intro retry ⟨hboards, hsettled, hretry⟩
        refine ⟨by rw [List.map_cons, hboards]; rfl, ?_, ?_⟩
        · exact List.forall_mem_cons.mpr ⟨by rw [hgood, hbad, Bool.not_false], hsettled⟩
        · rw [hretry, List.filter_cons_of_neg (by rw [hbad]; exact Bool.false_ne_true)]
      · rw [if_neg hold]
        have hskipped (flags : List (Except String ℤ)) : oldBmp (.ok version) → flags = [] :=
          fun h => absurd (of_decide_eq_true h) hold
        apply (goodFpgas_does board _).bind
        · intro e l' ⟨flags, hfew, hl', hpass⟩
          exact ⟨[⟨board, .ok version, flags, hfew, hskipped flags⟩], by simp [hl, hl', Check.log],
            (passes_append hn).mpr hpass⟩
        · intro good l' ⟨flags, hfew, hl', hn', hgood, hbad⟩
          let c : Check := ⟨board, .ok version, flags, hfew, hskipped flags⟩
          have hcheck : c.good = good := by
            rw [Check.good, oldBmp, decide_eq_false hold, Bool.false_or, ← hgood]
          have hsettles : good = !c.bad := hbad
          have hlog : c.log = l ++ l' := by rw [hl, hl']; rfl
          apply ih.bind
          · intro e l'' ⟨checks, hl'', hpass⟩
            exact ⟨c :: checks, by simp [hlog, hl''],
              (passes_append hn).mpr ((passes_append hn').mpr hpass)⟩
          · intro retry l'' ⟨checks, hl'', hn'', hboards, hsettled, hretry⟩
            apply does_pure
            rw [List.append_nil]
            refine ⟨c :: checks, by simp [hlog, hl''], ?_⟩
            refine (passes_append hn).mpr ((passes_append hn').mpr ⟨hn'', ?_, ?_, ?_⟩)
            · rw [List.map_cons, hboards]
            · exact List.forall_mem_cons.mpr ⟨hcheck.trans hsettles, hsettled⟩
            · cases good with
              | true =>
                have hfine : c.bad = false := by simpa using hsettles.symm
                rw [if_pos rfl, hretry, List.filter_cons_of_neg (by simp [hfine])]
              | false =>
                have hwrong : c.bad = true := by simpa using hsettles.symm
                rw [if_neg Bool.false_ne_true, hretry, List.filter_cons_of_pos hwrong]
                rfl

theorem powerOnAndCheck_does (tries : ℕ) (boards : List ℤ) :
    Does (powerOnAndCheck boards tries) fun x l =>
      ∃ rounds, l = rounds.flatMap Round.log ∧ Powers tries boards rounds x := by
  induction tries generalizing boards with
  | zero => exact does_raise ⟨[], rfl, .exhausted⟩
  | succ tries ih =>
    apply (does_command_passes _).bind
    · intro e l ⟨hl, hraised⟩
      let r : Round := ⟨boards, .error e, []⟩
      have hlog : r.log = l := hl.symm
      exact ⟨[r], by simp [hlog], .raised (r := r) (hlog ▸ hraised)⟩
    · intro powered l ⟨hl, hn, _⟩
      apply (retryBoards_does boards).bind
      · intro e l' ⟨checks, hl', hraised⟩
        let r : Round := ⟨boards, .ok powered, checks⟩
        have hlog : r.log = l ++ l' := by rw [hl, hl']; rfl
        exact ⟨[r], by simp [hlog], .raised (r := r) (hlog ▸ raised_append.mpr (.inr hraised))⟩
      · intro retry l' ⟨checks, hl', hn', hchecked, hsettled, hretry⟩
        let r : Round := ⟨boards, .ok powered, checks⟩
        have hlog : r.log = l ++ l' := by rw [hl, hl']; rfl
        have hcomplete : r.Complete :=
          ⟨hchecked, hsettled, by rw [hlog, raised_append, not_or]; exact ⟨hn, hn'⟩⟩
        have hfailed : r.failed = retry := hretry.symm
        by_cases hdone : retry = []
        · rw [if_pos hdone]
          apply does_pure
          exact ⟨[r], by simp [hlog], .done hcomplete (hfailed.trans hdone)⟩
        · rw [if_neg hdone]
          apply (ih retry).mono
          intro x l'' ⟨rounds, hl'', hpowers⟩
          refine ⟨r :: rounds, by simp [hlog, hl''], .retry hcomplete ?_ (hfailed ▸ hpowers)⟩
          rwa [hfailed]

section Powers

variable {tries : ℕ} {boards : List ℤ} {rounds : List Round} {x : Except String Unit}

theorem Powers.length_le (h : Powers tries boards rounds x) : rounds.length ≤ tries := by
  induction h with
  | exhausted => exact Nat.le_refl 0
  | raised _ | done _ _ => simp
  | retry _ _ _ ih => simpa using ih

theorem Powers.head (h : Powers tries boards rounds x) : ∀ r ∈ rounds.head?, r.boards = boards := by
  cases h with
  | exhausted => exact nofun
  | raised _ | done _ _ | retry _ _ _ => simp

theorem Powers.ne_nil (h : Powers (tries + 1) boards rounds x) : rounds ≠ [] := by
  cases h with
  | raised _ | done _ _ | retry _ _ _ => exact List.cons_ne_nil _ _

theorem Powers.chain (h : Powers tries boards rounds x) :
    rounds.IsChain fun r r' => r.Complete ∧ r'.boards = r.failed := by
  induction h with
  | exhausted => exact .nil
  | raised _ | done _ _ => exact .singleton _
  | retry h _ hrest ih => exact ih.cons fun r hr => ⟨h, hrest.head r hr⟩

theorem mem_boards_of_failed {r : Round} (h : r.Complete) {b : ℤ} (hb : b ∈ r.failed) :
    b ∈ r.boards := by
  rw [← h.checked]
  exact (List.filter_sublist.map _).subset hb

theorem Powers.subset (h : Powers tries boards rounds x) {r : Round} (hr : r ∈ rounds) :
    r.boards ⊆ boards := by
  induction h with
  | exhausted => cases hr
  | raised _ | done _ _ =>
    rw [List.mem_singleton.mp hr]
    exact List.Subset.refl _
  | retry h _ _ ih =>
    obtain rfl | hr := List.mem_cons.mp hr
    · exact List.Subset.refl _
    · exact fun b hb => mem_boards_of_failed h (ih hr hb)

theorem Round.Complete.verifies {r : Round} (h : r.Complete) {b : ℤ} (hb : b ∈ r.boards)
    (hgood : b ∉ r.failed) : r.Verifies b := by
  rw [← h.checked] at hb
  obtain ⟨c, hc, hcb⟩ := List.mem_map.mp hb
  refine ⟨⟨c, hc, hcb⟩, fun c hc hcb => ?_⟩
  rw [h.settled c hc, Bool.not_eq_true']
  by_contra hbad
  apply hgood
  rw [← hcb]
  exact List.mem_map_of_mem (List.mem_filter.mpr ⟨hc, by simpa using hbad⟩)

theorem Powers.verified (h : Powers tries boards rounds (.ok ())) {b : ℤ} (hb : b ∈ boards) :
    ∃ before r after, rounds = before ++ r :: after ∧ (b ∈ r.boards ∧ r.Verifies b) ∧
      ∀ r' ∈ after, b ∉ r'.boards := by
  generalize hx : Except.ok () = x at h
  induction h with
  | exhausted | raised _ => cases hx
  | @done _ r h hgood =>
    have hnot : b ∉ r.failed := by
      rw [hgood]
      exact List.not_mem_nil
    exact ⟨[], r, [], rfl, ⟨hb, h.verifies hb hnot⟩, nofun⟩
  | @retry _ r rounds _ h _ hrest ih =>
    by_cases hfailed : b ∈ r.failed
    · obtain ⟨before, r', after, hrounds, hverified, hafter⟩ := ih hfailed hx
      exact ⟨r :: before, r', after, by rw [hrounds, List.cons_append], hverified, hafter⟩
    · exact ⟨[], r, rounds, rfl, ⟨hb, h.verifies hb hfailed⟩,
        fun r' hr' hb' => hfailed (hrest.subset hr' hb')⟩

theorem Powers.raises_iff (h : Powers (tries + 1) boards rounds x) : (∃ e, x = .error e) ↔
    Raised (rounds.flatMap Round.log) ∨ ∃ r, rounds[tries]? = some r ∧ r.failed ≠ [] := by
  induction tries generalizing boards rounds with
  | zero =>
    cases h with
    | raised h => exact iff_of_true ⟨_, rfl⟩ (.inl (by simpa using h))
    | done h hgood => exact iff_of_false nofun (by simp [h.answered, hgood])
    | retry h hbad hrest =>
      cases hrest
      exact iff_of_true ⟨_, rfl⟩ (.inr ⟨_, rfl, hbad⟩)
  | succ tries ih =>
    cases h with
    | raised h => exact iff_of_true ⟨_, rfl⟩ (.inl (by simpa using h))
    | done h hgood => exact iff_of_false nofun (by simp [h.answered])
    | retry h hbad hrest =>
      rw [ih hrest, List.flatMap_cons, raised_append, List.getElem?_cons_succ]
      simp only [h.answered, false_or]

end Powers

/-- The link is set, with the version of the BMP read before. -/
def Written (request : LinkRequest) (l : List Entry) : Prop :=
  ∃ version answer, ¬version < bmpVerMin ∧ l = [(.readBmpVersion request.board, .ok version),
    (.writeFpgaRegister (fpgaLinkStopRegister request.link).1 (fpgaLinkStopRegister request.link).2
      (if request.enable then 0 else 1) request.board, .ok answer)]

def Skipped (request : LinkRequest) (l : List Entry) : Prop :=
  ∃ version < bmpVerMin, l = [(.readBmpVersion request.board, .ok version)]

/-- What is done for a link of a request. -/
def LinkSet (request : LinkRequest) (l : List Entry) : Prop :=
  Written request l ∨ Skipped request l

/-- What powering on and checking boards has sent, and how it ended. -/
structure PowersOn (boards : List ℤ) (rounds : List Round) (x : Except String Unit) : Prop where
  nonempty : rounds ≠ []
  most : rounds.length ≤ nFpgaRetries
  first : ∀ r ∈ rounds.head?, r.boards = boards
  next : rounds.IsChain fun r r' => r.Complete ∧ r'.boards = r.failed
  verified : x = .ok () → ∀ b ∈ boards, ∃ before r after, rounds = before ++ r :: after ∧
    (b ∈ r.boards ∧ r.Verifies b) ∧ ∀ r' ∈ after, b ∉ r'.boards
  raises : (∃ e, x = .error e) ↔ Raised (rounds.flatMap Round.log) ∨
    ∃ r, rounds[nFpgaRetries - 1]? = some r ∧ r.failed ≠ []

theorem Powers.powersOn {boards : List ℤ} {rounds : List Round} {x : Except String Unit}
    (h : Powers nFpgaRetries boards rounds x) : PowersOn boards rounds x :=
  ⟨h.ne_nil, h.length_le, h.head, h.chain, fun hx _ => (hx ▸ h).verified, h.raises_iff⟩

/-- Everything that is requested is done: boards powered on and verified, then links set one after
the other, then boards powered off. -/
structure CarriedOut (set : LinkRequest → List Entry → Prop) (r : AtomicRequests)
    (l : List Entry) : Prop where
  done : ∃ on links off, l = on ++ links.flatten ++ off ∧
    (if r.powerOnBoards = [] then on = [] else
      ∃ rounds, on = rounds.flatMap Round.log ∧ PowersOn r.powerOnBoards rounds (.ok ())) ∧
    List.Forall₂ set r.linkRequests links ∧
    (if r.powerOffBoards = [] then off = [] else
      ∃ answer, off = [(.powerOff r.powerOffBoards, .ok answer)])

theorem setLinkState_does (request : LinkRequest) : Does (setLinkState request) fun x l =>
    x = .ok () → LinkSet request l := by
  apply (does_command_passes _).bind
  · exact nofun
  · intro version l ⟨hl, _⟩
    by_cases hold : version < bmpVerMin
    · rw [if_pos hold]
      apply does_pure
      rw [List.append_nil]
      exact fun _ => .inr ⟨version, hold, hl⟩
    · rw [if_neg hold]
      apply (does_command_passes _).bind
      · exact nofun
      · intro answer l' ⟨hl', _⟩
        apply does_pure
        rw [List.append_nil]
        exact fun _ => .inl ⟨version, answer, hold, by rw [hl, hl']; rfl⟩

theorem forEach_does {f : α → Prog String Surroundings Unit} {P : α → List Entry → Prop}
    (hf : ∀ a, Does (f a) fun x l => x = .ok () → P a l) (as : List α) :
    Does (forEach as f) fun x l => x = .ok () →
      ∃ parts : List (List Entry), l = parts.flatten ∧ List.Forall₂ P as parts := by
  induction as with
  | nil => exact does_pure fun _ => ⟨[], rfl, .nil⟩
  | cons a as ih =>
    apply (hf a).bind
    · exact nofun
    · intro _ l hl
      apply ih.mono
      intro x l' hl' hx
      obtain ⟨parts, hparts, hall⟩ := hl' hx
      exact ⟨l :: parts, by rw [hparts, List.flatten_cons], .cons (hl rfl) hall⟩

theorem powerOn_does (r : AtomicRequests) : Does (powerOn r) fun x l => x = .ok () →
    if r.powerOnBoards = [] then l = [] else
      ∃ rounds : List Round, l = rounds.flatMap Round.log ∧
        PowersOn r.powerOnBoards rounds (.ok ()) := by
  unfold powerOn
  by_cases h : r.powerOnBoards = []
  · rw [if_neg (not_not.mpr h)]
    exact does_pure fun _ => by rw [if_pos h]
  · rw [if_pos h]
    apply (powerOnAndCheck_does _ _).mono
    intro x l ⟨rounds, hl, hpowers⟩ hx
    rw [if_neg h]
    exact ⟨rounds, hl, hx ▸ hpowers.powersOn⟩

theorem powerOff_does (r : AtomicRequests) : Does (powerOff r) fun x l => x = .ok () →
    if r.powerOffBoards = [] then l = [] else
      ∃ answer, l = [(.powerOff r.powerOffBoards, .ok answer)] := by
  unfold powerOff
  by_cases h : r.powerOffBoards = []
  · rw [if_neg (not_not.mpr h)]
    exact does_pure fun _ => by rw [if_pos h]
  · rw [if_pos h]
    apply (does_command_passes _).bind
    · exact nofun
    · intro answer l ⟨hl, _⟩
      apply does_pure
      rw [List.append_nil, if_neg h]
      exact fun _ => ⟨answer, hl⟩

theorem carryOut_does (r : AtomicRequests) : Does (carryOut r) fun x l => x = .ok () →
    CarriedOut LinkSet r l := by
  apply (powerOn_does r).bind
  · exact nofun
  · intro _ on hon
    apply (forEach_does setLinkState_does r.linkRequests).bind
    · exact nofun
    · intro _ _ hlinks
      apply (powerOff_does r).mono
      intro x off hoff hx
      obtain ⟨links, rfl, hall⟩ := hlinks rfl
      exact ⟨on, links, off, (List.append_assoc _ _ _).symm, hon rfl, hall, hoff hx⟩

/-- Success has been reported as often as everything was done in one of the attempts. -/
def Reports (set : LinkRequest → List Entry → Prop) (r : AtomicRequests) (tries : ℕ)
    (s s' : Surroundings) : Prop :=
  ∃ attempts complete : List (List Entry), s'.log = s.log ++ attempts.flatten ∧
    attempts.length ≤ tries ∧ complete.Sublist attempts ∧ (∀ l ∈ complete, CarriedOut set r l) ∧
    s'.reported.countP (·.1) = s.reported.countP (·.1) + complete.length

section Reports

variable {set : LinkRequest → List Entry → Prop} {r : AtomicRequests} {tries : ℕ}

theorem Reports.again (success : Bool) (hsends : Sends s l s')
    (hdone : success → CarriedOut set r l)
    (h : Reports set r tries (if success then s'.called true none else s') s'') :
    Reports set r (tries + 1) s s'' := by
  obtain ⟨attempts, complete, hlog, hlen, hsub, hall, hcount⟩ := h
  cases success with
  | true =>
    refine ⟨l :: attempts, l :: complete, ?_, Nat.succ_le_succ hlen, hsub.cons_cons l,
      List.forall_mem_cons.mpr ⟨hdone rfl, hall⟩, ?_⟩
    · rw [hlog, List.flatten_cons, ← List.append_assoc, ← hsends.log]
      rfl
    · rw [hcount, List.length_cons, if_pos rfl, Surroundings.called, hsends.reported,
        List.countP_append]
      simp
      omega
  | false =>
    refine ⟨l :: attempts, complete, ?_, Nat.succ_le_succ hlen, hsub.cons l, hall, ?_⟩
    · rw [hlog, List.flatten_cons, ← List.append_assoc, ← hsends.log]
      rfl
    · rw [hcount, if_neg Bool.false_ne_true, hsends.reported]

theorem reports_none (s : Surroundings) : Reports set r tries s s :=
  ⟨[], [], (List.append_nil _).symm, Nat.zero_le _, .refl _, nofun, rfl⟩

theorem reports_failure (s : Surroundings) (reason : Option String) :
    Reports set r tries s (s.called false reason) :=
  ⟨[], [], (List.append_nil _).symm, Nat.zero_le _, .refl _, nofun,
    by simp [Surroundings.called]⟩

end Reports

theorem attempts_reports (hostname : String) (r : AtomicRequests) (tries : ℕ) (s : Surroundings) :
    wp (attempts hostname r tries) (fun _ => Reports LinkSet r tries s)
      (fun _ => Reports LinkSet r tries s) s := by
  induction tries generalizing s with
  | zero => exact reports_none s
  | succ tries ih =>
    -- the callback may raise as well, after which the request is tried again
    have hrest {t : Surroundings} {l : List Entry} (success : Bool) (hsends : Sends s l t)
        (hdone : success → CarriedOut LinkSet r l) :
        wp (if tries = 0 then onDone false (some s!"Requests failed on BMP {hostname}")
            else attempts hostname r tries) (fun _ => Reports LinkSet r (tries + 1) s)
          (fun _ => Reports LinkSet r (tries + 1) s)
          (if success then t.called true none else t) := by
      split
      · next h =>
        subst h
        apply wp_onDone
        · exact fun _ => .again _ hsends hdone (reports_failure _ _)
        · exact fun _ _ => .again _ hsends hdone (reports_failure _ _)
      · exact (ih _).mono (fun _ _ h => .again _ hsends hdone h) fun _ _ h => .again _ hsends hdone h
    unfold attempts
    rw [wp_rescue, wp_bind]
    apply (carryOut_does r s).mono
    · intro _ t hpost
      obtain ⟨l, hsends, hdone⟩ := hpost
      apply wp_onDone
      · exact fun _ => .again true hsends (fun _ => hdone rfl) (reports_none _)
      · exact fun _ _ => hrest true hsends fun _ => hdone rfl
    · intro _ t hpost
      obtain ⟨l, hsends, -⟩ := hpost
      exact hrest false hsends (by simp)

/-- Boards that are powered on without an exception have been verified, and success is reported
of what was done. -/
theorem success_genuine :
    (∀ (boards : List ℤ) (s : Surroundings), ∃ rounds : List Round,
      Sends s (rounds.flatMap Round.log) ((powerOnAndCheck boards nFpgaRetries).run s).2 ∧
        PowersOn boards rounds ((powerOnAndCheck boards nFpgaRetries).run s).1) ∧
      ∀ (hostname : String) (r : AtomicRequests) (s : Surroundings),
        Reports LinkSet r nRequestTries s ((process hostname r).run s).2 := by
  constructor
  · intro boards s
    obtain ⟨l, hsends, rounds, rfl, hpowers⟩ := (powerOnAndCheck_does nFpgaRetries boards).run s
    exact ⟨rounds, hsends, hpowers.powersOn⟩
  · exact fun hostname r s => wp_same (attempts_reports hostname r nRequestTries s)

def oldHardware : Surroundings where
  reply _ := .ok 1
  callback _ := .ok ()
  sent := []
  reported := []

/-- The links of boards with an old BMP are not written, and success is reported all the same. -/
theorem links_skipped : ¬∀ (hostname : String) (r : AtomicRequests) (s : Surroundings),
    Reports Written r nRequestTries s ((process hostname r).run s).2 := by
  intro h
  let r : AtomicRequests := (AtomicRequests.new 0).link 0 .east true
  obtain ⟨attempts, complete, hlog, -, hsub, hall, hcount⟩ := h "bmp" r oldHardware
  have hsent : ((process "bmp" r).run oldHardware).2.log = [(.readBmpVersion 0, .ok 1)] := by
    decide +kernel
  have hreported : ((process "bmp" r).run oldHardware).2.reported = [(true, none)] := rfl
  rw [hreported] at hcount
  obtain ⟨l, rfl⟩ := List.length_eq_one_iff.mp (by simpa [oldHardware] using hcount.symm)
  obtain ⟨on, links, off, hl, -, hlinks, -⟩ := (hall l (List.mem_singleton_self l)).done
  obtain ⟨link, _, ⟨version, answer, -, hlink⟩, -, rfl⟩ := List.forall₂_cons_left_iff.mp hlinks
  have hle : l.length ≤ attempts.flatten.length :=
    (List.sublist_flatten_of_mem (hsub.subset (List.mem_singleton_self l))).length_le
  have hone : attempts.flatten.length = 1 := by
    rw [hsent] at hlog
    exact (congrArg List.length hlog).symm
  rw [hone, hl, hlink] at hle
  simp at hle
  omega

end SpallocServer.AsyncBmpController
