import SpallocServer.Foundation.Program
import SpallocServer.AsyncBmpController

namespace SpallocServer.AsyncBmpController

open Foundation Prog

def bmpVerMin : ℤ := 2

def nFpgaRetries : ℕ := 3

def nRequestTries : ℕ := 2

def nFpgas : ℕ := 3

def fpgaFlagRegisterAddress : ℕ := 0x40004

/-- `fpga_id & _FPGA_FLAG_ID_MASK`, the last two bits. -/
def fpgaFlagId (flag : ℤ) : ℤ := flag % 4

def regStopOffset : ℕ := 0x5C

/-- `FPGA_LINK_STOP_REGISTERS` -/
def fpgaLinkStopRegister : Links → ℕ × ℕ
  | .east => (0, 0x00000000 + regStopOffset)
  | .south => (0, 0x00010000 + regStopOffset)
  | .southWest => (1, 0x00000000 + regStopOffset)
  | .west => (1, 0x00010000 + regStopOffset)
  | .north => (2, 0x00000000 + regStopOffset)
  | .northEast => (2, 0x00010000 + regStopOffset)

/-- What the transceiver is asked for. -/
inductive Command where
  | powerOn (boards : List ℤ)
  | powerOff (boards : List ℤ)
  | readBmpVersion (board : ℤ)
  | readFpgaRegister (fpga register : ℕ) (board : ℤ)
  | writeFpgaRegister (fpga register value : ℕ) (board : ℤ)
  deriving DecidableEq, Repr

/-- The transceiver and the callback of a request, as the thread meets them. -/
structure Surroundings where
  /-- What each command answers, or raises. -/
  reply : ℕ → Except String ℤ
  /-- What each call of the callback raises, if it does. -/
  callback : ℕ → Except String Unit
  sent : List Command
  reported : List (Bool × Option String)

variable {s s' : Surroundings} {r : AtomicRequests} {hostname : String}

def command (c : Command) : Prog String Surroundings ℤ := do
  let s ← state
  update fun s => { s with sent := s.sent ++ [c] }
  ofExcept (s.reply s.sent.length)

def onDone (success : Bool) (reason : Option String) : Prog String Surroundings Unit := do
  let s ← state
  update fun s => { s with reported := s.reported ++ [(success, reason)] }
  ofExcept (s.callback s.reported.length)

def goodFpga (board : ℤ) (fpga : ℕ) : Prog String Surroundings Bool := do
  let fpgaId ← command (.readFpgaRegister fpga fpgaFlagRegisterAddress board)
  return fpgaFlagId fpgaId = fpga

def goodFpgas (board : ℤ) : List ℕ → Prog String Surroundings Bool
  | [] => return true
  | fpga :: fpgas => do
    if ← goodFpga board fpga then goodFpgas board fpgas
    else return false

def retryBoards : List ℤ → Prog String Surroundings (List ℤ)
  | [] => return []
  | board :: boards => do
    let version ← command (.readBmpVersion board)
    if version < bmpVerMin then retryBoards boards
    else
      let good ← goodFpgas board (List.range nFpgas)
      let retry ← retryBoards boards
      return if good then retry else board :: retry

/-- `_power_on_and_check`, with the number of tries left. -/
def powerOnAndCheck (boards : List ℤ) : ℕ → Prog String Surroundings Unit
  | 0 => raise s!"Could not get correct FPGA ID after {nFpgaRetries} tries"
  | tries + 1 => do
    let _ ← command (.powerOn boards)
    let retry ← retryBoards boards
    if retry = [] then return ()
    else powerOnAndCheck retry tries

def setLinkState (request : LinkRequest) : Prog String Surroundings Unit := do
  let version ← command (.readBmpVersion request.board)
  if version < bmpVerMin then return ()
  else
    let (fpga, register) := fpgaLinkStopRegister request.link
    let _ ← command
      (.writeFpgaRegister fpga register (if request.enable then 0 else 1) request.board)

def powerOn (r : AtomicRequests) : Prog String Surroundings Unit :=
  if r.powerOnBoards ≠ [] then powerOnAndCheck r.powerOnBoards nFpgaRetries else return ()

def powerOff (r : AtomicRequests) : Prog String Surroundings Unit :=
  if r.powerOffBoards ≠ [] then do
    let _ ← command (.powerOff r.powerOffBoards)
  else return ()

def carryOut (r : AtomicRequests) : Prog String Surroundings Unit := do
  powerOn r
  forEach r.linkRequests setLinkState
  powerOff r

/-- The retry loop of `_run`, with the number of tries left. -/
def attempts (hostname : String) (r : AtomicRequests) : ℕ → Prog String Surroundings Unit
  | 0 => return ()
  | tries + 1 => rescue (do
      carryOut r
      onDone true none) fun _ =>
    if tries = 0 then onDone false (some s!"Requests failed on BMP {hostname}")
    else attempts hostname r tries

def process (hostname : String) (r : AtomicRequests) : Prog String Surroundings Unit :=
  attempts hostname r nRequestTries

structure Uncalled (s s' : Surroundings) : Prop where
  callback : s'.callback = s.callback
  reported : s'.reported = s.reported

theorem Uncalled.refl (s : Surroundings) : Uncalled s s := ⟨rfl, rfl⟩

theorem Uncalled.trans {s'' : Surroundings} (h : Uncalled s s') (h' : Uncalled s' s'') :
    Uncalled s s'' := ⟨h'.callback.trans h.callback, h'.reported.trans h.reported⟩

def Silent {α : Type} (m : Prog String Surroundings α) : Prop :=
  ∀ s, wp m (fun _ => Uncalled s) (fun _ => Uncalled s) s

theorem Silent.bind {α β : Type} {m : Prog String Surroundings α}
    {f : α → Prog String Surroundings β} (hm : Silent m) (hf : ∀ a, Silent (f a)) :
    Silent (m >>= f) := by
  intro s
  rw [wp_bind]
  apply (hm s).mono
  · intro a s' h
    exact (hf a s').mono (fun _ _ h' => h.trans h') fun _ _ h' => h.trans h'
  · exact fun _ _ h => h

theorem silent_pure {α : Type} (a : α) : Silent (pure a : Prog String Surroundings α) :=
  Uncalled.refl

theorem silent_raise {α : Type} (e : String) : Silent (raise e : Prog String Surroundings α) :=
  Uncalled.refl

theorem silent_command (c : Command) : Silent (command c) := by
  intro s
  simp only [command, wp_bind, wp_state, wp_update]
  exact wp_ofExcept (fun _ _ => ⟨rfl, rfl⟩) fun _ _ => ⟨rfl, rfl⟩

theorem silent_goodFpgas (board : ℤ) (fpgas : List ℕ) : Silent (goodFpgas board fpgas) := by
  induction fpgas with
  | nil => exact silent_pure true
  | cons fpga fpgas ih =>
    apply ((silent_command _).bind fun _ => silent_pure _).bind
    intro good
    cases good with
    | false => exact silent_pure false
    | true => exact ih

theorem silent_retryBoards (boards : List ℤ) : Silent (retryBoards boards) := by
  induction boards with
  | nil => exact silent_pure []
  | cons board boards ih =>
    apply (silent_command _).bind
    intro version
    split
    · exact ih
    · exact (silent_goodFpgas board _).bind fun _ => ih.bind fun _ => silent_pure _

theorem silent_powerOnAndCheck (boards : List ℤ) (tries : ℕ) :
    Silent (powerOnAndCheck boards tries) := by
  induction tries generalizing boards with
  | zero => exact silent_raise _
  | succ tries ih =>
    apply (silent_command _).bind fun _ => (silent_retryBoards boards).bind fun retry => ?_
    split
    · exact silent_pure ()
    · exact ih retry

theorem silent_setLinkState (request : LinkRequest) : Silent (setLinkState request) := by
  apply (silent_command _).bind
  intro version
  split
  · exact silent_pure ()
  · exact (silent_command _).bind fun _ => silent_pure ()

theorem silent_forEach {α : Type} (l : List α) {f : α → Prog String Surroundings Unit}
    (h : ∀ a, Silent (f a)) : Silent (forEach l f) := by
  induction l with
  | nil => exact silent_pure ()
  | cons a l ih => exact (h a).bind fun _ => ih

theorem silent_powerOn (r : AtomicRequests) : Silent (powerOn r) := by
  unfold powerOn
  split
  · exact silent_powerOnAndCheck _ _
  · exact silent_pure ()

theorem silent_powerOff (r : AtomicRequests) : Silent (powerOff r) := by
  unfold powerOff
  split
  · exact (silent_command _).bind fun _ => silent_pure ()
  · exact silent_pure ()

theorem silent_carryOut (r : AtomicRequests) : Silent (carryOut r) :=
  (silent_powerOn r).bind fun _ =>
    (silent_forEach _ silent_setLinkState).bind fun _ => silent_powerOff r

/-- The callback has been called once more. -/
def Surroundings.called (s : Surroundings) (success : Bool) (reason : Option String) :
    Surroundings := { s with reported := s.reported ++ [(success, reason)] }

/-- The commands have failed, the second time as well. -/
def FailsTwice (r : AtomicRequests) (s : Surroundings) : Prop :=
  ¬((carryOut r).run s).1.isOk ∧ ¬((carryOut r).run ((carryOut r).run s).2).1.isOk

theorem wp_onDone {success : Bool} {reason : Option String} {Q : Unit → Surroundings → Prop}
    {E : String → Surroundings → Prop}
    (hok : (s.callback s.reported.length).isOk → Q () (s.called success reason))
    (herror : ∀ e, ¬(s.callback s.reported.length).isOk → E e (s.called success reason)) :
    wp (onDone success reason) Q E s := by
  simp only [onDone, wp_bind, wp_state, wp_update]
  apply wp_ofExcept
  · intro _ h
    exact hok (by rw [h]; rfl)
  · intro e h
    exact herror e (by simp [h, Except.isOk, Except.toBool])

theorem wp_attempt {Q : Unit → Surroundings → Prop} {E : String → Surroundings → Prop}
    (hok : ((carryOut r).run s).1.isOk → ∀ t, Uncalled s t → wp (onDone true none) Q E t)
    (hfail : ∀ e, ¬((carryOut r).run s).1.isOk → E e ((carryOut r).run s).2) :
    wp (carryOut r >>= fun _ => onDone true none) Q E s := by
  have hsilent := wp_same (silent_carryOut r s)
  rw [wp_bind]
  rcases hrun : (carryOut r).run s with ⟨e | a, t⟩ <;> rw [hrun] at hok hfail hsilent
  · exact wp_intro_error hrun (hfail e nofun)
  · exact wp_intro_ok hrun (hok rfl t hsilent)

theorem attempts_wp {tries : ℕ} {Q E : Surroundings → Prop}
    (hok : ((carryOut r).run s).1.isOk → (s.callback s.reported.length).isOk → ∀ t,
      Uncalled s t → Q (t.called true none))
    (hagain : ((carryOut r).run s).1.isOk → ¬(s.callback s.reported.length).isOk → ∀ t,
      Uncalled s t → wp (if tries = 0 then onDone false (some s!"Requests failed on BMP {hostname}")
        else attempts hostname r tries) (fun _ => Q) (fun _ => E) (t.called true none))
    (hfail : ¬((carryOut r).run s).1.isOk →
      wp (if tries = 0 then onDone false (some s!"Requests failed on BMP {hostname}")
        else attempts hostname r tries) (fun _ => Q) (fun _ => E) ((carryOut r).run s).2) :
    wp (attempts hostname r (tries + 1)) (fun _ => Q) (fun _ => E) s := by
  unfold attempts
  rw [wp_rescue]
  apply wp_attempt
  · intro hrun t ht
    apply wp_onDone
    · intro hcall
      rw [ht.callback, ht.reported] at hcall
      exact hok hrun hcall t ht
    · intro _ hcall
      rw [ht.callback, ht.reported] at hcall
      exact hagain hrun hcall t ht
  · exact fun _ h => hfail h

theorem Uncalled.length_called (h : Uncalled s s') (success : Bool) (reason : Option String) :
    (s'.called success reason).reported.length = s.reported.length + 1 := by
  rw [← h.reported]
  exact List.length_append

theorem onDone_called (success : Bool) (reason : Option String) (s : Surroundings) :
    wp (onDone success reason) (fun _ t => t.reported.length = s.reported.length + 1)
      (fun _ t => t.reported.length = s.reported.length + 1) s := by
  apply wp_onDone
  · exact fun _ => (Uncalled.refl s).length_called _ _
  · exact fun _ _ => (Uncalled.refl s).length_called _ _

structure CalledLast (r : AtomicRequests) (s t : Surroundings) : Prop where
  some : s.reported.length < t.reported.length
  once : t.reported.length = s.reported.length + 1 ↔
    (s.callback s.reported.length).isOk ∨ ¬((carryOut r).run s).1.isOk

theorem attempts_last (hostname : String) (r : AtomicRequests) (s : Surroundings) :
    wp (attempts hostname r 1) (fun _ => CalledLast r s) (fun _ => CalledLast r s) s := by
  apply attempts_wp
  · intro hrun hcall t ht
    have hlen := ht.length_called true none
    exact ⟨by omega, iff_of_true hlen (.inl hcall)⟩
  · intro hrun hcall t ht
    have hlen := ht.length_called true none
    rw [if_pos rfl]
    have hlast (t') (h : t'.reported.length = (t.called true none).reported.length + 1) :
        CalledLast r s t' :=
      ⟨by omega, iff_of_false (by omega) (not_or.mpr ⟨hcall, not_not.mpr hrun⟩)⟩
    exact (onDone_called _ _ _).mono (fun _ => hlast) fun _ => hlast
  · intro hrun
    have hsilent := wp_same (silent_carryOut r s)
    rw [if_pos rfl]
    have hlast (t') (h : t'.reported.length = ((carryOut r).run s).2.reported.length + 1) :
        CalledLast r s t' := by
      rw [hsilent.reported] at h
      exact ⟨by omega, iff_of_true h (.inr hrun)⟩
    exact (onDone_called _ _ _).mono (fun _ => hlast) fun _ => hlast

/-- The callback is called once when its first call does not fail, or when the commands fail in
both attempts. -/
theorem process_calls_once (hostname : String) (r : AtomicRequests) (s : Surroundings) :
    ((process hostname r).run s).2.reported.length = s.reported.length + 1 ↔
      (s.callback s.reported.length).isOk ∨ FailsTwice r s := by
  suffices hwp : wp (attempts hostname r nRequestTries)
      (fun _ t => t.reported.length = s.reported.length + 1 ↔
        (s.callback s.reported.length).isOk ∨ FailsTwice r s)
      (fun _ t => t.reported.length = s.reported.length + 1 ↔
        (s.callback s.reported.length).isOk ∨ FailsTwice r s) s from wp_same hwp
  apply attempts_wp
  · intro hrun hcall t ht
    exact iff_of_true (ht.length_called _ _) (.inl hcall)
  · intro hrun hcall t ht
    have hlen := ht.length_called true none
    rw [if_neg Nat.one_ne_zero]
    have hlast (t') (h : CalledLast r (t.called true none) t') :
        t'.reported.length = s.reported.length + 1 ↔
          (s.callback s.reported.length).isOk ∨ FailsTwice r s := by
      have hsome := h.some
      exact iff_of_false (by omega) (not_or.mpr ⟨hcall, fun h => h.1 hrun⟩)
    exact (attempts_last _ _ _).mono (fun _ => hlast) fun _ => hlast
  · intro hrun
    have hsilent := wp_same (silent_carryOut r s)
    rw [if_neg Nat.one_ne_zero]
    have hlast (t') (h : CalledLast r ((carryOut r).run s).2 t') :
        t'.reported.length = s.reported.length + 1 ↔
          (s.callback s.reported.length).isOk ∨ FailsTwice r s := by
      have honce := h.once
      rw [hsilent.reported, hsilent.callback] at honce
      rw [honce]
      exact or_congr_right ⟨fun h => ⟨hrun, h⟩, fun h => h.2⟩
    exact (attempts_last _ _ _).mono (fun _ => hlast) fun _ => hlast

theorem process_returns (hostname : String) (r : AtomicRequests)
    (hcall : ∀ n, (s.callback n).isOk) :
    wp (process hostname r)
      (fun _ t => t.callback = s.callback ∧ t.reported.length = s.reported.length + 1)
      (fun _ _ => False) s := by
  have hdone (t : Surroundings) (ht : Uncalled s t) :
      wp (onDone false (some s!"Requests failed on BMP {hostname}"))
        (fun _ t => t.callback = s.callback ∧ t.reported.length = s.reported.length + 1)
        (fun _ _ => False) t := by
    apply wp_onDone
    · exact fun _ => ⟨ht.callback, ht.length_called _ _⟩
    · intro _ h
      rw [ht.callback] at h
      exact h (hcall _)
  unfold process
  apply attempts_wp
  · exact fun _ _ t ht => ⟨ht.callback, ht.length_called _ _⟩
  · exact fun _ h => absurd (hcall _) h
  · intro _
    have hsilent := wp_same (silent_carryOut r s)
    rw [if_neg Nat.one_ne_zero]
    apply attempts_wp
    · exact fun _ _ t ht => ⟨(hsilent.trans ht).callback, (hsilent.trans ht).length_called _ _⟩
    · intro _ h
      rw [hsilent.callback] at h
      exact absurd (hcall _) h
    · intro _
      rw [if_pos rfl]
      exact hdone _ (hsilent.trans (wp_same (silent_carryOut r _)))

def failingCallback : Surroundings where
  reply _ := .ok 0
  callback n := if n = 0 then .error "KeyError" else .ok ()
  sent := []
  reported := []

theorem process_calls_twice : ¬∀ (hostname : String) (r : AtomicRequests) (s : Surroundings),
    ((process hostname r).run s).2.reported.length = s.reported.length + 1 := by
  intro h
  have honce := h "bmp" (.new 0) failingCallback
  have htwice : ((process "bmp" (.new 0)).run failingCallback).2.reported.length = 2 := rfl
  rw [htwice] at honce
  cases honce

end SpallocServer.AsyncBmpController
