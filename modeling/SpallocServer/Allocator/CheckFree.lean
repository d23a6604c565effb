import SpallocServer.Allocator.Freeing

namespace SpallocServer

open Foundation Prog

namespace Allocator

open Ledger

variable {a a' b : Allocator}

def ticked (a : Allocator) : Allocator := { a with reads := a.reads + 1 }

def Early (a : Allocator) (e : ToFree) : Prop :=
  a.clock a.reads - e.time < a.secondsBeforeFree * 1000000

instance (a : Allocator) (e : ToFree) : Decidable (a.Early e) := by
  unfold Early
  infer_instance

/-- None of the next `n` entries that `check_free` takes is taken prematurely. -/
def Careful : ℕ → Allocator → Prop
  | 0, _ => True
  | n + 1, a => ∀ e rest, a.toFree = e :: rest → ¬a.Early e →
      ¬a.Premature ∧ Careful n (freeNext.run a.ticked).2

/-- `n` expired entries are taken from the queue, one reading of the clock each. -/
inductive Expired (a : Allocator) : ℕ → Allocator → Prop where
  | none : Expired a 0 a
  | more {n : ℕ} {b c : Allocator} {e : ToFree} {rest : List ToFree} :
    Expired a n b → b.toFree = e :: rest → ¬b.Early e → Released b.ticked c → Expired a (n + 1) c

/-- What a call of `check_free` that takes `n` entries leaves behind. -/
inductive Swept (a : Allocator) (n : ℕ) : Allocator → Prop where
  | empty {b : Allocator} : Expired a n b → b.toFree = [] → Swept a n b
  | waiting {b : Allocator} {e : ToFree} {rest : List ToFree} :
    Expired a n b → b.toFree = e :: rest → b.Early e → Swept a n b.ticked

theorem Inv.ticked (h : a.Inv) : a.ticked.Inv :=
  ⟨h.tree, h.root, ⟨h.shape.full, h.shape.spare⟩,
    ⟨h.books.keys, h.books.ids, h.books.live, h.books.queue, h.books.apart⟩, h.sound⟩

theorem checkFreeLoop_spec {m : ℕ} (hx : Expired a m b) (hb : b.Inv) (changed : Bool) {n : ℕ}
    (hn : b.toFree.length ≤ n) (hc : Careful n b) :
    wp (checkFreeLoop changed n) (fun res a' => a'.Inv ∧ ∃ k, Swept a (m + k) a' ∧
      (res = true ↔ changed = true ∨ 0 < k)) (fun _ _ => False) b := by
  induction n generalizing m b changed with
  | zero =>
    have hq : b.toFree = [] := List.length_eq_zero_iff.mp (Nat.le_zero.mp hn)
    exact ⟨hb, 0, .empty hx hq, by simp⟩
  | succ n ih =>
    simp only [checkFreeLoop, wp_bind, wp_state]
    cases hq : b.toFree with
    | nil => exact ⟨hb, 0, .empty hx hq, by simp⟩
    | cons e rest =>
      simp only [now, wp_bind, wp_state, wp_update, wp_pure]
      split
      · next he => exact ⟨hb.ticked, 0, .waiting hx hq he, by simp⟩
      · next he =>
        obtain ⟨hp, hc'⟩ := hc e rest hq he
        have hf := freeNext_spec (a := b.ticked) hb.ticked hq hp
        obtain ⟨u, c, hfe, hr⟩ := wp_returns hf
        rw [hfe] at hc'
        rw [wp_bind]
        refine wp_intro_ok hfe ?_
        obtain ⟨-, -, -, -, e', he'⟩ := hr.frame
        have hlen : c.toFree.length ≤ n := by
          have hl : b.toFree.length = c.toFree.length + 1 := by
            change b.ticked.toFree.length = _
            rw [he', List.length_cons]
          omega
        refine (ih (.more hx hq he hr) (hr.inv hb.ticked) true hlen hc').mono ?_ (fun _ _ h => h)
        rintro res a' ⟨hi, k, hs, hres⟩
        refine ⟨hi, k + 1, ?_, ?_⟩
        · rwa [Nat.add_comm k 1, ← Nat.add_assoc]
        · simp [hres]

theorem checkFree_spec (h : a.Inv) (hc : Careful a.toFree.length a) :
    wp checkFree (fun res a' => a'.Inv ∧ ∃ k, Swept a k a' ∧ (res = true ↔ 0 < k))
      (fun _ _ => False) a := by
  simp only [checkFree, wp_bind, wp_state]
  refine (checkFreeLoop_spec .none h false le_rfl hc).mono ?_ (fun _ _ h => h)
  rintro res a' ⟨hi, k, hs, hres⟩
  exact ⟨hi, k, by rwa [Nat.zero_add] at hs, by simpa using hres⟩

theorem Expired.induct {I : Allocator → Prop} {n : ℕ} (hx : Expired a n a') (h0 : I a)
    (ht : ∀ b, I b → I b.ticked) (hr : ∀ b c, I b → Released b c → I c) : I a' := by
  induction hx with
  | none => exact h0
  | more _ _ _ hrel ih => exact hr _ _ (ht _ ih) hrel

theorem Swept.induct {I : Allocator → Prop} {n : ℕ} (hs : Swept a n a') (h0 : I a)
    (ht : ∀ b, I b → I b.ticked) (hr : ∀ b c, I b → Released b c → I c) : I a' := by
  cases hs with
  | empty hx _ => exact hx.induct h0 ht hr
  | waiting hx _ _ => exact ht _ (hx.induct h0 ht hr)

theorem Expired.sameSetup {n : ℕ} (hx : Expired a n a') : SameSetup a a' :=
  hx.induct (.refl a) (fun _ h => h.trans ⟨rfl, rfl, rfl, rfl, rfl, rfl⟩)
    (fun _ _ h hr => h.trans hr.sameSetup)

theorem Swept.sameSetup {n : ℕ} (hs : Swept a n a') : SameSetup a a' :=
  hs.induct (.refl a) (fun _ h => h.trans ⟨rfl, rfl, rfl, rfl, rfl, rfl⟩)
    (fun _ _ h hr => h.trans hr.sameSetup)

theorem Swept.frame {n : ℕ} (hs : Swept a n a') :
    a'.allocationTypes = a.allocationTypes ∧ a'.allocationBoard = a.allocationBoard ∧
      a'.nextId = a.nextId := by
  refine hs.induct (I := fun b => b.allocationTypes = a.allocationTypes ∧
    b.allocationBoard = a.allocationBoard ∧ b.nextId = a.nextId) ⟨rfl, rfl, rfl⟩ (fun _ h => h) ?_
  rintro b c ⟨h1, h2, h3⟩ hr
  obtain ⟨h1', h2', h3', -⟩ := hr.frame
  exact ⟨h1'.trans h1, h2'.trans h2, h3'.trans h3⟩

theorem Expired.queue {n : ℕ} (hx : Expired a n a') :
    a'.toFree = a.toFree.drop n ∧ n ≤ a.toFree.length ∧ a'.reads = a.reads + n ∧
      ∀ k e, k < n → a.toFree[k]? = some e →
        a.secondsBeforeFree * 1000000 ≤ a.clock (a.reads + k) - e.time := by
  induction hx with
  | none => exact ⟨rfl, Nat.zero_le _, rfl, fun k e hk => absurd hk (Nat.not_lt_zero k)⟩
  | @more n b c e rest hx hq he hr ih =>
    obtain ⟨h1, h2, h3, h4⟩ := ih
    have hsetup := hx.sameSetup
    obtain ⟨-, -, -, hreads, e', hq'⟩ := hr.frame
    have hcons : a.toFree.drop n = e' :: c.toFree := h1.symm.trans hq'
    have hlt : n < a.toFree.length := by
      by_contra hge
      rw [List.drop_eq_nil_of_le (not_lt.mp hge)] at hcons
      cases hcons
    rw [List.drop_eq_getElem_cons hlt] at hcons
    obtain ⟨hhead, htail⟩ := List.cons.inj hcons
    refine ⟨htail.symm, hlt, ?_, fun k d hk hd => ?_⟩
    · rw [hreads]
      change b.reads + 1 = _
      omega
    · obtain hk | rfl := Nat.lt_succ_iff_lt_or_eq.mp hk
      · exact h4 k d hk hd
      · rw [List.getElem?_eq_getElem hlt] at hd
        have hde : d = e := by
          have : e' = e := (List.cons.inj (hq'.symm.trans hq)).1
          rw [← Option.some.inj hd, hhead, this]
        subst hde
        unfold Early at he
        rw [hsetup.clock, h3, hsetup.secondsBeforeFree] at he
        omega

theorem Swept.queue {n : ℕ} (hs : Swept a n a') :
    a'.toFree = a.toFree.drop n ∧ n ≤ a.toFree.length ∧
      ∀ k e, k < n → a.toFree[k]? = some e →
        a.secondsBeforeFree * 1000000 ≤ a.clock (a.reads + k) - e.time := by
  cases hs with
  | empty hx _ =>
    obtain ⟨h1, h2, -, h3⟩ := hx.queue
    exact ⟨h1, h2, h3⟩
  | waiting hx _ _ =>
    obtain ⟨h1, h2, -, h3⟩ := hx.queue
    exact ⟨h1, h2, h3⟩

end Allocator

end SpallocServer
