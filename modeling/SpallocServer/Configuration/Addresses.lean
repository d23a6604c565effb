import Mathlib.Data.Int.Bitwise
import Mathlib.Data.List.Induction
import SpallocServer.Errors
import SpallocServer.Foundation.Pattern

namespace SpallocServer.Configuration.Machine

open Foundation

/-- The decimal digits of a version of Unicode, and their values. -/
structure Decimals where
  value : Char → Option ℕ
  ascii : ∀ c : Char, c.toNat < 128 → value c = if c.isDigit then some (c.toNat - 48) else none

namespace Decimals

/-- No digits other than those of ASCII. -/
def ofAscii : Decimals where
  value c := if c.isDigit then some (c.toNat - 48) else none
  ascii _ _ := rfl

variable (d : Decimals)

/-- `\d` -/
def digit (c : Char) : Bool := (d.value c).isSome

/-- `int`, of a string of digits. -/
def int (group : List Char) : ℕ := group.foldl (fun n c => 10 * n + (d.value c).getD 0) 0

/-- `^(\d+).(\d+).(\d+).(\d+)$` -/
def pattern : List (Piece Char) :=
  [.group d.digit, .one (· ≠ '\n'), .group d.digit, .one (· ≠ '\n'), .group d.digit,
    .one (· ≠ '\n'), .group d.digit]

end Decimals

/-- `$` -/
def atEnd (s : List Char) : Bool := s = [] ∨ s = ['\n']

def malformed (ip : String) : Error :=
  .valueError ("Malformed IPv4 address '" ++ ip ++ "'")

def pushGroup (ip : String) (ipInt group : ℕ) : Except Error ℕ :=
  if group.ldiff 0xFF ≠ 0 then .error (malformed ip) else .ok (ipInt <<< 8 ||| group)

def ipToInt (d : Decimals) (ip : String) : Except Error ℕ :=
  match scan atEnd d.pattern ip.toList with
  | none => .error (malformed ip)
  | some groups => (groups.map d.int).foldlM (pushGroup ip) 0

def intToIp (ipInt : ℤ) : String :=
  ".".intercalate ([24, 16, 8, 0].map fun (b : ℕ) => toString ((ipInt >>> b).land 0xFF))

def number (group : List Char) : ℕ := Nat.ofDigitChars 10 group 0

def base256 (numbers : List ℕ) : ℕ := numbers.foldl (fun n k => 256 * n + k) 0

def withoutZeros : List Char → List Char
  | '0' :: c :: group => withoutZeros (c :: group)
  | group => group

structure Quad (s : String) (groups : List (List Char)) : Prop where
  four : groups.length = 4
  nonempty : ∀ g ∈ groups, g ≠ []
  digits : ∀ g ∈ groups, ∀ c ∈ g, c.isDigit
  dotted : s.toList = ['.'].intercalate groups
  small : ∀ g ∈ groups, number g ≤ 255

/-- Exactly the dotted quads are accepted, each has its value, and is printed as it was. -/
structure ReadsQuads (d : Decimals) (s : String) : Prop where
  accepts : (∃ n, ipToInt d s = .ok n) ↔ ∃ groups, Quad s groups
  value : ∀ groups, Quad s groups → ipToInt d s = .ok (base256 (groups.map number))
  printed : ∀ groups, Quad s groups → intToIp (base256 (groups.map number)) =
    String.ofList (['.'].intercalate (groups.map withoutZeros))

/-- Four numbers of at most 255 are read where there is something else than digits and dots:
the groups are as long as possible, and whatever stands between two of them is passed over. -/
def Misread (d : Decimals) (s : String) : Prop :=
  ∃ groups, Longest atEnd d.pattern s.toList groups ∧ (∀ g ∈ groups, d.int g ≤ 255) ∧
    ¬(s.toList = ['.'].intercalate groups ∧ ∀ g ∈ groups, ∀ c ∈ g, c.isDigit)

variable {d : Decimals} {s : String} {groups : List (List Char)}

theorem testBit_ldiff {n i : ℕ} : (n.ldiff 0xFF).testBit i = (n.testBit i && decide (8 ≤ i)) := by
  rw [Nat.testBit_ldiff, show 0xFF = 2 ^ 8 - 1 from rfl, Nat.testBit_two_pow_sub_one,
    ← decide_not, decide_eq_decide.mpr not_lt]

theorem ldiff_eq_zero_iff {n : ℕ} : n.ldiff 0xFF = 0 ↔ n ≤ 255 := by
  constructor
  · intro h
    have hlt : n < 2 ^ 8 := by
      apply Nat.lt_pow_two_of_testBit
      intro i hi
      have hbit := testBit_ldiff (n := n) (i := i)
      rw [h, Nat.zero_testBit, decide_eq_true hi, Bool.and_true] at hbit
      exact hbit.symm
    omega
  · intro h
    apply Nat.eq_of_testBit_eq
    intro i
    rw [testBit_ldiff, Nat.zero_testBit, Bool.and_eq_false_imp]
    intro hbit
    have hle : 2 ^ i ≤ n := Nat.ge_two_pow_of_testBit hbit
    have hlt : i < 8 := (Nat.pow_lt_pow_iff_right (by decide : 1 < 2)).mp (by omega)
    exact decide_eq_false (by omega)

theorem push_eq {n k : ℕ} (hk : k ≤ 255) : n <<< 8 ||| k = 256 * n + k := by
  rw [← Nat.shiftLeft_add_eq_or_of_lt (by omega), Nat.shiftLeft_eq]
  omega

theorem foldlM_pushGroup {ip : String} {numbers : List ℕ} {n m : ℕ} :
    numbers.foldlM (pushGroup ip) n = .ok m ↔
      (∀ k ∈ numbers, k ≤ 255) ∧ numbers.foldl (fun n k => 256 * n + k) n = m := by
  induction numbers generalizing n with
  | nil => simp [pure, Except.pure]
  | cons k numbers ih =>
    rw [List.foldlM_cons, pushGroup]
    by_cases hk : k ≤ 255
    · rw [if_neg (not_not.mpr (ldiff_eq_zero_iff.mpr hk)), push_eq hk]
      simp only [bind, Except.bind, ih, List.forall_mem_cons, hk, true_and, List.foldl_cons]
    · rw [if_pos (mt ldiff_eq_zero_iff.mp hk)]
      simp [bind, Except.bind, hk]

theorem ipToInt_ok_iff {n : ℕ} : ipToInt d s = .ok n ↔
    ∃ groups, Longest atEnd d.pattern s.toList groups ∧ (∀ g ∈ groups, d.int g ≤ 255) ∧
      base256 (groups.map d.int) = n := by
  unfold ipToInt
  constructor
  · intro h
    split at h
    · cases h
    · next groups hscan =>
      obtain ⟨hsmall, hn⟩ := foldlM_pushGroup.mp h
      exact ⟨groups, scan_eq_some_iff.mp hscan, List.forall_mem_map.mp hsmall, hn⟩
  · intro ⟨groups, hlongest, hsmall, hn⟩
    rw [scan_eq_some_iff.mpr hlongest]
    exact foldlM_pushGroup.mpr ⟨List.forall_mem_map.mpr hsmall, hn⟩

section Reading

theorem toNat_lt_of_isDigit {c : Char} (hc : c.isDigit) : c.toNat < 128 :=
   Nat.lt_of_le_of_lt (Char.isDigit_iff_toNat.mp hc).2 (by decide)

theorem value_of_isDigit {c : Char} (hc : c.isDigit) : d.value c = some (c.toNat - 48) := by
  rw [d.ascii c (toNat_lt_of_isDigit hc), if_pos hc]

theorem digit_of_isDigit {c : Char} (hc : c.isDigit) : d.digit c := by
  rw [Decimals.digit, value_of_isDigit hc, Option.isSome_some]

theorem int_eq_number {g : List Char} (hg : ∀ c ∈ g, c.isDigit) : d.int g = number g := by
  rw [Decimals.int, number, Nat.ofDigitChars_eq_foldl]
  apply List.foldl_ext
  intro n c hc
  rw [value_of_isDigit (hg c hc), Option.getD_some]
  rfl

theorem dot_not_digit : d.digit '.' = false := by
  rw [Decimals.digit, d.ascii '.' (by decide)]
  rfl

theorem reads_pattern_iff {t : List Char} : Reads atEnd d.pattern t groups ↔
    ∃ g₁ g₂ g₃ g₄ a b c e, groups = [g₁, g₂, g₃, g₄] ∧
      t = g₁ ++ a :: (g₂ ++ b :: (g₃ ++ c :: (g₄ ++ e))) ∧
      (∀ g ∈ groups, g ≠ [] ∧ ∀ c ∈ g, d.digit c) ∧
      (a ≠ '\n' ∧ b ≠ '\n' ∧ c ≠ '\n') ∧ atEnd e := by
  simp only [Decimals.pattern, reads_group_iff, reads_one_iff, reads_nil_iff, decide_eq_true_eq]
  constructor
  · intro h
    obtain ⟨g₁, _, _, ht, hgs, hg₁, a, _, rfl, ha, h⟩ := h
    obtain ⟨g₂, _, _, rfl, rfl, hg₂, b, _, rfl, hb, h⟩ := h
    obtain ⟨g₃, _, _, rfl, rfl, hg₃, c, _, rfl, hc, h⟩ := h
    obtain ⟨g₄, e, _, rfl, rfl, hg₄, he, rfl⟩ := h
    refine ⟨g₁, g₂, g₃, g₄, a, b, c, e, hgs, ht, ?_, ⟨ha, hb, hc⟩, he⟩
    simp only [hgs, List.forall_mem_cons]
    exact ⟨hg₁, hg₂, hg₃, hg₄, nofun⟩
  · intro ⟨g₁, g₂, g₃, g₄, a, b, c, e, hgs, ht, hall, ⟨ha, hb, hc⟩, he⟩
    simp only [hgs, List.forall_mem_cons] at hall
    obtain ⟨hg₁, hg₂, hg₃, hg₄, -⟩ := hall
    exact ⟨g₁, _, _, ht, hgs, hg₁, a, _, rfl, ha, g₂, _, _, rfl, rfl, hg₂, b, _, rfl, hb, g₃, _, _,
      rfl, rfl, hg₃, c, _, rfl, hc, g₄, e, _, rfl, rfl, hg₄, he, rfl⟩

theorem intercalate_four (g₁ g₂ g₃ g₄ : List Char) : ['.'].intercalate [g₁, g₂, g₃, g₄] =
    g₁ ++ '.' :: (g₂ ++ '.' :: (g₃ ++ '.' :: g₄)) := by
  simp

theorem Quad.eq_four (h : Quad s groups) : ∃ g₁ g₂ g₃ g₄, groups = [g₁, g₂, g₃, g₄] := by
  match groups, h.four with
  | [g₁, g₂, g₃, g₄], _ => exact ⟨g₁, g₂, g₃, g₄, rfl⟩

theorem Quad.reads (h : Quad s groups) : Reads atEnd d.pattern s.toList groups := by
  obtain ⟨g₁, g₂, g₃, g₄, hgs⟩ := h.eq_four
  have hdot : '.' ≠ '\n' := by decide
  refine reads_pattern_iff.mpr ⟨g₁, g₂, g₃, g₄, '.', '.', '.', [], hgs, ?_, ?_, ⟨hdot, hdot, hdot⟩, rfl⟩
  · rw [h.dotted, hgs, intercalate_four, List.append_nil]
  · intro g hg
    exact ⟨h.nonempty g hg, fun c hc => digit_of_isDigit (h.digits g hg c hc)⟩

theorem dot_not_mem {g : List Char} (hg : ∀ c ∈ g, d.digit c) : '.' ∉ g := by
  intro h
  have hdot := hg '.' h
  rw [dot_not_digit] at hdot
  cases hdot

theorem Quad.newline (h : Quad s groups) : '\n' ∉ s.toList := by
  intro hmem
  obtain ⟨g₁, g₂, g₃, g₄, hgs⟩ := h.eq_four
  have hg : ∀ g ∈ groups, '\n' ∉ g := fun g hg hn => by
    have hdigit := h.digits g hg _ hn
    cases hdigit
  simp only [hgs, List.forall_mem_cons] at hg
  rw [h.dotted, hgs, intercalate_four] at hmem
  simp at hmem
  tauto

theorem Quad.unique (h : Quad s groups) {gs : List (List Char)}
    (hreads : Reads atEnd d.pattern s.toList gs) : gs = groups := by
  obtain ⟨g₁, g₂, g₃, g₄, a, b, c, e, hgs, ht, hall, -, he⟩ := reads_pattern_iff.mp hreads
  have hdots : ∀ g ∈ gs, '.' ∉ g := fun g hg => dot_not_mem (hall g hg).2
  have hdots' : ∀ g ∈ groups, '.' ∉ g := fun g hg =>
    dot_not_mem (d := d) fun c hc => digit_of_isDigit (h.digits g hg c hc)
  have hnil : e = [] := by
    simp only [atEnd, decide_eq_true_eq] at he
    obtain he | he := he
    · exact he
    · apply absurd _ h.newline
      simp [ht, he]
  have hcount : s.toList.count '.' = 3 := by
    obtain ⟨k₁, k₂, k₃, k₄, hks⟩ := h.eq_four
    simp only [hks, List.forall_mem_cons] at hdots'
    obtain ⟨hk₁, hk₂, hk₃, hk₄, -⟩ := hdots'
    rw [h.dotted, hks, intercalate_four]
    simp [List.count_eq_zero_of_not_mem, hk₁, hk₂, hk₃, hk₄]
  have hsep : a = '.' ∧ b = '.' ∧ c = '.' := by
    simp only [hgs, List.forall_mem_cons] at hdots
    obtain ⟨hg₁, hg₂, hg₃, hg₄, -⟩ := hdots
    rw [ht, hnil] at hcount
    simp only [List.count_append, List.count_cons, List.append_nil,
      List.count_eq_zero_of_not_mem hg₁, List.count_eq_zero_of_not_mem hg₂,
      List.count_eq_zero_of_not_mem hg₃, List.count_eq_zero_of_not_mem hg₄, beq_iff_eq] at hcount
    split_ifs at hcount <;> simp_all
  obtain ⟨rfl, rfl, rfl⟩ := hsep
  have heq : ['.'].intercalate gs = ['.'].intercalate groups := by
    rw [← h.dotted, ht, hgs, hnil, intercalate_four, List.append_nil]
  rw [← List.splitOn_intercalate '.' hdots (by simp [hgs]), heq,
    List.splitOn_intercalate '.' hdots' (List.ne_nil_of_length_eq_add_one h.four)]

end Reading

section Printing

theorem digitChar_of_isDigit {c : Char} (hc : c.isDigit) :
    c.toNat - 48 < 10 ∧ (c.toNat - 48).digitChar = c := by
  obtain ⟨hge, hle⟩ := Char.isDigit_iff_toNat.mp hc
  have hlt : c.toNat - 48 < 10 := Nat.sub_lt_left_of_lt_add hge (Nat.lt_succ_of_le hle)
  refine ⟨hlt, Char.toNat_inj.mp ?_⟩
  rw [Nat.toNat_digitChar_of_lt_ten hlt]
  exact Nat.add_sub_of_le hge

theorem number_append (g : List Char) (c : Char) :
    number (g ++ [c]) = 10 * number g + (c.toNat - 48) := by
  rw [number, Nat.ofDigitChars_append, Nat.ofDigitChars_cons, Nat.ofDigitChars_nil]
  rfl

theorem toDigits_number_cons {c : Char} {g : List Char} (hg : ∀ a ∈ c :: g, a.isDigit)
    (hc : c = '0' → g = []) : Nat.toDigits 10 (number (c :: g)) = c :: g := by
  induction g using List.reverseRecOn with
  | nil =>
    obtain ⟨hlt, hchar⟩ := digitChar_of_isDigit (hg c List.mem_cons_self)
    have hnumber : number [c] = c.toNat - 48 := by
      rw [number, Nat.ofDigitChars_cons, Nat.ofDigitChars_nil, Nat.mul_zero, Nat.zero_add]
      rfl
    rw [hnumber, Nat.toDigits_of_lt_base hlt, hchar]
  | append_singleton g a ih =>
    have hne : c ≠ '0' := fun h => by simpa using hc h
    have hsub : ∀ b ∈ c :: g, b ∈ c :: (g ++ [a]) := fun b hb => by
      rw [← List.cons_append]
      exact List.mem_append_left _ hb
    have hprint := ih (fun b hb => hg b (hsub b hb)) fun h => absurd h hne
    have hpos : 0 < number (c :: g) := by
      apply Nat.pos_of_ne_zero
      intro hzero
      rw [hzero, Nat.toDigits_zero] at hprint
      exact hne (List.cons.inj hprint).1.symm
    obtain ⟨hlt, hchar⟩ := digitChar_of_isDigit (hg a (by simp))
    rw [← List.cons_append, number_append, ← Nat.toDigits_append_toDigits (by decide) hpos hlt,
      hprint, Nat.toDigits_of_lt_base hlt, hchar]

theorem toDigits_number {g : List Char} (hne : g ≠ []) (hg : ∀ c ∈ g, c.isDigit) :
    Nat.toDigits 10 (number g) = withoutZeros g := by
  fun_induction withoutZeros g with
  | case1 c g ih =>
    have hzero : number ('0' :: c :: g) = number (c :: g) := by
      rw [number, Nat.ofDigitChars_cons]
      rfl
    rw [hzero, ih (List.cons_ne_nil c g) fun a ha => hg a (List.mem_cons_of_mem '0' ha)]
  | case2 g h =>
    cases g with
    | nil => exact absurd rfl hne
    | cons c g =>
      apply toDigits_number_cons hg
      intro hc
      cases g with
      | nil => rfl
      | cons a g => exact absurd (by rw [hc]) (h a g)

theorem intToIp_base256 {a b c e : ℕ} (ha : a ≤ 255) (hb : b ≤ 255) (hc : c ≤ 255)
    (he : e ≤ 255) : intToIp (base256 [a, b, c, e]) =
      ".".intercalate [toString a, toString b, toString c, toString e] := by
  have hbyte : ∀ n k : ℕ, toString (((n : ℤ) >>> k).land 0xFF) = toString (n / 2 ^ k % 256) := by
    intro n k
    rw [← Nat.shiftRight_eq_div_pow, ← Nat.and_two_pow_sub_one_eq_mod _ 8]
    rfl
  have hbase : base256 [a, b, c, e] = 256 * (256 * (256 * a + b) + c) + e := by
    simp [base256]
  have h₁ : base256 [a, b, c, e] / 2 ^ 24 % 256 = a := by omega
  have h₂ : base256 [a, b, c, e] / 2 ^ 16 % 256 = b := by omega
  have h₃ : base256 [a, b, c, e] / 2 ^ 8 % 256 = c := by omega
  have h₄ : base256 [a, b, c, e] / 2 ^ 0 % 256 = e := by omega
  simp only [intToIp, List.map_cons, List.map_nil, hbyte, h₁, h₂, h₃, h₄]

end Printing

theorem Quad.longest (h : Quad s groups) : Longest atEnd d.pattern s.toList groups := by
  refine ⟨h.reads, fun gs hgs => ?_⟩
  rw [h.unique hgs]

theorem Quad.map_int (h : Quad s groups) : groups.map d.int = groups.map number :=
  List.map_congr_left fun g hg => int_eq_number (h.digits g hg)

theorem Quad.value (h : Quad s groups) : ipToInt d s = .ok (base256 (groups.map number)) := by
  refine ipToInt_ok_iff.mpr ⟨groups, h.longest, fun g hg => ?_, by rw [h.map_int]⟩
  rw [int_eq_number (h.digits g hg)]
  exact h.small g hg

theorem Quad.printed (h : Quad s groups) : intToIp (base256 (groups.map number)) =
    String.ofList (['.'].intercalate (groups.map withoutZeros)) := by
  obtain ⟨g₁, g₂, g₃, g₄, rfl⟩ := h.eq_four
  have hsmall := h.small
  have hprint : ∀ g ∈ [g₁, g₂, g₃, g₄], (toString (number g)).toList = withoutZeros g := by
    intro g hg
    rw [Nat.toString_eq_repr, Nat.toList_repr]
    exact toDigits_number (h.nonempty g hg) (h.digits g hg)
  simp only [List.forall_mem_cons] at hsmall hprint
  obtain ⟨h₁, h₂, h₃, h₄, -⟩ := hsmall
  obtain ⟨hp₁, hp₂, hp₃, hp₄, -⟩ := hprint
  rw [← String.toList_inj, String.toList_ofList]
  simp only [List.map_cons, List.map_nil, intToIp_base256 h₁ h₂ h₃ h₄, String.toList_intercalate,
    hp₁, hp₂, hp₃, hp₄]
  rfl

theorem quad_of_ok (hmisread : ¬Misread d s) {n : ℕ} (h : ipToInt d s = .ok n) :
    ∃ groups, Quad s groups := by
  obtain ⟨groups, hlongest, hsmall, -⟩ := ipToInt_ok_iff.mp h
  obtain ⟨hdotted, hdigits⟩ := not_not.mp fun hn => hmisread ⟨groups, hlongest, hsmall, hn⟩
  obtain ⟨g₁, g₂, g₃, g₄, a, b, c, e, hgs, -, hall, -⟩ := reads_pattern_iff.mp hlongest.1
  refine ⟨groups, by rw [hgs]; rfl, fun g hg => (hall g hg).1, hdigits, hdotted, fun g hg => ?_⟩
  rw [← int_eq_number (hdigits g hg)]
  exact hsmall g hg

theorem reads_quads_iff (d : Decimals) (s : String) : ReadsQuads d s ↔ ¬Misread d s := by
  constructor
  · intro h ⟨groups, hlongest, hsmall, hn⟩
    obtain ⟨gs, hquad⟩ := h.accepts.mp ⟨_, ipToInt_ok_iff.mpr ⟨groups, hlongest, hsmall, rfl⟩⟩
    rw [hquad.unique hlongest.1] at hn
    exact hn ⟨hquad.dotted, hquad.digits⟩
  · intro h
    exact ⟨⟨fun ⟨n, hn⟩ => quad_of_ok h hn, fun ⟨groups, hquad⟩ => ⟨_, hquad.value⟩⟩,
      fun groups hquad => hquad.value, fun groups hquad => hquad.printed⟩

/-- Seven digits are read as four numbers, with three digits passed over. -/
theorem digits_read : ¬∀ s : String, ReadsQuads .ofAscii s := by
  intro h
  have hvalue : ipToInt .ofAscii "1234567" = .ok 0x01030507 := by decide +kernel
  obtain ⟨groups, hquad⟩ := (h "1234567").accepts.mp ⟨_, hvalue⟩
  obtain ⟨g₁, g₂, g₃, g₄, rfl⟩ := hquad.eq_four
  have hdot : '.' ∈ "1234567".toList := by
    rw [hquad.dotted, intercalate_four]
    simp
  exact absurd hdot (by decide)

end SpallocServer.Configuration.Machine
