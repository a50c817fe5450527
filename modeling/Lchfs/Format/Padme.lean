import Mathlib

/-!
# The padding of sealed records

The length of a record is rounded up to a multiple of a power of two that its logarithm selects, so that
few lengths remain. The arithmetic is that of `u64`, with `none` for an overflow.
-/

namespace Lchfs.Format.Padme

def checkedAdd (a b : Nat) : Option Nat := if a + b < 2 ^ 64 then some (a + b) else none

def checkedSub (a b : Nat) : Option Nat := if b ≤ a then some (a - b) else none

def checkedShl (a bits : Nat) : Option Nat := if bits < 64 then some (a <<< bits % 2 ^ 64) else none

def leadingZeros (n : Nat) : Nat := if n = 0 then 64 else 63 - n.log2

def complement (n : Nat) : Nat := (2 ^ 64 - 1) ^^^ n

/-- The padded length for a plaintext of `len` bytes. -/
def paddedLen (len : Nat) : Option Nat :=
  if len < 2 then some len
  else do
    let e ← checkedSub 63 (leadingZeros len)
    let s ← checkedSub 64 (leadingZeros e)
    let lastBits ← checkedSub e s
    let mask ← checkedSub (← checkedShl 1 lastBits) 1
    let sum ← checkedAdd len mask
    return sum &&& complement mask

variable {len len' a b c p : Nat}

/-- The unit of a length: a power of two with the number of bits that are cleared. -/
def lastBits (len : Nat) : Nat := len.log2 - (len.log2.log2 + 1)

def unit (len : Nat) : Nat := 2 ^ lastBits len

theorem checkedSub_eq (h : b + c = a) : checkedSub a b = some c := by
  simp [checkedSub, ← h]

/-- Clearing the low bits rounds down. -/
theorem and_complement {x bits : Nat} (hx : x < 2 ^ 64) (hbits : bits < 64) :
    x &&& complement (2 ^ bits - 1) = x / 2 ^ bits * 2 ^ bits := by
  refine Nat.eq_of_testBit_eq fun i ↦ ?_
  simp only [complement, Nat.testBit_and, Nat.testBit_xor, Nat.testBit_two_pow_sub_one, Nat.testBit_mul_two_pow,
    Nat.testBit_div_two_pow]
  by_cases hlow : i < bits
  · simp [hlow, hlow.trans hbits]
  · have hge : bits ≤ i := Nat.not_lt.1 hlow
    rw [Nat.sub_add_cancel hge]
    by_cases hhigh : i < 64
    · simp [hlow, hhigh, hge]
    · have hzero : x.testBit i = false :=
        Nat.testBit_lt_two_pow (hx.trans_le (Nat.pow_le_pow_right (by decide) (Nat.not_lt.1 hhigh)))
      simp [hzero]

theorem leadingZeros_add_log2 (h : 1 ≤ len) (hlen : len < 2 ^ 64) : leadingZeros len + len.log2 = 63 := by
  have hlt : len.log2 < 64 := (Nat.log2_lt (by omega)).2 hlen
  simp only [leadingZeros, show len ≠ 0 by omega, if_false]
  omega

theorem log2_pos (h : 2 ≤ len) : 1 ≤ len.log2 := (Nat.le_log2 (by omega)).2 (by simpa using h)

theorem lastBits_add (h : 2 ≤ len) : len.log2.log2 + 1 + lastBits len = len.log2 := by
  have hlt : len.log2.log2 < len.log2 := (Nat.log2_lt (Nat.ne_of_gt (log2_pos h))).2 Nat.lt_two_pow_self
  unfold lastBits
  omega

/-- The unit divides the power of two below the length. -/
theorem unit_mul (h : 2 ≤ len) : unit len * 2 ^ (len.log2.log2 + 1) = 2 ^ len.log2 := by
  rw [unit, ← Nat.pow_add, Nat.add_comm, lastBits_add h]

/-- No step overflows, and the result is the least multiple of the unit from the length on. -/
theorem paddedLen_isLeast (h : 2 ≤ len) (hlen : len ≤ 2 ^ 63) :
    ∃ p, paddedLen len = some p ∧ IsLeast {m | unit len ∣ m ∧ len ≤ m} p := by
  have hpos : 0 < unit len := Nat.two_pow_pos _
  have hbits := lastBits_add h
  have hlog : len.log2 ≤ 63 := by
    have := (Nat.log2_lt (by omega : len ≠ 0)).2 (by omega : len < 2 ^ 64)
    omega
  have hunit : unit len ≤ 2 ^ 62 := Nat.pow_le_pow_right (by decide) (by omega)
  have he : checkedSub 63 (leadingZeros len) = some len.log2 :=
    checkedSub_eq (leadingZeros_add_log2 (by omega) (by omega))
  have hs : checkedSub 64 (leadingZeros len.log2) = some (len.log2.log2 + 1) :=
    checkedSub_eq (by rw [← Nat.add_assoc, leadingZeros_add_log2 (log2_pos h) (by omega)])
  have hshift : checkedShl 1 (lastBits len) = some (unit len) := by
    rw [checkedShl, if_pos (by omega), Nat.one_shiftLeft]
    exact congrArg some (Nat.mod_eq_of_lt (by omega : unit len < 2 ^ 64))
  have hsum : checkedAdd len (unit len - 1) = some (len + (unit len - 1)) := if_pos (by omega)
  refine ⟨(len + (unit len - 1)) / unit len * unit len, ?_, ⟨Nat.dvd_mul_left _ _, ?_⟩, ?_⟩
  · simp only [paddedLen, show ¬len < 2 by omega, if_false, he, hs, checkedSub_eq hbits, hshift, hsum,
      checkedSub_eq (Nat.add_sub_cancel' hpos), Option.bind_eq_bind, Option.bind_some]
    exact congrArg some (and_complement (by omega) (by omega))
  · have := Nat.div_add_mod' (len + (unit len - 1)) (unit len)
    have := Nat.mod_lt (len + (unit len - 1)) hpos
    omega
  · rintro m ⟨⟨k, rfl⟩, hm⟩
    rw [Nat.mul_comm]
    refine Nat.mul_le_mul_left _ (Nat.lt_succ_iff.1 ((Nat.div_lt_iff_lt_mul hpos).2 ?_))
    rw [Nat.succ_mul, Nat.mul_comm]
    omega

/-- A unit is a small part of the power of two below the length. -/
theorem unit_ratio (h : 2 ≤ len) : 100 * (unit len - 1) ≤ 12 * (2 ^ len.log2 + 1) := by
  by_cases hsmall : len.log2 < 8
  · have hcases : ∀ e < 8, 100 * (2 ^ (e - (e.log2 + 1)) - 1) ≤ 12 * (2 ^ e + 1) := by decide
    exact hcases len.log2 hsmall
  · have hlog : 3 ≤ len.log2.log2 := (Nat.le_log2 (by omega)).2 (by omega)
    have hpow : 2 ^ 4 ≤ 2 ^ (len.log2.log2 + 1) := Nat.pow_le_pow_right (by decide) (by omega)
    have hmul := unit_mul h
    have := Nat.mul_le_mul_left (unit len) hpow
    omega

/-- The padded length goes up to the next power of two at most, and is its own padded length. -/
theorem paddedLen_padded (h : 2 ≤ len) (hlen : len < 2 ^ 63) (hp : IsLeast {m | unit len ∣ m ∧ len ≤ m} p) :
    paddedLen p = some p ∧ p ≤ 2 ^ (len.log2 + 1) := by
  have hlow : 2 ^ len.log2 ≤ len := Nat.log2_self_le (by omega)
  have hlt : len.log2 < 63 := (Nat.log2_lt (by omega)).2 hlen
  have hle : p ≤ 2 ^ (len.log2 + 1) := by
    refine hp.2 ⟨?_, Nat.lt_log2_self.le⟩
    exact Nat.pow_dvd_pow 2 (by have := lastBits_add h; omega)
  have htop : 2 ^ (len.log2 + 1) ≤ 2 ^ 63 := Nat.pow_le_pow_right (by decide) hlt
  have hlen' := hp.1.2
  obtain ⟨q, hq, hleast⟩ := paddedLen_isLeast (h.trans hlen') (hle.trans htop)
  refine ⟨hq.trans (congrArg some (Nat.le_antisymm (hleast.2 ⟨?_, le_rfl⟩) hleast.1.2)), hle⟩
  -- the unit of the result divides it: it is the old unit, unless the next power of two is reached
  rcases hle.eq_or_lt with rfl | hlt'
  · exact Nat.pow_dvd_pow 2 (by rw [lastBits, Nat.log2_two_pow]; omega)
  · have hsame : p.log2 = len.log2 := (Nat.log2_eq_iff (by omega)).2 ⟨hlow.trans hlen', hlt'⟩
    unfold unit lastBits
    rw [hsame]
    exact hp.1.1

theorem padding_bounds (hle : len ≤ len') (hlen : len' < 2 ^ 63) :
    ∃ p p', paddedLen len = some p ∧ paddedLen len' = some p' ∧ len ≤ p ∧ p ≤ p' ∧ paddedLen p = some p ∧
      100 * (p - len) ≤ 12 * len := by
  by_cases h' : len' < 2
  · have h : len < 2 := by omega
    exact ⟨len, len', if_pos h, if_pos h', le_rfl, hle, if_pos h, by omega⟩
  obtain ⟨p', hp', hleast'⟩ := paddedLen_isLeast (Nat.not_lt.1 h') hlen.le
  by_cases h : len < 2
  · exact ⟨len, p', if_pos h, hp', le_rfl, hle.trans hleast'.1.2, if_pos h, by omega⟩
  have h : 2 ≤ len := Nat.not_lt.1 h
  obtain ⟨p, hp, hleast⟩ := paddedLen_isLeast h (by omega)
  obtain ⟨hfixed, htop⟩ := paddedLen_padded h (by omega) hleast
  have hlow : 2 ^ len.log2 ≤ len := Nat.log2_self_le (by omega)
  refine ⟨p, p', hp, hp', hleast.1.2, ?_, hfixed, ?_⟩
  · -- the two lengths have one unit, or a power of two lies between them
    have hlog : len.log2 ≤ len'.log2 := (Nat.le_log2 (by omega)).2 (hlow.trans hle)
    rcases hlog.eq_or_lt with heq | hlt
    · refine hleast.2 ⟨?_, hle.trans hleast'.1.2⟩
      have hunit : unit len = unit len' := by simp only [unit, lastBits, heq]
      exact hunit ▸ hleast'.1.1
    · calc p ≤ 2 ^ (len.log2 + 1) := htop
        _ ≤ 2 ^ len'.log2 := Nat.pow_le_pow_right (by decide) hlt
        _ ≤ len' := Nat.log2_self_le (by omega)
        _ ≤ p' := hleast'.1.2
  · have hratio := unit_ratio h
    have hexcess : p < len + unit len := by
      by_contra hge
      have := hleast.2 ⟨Nat.dvd_sub hleast.1.1 dvd_rfl, by omega⟩
      have := Nat.two_pow_pos (lastBits len)
      unfold unit at *
      omega
    rcases hlow.eq_or_lt with heq | hlt
    · have := hleast.2 ⟨Dvd.intro _ ((unit_mul h).trans heq), le_rfl⟩
      omega
    · omega

theorem padding_bounds_nine : ∃ p p', paddedLen 9 = some p ∧ paddedLen 1000 = some p' ∧ 9 ≤ p ∧ p ≤ p' ∧
    paddedLen p = some p ∧ 100 * (p - 9) ≤ 12 * 9 :=
  padding_bounds (by decide) (by decide)

end Lchfs.Format.Padme
