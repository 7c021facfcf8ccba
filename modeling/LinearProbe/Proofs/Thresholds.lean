import LinearProbe.Table.Invariant
import Mathlib.Order.Bounds.Basic

/-!
# Thresholds are exact

The threshold of a table is computed with doubles. Its two factors are a power of two and a load
factor of 24 significant bits, so their product is a double (`Binary.ofRatio_two_pow`) and nothing
is rounded before its fraction is cut off : `threshold_eq_exactThreshold`. A threshold is
therefore less than the number of slots (`exactThreshold_lt`).

Without rounding a threshold grows with the number of slots, so the first doubling of the slots that
admits a number of entries is the least one (`isLeast_of_fitting?`), and looking for it in several
rounds, for ever more entries, comes to the same as looking once for the most
(`isLeast_admitting_max`).
-/

namespace LinearProbe

/-! ## Exact products -/

/-- Fractions that agree have one whole part. -/
theorem div_eq_div_of_mul_eq {n d n' d' : Nat} (hd : 0 < d) (hd' : 0 < d')
    (h : n * d' = n' * d) : n / d = n' / d' := by
  rw [← Nat.mul_div_mul_right n d hd', h, Nat.mul_comm d, Nat.mul_div_mul_right n' d' hd]

namespace Binary

theorem num_eq (x : Binary) : x.num = x.mantissa * 2 ^ x.exponent.toNat :=
  Nat.shiftLeft_eq x.mantissa x.exponent.toNat

theorem den_eq (x : Binary) : x.den = 2 ^ (-x.exponent).toNat :=
  Nat.one_shiftLeft (-x.exponent).toNat

/-- A quotient whose numerator is a multiple of a power of two by at most 53 bits, and whose
denominator is a power of two, is not rounded. -/
theorem ofRatio_two_pow {m : Nat} (a b : Nat) (hm : 0 < m) (hlt : m < 2 ^ 53) :
    ofRatio (m * 2 ^ a) (2 ^ b) =
      ⟨m * 2 ^ (52 - m.log2), (m.log2 : Int) + a - b - 52⟩ := by
  have hlog : m.log2 ≤ 52 := Nat.le_of_lt_succ ((Nat.log2_lt (Nat.ne_of_gt hm)).2 hlt)
  have hpow : 0 < 2 ^ a := Nat.two_pow_pos a
  have hne : m * 2 ^ a ≠ 0 := Nat.ne_of_gt (Nat.mul_pos hm hpow)
  have hlogn : (m * 2 ^ a).log2 = m.log2 + a := by
    refine (Nat.log2_eq_iff hne).2 ⟨?_, ?_⟩
    · rw [Nat.pow_add]
      exact Nat.mul_le_mul_right _ (Nat.log2_self_le (Nat.ne_of_gt hm))
    · rw [show m.log2 + a + 1 = (m.log2 + 1) + a by omega, Nat.pow_add]
      exact Nat.mul_lt_mul_of_pos_right Nat.lt_log2_self hpow
  rw [ofRatio, if_neg hne, hlogn, Nat.log2_two_pow]
  simp only [Nat.shiftLeft_eq]
  generalize he : ((m.log2 + a : Nat) : Int) - (b : Nat) - 53 = e
  have hn : m * 2 ^ a * 2 ^ (-e).toNat =
      2 * (2 ^ b * 2 ^ e.toNat) * (m * 2 ^ (52 - m.log2)) := by
    have h1 : m * 2 ^ a * 2 ^ (-e).toNat = m * 2 ^ (a + (-e).toNat) := by
      rw [Nat.mul_assoc, ← Nat.pow_add]
    have h2 : 2 * (2 ^ b * 2 ^ e.toNat) * (m * 2 ^ (52 - m.log2)) =
        m * 2 ^ (1 + b + e.toNat + (52 - m.log2)) := by
      simp only [Nat.pow_add, Nat.pow_one]
      ac_rfl
    rw [h1, h2, show a + (-e).toNat = 1 + b + e.toNat + (52 - m.log2) by omega]
  have hpos : 0 < 2 ^ b * 2 ^ e.toNat := Nat.mul_pos (Nat.two_pow_pos _) (Nat.two_pow_pos _)
  have hge : ¬m * 2 ^ a * 2 ^ (-e).toNat < 2 ^ b * 2 ^ e.toNat * 2 ^ 53 := by
    have hm2 : 2 ^ 52 ≤ m * 2 ^ (52 - m.log2) := by
      calc 2 ^ 52 = 2 ^ m.log2 * 2 ^ (52 - m.log2) := by
            rw [← Nat.pow_add, Nat.add_sub_cancel' hlog]
        _ ≤ m * 2 ^ (52 - m.log2) :=
            Nat.mul_le_mul_right _ (Nat.log2_self_le (Nat.ne_of_gt hm))
    rw [hn, Nat.not_lt]
    calc 2 ^ b * 2 ^ e.toNat * 2 ^ 53 = 2 * (2 ^ b * 2 ^ e.toNat) * 2 ^ 52 := by
          rw [show (2 : Nat) ^ 53 = 2 * 2 ^ 52 by decide]
          ac_rfl
      _ ≤ 2 * (2 ^ b * 2 ^ e.toNat) * (m * 2 ^ (52 - m.log2)) := Nat.mul_le_mul_left _ hm2
  rw [if_neg hge, hn, roundRatio_mul_left _ (by omega)]
  congr 1
  omega

/-- The whole part of a quotient that is not rounded. -/
theorem floor_ofRatio {m : Nat} (a b : Nat) (hm : 0 < m) (hlt : m < 2 ^ 53) :
    (ofRatio (m * 2 ^ a) (2 ^ b)).floor = m * 2 ^ a / 2 ^ b := by
  have hlog : m.log2 ≤ 52 := Nat.le_of_lt_succ ((Nat.log2_lt (Nat.ne_of_gt hm)).2 hlt)
  rw [ofRatio_two_pow a b hm hlt, floor, num_eq, den_eq]
  dsimp only
  generalize he : (m.log2 : Int) + a - b - 52 = e
  refine div_eq_div_of_mul_eq (Nat.two_pow_pos _) (Nat.two_pow_pos _) ?_
  simp only [Nat.mul_assoc, ← Nat.pow_add]
  rw [show 52 - m.log2 + e.toNat + b = a + (-e).toNat by omega]

theorem ofNat_two_pow (c : Nat) : ofNat (2 ^ c) = ⟨2 ^ 52, (c : Int) - 52⟩ := by
  have h := ofRatio_two_pow c 0 (m := 1) (by decide) (by decide)
  rw [Nat.one_mul, Nat.pow_zero, show Nat.log2 1 = 0 by decide] at h
  simpa [ofNat] using h

end Binary

/-! ## Load factors -/

namespace Single

variable {x : Single}

theorem units_eq : x.units = x.significand * 2 ^ x.scale :=
  Nat.shiftLeft_eq x.significand x.scale

theorem unitsPerOne_eq : unitsPerOne = 2 ^ 149 :=
  Nat.one_shiftLeft 149

theorem significand_lt : x.significand < 2 ^ 24 := by
  have : x.fractionField < 2 ^ 23 := Nat.mod_lt _ (by decide)
  unfold significand
  split <;> omega

theorem isFraction_iff : x.isFraction = true ↔
    x.magnitude = .finite x.units ∧ x.isNegative = false ∧ 0 < x.units ∧ x.units < unitsPerOne := by
  by_cases h : x.exponentField < 255
  · simp [isFraction, magnitude, h, and_assoc]
  · by_cases h0 : x.fractionField = 0 <;> simp [isFraction, magnitude, h, h0]

end Single

/-! ## Thresholds -/

variable {loadFactor : Single}

/-- The double product of a power of two and a load factor, cut off, is the exact one. -/
theorem floor_mul_toBinary (c : Nat) (h : 0 < loadFactor.units) :
    ((Binary.ofNat (2 ^ c)).mul loadFactor.toBinary).floor =
      exactThreshold (2 ^ c) loadFactor := by
  rw [Single.units_eq] at h
  have hs : 0 < loadFactor.significand := Nat.pos_of_mul_pos_right h
  have hlt : loadFactor.significand < 2 ^ 53 :=
    Nat.lt_trans Single.significand_lt (by decide)
  rw [Binary.ofNat_two_pow, Binary.mul, Binary.num_eq, Binary.num_eq, Binary.den_eq, Binary.den_eq,
    Single.toBinary, exactThreshold, Single.units_eq, Single.unitsPerOne_eq]
  dsimp only
  generalize hu : ((c : Int) - 52).toNat = up
  generalize hd : (-((c : Int) - 52)).toNat = down
  generalize hsu : ((loadFactor.scale : Int) - 149).toNat = up'
  generalize hsd : (-((loadFactor.scale : Int) - 149)).toNat = down'
  have hnum : 2 ^ 52 * 2 ^ up * (loadFactor.significand * 2 ^ up') =
      loadFactor.significand * 2 ^ (52 + up + up') := by
    simp only [Nat.pow_add]
    ac_rfl
  rw [hnum, ← Nat.pow_add, Binary.floor_ofRatio _ _ hs hlt]
  refine div_eq_div_of_mul_eq (Nat.two_pow_pos _) (Nat.two_pow_pos _) ?_
  rw [Nat.mul_left_comm]
  simp only [Nat.mul_assoc, ← Nat.pow_add]
  rw [show 52 + up + up' + 149 = c + loadFactor.scale + (down + down') by omega]

/-- A load factor below one leaves some of the slots free. -/
theorem exactThreshold_lt {slots : Nat} (hpos : 0 < slots) (h : loadFactor.isFraction = true) :
    exactThreshold slots loadFactor < slots := by
  obtain ⟨-, -, -, hlt⟩ := Single.isFraction_iff.1 h
  refine Nat.div_lt_of_lt_mul ?_
  rw [Nat.mul_comm Single.unitsPerOne]
  exact Nat.mul_lt_mul_of_pos_left hlt hpos

/-- For a power of two the threshold is computed without rounding. -/
theorem threshold_eq_exactThreshold {c : Nat} (hc : 2 ^ c ≤ wordSize)
    (h : loadFactor.isFraction = true) :
    threshold (2 ^ c) loadFactor = exactThreshold (2 ^ c) loadFactor := by
  obtain ⟨hfinite, hsign, hpos, -⟩ := Single.isFraction_iff.1 h
  have hlt := exactThreshold_lt (Nat.two_pow_pos c) h
  simp only [threshold, hfinite, hsign, floor_mul_toBinary c hpos]
  simp only [Bool.false_eq_true, if_false]
  omega

/-! ## Numbers of slots -/

theorem leastPowerOfTwo_eq (n : Nat) : ∃ c, leastPowerOfTwo n = 2 ^ c := by
  unfold leastPowerOfTwo
  split
  · exact ⟨0, rfl⟩
  · exact ⟨_, Nat.one_shiftLeft _⟩

theorem le_leastPowerOfTwo (n : Nat) : n ≤ leastPowerOfTwo n := by
  unfold leastPowerOfTwo
  split
  · assumption
  · have := Nat.lt_log2_self (n := n - 1)
    rw [Nat.one_shiftLeft]
    omega

theorem leastPowerOfTwo_two_pow (c : Nat) : leastPowerOfTwo (2 ^ c) = 2 ^ c := by
  unfold leastPowerOfTwo
  cases c with
  | zero => rfl
  | succ c =>
    have hpos := Nat.two_pow_pos c
    have hlog : (2 ^ (c + 1) - 1).log2 = c := by
      refine (Nat.log2_eq_iff (by omega)).2 ⟨?_, ?_⟩ <;> omega
    rw [if_neg (by omega), hlog, Nat.one_shiftLeft]

theorem isLeast_leastPowerOfTwo (n : Nat) :
    IsLeast {m | (∃ j, m = 2 ^ j) ∧ n ≤ m} (leastPowerOfTwo n) := by
  refine ⟨⟨leastPowerOfTwo_eq n, le_leastPowerOfTwo n⟩, ?_⟩
  rintro _ ⟨⟨j, rfl⟩, hle⟩
  unfold leastPowerOfTwo
  split
  · exact Nat.one_le_two_pow
  · have hlog : (n - 1).log2 < j := (Nat.log2_lt (by omega)).2 (by omega)
    rw [Nat.one_shiftLeft]
    exact Nat.pow_le_pow_right (by decide) hlog

/-- The number of slots for a hint is a power of two, not too small and a size. -/
theorem capacityFor_eq_ok {hint : UInt64} {slots : Nat} (h : capacityFor hint = .ok slots) :
    (∃ c, slots = 2 ^ c) ∧ minCapacity ≤ slots ∧ slots < wordSize := by
  unfold capacityFor at h
  dsimp only at h
  split at h
  · next hlt =>
    cases h
    have := le_leastPowerOfTwo (max hint.toNat minCapacity)
    exact ⟨leastPowerOfTwo_eq _, by omega, hlt⟩
  · simp at h

/-- What fits is a doubling of the slots that is a size and may hold the entries. -/
theorem fitting?_eq_some {entries slots fit : Nat}
    (h : fitting? loadFactor entries slots = some fit) :
    (∃ j, fit = slots * 2 ^ j) ∧ fit < wordSize ∧ entries ≤ threshold fit loadFactor := by
  unfold fitting? at h
  have hmem := List.mem_of_find?_eq_some h
  have hp := List.find?_some h
  simp only [doublings, List.mem_map] at hmem
  obtain ⟨j, -, hj⟩ := hmem
  simp only [Bool.and_eq_true, decide_eq_true_eq] at hp
  exact ⟨⟨j, by rw [← hj, Nat.shiftLeft_eq]⟩, hp⟩

/-- So many slots can be counted if they can be allocated. -/
theorem lt_wordSize_of_isAllocatable {K : Type} [Stored K] {slots : Nat}
    (h : isAllocatable K slots = true) : slots < wordSize := by
  rw [isAllocatable, Bool.and_eq_true] at h
  have hbytes : slots * 4 ≤ 0x7fffffffffffffff := of_decide_eq_true h.2
  have hsize : wordSize = 0x10000000000000000 := rfl
  omega

/-- If so many slots can be allocated, fewer can. -/
theorem isAllocatable_mono {K : Type} [Stored K] {slots slots' : Nat} (hle : slots ≤ slots')
    (h : isAllocatable K slots' = true) : isAllocatable K slots = true := by
  rw [isAllocatable, Bool.and_eq_true, decide_eq_true_eq, decide_eq_true_eq] at h ⊢
  exact ⟨Nat.le_trans (Nat.mul_le_mul_right _ hle) h.1,
    Nat.le_trans (Nat.mul_le_mul_right _ hle) h.2⟩

/-! ## Least numbers of slots -/

theorem exactThreshold_mono {slots slots' : Nat} (h : slots ≤ slots') :
    exactThreshold slots loadFactor ≤ exactThreshold slots' loadFactor :=
  Nat.div_le_div_right (Nat.mul_le_mul_right _ h)

theorem two_mul_exactThreshold_le (slots : Nat) (loadFactor : Single) :
    2 * exactThreshold slots loadFactor ≤ exactThreshold (2 * slots) loadFactor := by
  rw [exactThreshold, exactThreshold, Nat.mul_assoc]
  exact Nat.mul_div_le_mul_div_assoc _ _ _

/-- The doublings of a number of slots whose thresholds admit `n` entries. -/
def admitting (loadFactor : Single) (slots n : Nat) : Set Nat :=
  {c | ∃ j, c = slots * 2 ^ j ∧ n ≤ exactThreshold c loadFactor}

section Admitting

variable {slots c d n m : Nat}

theorem isLeast_admitting_self (h : n ≤ exactThreshold slots loadFactor) :
    IsLeast (admitting loadFactor slots n) slots := by
  refine ⟨⟨0, by rw [Nat.pow_zero, Nat.mul_one], h⟩, ?_⟩
  rintro _ ⟨j, rfl, -⟩
  exact Nat.le_mul_of_pos_right _ (Nat.two_pow_pos j)

/-- Slots that do not admit the entries need not be looked at. -/
theorem isLeast_admitting_of_two_mul (h : exactThreshold slots loadFactor < n)
    (hc : IsLeast (admitting loadFactor (2 * slots) n) c) :
    IsLeast (admitting loadFactor slots n) c := by
  have hdouble : ∀ j, 2 * slots * 2 ^ j = slots * 2 ^ (j + 1) := by
    intro j
    rw [Nat.pow_succ]
    ac_rfl
  obtain ⟨⟨j, rfl, hn⟩, hleast⟩ := hc
  refine ⟨⟨j + 1, hdouble j, hn⟩, ?_⟩
  rintro _ ⟨i, rfl, hi⟩
  cases i with
  | zero =>
    rw [Nat.pow_zero, Nat.mul_one] at hi
    omega
  | succ i => exact hleast ⟨i, (hdouble i).symm, hi⟩

/-- The least doubling of the least one is the least that admits both numbers of entries. -/
theorem isLeast_admitting_max (hslots : 0 < slots)
    (hc : IsLeast (admitting loadFactor slots m) c) (hd : IsLeast (admitting loadFactor c n) d) :
    IsLeast (admitting loadFactor slots (max m n)) d := by
  obtain ⟨⟨i, rfl, hm⟩, hleast⟩ := hc
  obtain ⟨⟨j, rfl, hn⟩, hleast'⟩ := hd
  have hle : exactThreshold (slots * 2 ^ i) loadFactor ≤
      exactThreshold (slots * 2 ^ i * 2 ^ j) loadFactor :=
    exactThreshold_mono (Nat.le_mul_of_pos_right _ (Nat.two_pow_pos j))
  refine ⟨⟨i + j, by rw [Nat.pow_add, Nat.mul_assoc], Nat.max_le.2 ⟨Nat.le_trans hm hle, hn⟩⟩, ?_⟩
  rintro _ ⟨p, rfl, hp⟩
  obtain ⟨hmp, hnp⟩ := Nat.max_le.1 hp
  have hip : i ≤ p := (Nat.pow_le_pow_iff_right Nat.one_lt_two).1
    (Nat.le_of_mul_le_mul_left (hleast ⟨p, rfl, hmp⟩) hslots)
  refine hleast' ⟨p - i, ?_, hnp⟩
  rw [Nat.mul_assoc, ← Nat.pow_add, Nat.add_sub_cancel' hip]

/-- What fits is the least doubling that may hold the entries. -/
theorem isLeast_of_fitting? {fit : Nat} (hf : loadFactor.isFraction = true)
    (h : fitting? loadFactor n (2 ^ c) = some fit) :
    IsLeast (admitting loadFactor (2 ^ c) n) fit := by
  obtain ⟨⟨j, rfl⟩, hlt, hn⟩ := fitting?_eq_some h
  rw [← Nat.pow_add] at hlt hn ⊢
  rw [threshold_eq_exactThreshold (Nat.le_of_lt hlt) hf] at hn
  refine ⟨⟨j, Nat.pow_add 2 c j, hn⟩, ?_⟩
  rintro _ ⟨i, rfl, hi⟩
  rw [← Nat.pow_add] at hi ⊢
  refine Nat.le_of_not_lt fun hsmaller => ?_
  -- a smaller doubling would have been met first
  obtain ⟨-, p, hp, hfit, hbefore⟩ := List.find?_eq_some_iff_getElem.1 h
  have hget : ∀ q (hq : q < (doublings (2 ^ c)).length), (doublings (2 ^ c))[q] = 2 ^ (c + q) := by
    intro q hq
    simp [doublings, Nat.shiftLeft_eq, Nat.pow_add]
  rw [hget p hp, ← Nat.pow_add] at hfit
  have hip : i < p := by
    rw [← hfit] at hsmaller
    exact Nat.lt_of_add_lt_add_left ((Nat.pow_lt_pow_iff_right Nat.one_lt_two).1 hsmaller)
  have hno := hbefore i hip
  have hword := Nat.lt_trans hsmaller hlt
  rw [hget i (Nat.lt_trans hip hp), threshold_eq_exactThreshold (Nat.le_of_lt hword) hf] at hno
  simp [hword, hi] at hno

/-- If a doubling that is a size may hold the entries, some doubling fits. -/
theorem exists_fitting? {j : Nat} (hf : loadFactor.isFraction = true)
    (hlt : 2 ^ (c + j) < wordSize) (hn : n ≤ exactThreshold (2 ^ (c + j)) loadFactor) :
    ∃ fit, fitting? loadFactor n (2 ^ c) = some fit := by
  have hj : c + j < 64 := (Nat.pow_lt_pow_iff_right Nat.one_lt_two).1 hlt
  refine Option.isSome_iff_exists.1 (List.find?_isSome.2 ⟨2 ^ (c + j), ?_, ?_⟩)
  · exact List.mem_map.2 ⟨j, List.mem_range.2 (by omega), by rw [Nat.shiftLeft_eq, Nat.pow_add]⟩
  · simp [hlt, threshold_eq_exactThreshold (Nat.le_of_lt hlt) hf, hn]

end Admitting

end LinearProbe
