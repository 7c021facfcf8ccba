import LinearProbe.Map.Basic
import LinearProbe.Proofs.Thresholds
import LinearProbe.Table.Lemmas
import Mathlib.Algebra.Order.Floor.Semifield
import Mathlib.Data.Rat.Floor
import Mathlib.Tactic.Linarith
import Mathlib.Tactic.Ring

/-!
# Construction from parameters

A load factor is a pattern of bits; `Single.value?` is the rational number that it stands for. The
patterns that a map accepts are those of the numbers strictly between 0 and 1
(`Single.isFraction_iff_value?`), and for a power of two of slots the threshold under such a number
is the whole part of their product (`threshold_eq_floor`).

The number of slots for a hint is the least power of two that is large enough
(`isLeast_leastPowerOfTwo`). Construction refuses exactly the load factors outside that range,
aborts exactly if this many slots can not be had, and otherwise gives what the parameters announce
(`Map.ofConfig_exact`).
-/

namespace LinearProbe

/-! ## The number of a pattern -/

namespace Single

variable {x : Single} {q : ℚ}

/-- The number that a pattern stands for. The fraction field counts parts of `2 ^ 23`, with a one in
front of them unless the exponent field is zero, and the exponent field is the exponent and 127.
A pattern whose exponent field is full of ones stands for no number. -/
def value? (x : Single) : Option ℚ :=
  if x.exponentField = 255 then none
  else
    some ((if x.isNegative then -1 else 1) *
      if x.exponentField = 0 then (x.fractionField : ℚ) / 2 ^ 23 * 2 ^ (-126 : ℤ)
      else (1 + (x.fractionField : ℚ) / 2 ^ 23) * 2 ^ ((x.exponentField : ℤ) - 127))

theorem exponentField_lt_iff : x.exponentField < 255 ↔ x.exponentField ≠ 255 := by
  have : x.exponentField < 256 := Nat.mod_lt _ (by decide)
  omega

/-- Numbers are counted in units of `2 ^ -149`. -/
theorem value?_eq (h : x.exponentField < 255) :
    x.value? = some ((if x.isNegative then -1 else 1) * ((x.units : ℚ) / 2 ^ 149)) := by
  rw [value?, if_neg (Nat.ne_of_lt h), units_eq]
  congr 2
  cases he : x.exponentField with
  | zero =>
    simp only [significand, scale, he, if_true, Nat.zero_sub, Nat.pow_zero, Nat.mul_one]
    norm_num
    ring
  | succ e =>
    have hexp : ((e + 1 : ℕ) : ℤ) - 127 = (e : ℤ) + (-126) := by omega
    simp only [significand, scale, he, Nat.succ_ne_zero, if_false, Nat.add_sub_cancel]
    rw [hexp, zpow_add₀ (by norm_num), zpow_natCast]
    push_cast
    norm_num
    ring

/-- The positive numbers are those of the finite patterns without a sign that are not zero. -/
theorem value?_pos_iff : x.value? = some q ∧ 0 < q ↔
    x.magnitude = .finite x.units ∧ x.isNegative = false ∧ 0 < x.units ∧
      q = (x.units : ℚ) / 2 ^ 149 := by
  by_cases h : x.exponentField < 255
  · have hfinite : x.magnitude = .finite x.units := if_pos h
    rw [value?_eq h, Option.some.injEq]
    cases hsign : x.isNegative with
    | true =>
      have hunits : (0 : ℚ) ≤ x.units / 2 ^ 149 := by positivity
      simp only [Bool.true_eq_false, false_and, and_false, if_true, iff_false, not_and]
      rintro rfl
      linarith
    | false =>
      simp only [hfinite, true_and, Bool.false_eq_true, if_false, one_mul]
      rw [and_comm, eq_comm (b := q)]
      refine and_congr_left ?_
      rintro rfl
      rw [div_pos_iff_of_pos_right (by norm_num), Nat.cast_pos]
  · have h255 : x.exponentField = 255 := by
      rwa [exponentField_lt_iff, Ne, Decidable.not_not] at h
    have hmagnitude : x.magnitude ≠ .finite x.units := by
      rw [magnitude, if_neg h]
      split <;> exact Magnitude.noConfusion
    simp [hmagnitude, value?, h255]

/-- The patterns that are accepted stand for the numbers strictly between 0 and 1. -/
theorem isFraction_iff_value? : x.isFraction = true ↔ ∃ q, x.value? = some q ∧ 0 < q ∧ q < 1 := by
  have hone : x.units < unitsPerOne ↔ (x.units : ℚ) / 2 ^ 149 < 1 := by
    rw [unitsPerOne_eq, div_lt_one (by norm_num)]
    norm_cast
  rw [isFraction_iff, hone]
  constructor
  · rintro ⟨hfinite, hsign, hpos, hlt⟩
    obtain ⟨hq, hqpos⟩ := value?_pos_iff.2 ⟨hfinite, hsign, hpos, rfl⟩
    exact ⟨_, hq, hqpos, hlt⟩
  · rintro ⟨q, hq, hqpos, hlt⟩
    obtain ⟨hfinite, hsign, hpos, rfl⟩ := value?_pos_iff.1 ⟨hq, hqpos⟩
    exact ⟨hfinite, hsign, hpos, hlt⟩

end Single

/-! ## Thresholds as whole parts -/

section Threshold

variable {x : Single} {q : ℚ}

/-- The threshold of a power of two of slots is the whole part of its product with the load
factor. -/
theorem threshold_eq_floor {c : Nat} (hc : 2 ^ c ≤ wordSize) (hq : x.value? = some q)
    (hpos : 0 < q) (hlt : q < 1) : threshold (2 ^ c) x = ⌊(2 ^ c : ℚ) * q⌋₊ := by
  obtain ⟨-, -, -, hunits⟩ := Single.value?_pos_iff.1 ⟨hq, hpos⟩
  rw [threshold_eq_exactThreshold hc (Single.isFraction_iff_value?.2 ⟨q, hq, hpos, hlt⟩),
    hunits, exactThreshold, Single.unitsPerOne_eq, ← mul_div_assoc]
  have hfloor := Nat.floor_div_eq_div (K := ℚ) (2 ^ c * x.units) (2 ^ 149)
  push_cast at hfloor
  exact hfloor.symm

theorem two_mul_div_cases {n : ℕ} (hn : 0 < n) (m : ℕ) :
    2 * m / n = 2 * (m / n) ∨ 2 * m / n = 2 * (m / n) + 1 := by
  have hle : 2 * (m / n) ≤ 2 * m / n := Nat.mul_div_le_mul_div_assoc 2 m n
  have hlt : 2 * m / n < 2 * (m / n + 1) := by
    refine Nat.div_lt_of_lt_mul ?_
    rw [Nat.mul_left_comm]
    exact Nat.mul_lt_mul_of_pos_left (Nat.lt_mul_div_succ m hn) Nat.two_pos
  omega

/-- Twice the slots may hold twice the entries, and possibly one more. -/
theorem exactThreshold_two_mul (slots : ℕ) (x : Single) :
    exactThreshold (2 * slots) x = 2 * exactThreshold slots x ∨
      exactThreshold (2 * slots) x = 2 * exactThreshold slots x + 1 := by
  rw [exactThreshold, Nat.mul_assoc]
  exact two_mul_div_cases (Single.unitsPerOne_eq ▸ Nat.two_pow_pos 149) _

end Threshold

/-! ## What is constructed -/

namespace Map

variable {K : Type} [Stored K] {config : Config} {hash : K → UInt64}

/-- No power of two that is large enough for the hint is a size, or that many slots can not be
allocated. -/
def Oversized (K : Type) [Stored K] (hint : UInt64) (slots : ℕ) : Prop :=
  (∀ j, max hint.toNat minCapacity ≤ 2 ^ j → wordSize ≤ 2 ^ j) ∨
    maxAllocation < slots * Stored.cellBytes K ∨ maxAllocation < slots * valueBytes

theorem oversized_iff {hint : UInt64} {slots : ℕ}
    (hleast : IsLeast {n | (∃ j, n = 2 ^ j) ∧ max hint.toNat minCapacity ≤ n} slots) :
    Oversized K hint slots ↔ ¬(slots < wordSize ∧ isAllocatable K slots = true) := by
  obtain ⟨⟨⟨c, rfl⟩, hle⟩, hlower⟩ := hleast
  have hsize : (∀ j, max hint.toNat minCapacity ≤ 2 ^ j → wordSize ≤ 2 ^ j) ↔
      ¬2 ^ c < wordSize := by
    rw [Nat.not_lt]
    exact ⟨fun h => h c hle, fun h j hj => Nat.le_trans h (hlower ⟨⟨j, rfl⟩, hj⟩)⟩
  rw [Oversized, hsize, isAllocatable, Bool.and_eq_true, decide_eq_true_eq, decide_eq_true_eq,
    not_and_or, not_and_or, Nat.not_le, Nat.not_le]

theorem ofConfig_of_not_isFraction (h : config.loadFactor.isFraction = false) :
    ofConfig config hash = .error (.refused (.invalidLoadFactor config.loadFactor)) := by
  simp [ofConfig, Config.validate, h]

/-- A load factor that is accepted leaves it to the number of slots whether a map is made. -/
theorem ofConfig_of_isFraction (h : config.loadFactor.isFraction = true) {slots : ℕ}
    (hslots : slots = leastPowerOfTwo (max config.capacityHint.toNat minCapacity)) :
    ofConfig config hash = if slots < wordSize ∧ isAllocatable K slots = true then
      .ok ⟨.empty slots config.loadFactor, hash, config.missing⟩
    else .error (.aborted .capacityOverflow) := by
  subst hslots
  simp only [ofConfig, Config.validate, h, if_true, Table.ofHint, capacityFor]
  split_ifs <;> simp_all

/-- Construction refuses the load factors that are no number strictly between 0 and 1, whatever the
hint. Under any other one it aborts if the least power of two of slots for the hint can not be
counted or allocated, and otherwise gives a map with the number of slots and the threshold that the
parameters announce. Thresholds of powers of two are whole parts of exact products, so they stay
below the number of slots, and doubling the slots doubles them, up to one entry more. -/
theorem ofConfig_exact (config : Config) (hash : K → UInt64) :
    (ofConfig config hash = .error (.refused (.invalidLoadFactor config.loadFactor)) ↔
      ¬∃ q, config.loadFactor.value? = some q ∧ 0 < q ∧ q < 1) ∧
    (∀ q, config.loadFactor.value? = some q → 0 < q → q < 1 →
      ∃ slots,
        IsLeast {n | (∃ j, n = 2 ^ j) ∧ max config.capacityHint.toNat minCapacity ≤ n} slots ∧
        (ofConfig config hash = .error (.aborted .capacityOverflow) ↔
          Oversized K config.capacityHint slots) ∧
        (¬Oversized K config.capacityHint slots →
          ∃ m, ofConfig config hash = .ok m ∧ m.capacity = slots ∧
            config.capacity = .ok slots ∧ config.threshold = .ok m.table.threshold)) ∧
    ∀ c, 3 ≤ c → c ≤ 63 → ∀ (x : Single) q, x.value? = some q → 0 < q → q < 1 →
      threshold (2 ^ c) x = ⌊(2 ^ c : ℚ) * q⌋₊ ∧ threshold (2 ^ c) x < 2 ^ c ∧
      (threshold (2 * 2 ^ c) x = 2 * threshold (2 ^ c) x ∨
        threshold (2 * 2 ^ c) x = 2 * threshold (2 ^ c) x + 1) := by
  refine ⟨?_, fun q hq hpos hlt => ?_, fun c _ hc x q hq hpos hlt => ?_⟩
  · rw [← Single.isFraction_iff_value?, Bool.not_eq_true]
    refine ⟨fun hrun => ?_, ofConfig_of_not_isFraction⟩
    refine Bool.eq_false_iff.2 fun hf => ?_
    rw [ofConfig_of_isFraction hf rfl] at hrun
    split at hrun <;> cases hrun
  · have hf := Single.isFraction_iff_value?.2 ⟨q, hq, hpos, hlt⟩
    have hleast := isLeast_leastPowerOfTwo (max config.capacityHint.toNat minCapacity)
    have hcapacity : config.capacity =
        if leastPowerOfTwo (max config.capacityHint.toNat minCapacity) < wordSize then
          .ok (leastPowerOfTwo (max config.capacityHint.toNat minCapacity))
        else .error .capacityOverflow := rfl
    generalize hslots : leastPowerOfTwo (max config.capacityHint.toNat minCapacity) = slots
      at hleast hcapacity
    refine ⟨slots, hleast, ?_, fun hno => ?_⟩
    · rw [oversized_iff hleast, ofConfig_of_isFraction hf hslots.symm]
      split_ifs with h <;> simp [h]
    · rw [oversized_iff hleast, not_not] at hno
      rw [ofConfig_of_isFraction hf hslots.symm, if_pos hno]
      rw [if_pos hno.1] at hcapacity
      refine ⟨_, rfl, Table.capacity_empty, hcapacity, ?_⟩
      rw [Config.threshold, hcapacity]
      rfl
  · have hf := Single.isFraction_iff_value?.2 ⟨q, hq, hpos, hlt⟩
    have hword : ∀ {d}, d ≤ 64 → 2 ^ d ≤ wordSize := fun h => Nat.pow_le_pow_right Nat.two_pos h
    refine ⟨threshold_eq_floor (hword (by omega)) hq hpos hlt, ?_, ?_⟩
    · rw [threshold_eq_exactThreshold (hword (by omega)) hf]
      exact exactThreshold_lt (Nat.two_pow_pos c) hf
    · rw [Nat.mul_comm 2, ← Nat.pow_succ, threshold_eq_exactThreshold (hword (by omega)) hf,
        threshold_eq_exactThreshold (hword (by omega)) hf, Nat.pow_succ, Nat.mul_comm _ 2]
      exact exactThreshold_two_mul _ x

/-- The largest load factor below one leaves one of 16 slots free, and `2 ^ 39` of `2 ^ 63`. -/
theorem ofConfig_exact_largest :
    Single.value? ⟨0x3f7fffff⟩ = some (16777215 / 16777216) ∧
      (∃ m, ofConfig ⟨9, ⟨0x3f7fffff⟩, -1⟩ (id : UInt64 → UInt64) = .ok m ∧ m.capacity = 16 ∧
        Config.threshold ⟨9, ⟨0x3f7fffff⟩, -1⟩ = .ok m.table.threshold) ∧
      threshold (2 ^ 63) ⟨0x3f7fffff⟩ = 2 ^ 63 - 2 ^ 39 := by
  have hvalue : Single.value? ⟨0x3f7fffff⟩ = some (16777215 / 16777216) := by decide +kernel
  obtain ⟨-, hmade, hthreshold⟩ := ofConfig_exact ⟨9, ⟨0x3f7fffff⟩, -1⟩ (id : UInt64 → UInt64)
  obtain ⟨slots, hleast, -, hmap⟩ := hmade _ hvalue (by norm_num) (by norm_num)
  obtain rfl : slots = 16 := hleast.unique (isLeast_leastPowerOfTwo 9)
  refine ⟨hvalue, ?_, ?_⟩
  · obtain ⟨m, hm, hcapacity, -, hm'⟩ := hmap (by
      rw [oversized_iff hleast]
      decide +kernel)
    exact ⟨m, hm, hcapacity, hm'⟩
  · rw [(hthreshold 63 (by decide) (by decide) _ _ hvalue (by norm_num) (by norm_num)).1]
    norm_num

end Map

end LinearProbe
