import LinearProbe.Table.Lemmas
import Mathlib.Data.Set.Card
import Mathlib.Order.Interval.Set.Nat

/-!
# How hashes spread over the slots

Spreading loses nothing of a hash. A second fold takes the first one back (`foldUpper_foldUpper`),
and a product with an odd word is taken back by a product with its inverse. `unspread` takes back
all three steps of `spread`, which is therefore a permutation of the words (`spread_bijective`).

In a table whose number of slots divides the number of words, the spreads of the hashes with one
home stand in the same place of every lap of the row. `Table.hashFor` gives the hash of that home
for each lap, and there are no others (`Table.bijOn_hashFor`). So every slot is the home of as many
hashes as there are laps (`Table.spread_shares_evenly`).
-/

namespace LinearProbe

/-! ## Taking a spread back -/

/-- A fold leaves the upper bits as they are, so folding them once more takes it back. -/
theorem foldUpper_foldUpper (x : UInt64) : foldUpper (foldUpper x) = x := by
  -- Two shifts by more than half of the 64 bits leave nothing.
  have hgone : x >>> 33 >>> 33 = 0 := by
    refine UInt64.toNat_inj.1 ?_
    rw [UInt64.toNat_shiftRight, UInt64.toNat_shiftRight, ← Nat.shiftRight_add]
    exact Nat.shiftRight_eq_zero _ _
      (Nat.lt_trans x.toNat_lt (Nat.pow_lt_pow_right Nat.one_lt_two (by decide)))
  calc foldUpper (foldUpper x)
      = (x ^^^ x >>> 33) ^^^ (x >>> 33 ^^^ x >>> 33 >>> 33) := by
        rw [foldUpper, foldUpper, UInt64.shiftRight_xor]
    _ = x ^^^ (x >>> 33 ^^^ x >>> 33) := by rw [hgone, UInt64.xor_zero, UInt64.xor_assoc]
    _ = x := by rw [UInt64.xor_self, UInt64.xor_zero]

/-- The inverse of the multiplier. -/
def unspreadMultiplier : UInt64 :=
  0x4f74430c22a54005

theorem spreadMultiplier_mul_unspreadMultiplier : spreadMultiplier * unspreadMultiplier = 1 := by
  decide

/-- The hash that is spread to a word. -/
def unspread (word : UInt64) : UInt64 :=
  foldUpper (foldUpper word * unspreadMultiplier)

theorem unspread_spread (hash : UInt64) : unspread (spread hash) = hash := by
  rw [unspread, spread, foldUpper_foldUpper, UInt64.mul_assoc,
    spreadMultiplier_mul_unspreadMultiplier, UInt64.mul_one, foldUpper_foldUpper]

theorem spread_unspread (word : UInt64) : spread (unspread word) = word := by
  rw [unspread, spread, foldUpper_foldUpper, UInt64.mul_assoc, UInt64.mul_comm unspreadMultiplier,
    spreadMultiplier_mul_unspreadMultiplier, UInt64.mul_one, foldUpper_foldUpper]

theorem spread_bijective : Function.Bijective spread :=
  Function.bijective_iff_has_inverse.2 ⟨unspread, unspread_spread, spread_unspread⟩

/-! ## The hashes of a slot -/

namespace Table

variable {K : Type} {t : Table K} {c i q : ℕ}

/-- In a power of two of slots, the home of a hash is the low bits of its spread. -/
theorem home_eq_and (hc : t.capacity = 2 ^ c) (hash : UInt64) :
    t.home hash = (spread hash).toNat &&& (t.capacity - 1) := by
  rw [home, hc, Nat.and_two_pow_sub_one_eq_mod]

/-- The hash whose spread is in slot `i` after `q` laps of the row. -/
def hashFor (t : Table K) (i q : ℕ) : UInt64 :=
  unspread (UInt64.ofNat (q * t.capacity + i))

theorem spread_hashFor (hi : i < t.capacity) (hq : q < 2 ^ 64 / t.capacity) :
    (spread (t.hashFor i q)).toNat = q * t.capacity + i := by
  -- The lap ends within the words, so the number is not cut to a word.
  have hlap : (q + 1) * t.capacity ≤ 2 ^ 64 := (Nat.le_div_iff_mul_le (Nat.zero_lt_of_lt hi)).1 hq
  rw [Nat.add_one_mul] at hlap
  rw [hashFor, spread_unspread, UInt64.toNat_ofNat', Nat.mod_eq_of_lt (by omega)]

theorem home_hashFor (hi : i < t.capacity) (hq : q < 2 ^ 64 / t.capacity) :
    t.home (t.hashFor i q) = i := by
  rw [home, spread_hashFor hi hq, Nat.mul_add_mod_self_right, Nat.mod_eq_of_lt hi]

/-- Each hash is the one for its home after the laps of its spread. -/
theorem hashFor_home (hash : UInt64) :
    t.hashFor (t.home hash) ((spread hash).toNat / t.capacity) = hash := by
  rw [hashFor, home, Nat.div_add_mod', UInt64.ofNat_toNat, unspread_spread]

/-- The hashes with their home in a slot are those for its laps, one for each. -/
theorem bijOn_hashFor (hd : t.capacity ∣ 2 ^ 64) (hi : i < t.capacity) :
    Set.BijOn (t.hashFor i) (Set.Iio (2 ^ 64 / t.capacity)) {hash | t.home hash = i} := by
  refine ⟨fun q hq => home_hashFor hi hq, fun q hq q' hq' heq => ?_, ?_⟩
  · have hwords : q * t.capacity + i = q' * t.capacity + i := by
      rw [← spread_hashFor hi hq, heq, spread_hashFor hi hq']
    exact Nat.eq_of_mul_eq_mul_right (Nat.zero_lt_of_lt hi) (Nat.add_right_cancel hwords)
  · rintro hash rfl
    exact ⟨(spread hash).toNat / t.capacity,
      Nat.div_lt_div_of_lt_of_dvd hd (spread hash).toNat_lt, hashFor_home hash⟩

/-- Spreading is a permutation of the words. In a power of two of slots, where the home of a hash is
the low bits of its spread, each slot is therefore the home of equally many hashes. -/
theorem spread_shares_evenly :
    Function.Bijective spread ∧
      ∀ {K : Type} (t : Table K) (c : ℕ), c ≤ 63 → t.capacity = 2 ^ c →
        (∀ hash, t.home hash = (spread hash).toNat &&& (t.capacity - 1)) ∧
        ∀ i, i < t.capacity → {hash | t.home hash = i}.ncard = 2 ^ 64 / t.capacity := by
  refine ⟨spread_bijective, fun t c hc hcap => ⟨home_eq_and hcap, fun i hi => ?_⟩⟩
  have hd : t.capacity ∣ 2 ^ 64 := hcap ▸ Nat.pow_dvd_pow 2 (by omega)
  rw [← (bijOn_hashFor hd hi).ncard_eq, Set.ncard_Iio_nat]

/-- Slot 6 of eight is the home of an eighth of the hashes, and the last slot of the largest row is
the home of two. -/
theorem spread_shares_evenly_largest :
    {hash | (empty 8 ⟨0x3f400000⟩ : Table UInt64).home hash = 6}.ncard = 2 ^ 61 ∧
      {hash | (empty (2 ^ 63) ⟨0x3f400000⟩ : Table UInt64).home hash = 2 ^ 63 - 1}.ncard = 2 := by
  obtain ⟨-, hshare⟩ := spread_shares_evenly
  constructor
  · obtain ⟨-, hslot⟩ := hshare (empty 8 ⟨0x3f400000⟩ : Table UInt64) 3 (by decide) capacity_empty
    rw [hslot 6 (by rw [capacity_empty]; decide), capacity_empty]
    rfl
  · obtain ⟨-, hslot⟩ :=
      hshare (empty (2 ^ 63) ⟨0x3f400000⟩ : Table UInt64) 63 (by decide) capacity_empty
    rw [hslot (2 ^ 63 - 1) (by rw [capacity_empty]; decide), capacity_empty]
    rfl

end Table

end LinearProbe
