import LinearProbe.Map.Basic
import LinearProbe.Proofs.Layouts
import LinearProbe.Proofs.MissingValue

/-!
# Equality of maps is extensional

Two maps are compared by their sizes and by looking up the entries of one in the other. No two
entries of a map have equal keys, so if as many entries of another map are all found, no entry is
left over : the maps are the same exactly if they hold the same values under the same keys
(`Map.sameAs_iff_of_reached`), whatever their hash functions, layouts and histories.

The hash code is a sum with one word for each entry. Equal entries have equal words if the hash of
keys respects equality, so the code is the sum over any list of the same values under the same keys
(`Map.hashCode_eq_sum`), and maps that are the same have the same code (`Map.sameAs_extensional`).
-/

namespace LinearProbe.Map

variable {K L : Type} [BEq K] {a b c m : Map K} {es fs : List (K × Int32)} {e : K × Int32}
  {k : K} {v : Int32} {n : Nat}

/-! ## Lists of entries -/

section Lists

/-- Some entry has the value `v` and a key equal to `k`. -/
def Holds (es : List (K × Int32)) (k : K) (v : Int32) : Prop :=
  ∃ e ∈ es, (e.1 == k) = true ∧ e.2 = v

/-- No two entries have equal keys. -/
def Unequal (es : List (K × Int32)) : Prop :=
  es.Pairwise fun e f => (e.1 == f.1) = false

theorem Holds.of_perm (hp : es.Perm fs) (h : Holds es k v) : Holds fs k v := by
  obtain ⟨e, he, hek⟩ := h
  exact ⟨e, hp.mem_iff.1 he, hek⟩

variable [EquivBEq K]

theorem holds_of_mem (he : e ∈ es) : Holds es e.1 e.2 :=
  ⟨e, he, BEq.rfl, rfl⟩

/-- A key equal to that of an entry has its value. -/
theorem Holds.congr {l : K} (h : Holds es k v) (hkl : (k == l) = true) : Holds es l v := by
  obtain ⟨e, he, hek, hev⟩ := h
  exact ⟨e, he, BEq.trans hek hkl, hev⟩

/-- No entry is equal to two entries with unequal keys. -/
theorem Unequal.apart (hes : Unequal es) : es.Pairwise fun e e' =>
    ∀ f : K × Int32, (f.1 == e.1) = true ∧ f.2 = e.2 → ¬((f.1 == e'.1) = true ∧ f.2 = e'.2) := by
  refine hes.imp ?_
  rintro e e' hne f ⟨hfe, -⟩ ⟨hfe', -⟩
  rw [BEq.trans (BEq.symm hfe) hfe'] at hne
  cases hne

theorem length_le_of_holds (hes : Unequal es) (h : ∀ e ∈ es, Holds fs e.1 e.2) :
    es.length ≤ fs.length :=
  Table.length_le_of_matched hes.apart h

/-- If a list holds all of as many entries, it holds nothing else. -/
theorem holds_iff_of_length_le (hes : Unequal es) (h : ∀ e ∈ es, Holds fs e.1 e.2)
    (hlen : fs.length ≤ es.length) (k : K) (v : Int32) : Holds es k v ↔ Holds fs k v := by
  constructor
  · rintro ⟨e, he, hek, rfl⟩
    exact (h e he).congr hek
  · rintro ⟨f, hf, hfk, rfl⟩
    obtain ⟨e, he, hfe, hv⟩ := Table.exists_of_length_le hes.apart h hlen f hf
    exact ⟨e, he, BEq.trans (BEq.symm hfe) hfk, hv.symm⟩

/-- Lists that hold the same have the same images under a function that respects equality of
keys. -/
theorem perm_map_of_holds_iff {f : K × Int32 → L}
    (hf : ∀ k l v, (k == l) = true → f (k, v) = f (l, v)) (hes : Unequal es) (hfs : Unequal fs)
    (h : ∀ k v, Holds es k v ↔ Holds fs k v) : (es.map f).Perm (fs.map f) := by
  have hall : ∀ e ∈ es, Holds fs e.1 e.2 := fun e he => (h _ _).1 (holds_of_mem he)
  refine Table.perm_map_of_matched ?_ hes.apart hall
    (length_le_of_holds hfs fun e he => (h _ _).2 (holds_of_mem he))
  rintro ⟨k, v⟩ ⟨l, w⟩ ⟨hlk, rfl⟩
  exact (hf l k w hlk).symm

end Lists

/-! ## Comparing maps -/

theorem includesAll_eq_true_iff :
    m.includesAll es = .ok true ↔ ∀ e ∈ es, m.get? e.1 = .ok (some e.2) := by
  induction es with
  | nil => simp [includesAll]
  | cons e es ih =>
    rw [includesAll, List.forall_mem_cons, ← ih]
    cases hget : m.get? e.1 with
    | error a => simp
    | ok v? =>
      by_cases hv : v? = some e.2
      · simp [hv]
      · simp [hv]

theorem sameAs_eq_true_iff : a.sameAs b = .ok true ↔
    a.size = b.size ∧ ∀ e ∈ a.toList, b.get? e.1 = .ok (some e.2) := by
  rw [sameAs, ← includesAll_eq_true_iff]
  split
  · next hsize => simp [hsize]
  · next hsize => simp [hsize]

/-- With a map that has an empty slot every map can be compared. -/
theorem exists_sameAs (a : Map K) (hb : b.table.HasGap) : ∃ same, a.sameAs b = .ok same := by
  have hget : ∀ k, ∃ v?, b.get? k = .ok v? := by
    intro k
    obtain ⟨spot, hloc, -⟩ := Table.exists_locate hb (b.hash k) (· == k)
    exact ⟨_, by rw [get?, Table.get?, Table.indexOf?_of_locate hloc]; rfl⟩
  have hall : ∀ es, ∃ same, b.includesAll es = .ok same := by
    intro es
    induction es with
    | nil => exact ⟨true, rfl⟩
    | cons e es ih =>
      obtain ⟨v?, hv⟩ := hget e.1
      rw [includesAll, hv]
      dsimp only
      split
      · exact ih
      · exact ⟨false, rfl⟩
  rw [sameAs]
  split
  · exact hall _
  · exact ⟨false, rfl⟩

/-- A look-up answers with the value that is held. -/
theorem get?_eq_some_iff [EquivBEq K] (ha : m.table.Arranged m.hash) (hh : Respects m.hash) :
    m.get? k = .ok (some v) ↔ Holds m.table.entries k v := by
  rw [get?, Table.get?]
  constructor
  · intro hget
    cases hloc : m.table.locate (m.hash k) (· == k) with
    | error a =>
      rw [Table.indexOf?, hloc] at hget
      cases hget
    | ok spot =>
      rw [Table.indexOf?_of_locate hloc] at hget
      cases spot with
      | free i => cases hget
      | held i =>
        obtain ⟨-, l, hl, hlk⟩ := Table.stopsAt_of_locate hloc
        have hslot : m.table.slot? i = some (l, m.table.value i) := Table.slot?_eq_some.2 ⟨hl, rfl⟩
        cases hget
        exact ⟨_, Table.mem_entries.2 ⟨i, hslot⟩, hlk, rfl⟩
  · rintro ⟨e, he, hek, rfl⟩
    obtain ⟨i, hi⟩ := Table.mem_entries.1 he
    obtain ⟨hk, hv⟩ := Table.slot?_eq_some.1 hi
    rw [Table.indexOf?_of_locate (ha.locate_of_beq hk hek (hh _ _ hek)), ← hv]
    rfl

/-! ## Hash codes -/

section Codes

variable {keyCode : K → UInt64}

omit [BEq K] in
/-- The hash code is the sum of the words of the entries. -/
theorem hashCode_toNat (m : Map K) : (m.hashCode keyCode).toNat =
    (m.toList.map fun e => (entryCode keyCode e).toNat).sum % 2 ^ 64 := by
  have hfold : ∀ (es : List (K × Int32)) (sum : UInt64),
      (es.foldl (fun sum e => sum + entryCode keyCode e) sum).toNat =
        (sum.toNat + (es.map fun e => (entryCode keyCode e).toNat).sum) % 2 ^ 64 := by
    intro es
    induction es with
    | nil => exact fun sum => (Nat.mod_eq_of_lt sum.toNat_lt).symm
    | cons e es ih =>
      intro sum
      rw [List.foldl_cons, ih, UInt64.toNat_add, List.map_cons, List.sum_cons, Nat.mod_add_mod,
        Nat.add_assoc]
  rw [hashCode, hfold, UInt64.toNat_zero, Nat.zero_add]

/-- The hash code is the sum of the words of any list of entries that holds the same. -/
theorem hashCode_eq_sum [EquivBEq K] (hcode : Respects keyCode) (hes : Unequal es)
    (hm : Unequal m.toList) (h : ∀ k v, Holds es k v ↔ Holds m.toList k v) :
    (m.hashCode keyCode).toNat = (es.map fun e => (entryCode keyCode e).toNat).sum % 2 ^ 64 := by
  have hperm := perm_map_of_holds_iff (f := fun e : K × Int32 => (entryCode keyCode e).toNat)
    (fun k l v hkl => congrArg (fun h => (h ^^^ v.toUInt32.toUInt64).toNat) (hcode k l hkl))
    hes hm h
  rw [hashCode_toNat, hperm.sum_nat]

end Codes

/-! ## Maps that can be reached -/

variable [EquivBEq K] [Stored K] {hash hash' hash'' : K → UInt64} {n' n'' : Nat}

/-- A traversal of a map meets every value that can be looked up, and each key once. -/
theorem Reached.listed (h : Reached hash n m) (hh : Respects hash) :
    Unequal m.toList ∧ m.toList.length = m.size ∧
      ∀ k v, m.get? k = .ok (some v) ↔ Holds m.toList k v := by
  obtain ⟨rfl, hm, harranged⟩ := h.arranged
  have ha := harranged hh
  have hperm : m.toList.Perm m.table.entries := Table.toList_perm hm.counted
  refine ⟨?_, ?_, fun k v => (get?_eq_some_iff ha hh).trans
    ⟨Holds.of_perm hperm.symm, Holds.of_perm hperm⟩⟩
  · exact (hperm.pairwise_iff fun hef => by rwa [BEq.comm]).2 (Table.distinct_iff.1 ha.distinct)
  · exact hperm.length_eq.trans (Table.counted_iff.1 hm.counted).symm

/-- Maps are the same exactly if they hold the same values under the same keys. -/
theorem sameAs_iff_of_reached (ha : Reached hash n a) (hb : Reached hash' n' b)
    (hh : Respects hash) (hh' : Respects hash') :
    a.sameAs b = .ok true ↔ ∀ k v, Holds a.toList k v ↔ Holds b.toList k v := by
  obtain ⟨hua, hla, -⟩ := ha.listed hh
  obtain ⟨hub, hlb, hget⟩ := hb.listed hh'
  rw [sameAs_eq_true_iff, ← hla, ← hlb]
  constructor
  · rintro ⟨hlen, hall⟩
    exact holds_iff_of_length_le hua (fun e he => (hget _ _).1 (hall e he)) (Nat.le_of_eq hlen.symm)
  · intro h
    refine ⟨Nat.le_antisymm ?_ ?_, fun e he => (hget _ _).2 ((h _ _).1 (holds_of_mem he))⟩
    · exact length_le_of_holds hua fun e he => (h _ _).1 (holds_of_mem he)
    · exact length_le_of_holds hub fun e he => (h _ _).2 (holds_of_mem he)

/-- Equality of maps and their hash codes depend on nothing but which values are held under which
keys : not on the order of the slots, the number of slots, the load factor, the missing value, the
hash function, or on what was done to the maps. The hash of keys in the codes may be any that
respects equality. -/
theorem sameAs_extensional (hh : Respects hash) (hh' : Respects hash') (hh'' : Respects hash'')
    {keyCode : K → UInt64} (hcode : Respects keyCode)
    (ha : Reached hash n a) (hb : Reached hash' n' b) (hc : Reached hash'' n'' c) :
    (a.sameAs b = .ok true ↔ ∀ k v, Holds a.toList k v ↔ Holds b.toList k v) ∧
      (n' = 0 → ∃ same, a.sameAs b = .ok same) ∧
      a.sameAs a = .ok true ∧ (a.sameAs b = .ok true → b.sameAs a = .ok true) ∧
      (a.sameAs b = .ok true → b.sameAs c = .ok true → a.sameAs c = .ok true) ∧
      (∀ es : List (K × Int32), Unequal es → (∀ k v, Holds es k v ↔ Holds a.toList k v) →
        (a.hashCode keyCode).toNat = (es.map fun e =>
          (keyCode e.1 ^^^ e.2.toUInt32.toUInt64).toNat).sum % 2 ^ 64) ∧
      (a.sameAs b = .ok true → a.hashCode keyCode = b.hashCode keyCode) := by
  have hab := sameAs_iff_of_reached ha hb hh hh'
  have hua := (ha.listed hh).1
  have hub := (hb.listed hh').1
  refine ⟨hab, ?_, ?_, ?_, ?_, ?_, ?_⟩
  · rintro rfl
    have hm := hb.arranged.2.1
    exact exists_sameAs a (hm.hasGap hm.threshold_lt)
  · exact (sameAs_iff_of_reached ha ha hh hh).2 fun _ _ => Iff.rfl
  · intro h
    exact (sameAs_iff_of_reached hb ha hh' hh).2 fun k v => (hab.1 h k v).symm
  · intro h h'
    have hbc := (sameAs_iff_of_reached hb hc hh' hh'').1 h'
    exact (sameAs_iff_of_reached ha hc hh hh'').2 fun k v => (hab.1 h k v).trans (hbc k v)
  · exact fun es hes h => hashCode_eq_sum hcode hes hua h
  · intro h
    apply UInt64.toNat_inj.1
    rw [hashCode_eq_sum hcode hua hub (hab.1 h), hashCode_toNat]

/-- A new map with 32 slots, half of which may be occupied, and four hashes. -/
def roomy : Map UInt64 :=
  ⟨.empty 32 ⟨0x3f000000⟩, (· % 4), 0⟩

theorem ofConfig_roomy : ofConfig ⟨17, ⟨0x3f000000⟩, 0⟩ (fun k : UInt64 => k % 4) = .ok roomy := by
  have hmade : Table.ofHint (K := UInt64) 17 ⟨0x3f000000⟩ = .ok (.empty 32 ⟨0x3f000000⟩) := by
    decide +kernel
  simp only [ofConfig, Config.validate,
    if_pos (show Single.isFraction ⟨0x3f000000⟩ = true by decide), hmade]
  rfl

/-- Inserts, of which one is erased and one overwritten. -/
def detour : List (Action UInt64) :=
  [.command (.insertMany [(9, -5), (5, 50), (2, 20), (1, 11)]), .command (.erase 5),
    .command (.insert 1 10)]

/-- Inserts of the entries that `detour` leaves. -/
def direct : List (Action UInt64) :=
  [.command (.insertMany [(1, 10), (2, 20), (9, -5)])]

/-- A hash of numbers : the product of two words, its halves combined by exclusive or. -/
def foldedProduct (n : UInt64) : UInt64 :=
  let product := (n ^^^ 0x2545f4914f6cdd1d ^^^ 0x082efa98ec4e6c89).toNat * 0xc0ac29b7c97c50dd
  UInt64.ofNat product ^^^ UInt64.ofNat (product >>> 64)

theorem sameAs_extensional_detour :
    ((empty (-1) id).actAll direct).2.toList = [(2, 20), (1, 10), (9, -5)] ∧
      (roomy.actAll detour).2.toList = [(9, -5), (1, 10), (2, 20)] ∧
      ((empty (-1) id).actAll direct).2.sameAs (roomy.actAll detour).2 = .ok true ∧
      (roomy.actAll detour).2.sameAs ((empty 7 fun _ => 8).actAll direct).2 = .ok true ∧
      ((empty (-1) id).actAll direct).2.sameAs ((empty 7 fun _ => 8).actAll direct).2 = .ok true ∧
      ((empty (-1) id).actAll direct).2.hashCode foldedProduct =
        (roomy.actAll detour).2.hashCode foldedProduct := by
  have hrespects : ∀ hash : UInt64 → UInt64, Respects hash :=
    fun hash k l hkl => congrArg hash (eq_of_beq hkl)
  have hplain : Reached id 0 ((empty (-1) id).actAll direct).2 :=
    ⟨_, _, direct, Or.inl rfl, rfl, by decide +kernel⟩
  have hroomy : Reached (· % 4) 0 (roomy.actAll detour).2 :=
    ⟨_, 0, detour, Or.inr ⟨_, ofConfig_roomy⟩, rfl, by decide +kernel⟩
  have hclashing : Reached (fun _ => 8) 0 ((empty 7 fun _ => 8).actAll direct).2 :=
    ⟨_, _, direct, Or.inl rfl, rfl, by decide +kernel⟩
  have hsame : ((empty (-1) id).actAll direct).2.sameAs (roomy.actAll detour).2 = .ok true ∧
      (roomy.actAll detour).2.sameAs ((empty 7 fun _ => 8).actAll direct).2 = .ok true := by
    decide +kernel
  obtain ⟨-, -, -, -, htrans, -, hcode⟩ := sameAs_extensional (hrespects id) (hrespects (· % 4))
    (hrespects fun _ => 8) (hrespects foldedProduct) hplain hroomy hclashing
  exact ⟨by decide +kernel, by decide +kernel, hsame.1, hsame.2, htrans hsame.1 hsame.2,
    hcode hsame.1⟩

end LinearProbe.Map
