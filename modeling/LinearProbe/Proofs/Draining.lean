import LinearProbe.Proofs.Rebuilding
import LinearProbe.Proofs.Traversals
import LinearProbe.Table.Traversal

/-!
# A drained table is empty

A drain takes the rows away from a table. The iterator over them counts down the entries and meets
as many, so it yields all of them and then nothing, however often it is asked
(`Entries.steps_eq`); by index they are the entries of the occupied slots (`getElem?_entries`). The
table gets new rows before anything is yielded. A power of two of slots that could be allocated is
found anew as it was (`drain?_eq`), so the table is the one that would be made for it
(`ofHint_eq_drain`), and `drains_at_once` holds whatever becomes of the iterator.
-/

set_option linter.unusedSectionVars false

namespace LinearProbe

variable {K : Type}

/-! ## Asking for entries -/

/-- An iterator that counts its entries yields them in order, and then nothing. -/
theorem Entries.steps_eq {it : Entries K} (h : it.left = it.toList.length) (n : Nat) :
    (it.steps n).1 = (List.range n).map (it.toList[·]?) ∧
      (it.steps n).2.left = it.toList.length - n := by
  induction n generalizing it with
  | zero => exact ⟨rfl, h⟩
  | succ n ih =>
    rw [List.range_succ_eq_map, List.map_cons, List.map_map, steps, step]
    rcases Entries.next?_cases h with ⟨hnext, hlist⟩ | ⟨e, it', hnext, hlist, hleft⟩
    · obtain ⟨hanswers, hleft⟩ := ih h
      rw [hlist] at hanswers hleft ⊢
      simp only [hnext]
      refine ⟨?_, by simpa using hleft⟩
      rw [hanswers]
      rfl
    · obtain ⟨hanswers, hleft'⟩ := ih hleft
      simp only [hnext]
      rw [hanswers, hleft', hlist]
      exact ⟨by simp [Function.comp_def], by simp⟩

namespace Table

variable {t : Table K} {i j : Nat}

/-! ## Occupied slots -/

theorem pairwise_occupied : t.occupied.Pairwise (· < ·) :=
  List.pairwise_lt_range.filter _

theorem mem_occupied : i ∈ t.occupied ↔ (t.slot? i).isSome := by
  rw [occupied, List.mem_filter, List.mem_range, isSome_slot?]
  refine ⟨And.right, fun h => ⟨?_, h⟩⟩
  obtain ⟨k, hk⟩ := Option.isSome_iff_exists.1 h
  exact lt_capacity_of_key? hk

/-- The entries are those of the occupied slots, one after the other. -/
theorem getElem?_entries : t.entries[j]? = t.occupied[j]?.bind t.slot? := by
  have hmap : t.entries.map some = t.occupied.map t.slot? := by
    rw [entries, occupied, List.map_filterMap_some_eq_filter_map_isSome, List.filter_map]
    simp only [Function.comp_def, isSome_slot?]
  have hj := congrArg (fun es => es[j]?.join) hmap
  simp only [List.getElem?_map] at hj
  cases h : t.occupied[j]? <;> cases h' : t.entries[j]? <;> simp_all

/-! ## New rows -/

theorem capacityFor_capacity [Stored K] (ha : t.Aligned)
    (halloc : isAllocatable K t.capacity = true) :
    capacityFor t.capacity.toUInt64 = .ok t.capacity := by
  obtain ⟨c, hc⟩ := ha.isPowerOfTwo
  have hmin := ha.minCapacity_le
  have hlt := lt_wordSize_of_isAllocatable halloc
  rw [hc] at hmin hlt ⊢
  exact capacityFor_two_pow hmin hlt

/-- A drained table has new rows. -/
theorem snd_drain (hs : t.values.size = t.capacity) : t.drain.2 = { t with
    keys := Array.replicate t.capacity none
    values := Array.replicate t.capacity 0
    size := 0 } := by
  have hsize : t.values.size = t.keys.size := hs
  simp only [drain, clear, hsize]
  rfl

/-- The number of slots that is found anew is the one that there was. -/
theorem drain?_eq [Stored K] (ha : t.Aligned) (halloc : isAllocatable K t.capacity = true) :
    t.drain? = .ok t.drain := by
  rw [drain?, capacityFor_capacity ha halloc, ← Prod.mk.eta (p := t.drain),
    snd_drain ha.size_values]
  simp only [halloc, if_true]
  rfl

/-- A table with the threshold of its slots is after a drain as if it were newly made. -/
theorem ofHint_eq_drain [Stored K] (ha : t.Aligned) (halloc : isAllocatable K t.capacity = true)
    (hthreshold : t.threshold = LinearProbe.threshold t.capacity t.loadFactor) :
    ofHint t.capacity.toUInt64 t.loadFactor = .ok t.drain.2 := by
  rw [ofHint, capacityFor_capacity ha halloc, snd_drain ha.size_values, hthreshold]
  simp only [halloc, if_true]
  rfl

/-! ## Draining -/

variable [Stored K]

/-- A drain of a table whose entries are counted yields the entries of the occupied slots, by index
and each once, and then nothing however often it is asked; at any point it says how many are left.
The table is empty as soon as the drain begins, whatever is then done with the iterator. Its slots
are as many as before, although their number is found anew, and it is the table that would be made
for that number of slots. -/
theorem drains_at_once (hs : t.values.size = t.capacity) (hc : t.Counted) :
    (∀ n, (t.drain.1.steps n).1 = (List.range n).map (fun j => t.occupied[j]?.bind t.slot?) ∧
      (t.drain.1.steps n).2.sizeHint = (t.occupied.length - n, some (t.occupied.length - n))) ∧
    t.occupied.Pairwise (· < ·) ∧ (∀ i, i ∈ t.occupied ↔ (t.slot? i).isSome) ∧
    (t.drain.1.steps t.size).1 = t.entries.map some ∧
    (∀ i, t.drain.2.key? i = none ∧ t.drain.2.value i = 0) ∧
    t.drain.2 = { t with
      keys := Array.replicate t.capacity none
      values := Array.replicate t.capacity 0
      size := 0 } ∧
    (∀ (s : Session K) n, s.table = t →
      s.perform (.drain n) = .ok (.pairs (t.entries.take n)) { s with table := t.drain.2 }) ∧
    (t.Aligned → isAllocatable K t.capacity = true → t.drain? = .ok t.drain ∧
      (t.threshold = LinearProbe.threshold t.capacity t.loadFactor →
        ofHint t.capacity.toUInt64 t.loadFactor = .ok t.drain.2)) := by
  have hlist := toList_drain hs hc
  have hleft : t.drain.1.left = t.drain.1.toList.length := by
    rw [hlist]
    exact counted_iff.1 hc
  have hsteps := Entries.steps_eq hleft
  rw [hlist] at hsteps
  refine ⟨fun n => ⟨?_, ?_⟩, pairwise_occupied, fun i => mem_occupied, ?_,
    fun i => ⟨key?_clear, value_clear⟩, snd_drain hs, ?_,
    fun ha halloc => ⟨drain?_eq ha halloc, ofHint_eq_drain ha halloc⟩⟩
  · simpa only [getElem?_entries] using (hsteps n).1
  · rw [Entries.sizeHint, (hsteps n).2, length_entries]
  · rw [(hsteps t.size).1, counted_iff.1 hc]
    exact List.ext_getElem (by simp) (by simp)
  · rintro s n rfl
    rw [← hlist]
    rfl

/-- A table with entries on both sides of every gap. -/
def sparse : Table UInt64 :=
  ⟨#[some 3, none, none, some 5, none, some 1, none, some 2], #[30, 0, 0, 50, 0, 10, 0, 20], 4, 6,
    ⟨0x3f400000⟩⟩

theorem drains_at_once_sparse :
    sparse.values.size = sparse.capacity ∧ sparse.Counted ∧
    (sparse.drain.1.steps 6).1 =
      [some (3, 30), some (5, 50), some (1, 10), some (2, 20), none, none] ∧
    (sparse.drain.1.steps 3).2.sizeHint = (1, some 1) ∧
    (∀ i, sparse.drain.2.key? i = none ∧ sparse.drain.2.value i = 0) ∧
    (Session.new sparse).perform (.drain 2) =
      .ok (.pairs [(3, 30), (5, 50)]) { Session.new sparse with table := sparse.drain.2 } ∧
    sparse.drain? = .ok sparse.drain ∧ ofHint 8 ⟨0x3f400000⟩ = .ok sparse.drain.2 := by
  have hc : sparse.Counted := by decide
  have haligned : sparse.Aligned := ⟨rfl, ⟨3, rfl⟩, by decide⟩
  obtain ⟨hsteps, -, -, -, hempty, -, hsession, hmade⟩ := drains_at_once (t := sparse) rfl hc
  obtain ⟨hdrain, hnew⟩ := hmade haligned (by decide)
  exact ⟨rfl, hc, (hsteps 6).1, (hsteps 3).2, hempty, hsession (Session.new sparse) 2 rfl, hdrain,
    hnew (by decide +kernel)⟩

end Table

end LinearProbe
