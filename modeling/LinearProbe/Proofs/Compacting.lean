import LinearProbe.Proofs.HighWater
import LinearProbe.Proofs.MissingValue
import LinearProbe.Proofs.Rebuilding

/-!
# Compacting

A table that is reached has its row in memory, so every smaller row can be allocated
(`Table.Reached.isAllocatable`), and its own number of slots admits its entries, so the search for
the least number that does ends there at the latest (`exists_fitting?`). Hence compacting such a
table always comes to an end (`Table.Sound.exists_compact`). What a look-up finds depends on the
entries alone (`Table.Sound.find?_congr`), and so does the least number of slots, which is why
compacting again does nothing (`Table.compact_isLeast`).
-/

set_option linter.unusedSectionVars false

namespace LinearProbe.Table

variable {K : Type} [BEq K] [EquivBEq K] {hash : K → UInt64} {t u : Table K} {k : K} {v : Int32}
  {i : Nat} {e : K × Int32}

/-! ## What look-ups find -/

theorem Sound.find?_of_mem (ht : t.Sound hash) (hh : Respects hash) (he : e ∈ t.entries)
    (hek : (e.1 == k) = true) : t.find? (hash k) (· == k) = .ok (some e) := by
  obtain ⟨i, hi⟩ := mem_entries.1 he
  have hlocate := ht.arranged.locate_of_beq (slot?_eq_some.1 hi).1 hek (hh e.1 k hek)
  rw [find?, indexOf?_of_locate hlocate]
  simp [Except.map, Spot.held?, hi]

theorem Sound.find?_of_forall (ht : t.Sound hash) (hk : ∀ e ∈ t.entries, (e.1 == k) = false) :
    t.find? (hash k) (· == k) = .ok none := by
  rcases ht.locate_cases k with ⟨i, l, -, hl, hlk⟩ | ⟨i, hfree, -⟩
  · have hno := hk (l, t.value i) (mem_entries.2 ⟨i, slot?_eq_some.2 ⟨hl, rfl⟩⟩)
    simp [hlk] at hno
  · exact find?_of_free hfree

/-- Two tables with the same entries answer every look-up alike, whatever slots they are in. -/
theorem Sound.find?_congr (hu : u.Sound hash) (ht : t.Sound hash) (hh : Respects hash)
    (hp : u.entries.Perm t.entries) (k : K) :
    u.find? (hash k) (· == k) = t.find? (hash k) (· == k) := by
  by_cases hk : ∃ e ∈ t.entries, (e.1 == k) = true
  · obtain ⟨e, he, hek⟩ := hk
    rw [ht.find?_of_mem hh he hek, hu.find?_of_mem hh (hp.mem_iff.2 he) hek]
  · simp only [not_exists, not_and, Bool.not_eq_true] at hk
    rw [ht.find?_of_forall hk, hu.find?_of_forall fun e he => hk e (hp.mem_iff.1 he)]

/-! ## Rows that can be allocated -/

variable [Stored K]

theorem isAllocatable_of_ofHint {hint : UInt64} {loadFactor : Single}
    (h : ofHint hint loadFactor = .ok t) : isAllocatable K t.capacity = true := by
  unfold ofHint at h
  split at h
  · cases h
  · next slots _ =>
    split at h
    · next halloc =>
      cases h
      rwa [capacity_empty]
    · cases h

theorem isAllocatable_of_compact (ht : t.Intact 0) (h : t.compact hash = .ok () u)
    (halloc : isAllocatable K t.capacity = true) : isAllocatable K u.capacity = true := by
  rcases eq_or_exists_of_compact_eq_ok ht.counted ht.fraction h with rfl | ⟨slots, -, hslots, hu⟩
  · exact halloc
  · rwa [hu.capacity_eq]

theorem isAllocatable_of_insertAt (ht : t.Intact 0) (hi : i < t.capacity)
    (hempty : t.key? i = none) (h : t.insertAt hash i k v = .ok () u)
    (halloc : isAllocatable K t.capacity = true) : isAllocatable K u.capacity = true := by
  rcases eq_store_or_grow h with rfl | ⟨-, hgrow⟩
  · rwa [capacity_store]
  · have hstored : (t.store i k v).Intact 1 := ht.store hi hempty (Nat.lt_succ_of_le ht.size_le)
    obtain ⟨slots, -, hslots, hu⟩ :=
      exists_of_grow_eq_ok hstored.aligned hstored.counted hstored.fraction hgrow
    rwa [hu.capacity_eq]

/-- A call leaves a table with a row that can be allocated, if it was given one. -/
theorem Session.isAllocatable_perform {s s' : Session K} {c : Command K} {r : Answer K}
    (ht : s.table.Intact 0) (h : s.perform c = .ok r s')
    (halloc : isAllocatable K s.table.capacity = true) :
    isAllocatable K s'.table.capacity = true := by
  have hstate : (s.perform c).state = s' := by rw [h]; rfl
  cases c with
  | insert? hash h' p k v =>
    obtain ⟨a, u, ho, rfl⟩ := Session.eq_ok_of_lift_map h
    unfold insert? at ho
    split at ho
    · cases ho
    · cases ho
      exact halloc
    · next i hrun =>
      obtain ⟨-, hi, hempty⟩ := stopsAt_of_locate hrun
      obtain ⟨_, hinsert, -⟩ := Outcome.exists_of_map_eq_ok ho
      exact isAllocatable_of_insertAt ht hi hempty hinsert halloc
  | compact hash =>
    obtain ⟨a, u, ho, rfl⟩ := Session.eq_ok_of_lift_map h
    exact isAllocatable_of_compact ht ho halloc
  | _ =>
    have hrecedes : Recedes s.table s'.table := hstate ▸ recedes_perform ht (by simp) (by simp)
    exact hrecedes.capacity_eq ▸ halloc

theorem Reached.isAllocatable (hh : Respects hash) (h : Reached hash t) :
    isAllocatable K t.capacity = true := by
  induction h with
  | made hf hmade => exact isAllocatable_of_ofHint hmade
  | changed hs hc hperform ih =>
    exact Session.isAllocatable_perform (hs.sound hh).intact hperform ih

/-! ## Compacting -/

/-- A table with no more slots than its entries need is left as it is. -/
theorem compact_of_le {slots : Nat} (hfit : fitting? t.loadFactor t.size minCapacity = some slots)
    (hle : t.capacity ≤ slots) (hash : K → UInt64) : t.compact hash = .ok () t := by
  rw [compact, hfit]
  simp [Nat.not_lt.2 hle]

theorem Checked.compact_of_ok (ht : t.Intact 0) (h : t.compact hash = .ok () u) :
    Checked.compact (fun _ => hash) t = .ok u := by
  have hno : ∀ f, Checked.compact (fun _ => hash) t ≠ .error (.fault f) := by
    rcases Checked.compact_cases ht fun _ => hash with ⟨w, hw, -⟩ | ⟨-, hw⟩ <;> simp [hw]
  rw [Checked.refines_compact.eq_mapError hno, h]
  rfl

/-- If the number of slots there are is a size, some number of slots fits. -/
theorem Sound.exists_fitting? (ht : t.Sound hash) (hlt : t.capacity < wordSize) :
    ∃ slots, fitting? t.loadFactor t.size minCapacity = some slots := by
  obtain ⟨n, hn⟩ := ht.aligned.isPowerOfTwo
  have hmin : 2 ^ 3 ≤ 2 ^ n := hn ▸ ht.aligned.minCapacity_le
  have hle : 3 ≤ n := (Nat.pow_le_pow_iff_right Nat.one_lt_two).1 hmin
  have hsize := ht.intact.size_le_exactThreshold
  rw [hn, ← Nat.add_sub_cancel' hle] at hlt hsize
  exact LinearProbe.exists_fitting? ht.fraction hlt hsize

/-- Compacting ends if the row there is can be allocated, and so every smaller one. -/
theorem Sound.exists_compact (ht : t.Sound hash) (halloc : isAllocatable K t.capacity = true) :
    ∃ slots u, fitting? t.loadFactor t.size minCapacity = some slots ∧
      t.compact hash = .ok () u ∧ u.Sound hash ∧ u.capacity = min t.capacity slots ∧
      u.size = t.size ∧ u.loadFactor = t.loadFactor ∧ u.entries.Perm t.entries ∧
      (t.capacity ≤ slots → u = t) := by
  obtain ⟨slots, hfit⟩ := ht.exists_fitting? (lt_wordSize_of_isAllocatable halloc)
  rcases Nat.lt_or_ge slots t.capacity with hlt | hge
  · have hfits := fits_of_fitting? ht.fraction (c := 3) rfl (Nat.le_refl _) hfit
    have hslots := isAllocatable_mono (Nat.le_of_lt hlt) halloc
    rcases hfits.rehash_cases hash ht.counted with ⟨-, u, hrun, hu⟩ | ⟨hno, -⟩
    · refine ⟨slots, u, hfit, ?_, sound_of_rehashed ht.fraction ht.counted ht.distinct hfits hu, ?_,
        hu.size_eq, hu.loadFactor_eq, hu.entries, fun hle => absurd hlt (Nat.not_lt.2 hle)⟩
      · rw [Table.compact, hfit]
        simp [hlt, hrun]
      · rw [hu.capacity_eq, Nat.min_eq_right (Nat.le_of_lt hlt)]
    · simp [hslots] at hno
  · exact ⟨slots, t, hfit, compact_of_le hfit hge hash, ht, (Nat.min_eq_left hge).symm, rfl, rfl,
      .refl _, fun _ => rfl⟩

/-- A table that is reached is compacted, without a fault, to the least of all doublings of the least
number of slots whose threshold admits the entries, unless it is as small already, in which case
nothing changes. It is well-formed afterwards, has the same entries, and every look-up finds what it
found before. Compacting it again changes nothing. -/
theorem compact_isLeast (hh : Respects hash) (ht : Reached hash t) :
    ∃ c u, IsLeast {c | ∃ j, c = minCapacity * 2 ^ j ∧ t.size ≤ exactThreshold c t.loadFactor} c ∧
      Checked.compact (fun _ => hash) t = .ok u ∧ t.compact hash = .ok () u ∧
      u.capacity = min t.capacity c ∧ u.WellFormed hash ∧ u.loadFactor = t.loadFactor ∧
      u.entries.Perm t.entries ∧
      (∀ e ∈ t.entries, u.find? (hash e.1) (· == e.1) = .ok (some e)) ∧
      (∀ k, u.find? (hash k) (· == k) = t.find? (hash k) (· == k)) ∧
      (t.capacity ≤ c → u = t) ∧
      Checked.compact (fun _ => hash) u = .ok u ∧ u.compact hash = .ok () u := by
  have hsound := ht.sound hh
  obtain ⟨c, u, hfit, hrun, hu, hcap, hsize, hf, hentries, hsame⟩ :=
    hsound.exists_compact (ht.isAllocatable hh)
  have hagain : u.compact hash = .ok () u := by
    rw [← hsize, ← hf] at hfit
    exact compact_of_le hfit (hcap ▸ Nat.min_le_right _ _) hash
  exact ⟨c, u, isLeast_of_fitting? (c := 3) hsound.fraction hfit,
    Checked.compact_of_ok hsound.intact hrun, hrun, hcap, hu.toWellFormed, hf, hentries,
    fun e he => hu.find?_of_mem hh (hentries.mem_iff.2 he) BEq.rfl,
    hu.find?_congr hsound hh hentries, hsame, Checked.compact_of_ok hu.intact hagain, hagain⟩

/-- Two of three keys that collide, in the sixteen slots that three entries need under a load factor
of a quarter. -/
def thinned : Table UInt64 :=
  ⟨#[none, none, none, none, none, none, none, some 3, some 1, none, none, none, none, none, none,
    none], #[0, 0, 0, 0, 0, 0, 0, 30, 10, 0, 0, 0, 0, 0, 0, 0], 2, 4, ⟨0x3e800000⟩⟩

theorem reached_thinned : Reached (fun _ => 8) thinned := by
  have hmade : ofHint 1 ⟨0x3e800000⟩ = .ok (empty 8 ⟨0x3e800000⟩ : Table UInt64) := by
    decide +kernel
  have hrun : (Session.mk (empty 8 ⟨0x3e800000⟩) ⟨0, 0, none⟩).run
      [.insert? (fun _ => 8) 8 (· == 1) (1 : UInt64) 10, .insert? (fun _ => 8) 8 (· == 2) 2 20,
        .insert? (fun _ => 8) 8 (· == 3) 3 30, .erase? (fun _ => 8) 8 (· == 2)] =
      .ok [.value? none, .value? none, .value? none, .pair? (some (2, 20))]
        ⟨thinned, ⟨0, 0, none⟩⟩ := rfl
  refine Reached.run (.made (by decide) hmade) ?_ hrun
  simp only [List.forall_mem_cons]
  exact ⟨⟨rfl, rfl, rfl⟩, ⟨rfl, rfl, rfl⟩, ⟨rfl, rfl, rfl⟩, ⟨rfl, 2, rfl, rfl⟩,
    fun _ h => absurd h List.not_mem_nil⟩

/-- In eight slots the second of the two keys lies behind the end of the row. -/
theorem compact_isLeast_thinned : Reached (fun _ => 8) thinned ∧
    thinned.compact (fun _ => 8) = .ok () ⟨#[some 1, none, none, none, none, none, none, some 3],
      #[10, 0, 0, 0, 0, 0, 0, 30], 2, 2, ⟨0x3e800000⟩⟩ ∧
    ∃ c u, IsLeast {c | ∃ j, c = minCapacity * 2 ^ j ∧ 2 ≤ exactThreshold c ⟨0x3e800000⟩} c ∧
      Checked.compact (fun _ _ => 8) thinned = .ok u ∧ thinned.compact (fun _ => 8) = .ok () u ∧
      u.capacity = min 16 c ∧ u.WellFormed (fun _ => 8) ∧ u.loadFactor = ⟨0x3e800000⟩ ∧
      u.entries.Perm [(3, 30), (1, 10)] ∧
      (∀ e ∈ [(3, 30), (1, 10)], u.find? 8 (· == e.1) = .ok (some e)) ∧
      (∀ k, u.find? 8 (· == k) = thinned.find? 8 (· == k)) ∧ (16 ≤ c → u = thinned) ∧
      Checked.compact (fun _ _ => 8) u = .ok u ∧ u.compact (fun _ => 8) = .ok () u :=
  ⟨reached_thinned, rfl, compact_isLeast (fun _ _ _ => rfl) reached_thinned⟩

end LinearProbe.Table
