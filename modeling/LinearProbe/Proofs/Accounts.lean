import LinearProbe.Proofs.CheckedCommands
import LinearProbe.Proofs.Faults
import LinearProbe.Proofs.Histories

/-!
# Runs that keep no contract

A run of requests need not keep any contract : hashes, predicates and hash functions may be
unrelated, and may change while a request is carried out. What a request must respect is the row
of slots (`Request.InRange`) : an index that it brings is a slot of the row, and its cursor was made
for a row of as many slots (`Cursor.Made`). A table has `Arrived` if such requests, all of them
answered, have led to it from a new one, whatever cursors they were given.

Such a table is intact (`Arrived.intact`). So a request to it ends in want of slots, or it answers,
and `Request.change` reads off the answer what has become of the entries (`settled_perform`). A
whole run ends in one of these ways too (`run_cases`).
-/

namespace LinearProbe

open Table Checked

/-! ## Cursors -/

/-- The cursor was made over a table of `n` slots, and moved over such tables only. -/
inductive Cursor.Made (n : Nat) : Cursor → Prop
  | new {K : Type} {t : Table K} {c : Cursor} (hn : t.capacity = n) (h : newCursor t = .ok c) :
      Made n c
  | advance {K : Type} {t : Table K} {c c' : Cursor} {i? : Option Nat} (hc : Made n c)
      (hn : t.capacity = n) (h : Checked.advance t c = .ok (i?, c')) : Made n c'
  | erase {K : Type} {hash : Nat → K → UInt64} {t u : Table K} {c c' : Cursor}
      {e? : Option (K × Int32)} (hc : Made n c) (hn : t.capacity = n)
      (h : eraseCursor hash t c = .ok (e?, u, c')) : Made n c'

namespace Table.Checked

variable {K : Type} {t u : Table K} {c c' : Cursor} {i n : Nat}

/-- A search finds a slot of the row, and has looked at it then. -/
theorem seek_bounds {s m v : Nat} (h : Cursor.seek t s n m = some (i, v)) :
    i < t.capacity ∧ 0 < v := by
  induction n generalizing m with
  | zero => cases h
  | succ n ih =>
    rw [Cursor.seek] at h
    split at h
    · next hk =>
      cases h
      obtain ⟨k, hk⟩ := Option.isSome_iff_exists.1 hk
      exact ⟨lt_capacity_of_key? hk, Nat.succ_pos m⟩
    · exact ih h

/-- A cursor that moves on stands on no slot, or on one of the row that it has looked at. -/
theorem current_advance (hi : (c.advance t).2.current = some i) :
    i < t.capacity ∧ 0 < (c.advance t).2.visited := by
  unfold Cursor.advance at hi ⊢
  split at hi
  · next j v hrun =>
    cases hi
    exact seek_bounds hrun
  · cases hi

/-- A cursor at which something was erased stands on no slot. -/
theorem current_eraseCursor {hash : Nat → K → UInt64} {e? : Option (K × Int32)}
    (h : eraseCursor hash t c = .ok (e?, u, c')) : c'.current = none := by
  unfold eraseCursor at h
  cases hcur : c.current with
  | none =>
    rw [hcur] at h
    cases h
    exact hcur
  | some i =>
    rw [hcur] at h
    dsimp only at h
    cases hrun : eraseAt? hash t i with
    | error a =>
      rw [hrun] at h
      cases h
    | ok r =>
      obtain ⟨e?, w⟩ := r
      rw [hrun, ok_bind] at h
      cases e? with
      | none =>
        cases h
        rfl
      | some e =>
        dsimp only at h
        unfold require at h
        split at h <;> cases h
        rfl

end Table.Checked

/-- A cursor over a row of slots stands on none of them, or on one that it has looked at. -/
theorem Cursor.Made.current {c : Cursor} {i n : Nat} (h : c.Made n) (hi : c.current = some i) :
    i < n ∧ 0 < c.visited := by
  cases h with
  | @new K t c hn h =>
    obtain rfl := (refines_newCursor (t := t)).eq_of_ok h
    cases hi
  | @advance K t c c' i? _ hn h =>
    obtain ⟨-, rfl⟩ := Prod.mk.inj ((refines_advance (t := t) (c := c)).eq_of_ok h)
    exact hn ▸ current_advance hi
  | erase _ hn h =>
    rw [current_eraseCursor h] at hi
    cases hi

namespace Table

variable {K : Type} {s s' : Session K} {r : Request K} {a : Answer K}

/-! ## One request -/

/-- An index that the request brings is a slot of the row, and a cursor that it uses was made for a
row of as many slots. -/
def Request.InRange (s : Session K) : Request K → Prop
  | .replaceAt? i _ | .eraseAt? _ i | .valueAt? i => i < s.table.capacity
  | .advanceCursor | .eraseCursor _ => s.cursor.Made s.table.capacity
  | .insert? .. | .replace? .. | .erase? .. | .compact _ | .clear | .drain _ | .startCursor
  | .find? .. | .toList | .setVisited .. | .histogram _ => True

/-- What has become of the entries by the answer to the request. -/
def Request.change : Request K → Answer K → Change K
  | .insert? _ _ _ k v, .value? old? => inserting k v old?
  | .replace? _ _ v, .value? old? | .replaceAt? _ v, .value? old?
  | .setVisited _ v, .value? old? => overwriting v old?
  | .erase? .., .pair? e? | .eraseAt? .., .pair? e? | .eraseCursor _, .pair? e? => erasing e?
  | .clear, _ | .drain _, _ => .emptied
  | _, _ => .nothing

/-- The row of slots that the request needs can not be allocated : that of a table that grows with an
insert, or the smaller one of a compaction. -/
def Request.Wanting [Stored K] (t : Table K) : Request K → Prop
  | .insert? .. => t.Cramped
  | .compact _ => ¬t.Compactable
  | _ => False

variable [Stored K]

/-- The request ended with an answer that accounts for the entries, and an intact table, or in want
of slots. -/
inductive Settled (s : Session K) (r : Request K) : Except Mishap (Answer K × Session K) → Prop
  | ok {a : Answer K} {s' : Session K} (hs' : s'.table.Intact 0)
      (h : (r.change a).Accounts s.table.entries s'.table.entries) : Settled s r (.ok (a, s'))
  | overflow (h : r.Wanting s.table) : Settled s r (.error (.abort .capacityOverflow))

/-- A request that carries out an operation on the table, and answers what that answers. -/
theorem settled_of_accounted {α : Type} {report : α → Change K} {wanting : Prop}
    {x : Except Mishap (α × Table K)} {f : α → Answer K} (hx : Accounted s.table report wanting x)
    (hf : ∀ a, r.change (f a) = report a) (hr : wanting → r.Wanting s.table) :
    Settled s r (x >>= fun p => .ok (f p.1, { s with table := p.2 })) := by
  cases hx with
  | ok hu h => exact .ok hu ((hf _).symm ▸ h)
  | overflow h => exact .overflow (hr h)

/-- A request that leaves the entries alone. -/
theorem Settled.of_eq (hs : s.table.Intact 0) (hr : r.change a = .nothing)
    (hs' : s'.table = s.table) : Settled s r (.ok (a, s')) :=
  .ok (hs' ▸ hs) (by rw [hr, hs']; exact .refl _)

theorem settled_eraseCursor (hs : s.table.Intact 0) (hc : s.cursor.Made s.table.capacity)
    (hash : Nat → K → UInt64) :
    Settled s (.eraseCursor hash) (eraseCursor hash s.table s.cursor >>= fun p =>
      .ok (.pair? p.1, ⟨p.2.1, p.2.2⟩)) := by
  unfold eraseCursor
  cases hi : s.cursor.current with
  | none => exact .of_eq hs rfl rfl
  | some i =>
    obtain ⟨hlt, hvisited⟩ := hc.current hi
    dsimp only
    rcases Checked.eraseAt?_cases hs hlt hash with ⟨-, hrun⟩ | ⟨e, u, hrun, hu⟩ <;>
      rw [hrun, ok_bind]
    · exact .of_eq hs rfl rfl
    · dsimp only
      rw [require_eq hvisited]
      exact .ok (hu.intact hs) hu.entries

/-- Every request within the row is settled. -/
theorem settled_perform (hs : s.table.Intact 0) (hr : r.InRange s) :
    Settled s r (Checked.perform s r) := by
  cases r with
  | insert? hash h p k v =>
    exact settled_of_accounted (accounted_insert? hs hash h p) (fun _ => rfl) id
  | replace? h p v => exact settled_of_accounted (accounted_replace? hs h p) (fun _ => rfl) id
  | replaceAt? i v => exact settled_of_accounted (accounted_replaceAt? hs hr) (fun _ => rfl) id
  | erase? hash h p => exact settled_of_accounted (accounted_erase? hs hash h p) (fun _ => rfl) id
  | eraseAt? hash i => exact settled_of_accounted (accounted_eraseAt? hs hr hash) (fun _ => rfl) id
  | compact hash =>
    rw [Checked.perform]
    rcases Checked.compact_cases hs hash with ⟨u, hrun, hu, hperm⟩ | ⟨hno, hrun⟩ <;> rw [hrun]
    · exact .ok hu hperm
    · exact .overflow hno
  | clear => exact .ok hs.clear entries_clear
  | drain n => exact .ok hs.clear entries_clear
  | startCursor =>
    rw [Checked.perform, newCursor_eq hs.capacity_pos]
    exact .of_eq hs rfl rfl
  | advanceCursor =>
    rw [Checked.perform, advance_eq hs.capacity_pos]
    exact .of_eq hs rfl rfl
  | eraseCursor hash => exact settled_eraseCursor hs hr hash
  | find? h p =>
    obtain ⟨e?, hrun⟩ := exists_find? hs h p
    rw [Checked.perform, hrun]
    exact .of_eq hs rfl rfl
  | valueAt? i =>
    obtain ⟨v?, hrun⟩ := exists_valueAt? hs hr
    rw [Checked.perform, hrun]
    exact .of_eq hs rfl rfl
  | toList =>
    rw [Checked.perform, toList_eq hs]
    exact .of_eq hs rfl rfl
  | setVisited n v => exact settled_of_accounted (accounted_setVisited hs n) (fun _ => rfl) id
  | histogram hash =>
    obtain ⟨h, hrun⟩ := exists_histogram hs.capacity_pos hash
    rw [Checked.perform, hrun]
    exact .of_eq hs rfl rfl

/-- A drain answers the entries, as many as are taken, by index. -/
theorem perform_drain (hs : s.table.Intact 0) (n : Nat) :
    Checked.perform s (.drain n) =
      .ok (.pairs (s.table.entries.take n), { s with table := s.table.clear }) := by
  rw [← toList_drain hs.aligned.size_values hs.counted]
  rfl

/-- With a hash function that does not change the displacements are those of the entries. -/
theorem perform_histogram (hs : s.table.Intact 0) (hash : K → UInt64) :
    Checked.perform s (.histogram fun _ => hash) =
      .ok (.histogram (s.table.histogram hash), s) := by
  obtain ⟨h, hrun⟩ := exists_histogram hs.capacity_pos fun _ => hash
  obtain rfl := refines_histogram.eq_of_ok hrun
  rw [Checked.perform, hrun]
  rfl

/-! ## Runs of requests -/

/-- The tables to which requests within the row lead from a table made for some hint. -/
inductive Arrived : Table K → Prop
  | made {hint : UInt64} {loadFactor : Single} {t : Table K} (hf : loadFactor.isFraction = true)
      (h : ofHint hint loadFactor = .ok t) : Arrived t
  | changed {s s' : Session K} {r : Request K} {a : Answer K} (hs : Arrived s.table)
      (hr : r.InRange s) (h : Checked.perform s r = .ok (a, s')) : Arrived s'.table

theorem Arrived.intact {t : Table K} (h : Arrived t) : t.Intact 0 := by
  induction h with
  | made hf h => exact intact_of_ofHint hf h
  | changed _ hr h ih =>
    have hsettled := settled_perform ih hr
    rw [h] at hsettled
    cases hsettled with
    | ok hs' => exact hs'

/-- All requests of a run are within the row of the table that they are given. -/
def InRangeAll (s : Session K) : List (Request K) → Prop
  | [] => True
  | r :: rs => r.InRange s ∧ ∀ a s', Checked.perform s r = .ok (a, s') → InRangeAll s' rs

/-- A run ends in want of slots, or all its requests are answered. -/
theorem run_cases {rs : List (Request K)} (hs : Arrived s.table) (hrs : InRangeAll s rs) :
    run s rs = .error (.abort .capacityOverflow) ∨
      ∃ as s', run s rs = .ok (as, s') ∧ as.length = rs.length ∧ Arrived s'.table := by
  induction rs generalizing s with
  | nil => exact Or.inr ⟨[], s, rfl, rfl, hs⟩
  | cons r rs ih =>
    obtain ⟨hr, hrs⟩ := hrs
    have hsettled := settled_perform hs.intact hr
    rw [run]
    cases hrun : Checked.perform s r with
    | error e =>
      rw [hrun] at hsettled
      cases hsettled
      exact Or.inl rfl
    | ok p =>
      obtain ⟨a, s₁⟩ := p
      rw [ok_bind]
      rcases ih (hs.changed hr hrun) (hrs a s₁ hrun) with hrun' | ⟨as, s', hrun', hlen, hs'⟩
      · exact Or.inl (by dsimp only; rw [hrun']; rfl)
      · refine Or.inr ⟨a :: as, s', by dsimp only; rw [hrun']; rfl, ?_, hs'⟩
        rw [List.length_cons, List.length_cons, hlen]

/-! ## A key held three times -/

/-- Inserts under a predicate that accepts no key, and a hash function that never answers the
same. -/
def thrice : List (Request UInt64) :=
  [10, 20, 30].map (.insert? (fun n _ => n.toUInt64) 8 (fun _ _ => false) 1)

/-- Three entries with one key, and a cursor on the first of them. -/
def triplets : Session UInt64 :=
  ⟨⟨#[some 1, some 1, none, none, none, none, none, some 1], #[20, 30, 0, 0, 0, 0, 0, 10], 3, 6,
    ⟨0x3f400000⟩⟩, ⟨3, 5, some 7⟩⟩

theorem arrived_triplets : Arrived triplets.table := by
  have hnew : Arrived (⟨Array.replicate 8 none, Array.replicate 8 0, 0, 6, ⟨0x3f400000⟩⟩ :
      Table UInt64) := .made (by decide) ofHint_eight
  have hrun : run (Session.mk ⟨Array.replicate 8 none, Array.replicate 8 0, 0, 6, ⟨0x3f400000⟩⟩
      triplets.cursor) thrice = .ok ([.value? none, .value? none, .value? none], triplets) := rfl
  have hrs : ∀ s : Session UInt64, InRangeAll s thrice := fun _ =>
    ⟨trivial, fun _ _ _ => ⟨trivial, fun _ _ _ => ⟨trivial, fun _ _ _ => trivial⟩⟩⟩
  rcases run_cases hnew (hrs ⟨_, triplets.cursor⟩) with h | ⟨as, s', h, -, hs'⟩
  · rw [hrun] at h
    cases h
  · rw [hrun] at h
    cases h
    exact hs'

theorem made_triplets : triplets.cursor.Made triplets.table.capacity :=
  .advance (t := triplets.table) (c := Cursor.new triplets.table)
    (.new rfl (newCursor_eq (by decide))) rfl rfl

/-! ## Requests to a table that has arrived -/

/-- Whatever hashes, predicates and hash functions requests have brought and bring, a request within
the row answers, or it ends in want of slots that can not be allocated. It answers without a fault,
the entries changed as the answer reports, all of them counted, and a slot left empty. A drain gives
the first entries in slot order, and a histogram asked for with one hash function is that of the
table. With closures that do not change the command ends in the same way. -/
theorem accounts_of_arrived (hs : Arrived s.table) (hr : r.InRange s) :
    (r.Wanting s.table ∧ Checked.perform s r = .error (.abort .capacityOverflow) ∨
      ∃ a s', Checked.perform s r = .ok (a, s') ∧
        (r.change a).Accounts s.table.entries s'.table.entries ∧
        (∀ n, r = .drain n → a = .pairs (s.table.entries.take n)) ∧
        (∀ hash, r = .histogram (fun _ => hash) → a = .histogram (s.table.histogram hash)) ∧
        s'.table.Counted ∧ s'.table.size < s'.table.capacity ∧ Arrived s'.table) ∧
    ∀ c : Command K, r = c.steady →
      Checked.perform s r = (s.perform c).toExcept.mapError .abort := by
  have hsettled := settled_perform hs.intact hr
  refine ⟨?_, ?_⟩
  · cases hrun : Checked.perform s r with
    | error e =>
      rw [hrun] at hsettled
      cases hsettled with
      | overflow hwanting => exact Or.inl ⟨hwanting, rfl⟩
    | ok p =>
      obtain ⟨a, s'⟩ := p
      rw [hrun] at hsettled
      cases hsettled with
      | ok hs' h =>
        refine Or.inr ⟨a, s', rfl, h, ?_, ?_, hs'.counted, hs'.size_lt, hs.changed hr hrun⟩
        · rintro n rfl
          rw [perform_drain hs.intact] at hrun
          exact (Prod.mk.inj (Except.ok.inj hrun)).1.symm
        · rintro hash rfl
          rw [perform_histogram hs.intact] at hrun
          exact (Prod.mk.inj (Except.ok.inj hrun)).1.symm
  · rintro c rfl
    refine (refines_perform s c).eq_mapError fun e hfault => ?_
    rw [hfault] at hsettled
    cases hsettled

/-- Erasing at the cursor under a hash function that answers otherwise each time moves the third
entry over the first one, past the second. -/
theorem accounts_of_arrived_triplets :
    Arrived triplets.table ∧ triplets.cursor.Made triplets.table.capacity ∧
    ∃ s', Checked.perform triplets (.eraseCursor fun n _ => 8 * n.toUInt64) =
        .ok (.pair? (some (1, 10)), s') ∧
      triplets.table.entries.Perm ((1, 10) :: s'.table.entries) ∧ s'.table.Counted ∧
      Arrived s'.table := by
  have hrun : Checked.perform triplets (.eraseCursor fun n _ => 8 * n.toUInt64) =
      .ok (.pair? (some (1, 10)), ⟨⟨#[some 1, none, none, none, none, none, none, some 1],
        #[20, 0, 0, 0, 0, 0, 0, 30], 2, 6, ⟨0x3f400000⟩⟩, ⟨3, 4, none⟩⟩) := rfl
  refine ⟨arrived_triplets, made_triplets, ?_⟩
  rcases (accounts_of_arrived arrived_triplets
    (r := .eraseCursor fun n _ => 8 * n.toUInt64) made_triplets).1 with
    ⟨hwanting, -⟩ | ⟨a, s', h, hperm, -, -, hcounted, -, hs'⟩
  · cases hwanting
  · obtain rfl : a = .pair? (some (1, 10)) := (Prod.mk.inj (Except.ok.inj (h.symm.trans hrun))).1
    exact ⟨s', h, hperm, hcounted, hs'⟩

end Table

end LinearProbe
