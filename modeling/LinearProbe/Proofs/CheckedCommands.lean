import LinearProbe.Proofs.Erasing
import LinearProbe.Table.Checked

/-!
# Checked operations refine the operations

A checked computation refines another one if it ends as that one does or with a fault (`Refines`).
Steps in sequence refine steps in sequence (`Refines.bind`), so with closures that do not change
every checked operation refines the operation on tables, and carrying out the request of a
command refines carrying out the command (`Table.Checked.refines_perform`).
-/

namespace LinearProbe

/-- The answer with the state that is left, or the failure. -/
def Outcome.toExcept {ε σ α : Type} : Outcome ε σ α → Except ε (α × σ)
  | .ok a s => .ok (a, s)
  | .error e _ => .error e

/-- The checked computation ends as the other one does, or with a fault. -/
inductive Refines {α : Type} : Except Mishap α → Except Abort α → Prop where
  | ok (a : α) : Refines (.ok a) (.ok a)
  | abort (a : Abort) : Refines (.error (.abort a)) (.error a)
  | fault (f : Fault) (y : Except Abort α) : Refines (.error (.fault f)) y

namespace Refines

variable {α β : Type} {x : Except Mishap α} {y : Except Abort α} {f : α → Except Mishap β}

theorem bind {z : Except Abort β} (h : Refines x y) (hok : ∀ a, y = .ok a → Refines (f a) z)
    (herror : ∀ e, y = .error e → z = .error e) : Refines (x >>= f) z := by
  cases h with
  | ok a => exact hok a rfl
  | abort a =>
    rw [herror a rfl]
    exact .abort a
  | fault e y => exact .fault e _

/-- After an abort nothing is done. -/
theorem error_bind {a : Abort} (h : Refines x (.error a)) : Refines (x >>= f) (.error a) :=
  h.bind (fun _ h => nomatch h) fun _ h => by rw [Except.error.inj h]

/-- A step that can only fault is passed over. -/
theorem step {a : α} {z : Except Abort β} (h : Refines x (.ok a)) (hf : Refines (f a) z) :
    Refines (x >>= f) z := by
  cases h with
  | ok a => exact hf
  | fault e y => exact .fault e z

/-- A checked computation that answers gives the answer of the other one. -/
theorem eq_of_ok {a b : α} (h : Refines x (.ok a)) (hx : x = .ok b) : b = a := by
  subst hx
  cases h
  rfl

/-- A checked computation that does not fault ends as the other one does. -/
theorem eq_mapError (h : Refines x y) (hx : ∀ e, x ≠ .error (.fault e)) :
    x = y.mapError .abort := by
  cases h with
  | ok a => rfl
  | abort a => rfl
  | fault e y => exact absurd rfl (hx e)

theorem require {p : Prop} [Decidable p] {e : Fault} : Refines (require p e) (.ok ()) := by
  unfold LinearProbe.require
  split
  · exact .ok ()
  · exact .fault e _

end Refines

namespace Table.Checked

variable {K : Type} {t : Table K} {i j gap n : Nat} {k : K} {v : Int32} {h : UInt64}
  {p : K → Bool} {hash : K → UInt64}

/-! ## Cells -/

theorem refines_key : Refines (key t i) (.ok (t.key? i)) :=
  .step .require (.ok _)

/-- Outside the row reading a key faults, whatever is done with it. -/
theorem refines_key_bind {α : Type} {f : Option K → Except Mishap α} {z : Except Abort α}
    (hf : i < t.capacity → Refines (f (t.key? i)) z) : Refines (key t i >>= f) z := by
  rcases Nat.lt_or_ge i t.capacity with hi | hi
  · exact .step refines_key (hf hi)
  · have hfault : key t i = .error (.fault (.outOfRange t.keys.size i)) := by
      rw [key, require, if_neg (show ¬i < t.keys.size from Nat.not_lt.2 hi)]
      rfl
    rw [hfault]
    exact .fault _ z

theorem refines_value : Refines (value t i) (.ok (t.value i)) :=
  .step .require (.ok _)

theorem refines_write : Refines (write t i k v) (.ok (t.write i k v)) :=
  .step .require (.step .require (.ok _))

theorem refines_writeValue : Refines (writeValue t i v) (.ok (t.writeValue i v)) :=
  .step .require (.ok _)

theorem refines_vacate : Refines (vacate t i) (.ok (t.vacate i)) :=
  .step .require (.step .require (.ok _))

/-! ## Operations -/

theorem refines_locateFrom : Refines (locateFrom t n (fun _ => p) i) (t.locateFrom p n i) := by
  induction n generalizing i with
  | zero => exact .abort _
  | succ n ih =>
    rw [locateFrom, Table.locateFrom]
    refine .step refines_key ?_
    cases t.key? i with
    | none => exact .ok _
    | some k =>
      dsimp only
      split
      · exact .ok _
      · exact ih

theorem refines_locate : Refines (locate t h fun _ => p) (t.locate h p) :=
  .step .require refines_locateFrom

theorem refines_replace? :
    Refines (replace? t h (fun _ => p) v) (t.replace? h p v).toExcept := by
  unfold Table.replace? indexOf?
  refine .bind refines_locate (fun spot hrun => ?_) fun a hrun => by rw [hrun]; rfl
  rw [hrun]
  cases spot with
  | free i => exact .ok _
  | held i => exact .step refines_value (.step refines_writeValue (.ok _))

theorem refines_replaceAt? : Refines (replaceAt? t i v) (t.replaceAt? i v).toExcept := by
  refine refines_key_bind fun hi => ?_
  rcases t.replaceAt?_cases i v with ⟨hle, -⟩ | ⟨hk, hrun⟩ | ⟨k, hk, hrun⟩
  · exact absurd hi (Nat.not_lt.2 hle)
  · rw [hk, hrun]
    exact .ok _
  · rw [hk, hrun]
    exact .step refines_value (.step refines_writeValue (.ok _))

theorem refines_closeGapFrom :
    Refines (closeGapFrom n (fun _ => hash) t gap i) (Table.closeGapFrom hash n t gap i) := by
  induction n generalizing t gap i with
  | zero => exact .abort _
  | succ n ih =>
    rw [closeGapFrom, Table.closeGapFrom]
    refine .step refines_key ?_
    cases t.key? (t.next i) with
    | none => exact .step refines_key (.step .require (.ok _))
    | some k =>
      dsimp only
      split
      · exact .step (.step refines_value (.step refines_write refines_vacate)) ih
      · exact ih

theorem refines_eraseAt? :
    Refines (eraseAt? (fun _ => hash) t i) (t.eraseAt? hash i).toExcept := by
  refine refines_key_bind fun hi => ?_
  cases hk : t.key? i with
  | none =>
    rw [eraseAt?_of_empty hi hk]
    exact .ok _
  | some k =>
    have he : t.slot? i = some (k, t.value i) := slot?_eq_some.2 ⟨hk, rfl⟩
    rw [eraseAt?_of_slot? he]
    refine .step refines_value (.step refines_vacate (.step .require ?_))
    refine .bind (y := (t.takeOut i).closeGap hash i) (.step .require refines_closeGapFrom)
      (fun u hrun => ?_) fun a hrun => by rw [hrun]; rfl
    rw [hrun]
    exact .ok _

theorem refines_erase? :
    Refines (erase? (fun _ => hash) t h fun _ => p) (t.erase? hash h p).toExcept := by
  unfold Table.erase? indexOf?
  refine .bind refines_locate (fun spot hrun => ?_) fun a hrun => by rw [hrun]; rfl
  rw [hrun]
  cases spot with
  | free i => exact .ok _
  | held i =>
    refine .bind refines_eraseAt? (fun r hr => ?_) fun a hr => hr
    obtain ⟨e?, u⟩ := r
    cases e? with
    | none => exact .fault _ _
    | some e =>
      refine cast (congrArg _ hr.symm) ?_
      exact .ok (some e, u)

theorem refines_place {e : K × Int32} : Refines (place (hash e.1) t e) (Table.place hash t e) := by
  unfold place Table.place
  refine .bind refines_locate (fun spot hrun => ?_) fun a hrun => by rw [hrun]; rfl
  rw [hrun]
  exact refines_write

theorem refines_placeAll {es : List (K × Int32)} :
    Refines (placeAll (fun _ => hash) es t) (es.foldlM (Table.place hash) t) := by
  induction es generalizing t with
  | nil => exact .ok t
  | cons e es ih =>
    rw [placeAll, List.foldlM_cons]
    refine .bind refines_place (fun u hrun => ?_) fun a hrun => by rw [hrun]; rfl
    rw [hrun]
    exact ih

variable [Stored K]

theorem refines_rehash {slots : Nat} :
    Refines (rehash (fun _ => hash) slots t) (Table.rehash hash slots t) := by
  unfold rehash Table.rehash
  split
  · refine .bind refines_placeAll (fun u hrun => ?_) fun a hrun => hrun
    rw [hrun]
    exact .step .require (.ok u)
  · exact .abort _

theorem refines_grow : Refines (grow (fun _ => hash) t) (Table.grow hash t) := by
  unfold grow Table.grow
  cases fitting? t.loadFactor t.size (2 * t.capacity) with
  | none => exact .abort _
  | some slots => exact refines_rehash

theorem refines_compact :
    Refines (compact (fun _ => hash) t) ((t.compact hash).toExcept.map Prod.snd) := by
  unfold compact Table.compact
  cases fitting? t.loadFactor t.size minCapacity with
  | none => exact .abort _
  | some slots =>
    dsimp only
    split
    · have hrehash : Refines (rehash (fun _ => hash) slots t) _ := refines_rehash
      cases hrun : Table.rehash hash slots t <;> rw [hrun] at hrehash <;> exact hrehash
    · exact .ok t

theorem refines_insertAt : Refines (insertAt (fun _ => hash) t i k v)
    ((t.insertAt hash i k v).toExcept.map Prod.snd) := by
  unfold insertAt Table.insertAt
  refine .step refines_key (.step .require (.step refines_write ?_))
  change Refines (if (t.store i k v).threshold < (t.store i k v).size then
    grow (fun _ => hash) (t.store i k v) else .ok (t.store i k v)) _
  dsimp only
  split
  · have hgrow : Refines (grow (fun _ => hash) (t.store i k v)) _ := refines_grow
    cases hrun : (t.store i k v).grow hash <;> rw [hrun] at hgrow <;> exact hgrow
  · exact .ok _

theorem refines_insert? :
    Refines (insert? (fun _ => hash) t h (fun _ => p) k v) (t.insert? hash h p k v).toExcept := by
  unfold Table.insert?
  refine .bind refines_locate (fun spot hrun => ?_) fun a hrun => by rw [hrun]; rfl
  rw [hrun]
  cases spot with
  | held i => exact .step refines_value (.step refines_writeValue (.ok _))
  | free i =>
    have hins : Refines (insertAt (fun _ => hash) t i k v) _ := refines_insertAt
    dsimp only
    cases hrun' : t.insertAt hash i k v with
    | ok _ u =>
      rw [hrun'] at hins
      exact .step hins (.ok _)
    | error a u =>
      rw [hrun'] at hins
      exact .error_bind hins

/-! ## Cursors -/

omit [Stored K] in
theorem refines_newCursor : Refines (newCursor t) (.ok (Cursor.new t)) :=
  .step (.step .require (.step refines_key (.ok t.start))) (.ok _)

omit [Stored K] in
theorem refines_seek {s m : Nat} : Refines (seek t s n m) (.ok (Cursor.seek t s n m)) := by
  induction n generalizing m with
  | zero => exact .ok _
  | succ n ih =>
    rw [seek, Cursor.seek]
    refine .step refines_key ?_
    cases hk : t.key? ((s + m) % t.capacity) with
    | none => simpa [hk] using ih
    | some k =>
      exact .ok _

omit [Stored K] in
theorem refines_advance {c : Cursor} : Refines (advance t c) (.ok (c.advance t)) := by
  refine .step .require (.step refines_seek ?_)
  rw [Cursor.advance]
  cases Cursor.seek t c.start (t.capacity - c.visited) c.visited <;> exact .ok _

omit [Stored K] in
theorem refines_eraseCursor {c : Cursor} :
    Refines (eraseCursor (fun _ => hash) t c) (c.erase hash t).toExcept := by
  unfold eraseCursor Cursor.erase
  cases hc : c.current with
  | none => exact .ok _
  | some i =>
    dsimp only
    have herase : Refines (eraseAt? (fun _ => hash) t i) _ := refines_eraseAt?
    cases hrun : t.eraseAt? hash i with
    | error a u =>
      rw [hrun] at herase
      exact .error_bind herase
    | ok e? u =>
      rw [hrun] at herase
      refine .step herase ?_
      cases e? with
      | none => exact .ok _
      | some e => exact .step .require (.ok _)

/-! ## Probe lengths -/

theorem refines_add {counts : Array Nat} {d : Nat} :
    Refines (add counts d) (.ok (Histogram.add counts d)) :=
  .step .require (.ok _)

omit [Stored K] in
theorem refines_countAll {is : List Nat} {counts : Array Nat} :
    Refines (countAll t (fun _ => hash) is counts) (.ok ((is.filterMap fun i =>
      (t.key? i).map fun k => t.displacement (hash k) i).foldl Histogram.add counts)) := by
  induction is generalizing counts with
  | nil => exact .ok _
  | cons i is ih =>
    rw [countAll, List.filterMap_cons]
    refine .step refines_key ?_
    cases t.key? i with
    | none => exact ih
    | some k => exact .step refines_add ih

omit [Stored K] in
theorem refines_histogram :
    Refines (histogram (fun _ => hash) t) (.ok (t.histogram hash)) :=
  .step .require (.step refines_countAll (.ok _))

/-! ## Commands -/

omit [Stored K] in
theorem refines_lift {α : Type} {s : Session K} {x : Except Mishap (α × Table K)}
    {o : Outcome Abort (Table K) α} {f : α → Answer K} (hx : Refines x o.toExcept) :
    Refines (x >>= fun r => .ok (f r.1, { s with table := r.2 })) ((s.lift o).map f).toExcept := by
  cases o with
  | ok a u => exact .step hx (.ok _)
  | error a u => exact .error_bind hx

/-- With closures that do not change, a request that does not fault ends as the command does. -/
theorem refines_perform (s : Session K) (c : Command K) :
    Refines (perform s c.steady) (s.perform c).toExcept := by
  cases c with
  | insert? hash h p k v => exact refines_lift refines_insert?
  | replace? h p v => exact refines_lift refines_replace?
  | replaceAt? i v => exact refines_lift refines_replaceAt?
  | erase? hash h p => exact refines_lift refines_erase?
  | eraseAt? hash i => exact refines_lift refines_eraseAt?
  | compact hash =>
    have hcompact : Refines (compact (fun _ => hash) s.table) _ := refines_compact
    rw [Session.perform]
    cases hrun : s.table.compact hash with
    | ok _ u =>
      rw [hrun] at hcompact
      exact .step hcompact (.ok _)
    | error a u =>
      rw [hrun] at hcompact
      exact .error_bind hcompact
  | clear => exact .ok _
  | drain n => exact .ok _
  | startCursor => exact .step refines_newCursor (.ok _)
  | advanceCursor => exact .step refines_advance (.ok _)
  | eraseCursor hash =>
    have herase : Refines (eraseCursor (fun _ => hash) s.table s.cursor) _ := refines_eraseCursor
    rw [Session.perform]
    cases hrun : s.cursor.erase hash s.table with
    | ok e? u =>
      rw [hrun] at herase
      exact .step herase (.ok _)
    | error a u =>
      rw [hrun] at herase
      exact .error_bind herase

end Table.Checked

end LinearProbe
