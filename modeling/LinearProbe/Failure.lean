import LinearProbe.Number.Decimal
import LinearProbe.Text

/-!
# Refusals and aborts

An operation that does not answer either refuses or aborts. An `Error` is a refusal that the
caller is expected to handle: a value that may not be stored, a load factor that may not be used,
a cursor that stands on no entry. An `Abort` ends the call where it is: the slots cannot be
allocated, a key that had to be there is not, an index is out of range, or a probe would go round
for ever. A `Failure` is one or the other.

Operations that change a state return an `Outcome`: the answer or the failure, and in both cases
the state that is left. A failure does not undo what was done before it.
-/

namespace LinearProbe

/-- Why an operation refuses. -/
inductive Error where
  /-- The value stands for absence, so it cannot be stored. -/
  | missingValue (value : Int32)
  /-- The load factor is not strictly between 0 and 1. -/
  | invalidLoadFactor (loadFactor : Single)
  /-- The cursor stands on no entry. -/
  | noCurrentEntry
deriving DecidableEq, Repr

namespace Error

/-- The text of a refusal. -/
def message : Error → String
  | missingValue value => "cannot store the missing value " ++ toString value
  | invalidLoadFactor loadFactor => "load factor " ++ loadFactor.display ++ " is outside (0, 1)"
  | noCurrentEntry => "cursor is not positioned on an entry"

/-- The refusal as a record. -/
def inspect : Error → String
  | missingValue value => Layout.inline.record "MissingValueInsert" [("value", toString value)]
  | invalidLoadFactor loadFactor =>
    Layout.inline.record "InvalidLoadFactor" [("load_factor", loadFactor.inspect)]
  | noCurrentEntry => "NoCurrentEntry"

/-- The refusals agree, their load factors compared as numbers. -/
def sameAs : Error → Error → Bool
  | missingValue v, missingValue w => v = w
  | invalidLoadFactor x, invalidLoadFactor y => x.numEq y
  | noCurrentEntry, noCurrentEntry => true
  | _, _ => false

end Error

/-- Why a call ends where it is. -/
inductive Abort where
  /-- The slots asked for cannot be counted or allocated. -/
  | capacityOverflow
  /-- The key had to be present. -/
  | keyNotFound
  /-- A refusal that had to be impossible. -/
  | rejected (error : Error)
  /-- The slot index is not below the number of slots. -/
  | indexOutOfBounds (size index : Nat)
  /-- The probe meets neither its key nor an empty slot, so it would go round for ever. -/
  | endless
deriving DecidableEq, Repr

/-- The text of an abort. -/
def Abort.message : Abort → String
  | capacityOverflow => "capacity overflow"
  | keyNotFound => "key not found"
  | rejected error => error.message
  | indexOutOfBounds size index =>
    "index out of bounds: the len is " ++ toString size ++ " but the index is " ++ toString index
  | endless => "the probe does not end"

/-- A refusal or an abort. -/
inductive Failure where
  | refused (error : Error)
  | aborted (abort : Abort)
deriving DecidableEq, Repr

/-- What an operation on a state of type `σ` leaves: an answer of type `α` or a failure of type
`ε`, with the state after it. -/
abbrev Outcome (ε σ α : Type) :=
  EStateM.Result ε σ α

namespace Outcome

/-- The answer or the failure. -/
def result {ε σ α : Type} : Outcome ε σ α → Except ε α
  | .ok a _ => .ok a
  | .error e _ => .error e

/-- The state that is left. -/
def state {ε σ α : Type} : Outcome ε σ α → σ
  | .ok _ s => s
  | .error _ s => s

/-- The answer changed by `f`. -/
def map {ε σ α β : Type} (f : α → β) : Outcome ε σ α → Outcome ε σ β
  | .ok a s => .ok (f a) s
  | .error e s => .error e s

/-- The failure changed by `f` and the state by `g`. -/
def within {ε ε' σ σ' α : Type} (f : ε → ε') (g : σ → σ') : Outcome ε σ α → Outcome ε' σ' α
  | .ok a s => .ok a (g s)
  | .error e s => .error (f e) (g s)

/-- The result is the given failure. -/
def fails {ε α : Type} [DecidableEq ε] (e : ε) : Except ε α → Bool
  | .ok _ => false
  | .error e' => e' = e

/-- One for an outcome that is the given failure, and zero otherwise. -/
def failsWith {ε σ α : Type} [DecidableEq ε] (e : ε) (o : Outcome ε σ α) : Nat :=
  (fails e o.result).toNat

/-- The outcome of a computation that left the state `s` alone. -/
def ofExcept {ε σ α : Type} (s : σ) : Except ε α → Outcome ε σ α
  | .ok a => .ok a s
  | .error e => .error e s

section

variable {ε ε' σ σ' α β : Type} {o : Outcome ε σ α}

/-- An answer that was changed was an answer before. -/
theorem exists_of_map_eq_ok {f : α → β} {b : β} {s : σ} (h : o.map f = .ok b s) :
    ∃ a, o = .ok a s ∧ f a = b := by
  cases o with
  | ok a s' =>
    cases h
    exact ⟨a, rfl, rfl⟩
  | error e s' => cases h

@[simp] theorem state_map {f : α → β} : (o.map f).state = o.state := by
  cases o <;> rfl

theorem result_map {f : α → β} : (o.map f).result = o.result.map f := by
  cases o <;> rfl

@[simp] theorem state_within {f : ε → ε'} {g : σ → σ'} : (o.within f g).state = g o.state := by
  cases o <;> rfl

@[simp] theorem failsWith_map [DecidableEq ε] {f : α → β} {e : ε} :
    (o.map f).failsWith e = o.failsWith e := by
  cases o <;> rfl

/-- Among results the failures of one kind are counted one by one. -/
theorem countP_fails_cons [DecidableEq ε] {e : ε} {rs : List (Except ε α)} :
    (o.result :: rs).countP (fails e) = o.failsWith e + rs.countP (fails e) := by
  rw [List.countP_cons, failsWith, Nat.add_comm]
  cases fails e o.result <;> rfl

/-- A failure that is changed without loss is the changed failure exactly if it was that one. -/
theorem failsWith_within [DecidableEq ε] [DecidableEq ε'] {f : ε → ε'} {g : σ → σ'} {e : ε}
    (hf : ∀ e', f e' = f e ↔ e' = e) : (o.within f g).failsWith (f e) = o.failsWith e := by
  cases o with
  | ok a s => rfl
  | error e' s => simp [within, failsWith, fails, result, hf]

theorem eq_error_iff {e : ε} {s : σ} : o = .error e s ↔ o.result = .error e ∧ o.state = s := by
  cases o <;> simp [result, state]

/-- Changing the answer leaves a failure as it is. -/
theorem map_eq_error {f : α → β} {e : ε} {s : σ} : o.map f = .error e s ↔ o = .error e s := by
  cases o <;> simp [map]

theorem exists_of_within_eq_ok {f : ε → ε'} {g : σ → σ'} {a : α} {s' : σ'}
    (h : o.within f g = .ok a s') : ∃ s, o = .ok a s ∧ g s = s' := by
  cases o with
  | ok a s =>
    cases h
    exact ⟨s, rfl, rfl⟩
  | error e s => cases h

theorem exists_of_within_eq_error {f : ε → ε'} {g : σ → σ'} {e' : ε'} {s' : σ'}
    (h : o.within f g = .error e' s') : ∃ e s, o = .error e s ∧ f e = e' ∧ g s = s' := by
  cases o with
  | ok a s => cases h
  | error e s =>
    cases h
    exact ⟨e, s, rfl, rfl, rfl⟩

end

end Outcome

end LinearProbe
