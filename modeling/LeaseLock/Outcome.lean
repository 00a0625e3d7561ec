/-!
# Outcomes

How a computation ends.

## The model

A computation ends with a value, with a fault that it reports, or by breaking off: arithmetic that
has no answer within its range stops it, and nothing is reported. `Outcome` is a monad, in which
the first fault or break ends the whole.
-/

namespace LeaseLock

/-- The end of a computation. -/
inductive Outcome (ε α : Type) where
  /-- It answers. -/
  | value (a : α)
  /-- It reports a fault. -/
  | fault (e : ε)
  /-- It breaks off. -/
  | breakdown
  deriving DecidableEq

namespace Outcome

variable {ε δ α β : Type}

/-- Goes on with the value, if there is one. -/
def bind : Outcome ε α → (α → Outcome ε β) → Outcome ε β
  | value a, f => f a
  | fault e, _ => fault e
  | breakdown, _ => breakdown

instance : Monad (Outcome ε) where
  pure := value
  bind := bind

@[simp] theorem pure_eq (a : α) : (pure a : Outcome ε α) = value a := rfl
@[simp] theorem value_bind (a : α) (f : α → Outcome ε β) : (value a >>= f) = f a := rfl
@[simp] theorem fault_bind (e : ε) (f : α → Outcome ε β) : (fault e >>= f) = fault e := rfl
@[simp] theorem breakdown_bind (f : α → Outcome ε β) : (breakdown >>= f) = breakdown := rfl

/-- A value or a fault as an outcome. -/
def ofExcept : Except ε α → Outcome ε α
  | .ok a => value a
  | .error e => fault e

/-- A value, or the given fault. -/
def ofOption (e : ε) : Option α → Outcome ε α
  | some a => value a
  | none => fault e

/-- A value, or a break. -/
def orBreak : Option α → Outcome ε α
  | some a => value a
  | none => breakdown

/-- The same end with another account of the fault. -/
def mapFault (f : ε → δ) : Outcome ε α → Outcome δ α
  | value a => value a
  | fault e => fault (f e)
  | breakdown => breakdown

/-! What lies behind a value, or a break. -/

theorem bind_eq_value_iff {x : Outcome ε α} {f : α → Outcome ε β} {b : β} :
    (x >>= f) = value b ↔ ∃ a, x = value a ∧ f a = value b := by
  cases x with
  | value a => exact ⟨fun h => ⟨a, rfl, h⟩, fun ⟨_, ha, h⟩ => by cases ha; exact h⟩
  | fault e => exact ⟨(nomatch ·), fun ⟨_, ha, _⟩ => nomatch ha⟩
  | breakdown => exact ⟨(nomatch ·), fun ⟨_, ha, _⟩ => nomatch ha⟩

theorem ofOption_eq_value_iff {e : ε} {o : Option α} {a : α} :
    ofOption e o = value a ↔ o = some a := by
  cases o with
  | none => exact ⟨(nomatch ·), (nomatch ·)⟩
  | some b => exact ⟨fun h => by cases h; rfl, fun h => by cases h; rfl⟩

theorem orBreak_eq_value_iff {o : Option α} {a : α} :
    (orBreak o : Outcome ε α) = value a ↔ o = some a := by
  cases o with
  | none => exact ⟨(nomatch ·), (nomatch ·)⟩
  | some b => exact ⟨fun h => by cases h; rfl, fun h => by cases h; rfl⟩

theorem bind_eq_breakdown_iff {x : Outcome ε α} {f : α → Outcome ε β} :
    (x >>= f) = breakdown ↔ x = breakdown ∨ ∃ a, x = value a ∧ f a = breakdown := by
  cases x with
  | value a =>
    constructor
    · exact fun h => .inr ⟨a, rfl, h⟩
    · rintro (ha | ⟨_, ha, h⟩)
      · cases ha
      · cases ha
        exact h
  | fault e =>
    refine ⟨(nomatch ·), ?_⟩
    rintro (ha | ⟨_, ha, -⟩) <;> cases ha
  | breakdown => exact ⟨fun _ => .inl rfl, fun _ => rfl⟩

theorem ofOption_ne_breakdown {e : ε} {o : Option α} : ofOption e o ≠ breakdown := by
  cases o <;> exact (nomatch ·)

theorem ofOption_bind_eq_breakdown_iff {e : ε} {o : Option α} {f : α → Outcome ε β} :
    (ofOption e o >>= f) = breakdown ↔ ∃ a, o = some a ∧ f a = breakdown := by
  simp only [bind_eq_breakdown_iff, ofOption_ne_breakdown, false_or, ofOption_eq_value_iff]

theorem orBreak_eq_breakdown_iff {o : Option α} :
    (orBreak o : Outcome ε α) = breakdown ↔ o = none := by
  cases o with
  | none => exact ⟨fun _ => rfl, fun _ => rfl⟩
  | some b => exact ⟨(nomatch ·), (nomatch ·)⟩

theorem mapFault_eq_value_iff {f : ε → δ} {x : Outcome ε α} {a : α} :
    x.mapFault f = value a ↔ x = value a := by
  cases x with
  | value b => exact ⟨fun h => by cases h; rfl, fun h => by cases h; rfl⟩
  | fault e => exact ⟨(nomatch ·), (nomatch ·)⟩
  | breakdown => exact ⟨(nomatch ·), (nomatch ·)⟩

theorem mapFault_eq_breakdown_iff {f : ε → δ} {x : Outcome ε α} :
    x.mapFault f = breakdown ↔ x = breakdown := by
  cases x with
  | value b => exact ⟨(nomatch ·), (nomatch ·)⟩
  | fault e => exact ⟨(nomatch ·), (nomatch ·)⟩
  | breakdown => exact ⟨fun _ => rfl, fun _ => rfl⟩

end Outcome
end LeaseLock
