import LeaseLock.Dialog

/-!
# Routines

Programs that share a state and take turns.

## The model

In one turn a program changes the state and then has ended or pauses. A paused program can be
resumed on whatever the state is by then, or abandoned: then it cleans up in one step and is gone.
Everything between two pauses is one step. Who resumes whom is not said here; `both` resumes two
programs in each of its own turns, one after the other.
-/

namespace LeaseLock

mutual

/-- A program after one of its turns. -/
inductive Routine (σ α : Type) : Type where
  /-- It has ended with a result. -/
  | done (a : α)
  /-- It waits for its next turn, or to be abandoned. -/
  | paused (resume : σ → Turn σ α) (abandon : σ → σ)

/-- What a turn comes to. -/
inductive Turn (σ α : Type) : Type where
  /-- The state after the turn, and the rest of the program. -/
  | mk (state : σ) (rest : Routine σ α)

end

/-- A program: what its first turn comes to on each state. -/
def Program (σ α : Type) : Type := σ → Turn σ α

variable {σ α β γ ε : Type}

namespace Turn

/-- The state after the turn. -/
def state : Turn σ α → σ
  | mk s _ => s

/-- The rest of the program. -/
def rest : Turn σ α → Routine σ α
  | mk _ r => r

end Turn

/-! ### Sequence -/

mutual

/-- Goes on with the result when there is one, in the same turn. -/
def Routine.bind : Routine σ α → (α → Program σ β) → Program σ β
  | .done a, f, s => f a s
  | .paused resume abandon, f, s => ⟨s, .paused (fun s => (resume s).bind f) abandon⟩

/-- Goes on with the result of a turn. -/
def Turn.bind : Turn σ α → (α → Program σ β) → Turn σ β
  | ⟨s, r⟩, f => r.bind f s

end

namespace Program

/-- Ends at once. -/
def pure (a : α) : Program σ α := fun s => ⟨s, .done a⟩

/-- One program, then another that depends on its result. -/
def bind (p : Program σ α) (f : α → Program σ β) : Program σ β := fun s => (p s).bind f

instance : Monad (Program σ) where
  pure := pure
  bind := bind

/-- A step on the state that has a result. -/
def step (f : σ → α × σ) : Program σ α := fun s => ⟨(f s).2, .done (f s).1⟩

/-- What the state tells. -/
def look (f : σ → α) : Program σ α := step fun s => (f s, s)

/-- A change of the state. -/
def change (f : σ → σ) : Program σ Unit := step fun s => ((), f s)

/-- Leaves the rest to the next turn. -/
def pause : Program σ Unit := fun s => ⟨s, .paused (fun s => ⟨s, .done ()⟩) id⟩

/-- Leaves the rest to the turn after the next `n`. -/
def pauses : Nat → Program σ Unit
  | 0 => pure ()
  | n + 1 => bind pause fun _ => pauses n

@[simp] theorem pure_apply (a : α) (s : σ) : (Pure.pure a : Program σ α) s = ⟨s, .done a⟩ := rfl

@[simp] theorem bind_apply (p : Program σ α) (f : α → Program σ β) (s : σ) :
    (p >>= f) s = (p s).bind f := rfl

end Program

@[simp] theorem Turn.done_bind (s : σ) (a : α) (f : α → Program σ β) :
    (Turn.mk s (.done a)).bind f = f a s := by simp [Turn.bind, Routine.bind]

@[simp] theorem Turn.paused_bind (s : σ) (resume : σ → Turn σ α) (abandon : σ → σ)
    (f : α → Program σ β) :
    (Turn.mk s (.paused resume abandon)).bind f =
      ⟨s, .paused (fun s => (resume s).bind f) abandon⟩ := by simp [Turn.bind, Routine.bind]

/-! ### Dialogs -/

namespace Program

/-- The program of a dialog whose questions are answered by programs. -/
def converse {Q : Type} {A : Q → Type} (answer : (q : Q) → Program σ (A q)) :
    Dialog Q A α → Program σ α
  | .done a => pure a
  | .ask q next => bind (answer q) fun a => converse answer (next a)

end Program

/-! ### Cleaning up -/

mutual

/-- The routine, with more to clean up if it is abandoned. -/
def Routine.guarded (cleanup : σ → σ) : Routine σ α → Routine σ α
  | .done a => .done a
  | .paused resume abandon =>
    .paused (fun s => (resume s).guarded cleanup) fun s => cleanup (abandon s)

/-- The turn, with more to clean up if the rest is abandoned. -/
def Turn.guarded (cleanup : σ → σ) : Turn σ α → Turn σ α
  | ⟨s, r⟩ => ⟨s, r.guarded cleanup⟩

end

/-- The program, with more to clean up if it is abandoned. -/
def Program.guarded (cleanup : σ → σ) (p : Program σ α) : Program σ α :=
  fun s => (p s).guarded cleanup

/-- Cleans up for a routine that gets no more turns. -/
def Routine.abandon : Routine σ α → σ → σ
  | .done _, s => s
  | .paused _ abandon, s => abandon s

/-! ### Limits -/

mutual

/-- Abandons the routine if it has not ended after `n` more turns. -/
def Routine.limit : Routine σ α → Nat → Routine σ (Option α)
  | .done a, _ => .done (some a)
  | .paused _ abandon, 0 => .paused (fun s => ⟨abandon s, .done none⟩) abandon
  | .paused resume abandon, n + 1 => .paused (fun s => (resume s).limit n) abandon

/-- Abandons the rest if it has not ended after `n` more turns. -/
def Turn.limit : Turn σ α → Nat → Turn σ (Option α)
  | ⟨s, r⟩, n => ⟨s, r.limit n⟩

end

/-- Abandons the program if it has not ended after `n` turns; with none it does not start. -/
def Program.limit (p : Program σ α) : Nat → Program σ (Option α)
  | 0 => pure none
  | n + 1 => fun s => (p s).limit n

/-! ### Side by side -/

mutual

/-- Two programs side by side, of which the first has had its turn and the second not. The first
one to fail ends both. -/
def Routine.alongside : Routine σ (Except ε α) → Program σ (Except ε β) → (σ → σ) →
    Program σ (Except ε (α × β))
  | .done (.error e), _, abandon₂, s => ⟨abandon₂ s, .done (.error e)⟩
  | .done (.ok a), next₂, _, s => (next₂ s).bind fun b => Program.pure (b.map fun b => (a, b))
  | .paused resume abandon, next₂, _, s =>
    match next₂ s with
    | ⟨s, .done (.error e)⟩ => ⟨abandon s, .done (.error e)⟩
    | ⟨s, .done (.ok b)⟩ =>
      ⟨s, .paused (fun s => (resume s).bind fun a => Program.pure (a.map fun a => (a, b)))
        abandon⟩
    | ⟨s, .paused resume₂ abandon₂⟩ =>
      ⟨s, .paused (fun s => (resume s).alongside resume₂ abandon₂)
        fun s => abandon₂ (abandon s)⟩

/-- A turn of the first of two programs, then one of the second. -/
def Turn.alongside : Turn σ (Except ε α) → Program σ (Except ε β) → (σ → σ) →
    Turn σ (Except ε (α × β))
  | ⟨s, r⟩, next₂, abandon₂ => r.alongside next₂ abandon₂ s

end

namespace Program

/-- Two programs side by side. The first one to fail ends both. -/
def both (p : Program σ (Except ε α)) (q : Program σ (Except ε β)) :
    Program σ (Except ε (α × β)) :=
  fun s => (p s).alongside q id

/-- Programs side by side, in order in each turn. The first one to fail ends them all. -/
def all : List (Program σ (Except ε α)) → Program σ (Except ε (List α))
  | [] => pure (.ok [])
  | p :: ps => bind (both p (all ps)) fun r => pure (r.map fun ab => ab.1 :: ab.2)

end Program

/-! ### Alone -/

mutual

/-- Gives all turns to the routine until it ends. -/
def Routine.finish : Routine σ α → σ → α × σ
  | .done a, s => (a, s)
  | .paused resume _, s => (resume s).finish

/-- Gives all further turns to the rest until it ends. -/
def Turn.finish : Turn σ α → α × σ
  | ⟨s, r⟩ => r.finish s

end

/-- Gives all turns to the program until it ends. -/
def Program.finish (p : Program σ α) (s : σ) : α × σ := (p s).finish

end LeaseLock
