/-!
# Dialogs

Computations that ask questions and go on with the answers.

## The model

A dialog is at its end, or it asks a question and has a continuation for each answer. It says
nothing of who answers or when; whoever does may take as long as he likes between two questions.
So a dialog shows exactly the points at which others can come in between.
-/

namespace LeaseLock

/-- A computation that asks questions `q : Q`, to be answered by an `A q`. -/
inductive Dialog (Q : Type) (A : Q → Type) (α : Type) where
  /-- The end, with a result. -/
  | done (a : α)
  /-- A question, and what follows each answer. -/
  | ask (q : Q) (next : A q → Dialog Q A α)

namespace Dialog

variable {Q R : Type} {A : Q → Type} {B : R → Type} {α β γ : Type}

/-- Goes on with the result. -/
def bind : Dialog Q A α → (α → Dialog Q A β) → Dialog Q A β
  | done a, f => f a
  | ask q next, f => ask q fun a => (next a).bind f

/-- The same questions with another result. -/
def map (f : α → β) : Dialog Q A α → Dialog Q A β
  | done a => done (f a)
  | ask q next => ask q fun a => (next a).map f

/-- The dialog with its questions put in other terms. -/
def via (f : Q → R) (g : ∀ q, B (f q) → A q) : Dialog Q A α → Dialog R B α
  | done a => done a
  | ask q next => ask (f q) fun b => (next (g q b)).via f g

@[simp] theorem done_bind (a : α) (f : α → Dialog Q A β) : (done a).bind f = f a := rfl

@[simp] theorem ask_bind (q : Q) (next : A q → Dialog Q A α) (f : α → Dialog Q A β) :
    (ask q next).bind f = ask q fun a => (next a).bind f := rfl

theorem bind_assoc (d : Dialog Q A α) (f : α → Dialog Q A β) (g : β → Dialog Q A γ) :
    (d.bind f).bind g = d.bind fun a => (f a).bind g := by
  induction d with
  | done a => rfl
  | ask q next ih => simp [ih]

end Dialog
end LeaseLock
