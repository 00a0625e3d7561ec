import LeaseLock.Lock.Execution
import LeaseLock.Proofs.Executions

/-!
# What all turns have in common

Relations between the states before and after each turn of a program, and before and after it is
given up.

## The model

`Goes turns drops` says of a program that whenever it has a turn, on whatever state, that goes along
the relation `turns`, and whenever it is given up, that goes along `drops`. Others may do anything
between two of its turns. The relations must go together with programs being put in sequence and side
by side (`Tolerant`).

## What is proved

Programs that are put together go along the relations if their parts do; so do extensions and
executions of tasks, if the service and the steps on chains do.
-/

namespace LeaseLock

/-! ### Routines and programs -/

section Goes

variable {σ α β ε : Type}

mutual

/-- Each turn of the routine goes along one relation, and giving it up along another. -/
def Routine.Goes (turns drops : σ → σ → Prop) : Routine σ α → Prop
  | .done _ => True
  | .paused resume abandon =>
    (∀ s, drops s (abandon s)) ∧ ∀ s, Turn.Goes turns drops (resume s) s

/-- So does the turn, and the rest after it. -/
def Turn.Goes (turns drops : σ → σ → Prop) : Turn σ α → σ → Prop
  | ⟨s', r⟩, s => turns s s' ∧ r.Goes turns drops

end

/-- Each turn of the program goes along one relation, and giving it up along another. -/
def Program.Goes (turns drops : σ → σ → Prop) (p : Program σ α) : Prop :=
  ∀ s, (p s).Goes turns drops s

/-- The relations allow for nothing to happen, and for one thing after the other. -/
structure Tolerant (turns drops : σ → σ → Prop) : Prop where
  refl : ∀ s, turns s s
  trans : ∀ {s s' s''}, turns s s' → turns s' s'' → turns s s''
  drops_refl : ∀ s, drops s s
  drops_trans : ∀ {s s' s''}, drops s s' → drops s' s'' → drops s s''
  /-- Something may be given up in a turn of something else. -/
  of_drops : ∀ {s s'}, drops s s' → turns s s'

variable {turns drops : σ → σ → Prop} (hl : Tolerant turns drops)

theorem Turn.Goes.state {s : σ} {u : Turn σ α} (hu : u.Goes turns drops s) : turns s u.state := by
  cases u with
  | mk s' r => exact hu.1

theorem Turn.Goes.rest {s : σ} {u : Turn σ α} (hu : u.Goes turns drops s) :
    u.rest.Goes turns drops := by
  cases u with
  | mk s' r => exact hu.2

include hl

theorem Routine.Goes.turn {r : Routine σ α} (hr : r.Goes turns drops) (s : σ) :
    (r.turn s).Goes turns drops s := by
  cases r with
  | done a => exact ⟨hl.refl s, trivial⟩
  | paused resume abandon => exact hr.2 s

theorem Routine.Goes.abandon {r : Routine σ α} (hr : r.Goes turns drops) (s : σ) :
    drops s (r.abandon s) := by
  cases r with
  | done a => exact hl.drops_refl s
  | paused resume abandon => exact hr.1 s

theorem Turn.Goes.before {s s' : σ} {u : Turn σ α} (h : turns s s')
    (hu : u.Goes turns drops s') : u.Goes turns drops s := by
  cases u with
  | mk s'' r => exact ⟨hl.trans h hu.1, hu.2⟩

mutual

theorem Routine.Goes.bind {r : Routine σ α} {f : α → Program σ β} (hr : r.Goes turns drops)
    (hf : ∀ a, (f a).Goes turns drops) (s : σ) : (r.bind f s).Goes turns drops s := by
  match r, hr with
  | .done a, _ =>
    rw [Routine.bind]
    exact hf a s
  | .paused resume abandon, hr =>
    rw [Routine.bind]
    refine ⟨hl.refl s, hr.1, fun s => ?_⟩
    exact Turn.Goes.bind (hr.2 s) hf

theorem Turn.Goes.bind {u : Turn σ α} {f : α → Program σ β} {s : σ} (hu : u.Goes turns drops s)
    (hf : ∀ a, (f a).Goes turns drops) : (u.bind f).Goes turns drops s := by
  match u, hu with
  | ⟨s', r⟩, hu =>
    rw [Turn.bind]
    exact (Routine.Goes.bind hu.2 hf s').before hl hu.1

end

omit hl in
mutual

theorem Routine.Goes.guarded (hl : Tolerant turns drops) {r : Routine σ α} {cleanup : σ → σ}
    (hr : r.Goes turns drops) (hc : ∀ s, drops s (cleanup s)) :
    (r.guarded cleanup).Goes turns drops := by
  match r, hr with
  | .done a, hr => rwa [Routine.guarded]
  | .paused resume abandon, hr =>
    rw [Routine.guarded]
    refine ⟨fun s => hl.drops_trans (hr.1 s) (hc _), fun s => ?_⟩
    exact Turn.Goes.guarded hl (hr.2 s) hc

theorem Turn.Goes.guarded (hl : Tolerant turns drops) {u : Turn σ α} {cleanup : σ → σ} {s : σ}
    (hu : u.Goes turns drops s) (hc : ∀ s, drops s (cleanup s)) :
    (u.guarded cleanup).Goes turns drops s := by
  match u, hu with
  | ⟨s', r⟩, hu =>
    rw [Turn.guarded]
    exact ⟨hu.1, Routine.Goes.guarded hl hu.2 hc⟩

end

omit hl in
mutual

theorem Routine.Goes.limit (hl : Tolerant turns drops) {r : Routine σ α} (hr : r.Goes turns drops)
    (n : Nat) : (r.limit n).Goes turns drops := by
  match r, n, hr with
  | .done a, _, _ =>
    rw [Routine.limit]
    trivial
  | .paused resume abandon, 0, hr =>
    rw [Routine.limit]
    exact ⟨hr.1, fun s => ⟨hl.of_drops (hr.1 s), trivial⟩⟩
  | .paused resume abandon, n + 1, hr =>
    rw [Routine.limit]
    refine ⟨hr.1, fun s => ?_⟩
    exact Turn.Goes.limit hl (hr.2 s) n

theorem Turn.Goes.limit (hl : Tolerant turns drops) {u : Turn σ α} {s : σ}
    (hu : u.Goes turns drops s) (n : Nat) : (u.limit n).Goes turns drops s := by
  match u, hu with
  | ⟨s', r⟩, hu =>
    rw [Turn.limit]
    exact ⟨hu.1, Routine.Goes.limit hl hu.2 n⟩

end

mutual

theorem Routine.Goes.alongside {r : Routine σ (Except ε α)} {next : Program σ (Except ε β)}
    {drop : σ → σ} (hr : r.Goes turns drops) (hn : next.Goes turns drops)
    (hd : ∀ s, drops s (drop s)) (s : σ) : (r.alongside next drop s).Goes turns drops s := by
  match r, hr with
  | .done (.error e), _ =>
    rw [Routine.alongside]
    exact ⟨hl.of_drops (hd s), trivial⟩
  | .done (.ok a), _ =>
    rw [Routine.alongside]
    exact (hn s).bind hl fun b s => ⟨hl.refl s, trivial⟩
  | .paused resume abandon, hr =>
    rw [Routine.alongside]
    -- The second one has its turn, too.
    have hu := hn s
    generalize next s = u at hu
    match u, hu with
    | ⟨s', .done (.error e)⟩, hu => exact ⟨hl.trans hu.1 (hl.of_drops (hr.1 s')), trivial⟩
    | ⟨s', .done (.ok b)⟩, hu =>
      exact ⟨hu.1, hr.1, fun s => (hr.2 s).bind hl fun a s => ⟨hl.refl s, trivial⟩⟩
    | ⟨s', .paused resume₂ abandon₂⟩, hu =>
      refine ⟨hu.1, fun s => hl.drops_trans (hr.1 s) (hu.2.1 _), fun s => ?_⟩
      exact Turn.Goes.alongside (hr.2 s) hu.2.2 hu.2.1

theorem Turn.Goes.alongside {u : Turn σ (Except ε α)} {next : Program σ (Except ε β)}
    {drop : σ → σ} {s : σ} (hu : u.Goes turns drops s) (hn : next.Goes turns drops)
    (hd : ∀ s, drops s (drop s)) : (u.alongside next drop).Goes turns drops s := by
  match u, hu with
  | ⟨s', r⟩, hu =>
    rw [Turn.alongside]
    exact (Routine.Goes.alongside hu.2 hn hd s').before hl hu.1

end

namespace Program.Goes

variable {p : Program σ α} {f : α → Program σ β}

theorem bind (hp : p.Goes turns drops) (hf : ∀ a, (f a).Goes turns drops) :
    (p >>= f).Goes turns drops := fun s => (hp s).bind hl hf

theorem pure (a : α) : (Pure.pure a : Program σ α).Goes turns drops := fun s => ⟨hl.refl s, trivial⟩

omit hl in
theorem step {f : σ → α × σ} (h : ∀ s, turns s (f s).2) : (Program.step f).Goes turns drops :=
  fun s => ⟨h s, trivial⟩

theorem look (f : σ → α) : (Program.look f).Goes turns drops := step hl.refl

omit hl in
theorem change {f : σ → σ} (h : ∀ s, turns s (f s)) : (Program.change f).Goes turns drops := step h

theorem pause : (Program.pause : Program σ Unit).Goes turns drops :=
  fun s => ⟨hl.refl s, hl.drops_refl, fun s => ⟨hl.refl s, trivial⟩⟩

theorem pauses (n : Nat) : (Program.pauses n : Program σ Unit).Goes turns drops := by
  induction n with
  | zero => exact pure hl ()
  | succ n ih => exact bind hl (pause hl) fun _ => ih

theorem converse {Q : Type} {A : Q → Type} {answer : (q : Q) → Program σ (A q)}
    (h : ∀ q, (answer q).Goes turns drops) (d : Dialog Q A α) :
    (Program.converse answer d).Goes turns drops := by
  induction d with
  | done a => exact pure hl a
  | ask q next ih => exact bind hl (h q) ih

theorem guarded {cleanup : σ → σ} (hp : p.Goes turns drops) (hc : ∀ s, drops s (cleanup s)) :
    (p.guarded cleanup).Goes turns drops := fun s => Turn.Goes.guarded hl (hp s) hc

theorem limit (hp : p.Goes turns drops) (n : Nat) : (p.limit n).Goes turns drops := by
  cases n with
  | zero => exact pure hl none
  | succ n => exact fun s => Turn.Goes.limit hl (hp s) n

theorem both {p : Program σ (Except ε α)} {q : Program σ (Except ε β)} (hp : p.Goes turns drops)
    (hq : q.Goes turns drops) : (Program.both p q).Goes turns drops :=
  fun s => (hp s).alongside hl hq hl.drops_refl

end Program.Goes

end Goes

/-! ### Leases and executions -/

section Contexts

variable {ω α : Type} {turns drops : State ω → State ω → Prop} (hl : Tolerant turns drops)
  {service : Service ω} (hs : ∀ q, (service q).Goes turns drops)
include hl hs

/-- **Extensions**, given that the service and what they do to slots go along. -/
theorem goes_extendActive (hf : ∀ n id x s, turns s (s.onChain n (·.fill id x))) (x : Context)
    (d e : Span) : (x.extendActive service d e).Goes turns drops := by
  unfold Context.extendActive
  split
  · exact .pure hl _
  · refine .bind hl (.look hl _) fun entry => ?_
    split
    · exact .pure hl _
    · exact .pure hl _
    · exact .pure hl _
    · refine .bind hl (.change (hf _ _ _)) fun _ => .bind hl (.look hl _) fun now =>
        .bind hl (.converse hl hs _) fun r => .bind hl (.change (hf _ _ _)) fun _ => .pure hl _

/-- Giving a lease back, given that the service and taking the entry out go along. -/
theorem goes_release (x : Context) (hx : ∀ s, turns s (x.leave s)) :
    (x.release service).Goes turns drops := by
  unfold Context.release
  split
  · exact .pure hl _
  · refine .bind hl (.look hl _) fun slot => .bind hl (.change hx) fun _ => ?_
    split
    · exact .bind hl (.look hl _) fun now => .bind hl (.converse hl hs _) fun r => .pure hl _
    · exact .pure hl _

/-- **Executions**, given that the service, the task, and entering and leaving go along. -/
theorem goes_execute (provider : Provider) (x : Context) (t : Terms)
    {task : Context → Program (State ω) (Ending String α)} (ht : ∀ z, (task z).Goes turns drops)
    (he : ∀ h : Handle, (x.enter t.name h).Goes turns drops)
    (hx : ∀ z : Context, ∀ s, drops s (z.leave s)) :
    (execute service provider x t task).Goes turns drops := by
  unfold execute
  split
  · exact .bind hl (ht x) fun ending => .pure hl _
  · refine .bind hl (.look hl _) fun now => .bind hl (.converse hl hs _) fun r => ?_
    split
    · exact .pure hl _
    · exact .pure hl _
    · refine .bind hl (he _) fun inner => .bind hl (.guarded hl (ht inner) (hx inner)) fun ending =>
        .bind hl (goes_release hl hs inner fun s => hl.of_drops (hx inner s)) fun r => .pure hl _

end Contexts

end LeaseLock
