import LeaseLock.Proofs.ExecutionTurns

/-!
# Executions that share a store

Executions at one store in memory, with their turns interleaved in any order.

## The model

An execution is known by its place in the pool, and has a context of its own. In one event the clock
is set, an execution starts on terms that are made at the current reading of the clock, or an
execution has its next turn. An execution makes one storage call in a turn at most, at its start; so
anything can happen before each call. Executions may be for one holder or for many, and nothing is
asked of their tasks.

An event that makes no sense (a clock that is set back, terms that are refused, a turn of an
execution that is not there) changes nothing.

## What is proved

All executions of a pool stand at one of their points (`Sound`), and an event has one of the effects
in `Change`.
-/

namespace LeaseLock

/-- Executions at a store. -/
structure Pool (α : Type) where
  state : State Site
  /-- What is left of each execution. -/
  members : List (Routine (State Site) (Conclusion α)) := []

namespace Pool

/-- What happens next. -/
inductive Event (α : Type) where
  /-- The clock is set. -/
  | tick (c : Clock)
  /-- An execution starts. -/
  | start (holder name : String) (atMostFor atLeastFor : Span) (task : Task α)
  /-- An execution has its next turn. -/
  | turn (k : Nat)

variable {α : Type}

/-- The reading of the clock. -/
def now (f : Pool α) : Instant := f.state.now

/-- The records. -/
def store (f : Pool α) : Store := f.state.rest.store

/-- The executions whose tasks have started, with the terms of their leases, the last one first. -/
def started (f : Pool α) : List (Nat × Terms) := f.state.rest.started

/-- Lets an event happen. -/
def step (f : Pool α) : Event α → Pool α
  | .tick c => if f.now ≤ c.reading then { f with state := { f.state with clock := c } } else f
  | .start holder n d e task => match Terms.make f.now n d e with
    | .ok t =>
      let turn := execution f.members.length holder t task f.state
      ⟨turn.state, f.members ++ [turn.rest]⟩
    | .error _ => f
  | .turn k => match f.members[k]? with
    | some r => ⟨(r.turn f.state).state, f.members.set k (r.turn f.state).rest⟩
    | none => f

/-- Lets events happen one after the other. -/
def play (f : Pool α) (ms : List (Event α)) : Pool α := ms.foldl step f

/-- A store at which nothing was executed yet. -/
def fresh (s : Store) (c : Clock) : Pool α := ⟨⟨c, [], { store := s }⟩, []⟩

/-- Each event of a run is like this. -/
def Along (P : Pool α → Event α → Prop) (f : Pool α) : List (Event α) → Prop
  | [] => True
  | m :: ms => P f m ∧ Along P (f.step m) ms

variable {f g : Pool α} {k : Nat} {P : Pool α → Event α → Prop} {ms ns : List (Event α)}

@[simp] theorem play_cons (f : Pool α) (m : Event α) (ms : List (Event α)) :
    f.play (m :: ms) = (f.step m).play ms := rfl

theorem play_append (f : Pool α) (ms ns : List (Event α)) :
    f.play (ms ++ ns) = (f.play ms).play ns := List.foldl_append

theorem along_append : Along P f (ms ++ ns) ↔ Along P f ms ∧ Along P (f.play ms) ns := by
  induction ms generalizing f with
  | nil => exact (iff_of_eq (true_and _)).symm
  | cons m ms ih => exact (and_congr_right fun _ => ih).trans and_assoc.symm

/-- The first event of a run that is not like this comes after some of the others. -/
theorem exists_of_not_along (h : ¬Along P f ms) :
    ∃ p m, p ++ [m] <+: ms ∧ ¬P (f.play p) m := by
  induction ms generalizing f with
  | nil => exact (h trivial).elim
  | cons m ms ih =>
    by_cases hm : P f m
    · obtain ⟨p, m', hp, hm'⟩ := ih fun hms => h ⟨hm, hms⟩
      exact ⟨m :: p, m', List.cons_prefix_cons.2 ⟨rfl, hp⟩, hm'⟩
    · exact ⟨[], m, ⟨ms, rfl⟩, hm⟩

/-! ### What an event does -/

/-- What holds of every pool that is got to from a fresh one. -/
structure Sound (f : Pool α) : Prop where
  /-- Executions stand at their points. -/
  stands : ∀ {k : Nat} {r : Routine (State Site) (Conclusion α)}, f.members[k]? = some r →
    ∃ n, Stands k n f.state r
  /-- Nothing has happened on the chains of executions that have not started. -/
  new : ∀ {k : Nat}, f.members.length ≤ k →
    f.state.chains.chain k = {} ∧ f.state.rest.noted.get? k = none

/-- **What an event does** to a pool. -/
inductive Change (f : Pool α) : Event α → Pool α → Prop where
  /-- The event makes no sense. -/
  | nothing (m : Event α) : Change f m f
  /-- The clock is set. -/
  | ticked (c : Clock) (hc : f.now ≤ c.reading) :
      Change f (.tick c) { f with state := { f.state with clock := c } }
  /-- An execution starts. -/
  | started (holder n : String) (d e : Span) (task : Task α) (t : Terms) :
      Change f (.start holder n d e task)
        { f with members := f.members ++ [insertingRoutine f.members.length holder t task] }
  /-- An execution has its turn. -/
  | turned (k : Nat) (n : String) (s' : State Site) (r r' : Routine (State Site) (Conclusion α))
      (hr : f.members[k]? = some r) (hs : Stands k n f.state r) (hs' : Stands k n s' r')
      (he : Effect k n f.state s' r.isOver r'.isOver) :
      Change f (.turn k) ⟨s', f.members.set k r'⟩

theorem step_tick {c : Clock} (hc : f.now ≤ c.reading) :
    f.step (.tick c) = ⟨{ f.state with clock := c }, f.members⟩ := if_pos hc

theorem step_start {n : String} {d e : Span} {t : Terms} (holder : String) (task : Task α)
    (ht : Terms.make f.now n d e = .ok t) : f.step (.start holder n d e task) =
      { f with members := f.members ++ [insertingRoutine f.members.length holder t task] } := by
  simp only [step, ht, start_execution]
  rfl

theorem step_turn {s' : State Site} {r r' : Routine (State Site) (Conclusion α)}
    (hr : f.members[k]? = some r) (ht : r.turn f.state = ⟨s', r'⟩) :
    f.step (.turn k) = ⟨s', f.members.set k r'⟩ := by
  simp only [step, hr, ht]
  rfl

/-- **Every event has one of the effects.** -/
theorem Sound.change (hf : f.Sound) (m : Event α) : Change f m (f.step m) := by
  cases m with
  | tick c =>
    by_cases hc : f.now ≤ c.reading
    · rw [step_tick hc]; exact .ticked c hc
    · rw [step, if_neg hc]; exact .nothing _
  | start holder n d e task =>
    cases ht : Terms.make f.now n d e with
    | ok t => rw [step_start holder task ht]; exact .started holder n d e task t
    | error er => rw [step, ht]; exact .nothing _
  | turn k =>
    cases hr : f.members[k]? with
    | some r =>
      obtain ⟨n, hs⟩ := hf.stands hr
      obtain ⟨s', r', ht, hs', he⟩ := hs.turn_spec
      rw [step_turn hr ht]
      exact .turned k n s' r r' hr hs hs' he
    | none => rw [step, hr]; exact .nothing _

theorem Sound.of_change {m : Event α} (hf : f.Sound) (h : Change f m g) : g.Sound := by
  cases h with
  | nothing => exact hf
  | ticked c hc =>
    refine ⟨fun hr => ?_, hf.new⟩
    obtain ⟨n, hs⟩ := hf.stands hr
    exact ⟨n, hs.frame rfl rfl⟩
  | started holder n d e task t =>
    constructor
    · intro k r hr
      rw [List.getElem?_append] at hr
      split at hr
      · exact hf.stands hr
      · -- Only the new execution is there.
        obtain ⟨hk, rfl⟩ : k = f.members.length ∧ insertingRoutine _ holder t task = r := by
          rw [List.getElem?_singleton] at hr
          split at hr
          · exact ⟨by omega, Option.some.inj hr⟩
          · cases hr
        subst hk
        obtain ⟨hc, ho⟩ := hf.new (Nat.le_refl _)
        exact ⟨t.name, .inserting holder t task rfl hc ho⟩
    · intro k hk
      rw [List.length_append] at hk
      exact hf.new (by omega)
  | turned k n s' r r' hr hs hs' he =>
    have hk : k < f.members.length := (List.getElem?_eq_some_iff.1 hr).1
    constructor
    · intro j q hq
      rw [List.getElem?_set] at hq
      split at hq
      · subst j
        cases hq
        exact ⟨n, hs'⟩
      · obtain ⟨m, hm⟩ := hf.stands hq
        have hj : j ≠ k := fun e => ‹¬k = j› e.symm
        exact ⟨m, hm.frame (he.apart.chain j hj) (he.apart.noted j hj)⟩
    · intro j hj
      rw [List.length_set] at hj
      have hjk : j ≠ k := by omega
      rw [he.apart.chain j hjk, he.apart.noted j hjk]
      exact hf.new hj

theorem Sound.step (hf : f.Sound) (m : Event α) : (f.step m).Sound := hf.of_change (hf.change m)

theorem Sound.play (hf : f.Sound) (ms : List (Event α)) : (f.play ms).Sound := by
  induction ms generalizing f with
  | nil => exact hf
  | cons m ms ih => exact ih (hf.step m)

theorem sound_fresh (s : Store) (c : Clock) : Sound (fresh s c : Pool α) where
  stands := fun h => nomatch h
  new := fun _ => ⟨rfl, rfl⟩

end Pool
end LeaseLock
