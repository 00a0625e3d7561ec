import LeaseLock.Proofs.Executions
import LeaseLock.Proofs.StoreCalls

/-!
# The turns of an execution

Where an execution stands between two turns, and what each turn does to the store.

Most turns concern the execution only: it goes on with its task, or finds that it cannot have the
lock. Such a turn is `Later` than the state before it. In the other ones it takes the lock and
starts its task, extends its lease, or gives it back (`Effect`). `Stands.turn_spec` is the step
lemma; every statement about runs goes back to it.
-/

namespace LeaseLock

variable {α : Type}

/-! ### Where an execution stands -/

section Standing

variable {k : Nat} {n : String} {s s' : State Site} {l : Lease} {t : Terms}

/-- The task of an execution runs. -/
def State.isRunning (s : State Site) (k : Nat) : Bool := (s.chains.chain k).entries.has 0

theorem Holds.isRunning {x : Slot} (h : Holds s k n x) : s.isRunning k = true := by
  rw [State.isRunning, Registry.has, show _ = _ from h]
  rfl

/-- What a task has: its lease is in its slot, or it has none any more. It has noted which. -/
inductive Equipped (s : State Site) (k : Nat) (n : String) : Prop where
  | held (l : Lease) (h : Holds s k n (.held (.stored l))) (hv : l.valid = true)
      (hl : l.terms.name = n) (ho : s.rest.noted.get? k = some l.terms)
  | lost (h : Holds s k n .lost) (ho : s.rest.noted.get? k = none)
  | away (h : Holds s k n .inFlight) (ho : s.rest.noted.get? k = none)

/-- What is left of an execution between two turns, and what the state is like then. -/
inductive Stands (k : Nat) (n : String) (s : State Site) :
    Routine (State Site) (Conclusion α) → Prop where
  /-- Before the record is created. -/
  | inserting (holder : String) (t : Terms) (task : Task α) (hn : t.name = n)
      (hc : s.chains.chain k = {}) (ho : s.rest.noted.get? k = none) :
      Stands k n s (insertingRoutine k holder t task)
  /-- Before the record is claimed. -/
  | claiming (holder : String) (t : Terms) (task : Task α) (hn : t.name = n)
      (hc : s.chains.chain k = {}) (ho : s.rest.noted.get? k = none) :
      Stands k n s (claimingRoutine k holder t task)
  /-- The task waits. -/
  | waiting (next : State Site → Task α) (h : Equipped s k n) :
      Stands k n s (waitingRoutine k n next)
  /-- Before the lease of the task is extended. -/
  | extending (l : Lease) (t : Terms) (next : Except LockError Extension → Task α)
      (h : Holds s k n .inFlight) (hv : l.valid = true) (hl : l.terms.name = n) (ht : t.name = n)
      (ho : s.rest.noted.get? k = some l.terms) : Stands k n s (extendingRoutine k n l t next)
  /-- Before an extension is dropped. -/
  | dropping (l : Lease) (next : Option (Except LockError Extension) → Task α)
      (h : Holds s k n .inFlight) (hl : l.terms.name = n)
      (ho : s.rest.noted.get? k = some l.terms) : Stands k n s (droppingRoutine k n next)
  /-- Before the lease is given back. -/
  | releasing (l : Lease) (ending : Ending String α) (h : (s.chains.chain k).entries.get? 0 = none)
      (hl : l.terms.name = n) (ho : s.rest.noted.get? k = some l.terms) :
      Stands k n s (releasingRoutine l ending)
  /-- At its end. -/
  | ended (c : Conclusion α) (h : (s.chains.chain k).entries.get? 0 = none) :
      Stands k n s (.done c)

/-- Nothing that concerns other executions. -/
structure Apart (k : Nat) (s s' : State Site) : Prop where
  clock : s'.clock = s.clock
  chain : ∀ j, j ≠ k → s'.chains.chain j = s.chains.chain j
  noted : ∀ j, j ≠ k → s'.rest.noted.get? j = s.rest.noted.get? j

theorem Apart.refl (k : Nat) (s : State Site) : Apart k s s :=
  ⟨rfl, fun _ _ => rfl, fun _ _ => rfl⟩

theorem Apart.trans {s'' : State Site} (h : Apart k s s') (h' : Apart k s' s'') : Apart k s s'' where
  clock := h'.clock.trans h.clock
  chain := fun j hj => (h'.chain j hj).trans (h.chain j hj)
  noted := fun j hj => (h'.noted j hj).trans (h.noted j hj)

/-- Nothing but what a task does to its own entry and notes. -/
structure Later (k : Nat) (s s' : State Site) : Prop extends Apart k s s' where
  store : s'.rest.store = s.rest.store
  started : s'.rest.started = s.rest.started
  /-- The task has the lease that it had, or none. -/
  own : s'.rest.noted.get? k = s.rest.noted.get? k ∨ s'.rest.noted.get? k = none
  /-- If it runs, it ran before. -/
  running : s'.isRunning k = true → s.isRunning k = true

theorem Later.refl (k : Nat) (s : State Site) : Later k s s :=
  ⟨.refl k s, rfl, rfl, .inl rfl, id⟩

theorem Later.trans {s'' : State Site} (h : Later k s s') (h' : Later k s' s'') :
    Later k s s'' where
  toApart := h.toApart.trans h'.toApart
  store := h'.store.trans h.store
  started := h'.started.trans h.started
  own := h'.own.elim (fun e => h.own.imp e.trans e.trans) .inr
  running := fun hr => h.running (h'.running hr)

theorem apart_onChain (s : State Site) (k : Nat) (f : Chain → Chain) : Apart k s (s.onChain k f) :=
  ⟨rfl, fun j hj => by rw [chain_onChain, if_neg hj], fun _ _ => rfl⟩

theorem later_fill (s : State Site) (k : Nat) (x : Slot) : Later k s (s.fill k x) := by
  refine ⟨apart_onChain s k _, rfl, rfl, .inl rfl, fun hr => ?_⟩
  rw [State.isRunning, State.fill, chain_onChain, if_pos rfl, Chain.fill] at hr
  cases he : (s.chains.chain k).entries.get? 0 with
  | none => rwa [he] at hr
  | some e => rw [State.isRunning, Registry.has, he]; rfl

theorem apart_noteActive (s : State Site) (k : Nat) (n : String) :
    Apart k s (s.noteActive k n) := by
  refine ⟨rfl, fun _ _ => rfl, fun j hj => ?_⟩
  simp only [State.noteActive, Site.note]
  split
  · exact Registry.get?_put_of_ne hj _ _
  · exact Registry.get?_erase_of_ne hj _

theorem Holds.fill {x y : Slot} (h : Holds s k n x) : Holds (s.fill k y) k n y := by
  rw [Holds, State.fill, chain_onChain, if_pos rfl, Chain.fill, show _ = _ from h]
  exact Registry.get?_put_self _ _ _

theorem Holds.noteActive {x : Slot} (h : Holds s k n x) : Holds (s.noteActive k n) k n x := h

/-- What a task notes is the terms of the lease in its slot. -/
theorem Holds.activeTerms {x : Slot} (h : Holds s k n x) :
    (inside k n).activeTerms s.chains = match x with
      | .held h => some h.terms
      | _ => none := by
  simp only [Context.activeTerms, inside, Chain.slot?, show _ = _ from h, Option.map_some]
  cases x <;> rfl

theorem noteActive_held (h : Holds s k n (.held (.stored l))) :
    (s.noteActive k n).rest.noted.get? k = some l.terms := by
  simp only [State.noteActive, h.activeTerms, Site.note]
  exact Registry.get?_put_self _ _ _

theorem noteActive_none {x : Slot} (hs : Holds s k n x) (hx : ∀ h, x ≠ .held h) :
    (s.noteActive k n).rest.noted.get? k = none := by
  have hnone : (inside k n).activeTerms s.chains = none := by
    rw [hs.activeTerms]
    cases x with
    | held h => exact (hx h rfl).elim
    | lost | inFlight => rfl
  simp only [State.noteActive, hnone, Site.note]
  exact Registry.get?_erase_self _ _

/-- A task that notes the terms that it has noted already, or that it has none. -/
theorem later_noteActive (h : (s.noteActive k n).rest.noted.get? k = s.rest.noted.get? k ∨
    (s.noteActive k n).rest.noted.get? k = none) : Later k s (s.noteActive k n) :=
  ⟨apart_noteActive s k n, rfl, rfl, h, id⟩

theorem equipped_held (h : Holds s k n (.held (.stored l))) (hv : l.valid = true)
    (hl : l.terms.name = n) : Equipped (s.noteActive k n) k n :=
  .held l h.noteActive hv hl (noteActive_held h)

theorem equipped_lost (h : Holds s k n .lost) : Equipped (s.noteActive k n) k n :=
  .lost h.noteActive (noteActive_none h fun _ e => nomatch e)

theorem equipped_away (h : Holds s k n .inFlight) : Equipped (s.noteActive k n) k n :=
  .away h.noteActive (noteActive_none h fun _ e => nomatch e)

theorem gone_leave (s : State Site) (k : Nat) (n : String) :
    (((inside k n).leave s).chains.chain k).entries.get? 0 = none := by
  show ((s.onChain k (·.remove 0)).chains.chain k).entries.get? 0 = none
  rw [chain_onChain, if_pos rfl]
  exact Registry.get?_erase_self _ _

theorem isRunning_leave (s : State Site) (k : Nat) (n : String) :
    ((inside k n).leave s).isRunning k = false := by
  rw [State.isRunning, Registry.has, gone_leave]
  rfl

theorem later_leave (s : State Site) (k : Nat) (n : String) : Later k s ((inside k n).leave s) :=
  ⟨apart_onChain s k (·.remove 0), rfl, rfl, .inl rfl, fun hr => by
    rw [isRunning_leave] at hr
    cases hr⟩

/-- The end of a task: its lease is to be given back, if it has one. -/
theorem afterTask_spec (ending : Ending String α) (h : Equipped s k n) :
    ∃ r, afterTask (inside k n) ending s = ⟨(inside k n).leave s, r⟩ ∧
      Stands k n ((inside k n).leave s) r := by
  cases h with
  | held l h hv hl ho =>
    exact ⟨_, afterTask_held h hv ending, .releasing l ending (gone_leave s k n) hl ho⟩
  | lost h =>
    exact ⟨_, afterTask_empty h (fun _ e => nomatch e) ending, .ended _ (gone_leave s k n)⟩
  | away h =>
    exact ⟨_, afterTask_empty h (fun _ e => nomatch e) ending, .ended _ (gone_leave s k n)⟩

/-- What an extension does at its start: it goes on after a turn, or ends at once and leaves the
task as equipped as before. -/
theorem extendActive_spec (d e : Span) (h : Equipped s k n) :
    (∃ l t, Holds s k n (.held (.stored l)) ∧ l.valid = true ∧ l.terms.name = n ∧ t.name = n ∧
      s.rest.noted.get? k = some l.terms ∧
      (inside k n).extendActive calls d e s = ⟨s.fill k .inFlight, .paused (fun s =>
        ⟨(s.serve ⟨.extend, l.holder, t⟩).2.fill k
            (slotAfter l t (s.serve ⟨.extend, l.holder, t⟩).1),
          .done (.ok (s.serve ⟨.extend, l.holder, t⟩).1)⟩) id⟩) ∨
    (∃ s' r, (inside k n).extendActive calls d e s = ⟨s', .done r⟩ ∧
      Later k s (s'.noteActive k n) ∧ Equipped (s'.noteActive k n) k n) := by
  cases h with
  | held l h hv hl ho =>
    cases ht : Terms.make s.now l.terms.name d e with
    | ok t =>
      exact .inl ⟨l, t, h, hv, hl, (Terms.name_of_make ht).trans hl, ho, extendActive_held h hv ht⟩
    | error f =>
      have hback : Holds ((s.fill k .inFlight).fill k (.held (.stored l))) k n
        (.held (.stored l)) := h.fill.fill
      exact .inr ⟨_, _, extendActive_refused h hv ht,
        ((later_fill s k _).trans (later_fill _ k _)).trans
          (later_noteActive (.inl ((noteActive_held hback).trans ho.symm))),
        equipped_held hback hv hl⟩
  | lost h =>
    exact .inr ⟨_, _, extendActive_lost h,
      later_noteActive (.inr (noteActive_none h fun _ e => nomatch e)), equipped_lost h⟩
  | away h =>
    exact .inr ⟨_, _, extendActive_inFlight h,
      later_noteActive (.inr (noteActive_none h fun _ e => nomatch e)), equipped_away h⟩

/-- **What a task does until its next turn** concerns nobody else, and leaves the execution at one
of its points. -/
theorem goOn_spec (task : Task α) (h : Equipped s k n) :
    ∃ s' r, goOn k (inside k n) task s = ⟨s', r⟩ ∧ Later k s s' ∧ Stands k n s' r := by
  induction task generalizing s with
  | done ending =>
    obtain ⟨r, hr, hstands⟩ := afterTask_spec ending h
    exact ⟨_, r, (Turn.done_bind s ending _).trans hr, later_leave s k n, hstands⟩
  | ask deed next ih =>
    cases deed with
    | wait =>
      exact ⟨s, _, goOn_of_paused (perform_wait _), .refl k s, .waiting next h⟩
    | extend d e =>
      obtain ⟨l, t, hh, hv, hl, ht, ho, hx⟩ | ⟨s', r, hx, hlater, hs'⟩ := extendActive_spec d e h
      · exact ⟨_, _, goOn_of_paused (perform_extend_of_paused hx), later_fill s k _,
          .extending l t next hh.fill hv hl ht ho⟩
      · obtain ⟨s'', r', hr', hlater', hstands⟩ := ih r hs'
        exact ⟨s'', r', (goOn_of_done (perform_extend_of_done hx)).trans hr',
          hlater.trans hlater', hstands⟩
    | drop d e =>
      obtain ⟨l, t, hh, hv, hl, ht, ho, hx⟩ | ⟨s', r, hx, hlater, hs'⟩ := extendActive_spec d e h
      · exact ⟨_, _, goOn_of_paused (perform_drop_of_paused hx), later_fill s k _,
          .dropping l next hh.fill hl ho⟩
      · obtain ⟨s'', r', hr', hlater', hstands⟩ := ih (some r) hs'
        exact ⟨s'', r', (goOn_of_done (perform_drop_of_done hx)).trans hr',
          hlater.trans hlater', hstands⟩

end Standing

/-! ### All that a turn can do -/

section Turns

variable {k : Nat} {n : String} {s s' : State Site} {t : Terms} {r : Record}

/-- The execution takes the lock, whose record was not there or had lapsed, and starts its task. -/
structure Took (k : Nat) (n : String) (s s' : State Site) (holder : String) (t : Terms) : Prop
    extends Apart k s s' where
  name : t.name = n
  lapsed : ∀ r, s.rest.store.get? n = some r → r.lockUntil ≤ s.now
  store : s'.rest.store = s.rest.store.put n ⟨t.atMostUntil, s.now, holder⟩
  started : s'.rest.started = (k, t) :: s.rest.started
  own : ∀ u, s'.rest.noted.get? k = some u → u = t

/-- The execution moves the end of the record, and its task has a new lease. -/
structure Extended (k : Nat) (n : String) (s s' : State Site) (old new : Terms) (r : Record) : Prop
    extends Apart k s s' where
  noted_old : s.rest.noted.get? k = some old
  name_old : old.name = n
  name : new.name = n
  running : s.isRunning k = true
  record : s.rest.store.get? n = some r
  store : s'.rest.store = s.rest.store.put n { r with lockUntil := new.atMostUntil }
  started : s'.rest.started = s.rest.started
  own : ∀ u, s'.rest.noted.get? k = some u → u = new

/-- The execution gives its lease back. -/
structure Released (k : Nat) (n : String) (s s' : State Site) (old : Terms) : Prop
    extends Apart k s s' where
  noted_old : s.rest.noted.get? k = some old
  name_old : old.name = n
  store : s'.rest.store = s.rest.store.release s.now old
  started : s'.rest.started = s.rest.started
  running : s'.isRunning k = false

/-- The execution has ended. -/
def Routine.isOver {σ β : Type} : Routine σ β → Bool
  | .done _ => true
  | .paused _ _ => false

/-- What a turn of an execution does, and whether it has ended before and after it. -/
inductive Effect (k : Nat) (n : String) (s s' : State Site) : Bool → Bool → Prop where
  | quiet (before after : Bool) (h : Later k s s') (ho : before = true → after = true) :
      Effect k n s s' before after
  | took (after : Bool) (holder : String) (t : Terms) (h : Took k n s s' holder t) :
      Effect k n s s' false after
  | extended (after : Bool) (old new : Terms) (r : Record) (h : Extended k n s s' old new r) :
      Effect k n s s' false after
  | released (old : Terms) (h : Released k n s s' old) : Effect k n s s' false true

theorem Effect.apart {before after : Bool} (h : Effect k n s s' before after) : Apart k s s' := by
  cases h with
  | quiet _ _ h => exact h.toApart
  | took _ _ _ h => exact h.toApart
  | extended _ _ _ _ h => exact h.toApart
  | released _ h => exact h.toApart

/-- The state with another store. -/
def State.withStore (store : Store) (s : State Site) : State Site :=
  { s with rest := { s.rest with store } }

theorem serve_of_perform {c : Call} {a : c.kind.Result} {store : Store}
    (h : s.rest.store.perform s.now c = (a, store)) : s.serve c = (a, s.withStore store) := by
  rw [State.serve, h]
  rfl

theorem apart_withStore (k : Nat) (s : State Site) (store : Store) : Apart k s (s.withStore store) :=
  ⟨rfl, fun _ _ => rfl, fun _ _ => rfl⟩

theorem chain_begun (s : State Site) (h : Handle) (j : Nat) :
    (s.begun k h t).chains.chain j =
      if j = k then ⟨1, [(0, ⟨t.name, .held h⟩)]⟩ else s.chains.chain j :=
  chain_onChain s j k fun _ => ⟨1, [(0, ⟨t.name, .held h⟩)]⟩

theorem apart_begun (store : Store) (h : Handle) :
    Apart k s ((s.withStore store).begun k h t) where
  clock := rfl
  chain := fun j hj => by rw [chain_begun, if_neg hj]; rfl
  noted := fun _ hj => Registry.get?_put_of_ne hj t _

/-- The start of the task of an execution that has got the lock. -/
theorem begin_spec (holder : String) (task : Task α) (hn : t.name = n) (hc : s.chains.chain k = {})
    (hr : ∀ r, s.rest.store.get? n = some r → r.lockUntil ≤ s.now) :
    ∃ s' r, begin k (.stored ⟨holder, t, true⟩) t task
        (s.withStore (s.rest.store.put n ⟨t.atMostUntil, s.now, holder⟩)) = ⟨s', r⟩ ∧
      Stands k n s' r ∧ Took k n s s' holder t := by
  generalize hst : s.rest.store.put n ⟨t.atMostUntil, s.now, holder⟩ = store
  have hheld : Holds ((s.withStore store).begun k (.stored ⟨holder, t, true⟩) t) k n
      (.held (.stored ⟨holder, t, true⟩)) := by
    rw [Holds, chain_begun, if_pos rfl, hn]
    rfl
  have hnoted : ((s.withStore store).begun k (.stored ⟨holder, t, true⟩) t).rest.noted.get? k =
      some t := Registry.get?_put_self k t _
  obtain ⟨s', r, hgo, hl, hstands⟩ := goOn_spec task (.held _ hheld rfl hn hnoted)
  refine ⟨s', r, ?_, hstands, ⟨(apart_begun store _).trans hl.toApart, hn, hr,
    hl.store.trans hst.symm, hl.started, fun u hu => ?_⟩⟩
  · subst hn
    exact (begin_eq (s := s.withStore store) hc task).trans hgo
  · obtain ho | ho := hl.own
    · exact Option.some.inj ((hu.symm.trans ho).trans hnoted)
    · cases hu.symm.trans ho

theorem turn_inserting_of_none (holder : String) (task : Task α) (hc : s.chains.chain k = {})
    (hr : s.rest.store.get? t.name = none) :
    ∃ s' r, (insertingRoutine k holder t task).turn s = ⟨s', r⟩ ∧ Stands k t.name s' r ∧
      Took k t.name s s' holder t := by
  have hserve : s.serve ⟨.insert, holder, t⟩ = (true, s.withStore _) :=
    serve_of_perform (Store.insert_of_none hr)
  obtain ⟨s', r, hb, hstands, he⟩ := begin_spec holder task rfl hc
    (fun r h => by rw [hr] at h; cases h)
  refine ⟨s', r, ?_, hstands, he⟩
  rw [insertingRoutine, Routine.turn, hserve]
  exact hb

theorem turn_inserting_of_some (holder : String) (task : Task α)
    (hr : s.rest.store.get? t.name = some r) :
    (insertingRoutine k holder t task).turn s = ⟨s, claimingRoutine k holder t task⟩ := by
  have hserve : s.serve ⟨.insert, holder, t⟩ = (false, s) :=
    serve_of_perform (Store.insert_of_some hr)
  rw [insertingRoutine, Routine.turn, hserve]
  rfl

theorem turn_claiming_of_lapsed (holder : String) (task : Task α) (hc : s.chains.chain k = {})
    (hr : s.rest.store.get? t.name = some r) (hu : r.lockUntil ≤ s.now) :
    ∃ s' r, (claimingRoutine k holder t task).turn s = ⟨s', r⟩ ∧ Stands k t.name s' r ∧
      Took k t.name s s' holder t := by
  have hserve : s.serve ⟨.claim, holder, t⟩ = (true, s.withStore _) :=
    serve_of_perform (Store.claim_of_lapsed hr hu)
  obtain ⟨s', r, hb, hstands, he⟩ := begin_spec holder task rfl hc
    (fun r h => by cases hr.symm.trans h; exact hu)
  refine ⟨s', r, ?_, hstands, he⟩
  rw [claimingRoutine, Routine.turn, hserve]
  exact hb

theorem turn_claiming_of_running (holder : String) (task : Task α)
    (hs : s.rest.store.claim holder s.now t = (false, s.rest.store)) :
    (claimingRoutine k holder t task).turn s = ⟨s, .done (.value .notExecuted)⟩ := by
  have hserve : s.serve ⟨.claim, holder, t⟩ = (false, s) := serve_of_perform hs
  rw [claimingRoutine, Routine.turn, hserve]
  rfl

/-- The turn in which the lease of a task is extended, or is lost. -/
theorem turn_extending {l : Lease} (next : Except LockError Extension → Task α)
    (h : Holds s k n .inFlight) (hv : l.valid = true) (hl : l.terms.name = n) (ht : t.name = n)
    (ho : s.rest.noted.get? k = some l.terms) :
    ∃ s' r, (extendingRoutine k n l t next).turn s = ⟨s', r⟩ ∧ Stands k n s' r ∧
      Effect k n s s' false r.isOver := by
  obtain ⟨old, hr, -, -, hs⟩ | ⟨-, hs⟩ := s.rest.store.extend_cases l.holder s.now t
  · generalize hst : s.rest.store.put t.name { old with lockUntil := t.atMostUntil } = store at hs
    have hserve : s.serve ⟨.extend, l.holder, t⟩ = (.extended, s.withStore store) :=
      serve_of_perform hs
    have hheld : Holds ((s.withStore store).fill k (.held (.stored { l with terms := t }))) k n
        (.held (.stored { l with terms := t })) := Holds.fill (s := s.withStore store) h
    have ha := ((apart_withStore k s store).trans
      (later_fill _ k (.held (.stored { l with terms := t }))).toApart).trans (apart_noteActive _ k n)
    obtain ⟨s', r, hgo, hlater, hstands⟩ := goOn_spec (next (.ok .extended))
      (equipped_held hheld hv ht)
    subst ht
    refine ⟨s', r, ?_, hstands, .extended _ l.terms t old ⟨ha.trans hlater.toApart, ho, hl, rfl,
      h.isRunning, hr, hlater.store.trans hst.symm, hlater.started, fun u hu => ?_⟩⟩
    · rw [extendingRoutine, Routine.turn, hserve]
      exact hgo
    · obtain hown | hown := hlater.own
      · exact Option.some.inj ((hu.symm.trans hown).trans (noteActive_held hheld))
      · cases hu.symm.trans hown
  · have hserve : s.serve ⟨.extend, l.holder, t⟩ = (.lost, s) := serve_of_perform hs
    have hlost : Holds (s.fill k .lost) k n .lost := h.fill
    have hnoted := later_noteActive (.inr (noteActive_none hlost fun _ e => by cases e))
    obtain ⟨s', r, hgo, hlater, hstands⟩ := goOn_spec (next (.ok .lost)) (equipped_lost hlost)
    refine ⟨s', r, ?_, hstands, .quiet _ _ (((later_fill s k _).trans hnoted).trans hlater)
      fun e => by cases e⟩
    rw [extendingRoutine, Routine.turn, hserve]
    exact hgo

/-- **One turn** of an execution has one of the effects, and leaves it at one of its points. -/
theorem Stands.turn_spec {r : Routine (State Site) (Conclusion α)} (h : Stands k n s r) :
    ∃ s' r', r.turn s = ⟨s', r'⟩ ∧ Stands k n s' r' ∧ Effect k n s s' r.isOver r'.isOver := by
  cases h with
  | inserting holder t task hn hc ho =>
    subst hn
    cases hr : s.rest.store.get? t.name with
    | none =>
      obtain ⟨s', r, hturn, hstands, ht⟩ := turn_inserting_of_none holder task hc hr
      exact ⟨s', r, hturn, hstands, .took _ holder t ht⟩
    | some r =>
      exact ⟨s, _, turn_inserting_of_some holder task hr, .claiming holder t task rfl hc ho,
        .quiet _ _ (.refl k s) id⟩
  | claiming holder t task hn hc ho =>
    subst hn
    obtain ⟨old, hr, hu, -⟩ | ⟨-, hs⟩ := s.rest.store.claim_cases holder s.now t
    · obtain ⟨s', r, hturn, hstands, ht⟩ := turn_claiming_of_lapsed holder task hc hr hu
      exact ⟨s', r, hturn, hstands, .took _ holder t ht⟩
    · refine ⟨s, _, turn_claiming_of_running holder task hs, .ended _ ?_,
        .quiet _ _ (.refl k s) fun _ => rfl⟩
      rw [hc]
      rfl
  | waiting next h =>
    obtain ⟨s', r, hgo, hl, hstands⟩ := goOn_spec (next s) h
    exact ⟨s', r, hgo, hstands, .quiet _ _ hl (nomatch ·)⟩
  | extending l t next h hv hl ht ho => exact turn_extending next h hv hl ht ho
  | dropping l next h hl ho =>
    have hlater : Later k s (s.noteActive k n) :=
      later_noteActive (.inr (noteActive_none h fun _ e => nomatch e))
    obtain ⟨s', r, hgo, hl, hstands⟩ := goOn_spec (next none) (equipped_away h)
    exact ⟨s', r, hgo, hstands, .quiet _ _ (hlater.trans hl) (nomatch ·)⟩
  | releasing l ending h hl ho =>
    refine ⟨_, _, rfl, .ended _ h, .released l.terms ⟨?_, ho, hl, rfl, rfl, ?_⟩⟩
    · exact ⟨rfl, fun _ _ => rfl, fun _ _ => rfl⟩
    · show (s.chains.chain k).entries.has 0 = false
      rw [Registry.has, h]
      rfl
  | ended c h => exact ⟨s, _, rfl, .ended c h, .quiet _ _ (.refl k s) id⟩

/-- Where an execution stands depends on its own chain and notes only. -/
theorem Stands.frame {r : Routine (State Site) (Conclusion α)} (h : Stands k n s r)
    (hc : s'.chains.chain k = s.chains.chain k)
    (ho : s'.rest.noted.get? k = s.rest.noted.get? k) : Stands k n s' r := by
  have hh : ∀ {x}, Holds s k n x → Holds s' k n x := fun h => by rw [Holds, hc]; exact h
  cases h with
  | inserting holder t task hn hc' ho' =>
    exact .inserting holder t task hn (hc.trans hc') (ho.trans ho')
  | claiming holder t task hn hc' ho' =>
    exact .claiming holder t task hn (hc.trans hc') (ho.trans ho')
  | waiting next h =>
    refine .waiting next ?_
    cases h with
    | held l h hv hl ho' => exact .held l (hh h) hv hl (ho.trans ho')
    | lost h ho' => exact .lost (hh h) (ho.trans ho')
    | away h ho' => exact .away (hh h) (ho.trans ho')
  | extending l t next h hv hl ht ho' =>
    exact .extending l t next (hh h) hv hl ht (ho.trans ho')
  | dropping l next h hl ho' => exact .dropping l next (hh h) hl (ho.trans ho')
  | releasing l ending h hl ho' => exact .releasing l ending (by rw [hc, h]) hl (ho.trans ho')
  | ended c h => exact .ended c (by rw [hc, h])

/-- An execution whose task runs has not ended. -/
theorem Stands.not_isOver {r : Routine (State Site) (Conclusion α)} (h : Stands k n s r)
    (hr : s.isRunning k = true) : r.isOver = false := by
  cases h with
  | ended c h =>
    rw [State.isRunning, Registry.has, h] at hr
    cases hr
  | inserting | claiming | waiting | extending | dropping | releasing => rfl

end Turns

end LeaseLock
