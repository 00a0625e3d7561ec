import LeaseLock.Proofs.Tickets

/-!
# The entries of a chain

Which entries a chain has, whatever plans are carried out and however their turns interleave.

## The model

Plans are carried out by a crowd. Each of them owes the tickets of its tasks that go on, and between
two events all tickets that are still out are owed by somebody (`Crowd.Minded`).

## What is proved

`entries_accounted`: at any time each chain has an entry for each ticket that was handed out and not
handed in, and none when all plans are over. An extension never makes an entry or takes one away,
whether it comes to its end or is given up on the way. What is given up makes no call and leaves the
world outside as it is (`Spared`).
-/

namespace LeaseLock

variable {ω ν α β : Type}

/-! ### Executions -/

section Executions

variable {σ : Type}

mutual

/-- What follows a guarded program in the same turn belongs to its end. -/
theorem Routine.guarded_bind_guarded (r : Routine σ α) (f g : σ → σ) (next : α → Program σ β)
    (s : σ) :
    (((r.guarded f).bind (fun a s => ⟨f s, .done a⟩) s).guarded g).bind next =
      (r.guarded (g ∘ f)).bind (fun a s => next a (f s)) s := by
  match r with
  | .done a => simp [Routine.guarded, Routine.bind]
  | .paused resume abandon =>
    simp only [Routine.guarded, Routine.bind, Turn.guarded_paused, Turn.paused_bind]
    congr 2
    funext s
    exact Turn.guarded_bind_guarded (resume s) f g next

theorem Turn.guarded_bind_guarded (u : Turn σ α) (f g : σ → σ) (next : α → Program σ β) :
    (((u.guarded f).bind fun a s => ⟨f s, .done a⟩).guarded g).bind next =
      (u.guarded (g ∘ f)).bind fun a s => next a (f s) := by
  match u with
  | ⟨s', r⟩ =>
    simp only [Turn.guarded, Turn.bind]
    exact Routine.guarded_bind_guarded r f g next s'

end

variable {o : Outside ω}

/-- The ticket is handed in before the lease is given back. -/
theorem minds_release (n id : Nat) (name : String) (scopes : List Scope)
    (f : Except LockError Unit → β) {s : State (Watch ω ν)}
    (hk : (⟨n, id⟩ : Ticket) ∈ s.rest.entered) :
    ((Context.release (o.service (ν := ν)) ⟨n, ⟨id, name⟩ :: scopes⟩ >>= fun r =>
      (pure (f r) : Program (State (Watch ω ν)) β)) (s.ended ⟨n, id⟩)).Minds [⟨n, id⟩] s := by
  refine Turn.Minds.before (passes_handIn hk) ?_
  simp only [Context.release]
  rw [Program.bind_apply, Program.look_bind, Program.change_bind]
  refine Turn.Minds.bind ?_ fun r => .pure _
  show Turn.Minds _ [] (s.handIn ⟨n, id⟩)
  rcases ((s.ended ⟨n, id⟩).chains.chain n).slot? id with _ | ⟨h | _ | _⟩
  case some.held =>
    exact Program.IsQuiet.minds (.bind tolerant_quiet (.look tolerant_quiet _) fun now =>
      .bind tolerant_quiet (quiet_converse o _) fun r => .pure tolerant_quiet _) _
  all_goals exact Program.Minds.pure _ _

/-- **All that follows taking a lock** hands in the ticket that comes with it. -/
theorem minds_held (x : Context) (name : String) (h : Handle)
    {task : Context → Program (State (Watch ω ν)) (Ending String α)} (ht : ∀ z, (task z).Minds) :
    Program.Minds (do
      let inner ← x.enter name h
      let ending ← (inner.attended (task inner)).guarded inner.leave
      let released ← inner.release o.service
      pure (ending.afterRelease released) : Program (State (Watch ω ν)) (Conclusion α)) := by
  intro s
  let k : Ticket := ⟨x.chain, (s.chains.chain x.chain).nextId⟩
  let z := x.inside k.id name
  -- Up to the first turn of the task, all is one step.
  show ((((task z (s.handOut x.chain name h)).guarded (State.ended k)).bind fun a s =>
    ⟨s.ended k, .done a⟩).guarded z.leave |>.bind fun ending => do
      let released ← z.release o.service
      pure (ending.afterRelease released)).Minds [] s
  rw [Turn.guarded_bind_guarded]
  have hp := passes_handOut x.chain name h s
  have hz : (task z (s.handOut x.chain name h)).Minds [] (s.handOut x.chain name h) := ht z _
  have hsettle := hz.settle (k := k) (fun s hk => passes_handIn hk)
    (fun ending s hk => minds_release (o := o) x.chain k.id name x.scopes ending.afterRelease hk)
    hp.known
  exact hsettle.before hp

/-- **Executions** hand in their tickets, if their tasks do. -/
theorem minds_execute (provider : Provider) (x : Context) (t : Terms)
    {task : Context → Program (State (Watch ω ν)) (Ending String α)} (ht : ∀ z, (task z).Minds) :
    Program.Minds (execute (o.service (ν := ν)) provider x t fun z =>
      if x.contains t.name then task z else z.attended (task z)) := by
  unfold execute
  by_cases hx : x.contains t.name = true
  · simp only [hx, if_true]
    exact (ht x).bind fun ending => .pure _
  · simp only [hx]
    refine (Program.Minds.look _).bind fun now => (quiet_converse o _).minds.bind fun r => ?_
    split
    · exact .pure _
    · exact .pure _
    · exact minds_held x t.name _ ht

end Executions

/-! ### Plans -/

section Plans

variable (o : Outside ω) (shared : Bool)

variable {turns drops : State (Watch ω ν) → State (Watch ω ν) → Prop}

theorem goes_outermost (hl : Tolerant turns drops)
    (hn : ∀ s : State (Watch ω ν), turns s s.withNextChain) :
    (outermost shared : Watched ω ν Context).Goes turns drops := by
  unfold outermost
  split
  · exact .pure hl _
  · exact .step hn

theorem goes_context (hl : Tolerant turns drops)
    (hn : ∀ s : State (Watch ω ν), turns s s.withNextChain) (place : Plan.Place)
    (x : Option Context) : (place.context shared x : Watched ω ν Context).Goes turns drops := by
  unfold Plan.Place.context
  split
  · split
    · exact .pure hl _
    · exact goes_outermost shared hl hn
  · exact goes_outermost shared hl hn
  · refine .bind hl (.look hl _) fun y => ?_
    split
    · exact .pure hl _
    · exact goes_outermost shared hl hn

theorem minds_context (place : Plan.Place) (x : Option Context) :
    (place.context shared x : Watched ω ν Context).Minds :=
  Program.IsQuiet.minds <|
    goes_context shared tolerant_quiet (fun _ => ⟨fun _ => rfl, fun _ => rfl, rfl, rfl⟩) place x

theorem minds_learned (n : Note ν) :
    (Program.change (State.learned n) : Watched ω ν Unit).Minds :=
  .change fun _ => ⟨fun _ => rfl, fun _ => rfl, rfl, rfl⟩

theorem minds_acted (f : Clock → ω → Clock × ω) :
    (Program.change (State.acted f) : Watched ω ν Unit).Minds :=
  .change fun _ => ⟨fun _ => rfl, fun _ => rfl, rfl, rfl⟩

theorem minds_pin (label : String) (x : Option Context) :
    (Program.change (State.pin label x) : Watched ω ν Unit).Minds := by
  refine .change fun s => ?_
  cases x with
  | none => exact Quiet.refl s
  | some y => exact ⟨fun _ => rfl, fun _ => rfl, rfl, rfl⟩

/-- **Plans** hand in all tickets that they get. -/
theorem minds_plan (plan : Plan ω ν) (x : Option Context) : (plan.program o shared x).Minds := by
  induction plan generalizing x with
  | done ending => exact .pure _
  | act f next ih => exact (minds_acted f).bind fun _ => ih x
  | pause next ih => exact Program.Minds.pause.bind fun _ => ih x
  | look place next ih =>
    exact (minds_context shared place x).bind fun y => (Program.Minds.look _).bind fun v =>
      (minds_learned _).bind fun _ => ih v x
  | pin label next ih => exact (minds_pin label x).bind fun _ => ih x
  | extend place d e next ih =>
    exact (minds_context shared place x).bind fun y => (quiet_extendActive o y d e).minds.bind fun r =>
      (minds_learned _).bind fun _ => ih r x
  | lock place provider t task next ih_task ih =>
    exact (minds_context shared place x).bind fun y =>
      (minds_execute provider y t fun z => ih_task (some z)).bind fun c =>
        (minds_learned _).bind fun _ => ih c x
  | both first second next ih₁ ih₂ ih =>
    exact (((ih₁ x).bind fun _ => .pure _).both ((ih₂ x).bind fun _ => .pure _)).bind fun r => ih r x
  | limit n body next ih_body ih => exact ((ih_body x).limit n).bind fun r => ih r x

/-- No call is made, and the clock and the world outside are left alone. -/
structure Spared (s s' : State (Watch ω ν)) : Prop where
  exchanges : s'.rest.exchanges = s.rest.exchanges
  world : s'.rest.world = s.rest.world
  clock : s'.clock = s.clock

/-- Nothing is asked of turns, and nothing outside changes when something is given up. -/
theorem tolerant_spared : Tolerant (fun _ _ => True) (@Spared ω ν) where
  refl := fun _ => trivial
  trans := fun _ _ => trivial
  drops_refl := fun _ => ⟨rfl, rfl, rfl⟩
  drops_trans := fun h h' =>
    ⟨h'.exchanges.trans h.exchanges, h'.world.trans h.world, h'.clock.trans h.clock⟩
  of_drops := fun _ => trivial

/-- The program makes no call when it is given up, and leaves the world outside as it is. -/
abbrev Program.IsSpared (p : Program (State (Watch ω ν)) α) : Prop :=
  p.Goes (fun _ _ => True) Spared

theorem spared_leave (x : Context) (s : State (Watch ω ν)) : Spared s (x.leave s) := by
  unfold Context.leave
  split <;> exact ⟨rfl, rfl, rfl⟩

theorem spared_attended (x : Context) {task : Watched ω ν α} (ht : task.IsSpared) :
    (x.attended task).IsSpared := by
  unfold Context.attended attended
  split
  · exact ht
  · exact .bind tolerant_spared (.change fun _ => trivial) fun _ =>
      .bind tolerant_spared (.guarded tolerant_spared ht fun _ => ⟨rfl, rfl, rfl⟩) fun a =>
        .bind tolerant_spared (.change fun _ => trivial) fun _ => .pure tolerant_spared a

theorem spared_service (q : Query) : (o.service (ν := ν) q).IsSpared :=
  goes_service tolerant_spared (.step fun _ => trivial)

/-- **A plan that is given up** makes no call, and leaves the world outside as it is. -/
theorem spared_plan (plan : Plan ω ν) (x : Option Context) : (plan.program o shared x).IsSpared := by
  have hl : Tolerant _ (@Spared ω ν) := tolerant_spared
  have hc (place : Plan.Place) (x : Option Context) : (place.context shared x).IsSpared :=
    goes_context shared hl (fun _ => trivial) place x
  have hd {f : State (Watch ω ν) → State (Watch ω ν)} : (Program.change f).IsSpared :=
    .change fun _ => trivial
  induction plan generalizing x with
  | done ending => exact .pure hl _
  | act f next ih => exact .bind hl hd fun _ => ih x
  | pause next ih => exact .bind hl (.pause hl) fun _ => ih x
  | look place next ih =>
    exact .bind hl (hc place x) fun y => .bind hl (.look hl _) fun v => .bind hl hd fun _ => ih v x
  | pin label next ih => exact .bind hl hd fun _ => ih x
  | extend place d e next ih =>
    exact .bind hl (hc place x) fun y =>
      .bind hl (goes_extendActive hl (spared_service o) (fun _ _ _ _ => trivial) y d e) fun r =>
        .bind hl hd fun _ => ih r x
  | lock place provider t task next ih_task ih =>
    refine .bind hl (hc place x) fun y => .bind hl ?_ fun c => .bind hl hd fun _ => ih c x
    refine goes_execute hl (spared_service o) provider y t (fun z => ?_) (fun h => ?_) spared_leave
    · split
      · exact ih_task (some z)
      · exact spared_attended z (ih_task (some z))
    · exact .step fun _ => trivial
  | both first second next ih₁ ih₂ ih =>
    exact .bind hl (.both hl (.bind hl (ih₁ x) fun _ => .pure hl _)
      (.bind hl (ih₂ x) fun _ => .pure hl _)) fun r => ih r x
  | limit n body next ih_body ih => exact .bind hl (.limit hl (ih_body x) n) fun r => ih r x

end Plans

/-! ### Crowds -/

namespace Crowd

/-- What is left of a plan owes these tickets, and may be given up at any time; a plan that was
given up owes nothing. -/
def Owes : Option (Routine (State (Watch ω ν)) (Ending String ν)) → List Ticket → Prop
  | some r, owed => r.Minds owed ∧ r.Goes (fun _ _ => True) Spared
  | none, owed => owed = []

/-- The chains are in order, and all tickets that were not handed in are owed by somebody. -/
structure Minded (f : Crowd ω ν) (owed : Nat → List Ticket) : Prop where
  tidy : f.state.Tidy
  owes : ∀ {k m}, f.members[k]? = some m → Owes m (owed k) ∧ owed k ⊆ f.state.rest.entered
  kept : ∀ t ∈ f.state.rest.entered, t ∈ f.state.rest.left ∨ ∃ k < f.members.length, t ∈ owed k

variable {f : Crowd ω ν} {owed : Nat → List Ticket}

/-- One of the plans does something, and the others do not. -/
theorem Minded.move (hf : f.Minded owed) {k : Nat} {before after : List Ticket}
    {s' : State (Watch ω ν)} {ms : List (Option (Routine (State (Watch ω ν)) (Ending String ν)))}
    {m : Option (Routine (State (Watch ω ν)) (Ending String ν))}
    (hb : k < f.members.length → owed k = before) (hp : Passes before f.state after s')
    (hm : ms[k]? = some m) (ho : Owes m after) (hms : ∀ j, j ≠ k → ms[j]? = f.members[j]?) :
    Minded ⟨s', ms⟩ fun j => if j = k then after else owed j := by
  have hk : k < ms.length := (List.getElem?_eq_some_iff.1 hm).1
  refine ⟨hp.tidy hf.tidy, fun {j m'} hj => ?_, fun t ht => ?_⟩
  · by_cases hjk : j = k
    · subst j
      rw [if_pos rfl]
      cases hm.symm.trans hj
      exact ⟨ho, hp.known⟩
    · rw [if_neg hjk]
      have hj' := hf.owes ((hms j hjk).symm.trans hj)
      exact ⟨hj'.1, List.Subset.trans hj'.2 hp.entered⟩
  · -- The tickets of others are still theirs.
    have hown (h : t ∈ before ∨ t ∈ s'.rest.entered ∧ t ∉ f.state.rest.entered) :
        t ∈ s'.rest.left ∨ ∃ j < ms.length, t ∈ if j = k then after else owed j :=
      (hp.kept t h).imp_right fun h => ⟨k, hk, by rwa [if_pos rfl]⟩
    by_cases ht' : t ∈ f.state.rest.entered
    · obtain hl | ⟨j, hj, hjt⟩ := hf.kept t ht'
      · exact .inl (hp.left hl)
      · by_cases hjk : j = k
        · subst j
          exact hown (.inl (hb hj ▸ hjt))
        · refine .inr ⟨j, Nat.not_le.1 fun h => ?_, by rwa [if_neg hjk]⟩
          rw [← List.getElem?_eq_none_iff, hms j hjk, List.getElem?_eq_none_iff] at h
          exact Nat.not_lt.2 h hj
    · exact hown (.inr ⟨ht, ht'⟩)

/-- **Each event** leaves a crowd in order. -/
theorem Minded.step (hf : f.Minded owed) (o : Outside ω) (shared : Bool) (e : Event ω ν) :
    ∃ owed', (f.step o shared e).Minded owed' := by
  cases e with
  | start plan =>
    have hu := minds_plan o shared plan none f.state
    have hg := spared_plan o shared plan none f.state
    simp only [Crowd.step]
    generalize plan.program o shared none f.state = u at hu hg ⊢
    cases u with
    | mk s' r =>
      obtain ⟨after, hp, hr⟩ := hu
      refine ⟨_, hf.move (k := f.members.length) (m := some r) (fun h => (Nat.lt_irrefl _ h).elim) hp
        List.getElem?_concat_length ⟨hr, hg.2⟩ fun j hj => ?_⟩
      by_cases hj' : j < f.members.length
      · exact List.getElem?_append_left hj'
      · have hlen : (f.members ++ [some r]).length ≤ j := by
          rw [List.length_append, List.length_singleton]
          omega
        exact (List.getElem?_eq_none hlen).trans (List.getElem?_eq_none (Nat.not_lt.1 hj')).symm
  | turn k =>
    simp only [Crowd.step]
    split
    · rename_i r hr
      obtain ⟨⟨hm, hg⟩, hs⟩ := hf.owes hr
      have hu := hm.turn hs
      have hg' : (r.turn f.state).rest.Goes (fun _ _ => True) Spared := by
        cases r with
        | done a => exact hg
        | paused resume abandon => exact (hg.2 f.state).rest
      generalize r.turn f.state = u at hu hg' ⊢
      cases u with
      | mk s' r' =>
        obtain ⟨after, hp, hr'⟩ := hu
        have hk := (List.getElem?_eq_some_iff.1 hr).1
        exact ⟨_, hf.move (k := k) (m := some r') (fun _ => rfl) hp (List.getElem?_set_self hk)
          ⟨hr', hg'⟩ fun j hj => List.getElem?_set_ne (Ne.symm hj)⟩
    · exact ⟨owed, hf⟩
  | drop k =>
    simp only [Crowd.step]
    split
    · rename_i r hr
      obtain ⟨⟨hm, -⟩, hs⟩ := hf.owes hr
      have hk := (List.getElem?_eq_some_iff.1 hr).1
      exact ⟨_, hf.move (k := k) (m := none) (fun _ => rfl) (hm.abandon hs)
        (List.getElem?_set_self hk) rfl fun j hj => List.getElem?_set_ne (Ne.symm hj)⟩
    · exact ⟨owed, hf⟩

theorem Minded.play (hf : f.Minded owed) (o : Outside ω) (shared : Bool) (es : List (Event ω ν)) :
    ∃ owed', (f.play o shared es).Minded owed' := by
  induction es generalizing f owed with
  | nil => exact ⟨owed, hf⟩
  | cons e es ih =>
    obtain ⟨owed', hf'⟩ := hf.step o shared e
    exact ih hf'

theorem minded_fresh (c : Clock) (w : ω) : Minded (fresh c w : Crowd ω ν) fun _ => [] where
  tidy := by
    constructor
    · exact fun n id => ⟨fun h => (List.not_mem_nil h).elim, fun h => (List.not_mem_nil h.1).elim⟩
    · exact fun n => List.nodup_nil
    · exact List.nodup_nil
    · exact fun n id h => (List.not_mem_nil h).elim
    · exact fun k h => (List.not_mem_nil h).elim
  owes := fun h => nomatch h
  kept := fun t h => (List.not_mem_nil h).elim

/-- When all plans are over, no entry is left. -/
theorem Minded.isEmpty (hf : f.Minded owed) (ho : f.allOver = true) (n : Nat) :
    (f.state.chains.chain n).isEmpty = true := by
  refine Chain.isEmpty_of_ids _ (List.eq_nil_iff_forall_not_mem.2 fun id hid => ?_)
  obtain ⟨he, hl⟩ := (hf.tidy.accounted n id).1 hid
  obtain hl' | ⟨k, hk, ht⟩ := hf.kept _ he
  · exact hl hl'
  · -- Whoever owes the ticket is over.
    have hm := List.getElem?_eq_getElem hk
    have hover := List.all_eq_true.1 ho _ (List.getElem_mem hk)
    obtain ⟨howes, -⟩ := hf.owes hm
    generalize f.members[k] = m at howes hover
    have hnil : owed k = [] := by
      match m, howes, hover with
      | none, h, _ => exact h
      | some (.done _), h, _ => exact h.1
    rw [hnil] at ht
    exact List.not_mem_nil ht

/-- Giving a plan up changes nothing outside. -/
theorem Minded.spared_drop (hf : f.Minded owed) (o : Outside ω) (shared : Bool) (k : Nat) :
    Spared f.state (f.step o shared (.drop k)).state := by
  simp only [Crowd.step]
  split
  · rename_i r hr
    obtain ⟨⟨-, hg⟩, -⟩ := hf.owes hr
    cases r with
    | done a => exact ⟨rfl, rfl, rfl⟩
    | paused resume abandon => exact hg.1 f.state
  · exact ⟨rfl, rfl, rfl⟩

/-- **Chains have the entries that they should have**, at any time and whatever is carried out: one
for each ticket that was handed out and not handed in, with numbers of their own that are not used
again, and none when all plans are over. No turn of an extension makes an entry or takes one away.
Giving up a plan, or any part of one, makes no call and leaves the world outside as it is. -/
theorem entries_accounted (o : Outside ω) (shared : Bool) (c : Clock) (w : ω)
    (es : List (Event ω ν)) :
    let f := (fresh c w).play o shared es
    f.state.Tidy ∧ (f.allOver = true → ∀ n, (f.state.chains.chain n).isEmpty = true) ∧
      (∀ (x : Context) (d e : Span),
        (x.extendActive (o.service (ν := ν)) d e).Goes Quiet fun s s' => s' = s) ∧
      (∀ k, Spared f.state (f.step o shared (.drop k)).state) ∧
      ∀ (plan : Plan ω ν) (x : Option Context),
        (plan.program o shared x).Goes (fun _ _ => True) Spared := by
  intro f
  obtain ⟨owed, hf⟩ := (minded_fresh c w).play o shared es
  exact ⟨hf.tidy, hf.isEmpty, quiet_extendActive o, hf.spared_drop o shared, spared_plan o shared⟩

/-- The service takes a turn to extend a lease, and answers all else at once. -/
def leisurely : Outside Unit where
  before
    | .store ⟨.extend, _, _⟩, _, _ => 1
    | _, _, _ => 0
  answer
    | .store ⟨.insert, _, _⟩, c, w => (.ok true, c, w)
    | .store ⟨.claim, _, _⟩, c, w => (.ok true, c, w)
    | .store ⟨.release, _, _⟩, c, w => (.ok (), c, w)
    | .store ⟨.extend, _, _⟩, c, w => (.ok .extended, c, w)
    | .send _, c, w => (.nil, c, w)
  after _ _ _ := 0

/-- The task pins its context to the board, and waits. -/
def pinning : Plan Unit Nat :=
  .lock .outermost (.stored "a") (.early "job" Terms.job_ne)
    (.pin "here" (.pause (.done (.value 7)))) fun _ => .done (.value 0)

/-- Extends the lease of that task. -/
def extending : Plan Unit Nat := .extend (.pinned "here") .halfMinute .zero fun _ => .done (.value 0)

/-- The task is over before its lease is extended, and its entry is gone for good. -/
theorem isEmpty_after_late_extension :
    let f := (fresh ⟨.epoch⟩ ()).play leisurely true
      [.start pinning, .start extending, .turn 0, .turn 1]
    f.allOver = true ∧ f.state.rest.entered = [⟨0, 0⟩] ∧ (f.state.chains.chain 0).isEmpty = true := by
  intro f
  have ho : f.allOver = true := by decide +kernel
  have he : f.state.rest.entered = [⟨0, 0⟩] := by decide +kernel
  exact ⟨ho, he, (entries_accounted leisurely true ⟨.epoch⟩ () _).2.1 ho 0⟩

end Crowd

end LeaseLock
