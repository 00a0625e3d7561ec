import LeaseLock.Proofs.Families
import LeaseLock.Proofs.Sharing
import LeaseLock.Proofs.Trails

/-!
# What is marked on trails

The marks on a trail, given those before them.

## What is proved

A lease stays on the lock that it was taken for: all that is asked to extend it is about that lock, and
a new lease is on it, too (`steers_extend`). The entries of a chain keep the leases of the locks that
they were made for, and a context has the locks that the calls around it have taken (`State.Kept`).
So at any time, whatever plans are carried out, an extension is marked to ask for nothing but its
target, and to say that the lease was extended only if it was answered so (`wellMarked_trailAfter`).
-/

namespace LeaseLock

variable {ω α : Type}

/-! ### Leases stay on their lock -/

section Dialogs

variable {β : Type} {l : Lock} {now : Instant}

/-- All that is asked is about extending a lease on the lock. Something holds of the end, which may
depend on whether a lease was extended by some answer, or had been before. -/
def Steers (l : Lock) (post : Prop → α → Prop) : Prop → Talk α → Prop
  | renewed, .done a => post renewed a
  | renewed, .ask q next => l.Extends q ∧ ∀ a, Steers l post (renewed ∨ q.renews a = true) (next a)

theorem Steers.map {post : Prop → β → Prop} {f : α → β} {d : Talk α} {renewed : Prop}
    (h : Steers l (fun renewed a => post renewed (f a)) renewed d) :
    Steers l post renewed (d.map f) := by
  induction d generalizing renewed with
  | done a => exact h
  | ask q next ih => exact ⟨h.1, fun a => ih a (h.2 a)⟩

theorem Redis.Talk.lift_map (f : α → β) (d : Redis.Talk α) :
    Redis.Talk.lift (d.map f) = (Redis.Talk.lift d).map f := by
  induction d with
  | done a => rfl
  | ask q next ih => exact congrArg (Dialog.ask _) (funext fun a => ih a)

/-- At the end of an extension the handles are on the lock, and a new one is there only if the lease
was extended. -/
def Prolongs (l : Lock) (renewed : Prop) (r : Except LockError (Renewal Handle) × Handle) : Prop :=
  r.2.At l ∧ ∀ new, r.1 = .ok (.extended new) → new.At l ∧ renewed

theorem prolongs_old {renewed : Prop} {r : Except LockError (Renewal Handle)} {h : Handle}
    (hh : h.At l) (hr : ∀ new, r ≠ .ok (.extended new)) : Prolongs l renewed (r, h) :=
  ⟨hh, fun new h => (hr new h).elim⟩

theorem steers_stored {x : Lease} (hx : (Handle.stored x).At l) (d e : Span) :
    Steers l (Prolongs l) False ((Handle.stored x).extend now d e) := by
  rw [Handle.extend, Lease.extend]
  split
  · cases ht : Terms.make now x.terms.name d e with
    | error f => exact prolongs_old hx fun _ h => by cases h
    | ok t =>
      have hname : t.name = l.name := (Terms.name_of_make ht).trans hx.2
      refine ⟨⟨rfl, hx.1, hname⟩, ?_⟩
      rintro (f | _ | _ | _)
      · exact prolongs_old hx fun _ h => by cases h
      · exact ⟨hx, fun new h => by cases h; exact ⟨⟨hx.1, hname⟩, .inr rfl⟩⟩
      · exact prolongs_old hx fun _ h => by cases h
      · exact prolongs_old hx fun _ h => by cases h
  · exact prolongs_old hx fun _ h => by cases h

/-- A script answers 1 only if a lease was extended. -/
theorem steers_runScript {key value : String} {millis : Int}
    (hrun : l.Extends (.send (.run .extend key value millis))) :
    Steers l (fun renewed r => r = .ok 1 → renewed) False
      (Redis.Talk.lift (Redis.runScript .extend key value millis)) := by
  have hresult : ∀ (reply : Redis.Reply) {renewed : Prop}, Redis.scriptResult reply = .ok 1 →
      renewed ∨ Query.renews (.send (.run .extend key value millis)) reply = true := by
    intro reply renewed h
    rw [Redis.scriptResult] at h
    split at h
    · rename_i n hn
      cases h
      exact .inr (decide_eq_true hn)
    · cases h
  rw [Redis.runScript]
  refine ⟨hrun, fun reply => ?_⟩
  by_cases hu : reply.isUnknownScript = true
  · -- The script is loaded, and run once more.
    simp only [if_pos hu]
    obtain ⟨-, environment, holder, hp, -⟩ := id hrun
    refine ⟨⟨rfl, environment, holder, hp⟩, ?_⟩
    rintro (_ | _ | _ | _)
    · exact ⟨hrun, fun again => hresult again⟩
    · exact ⟨hrun, fun again => hresult again⟩
    · exact ⟨hrun, fun again => hresult again⟩
    · exact fun h => nomatch h
  · simp only [if_neg hu]
    exact hresult reply

theorem Steers.mono {post post' : Prop → α → Prop} {d : Talk α} {renewed : Prop}
    (h : Steers l post renewed d) (hpost : ∀ renewed a, post renewed a → post' renewed a) :
    Steers l post' renewed d := by
  induction d generalizing renewed with
  | done a => exact hpost _ a h
  | ask q next ih => exact ⟨h.1, fun a => ih a (h.2 a)⟩

theorem steers_keyed {x : Redis.Lease} (hx : (Handle.keyed x).At l) (d e : Span) :
    Steers l (Prolongs l) False ((Handle.keyed x).extend now d e) := by
  obtain ⟨environment, holder, hp, hk, hn⟩ := id hx
  rw [Handle.extend, Redis.Lease.extend]
  split
  · cases ht : Terms.make now x.terms.name d e with
    | error f => exact prolongs_old hx fun _ h => by cases h
    | ok t =>
      have hname : t.name = l.name := (Terms.name_of_make ht).trans hn
      simp only [Redis.Talk.lift_map]
      refine ((steers_runScript ⟨rfl, environment, holder, hp, hk⟩).mono ?_).map.map
      rintro renewed (f | n) hr
      · exact prolongs_old hx fun _ h => by cases h
      · by_cases hone : n = 1
        · subst hone
          exact ⟨hx, fun new h => by
            cases h
            exact ⟨⟨environment, holder, hp, hk, hname⟩, hr rfl⟩⟩
        · simp only [if_neg hone]
          exact prolongs_old hx fun _ h => by cases h
  · exact prolongs_old hx fun _ h => by cases h

/-- **Extending a lease** on a lock is only about that lock. -/
theorem steers_extend {h : Handle} (hh : h.At l) (d e : Span) :
    Steers l (Prolongs l) False (h.extend now d e) := by
  cases h with
  | stored x => exact steers_stored hh d e
  | keyed x => exact steers_keyed hh d e

/-- **A lock that is taken** is the one that was asked for. -/
theorem ends_acquire_at (provider : Provider) (now : Instant) (t : Terms) :
    (provider.acquire now t).Ends fun r => ∀ h, r = .ok (some h) → h.At ⟨provider, t.name⟩ := by
  cases provider with
  | stored holder =>
    refine Dialog.Ends.map (Dialog.Ends.via (Dialog.Ends.map (Dialog.ends_of_forall ?_ _)))
    rintro (e | _ | _) h hr
    · simp only [] at hr
      split at hr <;> cases hr
    · cases hr
    · cases hr
      exact ⟨rfl, rfl⟩
  | keyed environment holder =>
    refine Dialog.Ends.map (Dialog.Ends.via ?_)
    rintro (_ | _ | _ | _) h hr <;> cases hr <;> exact ⟨environment, holder, rfl, rfl, rfl⟩

end Dialogs

/-! ### Keeping the trail -/

/-- The locks that were taken around a post are those of its context, and have their entries. -/
def Post.Sited (p : Post) (log : List (Mark ω)) : Prop :=
  List.Forall₂ (fun (e : Scope) l => e.name = l.name ∧ .entered l p.context.chain e.id ∈ log)
    p.context.scopes (Lock.taken p.calls)

/-- The extension was answered that its lease was extended. -/
def Attempt.Renewed (k : Attempt) (log : List (Mark ω)) : Prop :=
  ∃ q a before after, .answered k q a before after ∈ log ∧ q.renews a = true

/-- What may be marked, given what was marked before. -/
def Mark.Fits (o : Outside ω) (older : List (Mark ω)) : Mark ω → Prop
  | entered _ _ _ => True
  | made k => k.post.context.scopes.map Scope.name = (Lock.taken k.post.calls).map Lock.name ∧
    ∀ m ∈ older, ∀ j, m.attempt? = some j → j.number ≠ k.number
  | answered k q a before after => .made k ∈ older ∧ (∃ l, k.post.target = some l ∧ l.Extends q) ∧
    ∃ c, (o.answer q c before).1 = a ∧ (o.answer q c before).2.2 = after
  | returned k r => r = .ok .extended → k.Renewed older

/-- All was marked as it may be. -/
def WellMarked (o : Outside ω) (log : List (Mark ω)) : Prop :=
  ∀ m older, m :: older <:+ log → m.Fits o older

/-- A trail is in order. -/
structure Trail.Kept (o : Outside ω) (t : Trail ω) : Prop where
  marks : WellMarked o t.log
  numbers : ∀ m ∈ t.log, ∀ k, m.attempt? = some k → k.number < t.nextAttempt
  board : ∀ label p, t.board.get? label = some p → p.Sited t.log
  /-- An entry is for one lock only. -/
  once : ∀ l l' n id, .entered l n id ∈ t.log → .entered l' n id ∈ t.log → l = l'

/-- The entries of the chains have leases on the locks that they were made for. -/
structure Chains.Kept (log : List (Mark ω)) (cs : Chains) : Prop where
  below : ∀ l n id, .entered l n id ∈ log → id < (cs.chain n).nextId
  slots : ∀ l n id h, .entered l n id ∈ log → (cs.chain n).slot? id = some (.held h) → h.At l

/-- The trail and the chains are in order. -/
structure State.Kept (o : Outside ω) (s : State (Trail ω)) : Prop where
  trail : s.rest.Kept o
  chains : s.chains.Kept s.rest.log

/-- The trail and the chains are in order, and more is marked only. -/
def tracing (o : Outside ω) : Conduct (State (Trail ω)) where
  valid s := s.Kept o
  grows s s' := s.rest.log <:+ s'.rest.log
  refl _ := List.suffix_rfl
  trans h h' := h.trans h'

section Keeping

variable {o : Outside ω} {log older : List (Mark ω)} {p : Post} {m : Mark ω} {k : Attempt}
  {l : Lock} {s s' : State (Trail ω)} {n id : Nat}

theorem Post.Sited.mono (h : p.Sited older) (hlog : older <:+ log) : p.Sited log :=
  List.Forall₂.imp (fun _ _ he => ⟨he.1, hlog.subset he.2⟩) h

/-- The context has the locks that were taken. -/
theorem Post.Sited.names (h : p.Sited log) :
    p.context.scopes.map Scope.name = (Lock.taken p.calls).map Lock.name := by
  rw [← List.forall₂_eq_eq_eq, List.forall₂_map_left_iff, List.forall₂_map_right_iff]
  exact List.Forall₂.imp (fun _ _ he => he.1) h

/-- The context has a lock if a call around is for it. -/
theorem Post.Sited.contains_iff (h : p.Sited log) (name : String) :
    p.context.contains name = true ↔ name ∈ p.calls.map Lock.name := by
  rw [← Lock.mem_names_taken, ← h.names, Context.contains, List.any_eq_true, List.mem_map]
  exact exists_congr fun e => and_congr_right fun _ => decide_eq_true_iff

/-! More is marked. -/

theorem WellMarked.cons (h : WellMarked o log) (hm : m.Fits o log) : WellMarked o (m :: log) := by
  intro m' older hs
  obtain hs | hs := List.suffix_cons_iff.1 hs
  · cases hs
    exact hm
  · exact h m' older hs

theorem Trail.Kept.add {t t' : Trail ω} (ht : t.Kept o) (hlog : t'.log = m :: t.log)
    (hboard : t'.board = t.board) (hnext : t.nextAttempt ≤ t'.nextAttempt) (hm : m.Fits o t.log)
    (hk : ∀ k, m.attempt? = some k → k.number < t'.nextAttempt)
    (he : ∀ l n id, m = .entered l n id → ∀ l', .entered l' n id ∉ t.log) : t'.Kept o where
  marks := hlog ▸ ht.marks.cons hm
  numbers := by
    intro m' hm' j hj
    rw [hlog] at hm'
    obtain rfl | hm' := List.mem_cons.1 hm'
    · exact hk j hj
    · exact Nat.lt_of_lt_of_le (ht.numbers m' hm' j hj) hnext
  board := by
    intro label p hp
    rw [hlog]
    exact (ht.board label p (hboard ▸ hp)).mono (List.suffix_cons _ _)
  once := by
    intro l l' n id hl hl'
    rw [hlog] at hl hl'
    obtain h | hl := List.mem_cons.1 hl
    · obtain h' | hl' := List.mem_cons.1 hl'
      · cases h.trans h'.symm
        rfl
      · exact absurd hl' (he l n id h.symm l')
    · obtain h' | hl' := List.mem_cons.1 hl'
      · exact absurd hl (he l' n id h'.symm l)
      · exact ht.once l l' n id hl hl'

theorem Chains.Kept.add {cs : Chains} (hc : cs.Kept log)
    (he : ∀ l n id, m = .entered l n id → id < (cs.chain n).nextId ∧
      ∀ h, (cs.chain n).slot? id = some (.held h) → h.At l) : cs.Kept (m :: log) where
  below := by
    intro l n id hl
    obtain h | hl := List.mem_cons.1 hl
    · exact (he l n id h.symm).1
    · exact hc.below l n id hl
  slots := by
    intro l n id x hl hx
    obtain h | hl := List.mem_cons.1 hl
    · exact (he l n id h.symm).2 x hx
    · exact hc.slots l n id x hl hx

/-- Something is marked of an extension. -/
theorem State.Kept.add (hs : s.Kept o) (hchains : s'.chains = s.chains)
    (hlog : s'.rest.log = m :: s.rest.log) (hboard : s'.rest.board = s.rest.board)
    (hnext : s.rest.nextAttempt ≤ s'.rest.nextAttempt) (hm : m.Fits o s.rest.log)
    (ha : m.attempt? = some k) (hk : k.number < s'.rest.nextAttempt) : s'.Kept o := by
  have he : ∀ l n id, m ≠ .entered l n id := fun l n id h => by
    rw [h] at ha
    cases ha
  refine ⟨hs.trail.add hlog hboard hnext hm (fun j hj => ?_) fun l n id h => (he l n id h).elim, ?_⟩
  · cases ha.symm.trans hj
    exact hk
  · rw [hchains, hlog]
    exact hs.chains.add fun l n id h => (he l n id h).elim

/-! Entries change. -/

theorem Chains.Kept.touch {φ : Option Entry → Option Entry} {g : Chain → Chain}
    (hc : s.chains.Kept log) (hg : Chain.Touches id φ g)
    (hφ : ∀ l x e h, .entered l n id ∈ log → φ x = some e → e.slot = .held h → h.At l) :
    (s.onChain n g).chains.Kept log where
  below := by
    intro l j i hl
    rw [chain_onChain]
    split
    · subst j
      rw [(hg _).1]
      exact hc.below l n i hl
    · exact hc.below l j i hl
  slots := by
    intro l j i h hl hslot
    rw [chain_onChain] at hslot
    split at hslot
    · subst j
      rw [Chain.slot?, (hg _).2] at hslot
      split at hslot
      · subst i
        obtain ⟨e, he, hh⟩ := Option.map_eq_some_iff.1 hslot
        exact hφ l _ e h hl he hh
      · exact hc.slots l n i h hl hslot
    · exact hc.slots l j i h hl hslot

theorem State.Kept.fill (hs : s.Kept o) (he : .entered l n id ∈ s.rest.log) {x : Slot}
    (hx : ∀ h, x = .held h → h.At l) : (s.onChain n (·.fill id x)).Kept o := by
  refine ⟨hs.trail, hs.chains.touch (touches_fill id x) ?_⟩
  intro l' y e h hl' hy hh
  obtain ⟨e', -, rfl⟩ := Option.map_eq_some_iff.1 hy
  cases hs.trail.once l l' n id he hl'
  exact hx h hh

theorem rest_leave_trail (x : Context) (s : State (Trail ω)) : (x.leave s).rest = s.rest := by
  unfold Context.leave
  split <;> rfl

theorem State.Kept.leave (hs : s.Kept o) (x : Context) : (x.leave s).Kept o := by
  unfold Context.leave
  split
  · exact hs
  · exact ⟨hs.trail, hs.chains.touch (touches_remove _) fun l y e h _ hy => nomatch hy⟩

/-- A lock is taken that has no entry yet. -/
theorem State.Kept.enter (hs : s.Kept o) (n : Nat) (name : String) (h : Handle) :
    (s.onChain n fun _ => ((s.chains.chain n).enter name h).2).Kept o where
  trail := hs.trail
  chains :=
    { below := by
        intro l j i hl
        have hi := hs.chains.below l j i hl
        rw [chain_onChain]
        split
        · subst j
          exact Nat.lt_succ_of_lt hi
        · exact hi
      slots := by
        intro l j i x hl hslot
        rw [chain_onChain] at hslot
        split at hslot
        · subst j
          have hi : i ≠ (s.chains.chain n).nextId := Nat.ne_of_lt (hs.chains.below l n i hl)
          rw [Chain.slot?, Chain.enter, Registry.get?_put_of_ne hi] at hslot
          exact hs.chains.slots l n i x hl hslot
        · exact hs.chains.slots l j i x hl hslot }

end Keeping

/-! ### Programs keep the trail -/

section Specs

variable {o : Outside ω} {p : Post} {k : Attempt} {l : Lock} {q : Query}

theorem stable_marked (m : Mark ω) : (tracing o).Stable fun s => m ∈ s.rest.log :=
  fun h hm => h.subset hm

theorem stable_sited (p : Post) : (tracing o).Stable fun s => p.Sited s.rest.log :=
  fun h hp => hp.mono h

/-! The service. -/

/-- Nothing is lost while a question or its answer is on the way. -/
theorem safe_serving {e : Option Attempt} {P : State (Trail ω) → Prop}
    {Q : q.Answer → State (Trail ω) → Prop} (hP : (tracing o).Stable P)
    (hQ : ∀ a, (tracing o).Stable (Q a))
    (ha : (o.answering e q).Safe (tracing o) (fun s => s.Kept o ∧ P s) fun a s =>
      s.Kept o ∧ Q a s) :
    (o.serving e q).Safe (tracing o) (fun s => s.Kept o ∧ P s) fun a s => s.Kept o ∧ Q a s := by
  refine .bind (Program.safe_look _ _) fun early => ?_
  refine .bind (Program.safe_pauses hP early) fun _ => ?_
  refine .bind ha fun a => ?_
  refine .bind (Program.safe_look _ _) fun late => ?_
  exact .bind (Program.safe_pauses (hQ a) late) fun _ => Program.safe_pure fun _ hs => hs

theorem safe_serving_none {P : State (Trail ω) → Prop} (hP : (tracing o).Stable P) (q : Query) :
    (o.serving none q).Safe (tracing o) (fun s => s.Kept o ∧ P s) fun _ s => s.Kept o ∧ P s := by
  refine safe_serving hP (fun _ => hP) (Program.safe_step fun s hs => ?_)
  obtain ⟨⟨ht, hc⟩, hp⟩ := hs
  exact ⟨List.suffix_rfl, ⟨⟨ht.marks, ht.numbers, ht.board, ht.once⟩, hc⟩,
    hP (show (tracing o).grows s _ from List.suffix_rfl) hp⟩

/-- An extension is answered a question about its target. -/
theorem safe_serving_some (hl : k.post.target = some l) (hq : l.Extends q) :
    (o.serving (some k) q).Safe (tracing o) (fun s => s.Kept o ∧ .made k ∈ s.rest.log)
      fun a s => s.Kept o ∧ ∃ before after, .answered k q a before after ∈ s.rest.log := by
  refine safe_serving (stable_marked _)
    (fun a s s' hg h => h.imp fun _ h => h.imp fun _ h => hg.subset h)
    (Program.safe_step fun s hs => ⟨List.suffix_cons _ _, ?_, _, _, List.mem_cons_self⟩)
  exact hs.1.add rfl rfl rfl (Nat.le_refl _) ⟨hs.2, ⟨l, hl, hq⟩, s.clock, rfl, rfl⟩ rfl
    (hs.1.trail.numbers _ hs.2 k rfl)

/-! Extensions. -/

/-- Where an extension stands: what it has still to ask and its end depend on whether its lease was
extended, and it has been if that is said. -/
def Heading (o : Outside ω) (k : Attempt) (l : Lock) (post : Prop → α → Prop) (d : Talk α)
    (s : State (Trail ω)) : Prop :=
  (s.Kept o ∧ .made k ∈ s.rest.log) ∧
    ∃ renewed, (renewed → k.Renewed s.rest.log) ∧ Steers l post renewed d

theorem Attempt.Renewed.mono {log older : List (Mark ω)} (h : k.Renewed older)
    (hlog : older <:+ log) : k.Renewed log := by
  obtain ⟨q, a, before, after, hm, hr⟩ := h
  exact ⟨q, a, before, after, hlog.subset hm, hr⟩

theorem safe_steered (hl : k.post.target = some l) (post : Prop → α → Prop) (d : Talk α) :
    (Program.converse (o.serving (some k)) d).Safe (tracing o) (Heading o k l post d) fun a =>
      Heading o k l post (.done a) := by
  refine Program.safe_converse (fun q next s hs => ?_) d
  obtain ⟨hk, renewed, hr, hq, hnext⟩ := hs
  refine ((safe_serving_some hl hq).frame (stable_marked (.made k)) s ⟨hk, hk.2⟩).mono
    ((tracing o).refl s) fun a s' hg h => ⟨⟨h.1.1, h.2⟩, _, ?_, hnext a⟩
  rintro (h' | h')
  · exact (hr h').mono hg
  · obtain ⟨before, after, hm⟩ := h.1.2
    exact ⟨q, a, before, after, hm, h'⟩

/-- What an extension says is so. -/
def Truly (o : Outside ω) (k : Attempt) (r : Except LockError Extension) (s : State (Trail ω)) :
    Prop :=
  s.Kept o ∧ .made k ∈ s.rest.log ∧ (r = .ok .extended → k.Renewed s.rest.log)

theorem safe_fill {n id : Nat} {x : Slot} (hx : ∀ h, x = .held h → h.At l)
    {P : State (Trail ω) → Prop} (hP : (tracing o).Stable P) :
    (Program.change fun s : State (Trail ω) => s.onChain n (·.fill id x)).Safe (tracing o)
      (fun s => (s.Kept o ∧ P s) ∧ .entered l n id ∈ s.rest.log) fun _ s =>
        (s.Kept o ∧ P s) ∧ .entered l n id ∈ s.rest.log :=
  Program.safe_change fun s hs => ⟨List.suffix_rfl, ⟨hs.1.1.fill hs.2 hx,
    hP (show (tracing o).grows s _ from List.suffix_rfl) hs.1.2⟩, hs.2⟩

/-- **The handle of an entry** goes back to it on the same lock, or another one that was got for it. -/
theorem safe_conclude {n id : Nat} {renewed : Prop} (r : Except LockError (Renewal Handle))
    (old : Handle) : Prolongs l renewed (r, old) →
    (do
      let (slot, answer) : Slot × Except LockError Extension := match r with
        | .ok (.extended new) => (.held new, .ok .extended)
        | .ok .lost => (.lost, .ok .lost)
        | .ok .unsupported => (.held old, .ok .unsupported)
        | .error err => (.held old, .error err)
      Program.change fun s : State (Trail ω) => s.onChain n (·.fill id slot)
      pure answer : Traced ω (Except LockError Extension)).Safe (tracing o)
        (fun s => (s.Kept o ∧ .made k ∈ s.rest.log ∧ (renewed → k.Renewed s.rest.log)) ∧
          .entered l n id ∈ s.rest.log) (Truly o k) := by
  intro hr
  have hstable : (tracing o).Stable fun s =>
      .made k ∈ s.rest.log ∧ (renewed → k.Renewed s.rest.log) :=
    fun hg h => ⟨hg.subset h.1, fun hr => (h.2 hr).mono hg⟩
  have hold : ∀ h, Slot.held old = .held h → h.At l := fun h hh => by
    cases hh
    exact hr.1
  obtain err | (new | _ | _) := r
  · exact .bind (safe_fill hold hstable) fun _ =>
      Program.safe_pure fun _ hs => ⟨hs.1.1, hs.1.2.1, fun h => nomatch h⟩
  · obtain ⟨hnew, hrenewed⟩ := hr.2 new rfl
    refine .bind (safe_fill (fun h hh => ?_) hstable) fun _ =>
      Program.safe_pure fun _ hs => ⟨hs.1.1, hs.1.2.1, fun _ => hs.1.2.2 hrenewed⟩
    cases hh
    exact hnew
  · exact .bind (safe_fill (x := .lost) (fun _ h => nomatch h) hstable) fun _ =>
      Program.safe_pure fun _ hs => ⟨hs.1.1, hs.1.2.1, fun h => nomatch h⟩
  · exact .bind (safe_fill hold hstable) fun _ =>
      Program.safe_pure fun _ hs => ⟨hs.1.1, hs.1.2.1, fun h => nomatch h⟩

/-- What is found in the slot of a lock that was taken is on that lock. -/
theorem safe_lookup {x : Scope} {scopes : List Scope} {ls : List Lock}
    (hscopes : p.context.scopes = x :: scopes) (htaken : Lock.taken p.calls = l :: ls)
    {P : State (Trail ω) → Prop} :
    (Program.look fun s : State (Trail ω) =>
      (s.chains.chain p.context.chain).entries.get? x.id).Safe (tracing o)
        (fun s => (s.Kept o ∧ P s) ∧ p.Sited s.rest.log) fun entry s =>
          ((s.Kept o ∧ P s) ∧ .entered l p.context.chain x.id ∈ s.rest.log) ∧
            ∀ name h, entry = some ⟨name, .held h⟩ → h.At l := by
  refine Program.safe_step fun s hs => ⟨List.suffix_rfl, ?_⟩
  have hsited := hs.2
  rw [Post.Sited, hscopes, htaken] at hsited
  have hentered := (List.forall₂_cons.1 hsited).1.2
  refine ⟨⟨hs.1, hentered⟩, fun name h hentry => hs.1.1.chains.slots l _ x.id h hentered ?_⟩
  exact congrArg (Option.map Entry.slot) hentry

/-- **Extensions** only ask for their target, and say that the lease was extended only if it was. -/
theorem safe_extendActive_target (k : Attempt) (d e : Span) :
    (k.post.context.extendActive (o.serving (some k)) d e).Safe (tracing o)
      (fun s => (s.Kept o ∧ .made k ∈ s.rest.log) ∧ k.post.Sited s.rest.log) (Truly o k) := by
  have hend : ∀ {r : Except LockError Extension} {P : State (Trail ω) → Prop}, r ≠ .ok .extended →
      (∀ s, P s → s.Kept o ∧ .made k ∈ s.rest.log) →
      (Pure.pure r : Traced ω _).Safe (tracing o) P (Truly o k) :=
    fun hr hP => Program.safe_pure fun s hs => ⟨(hP s hs).1, (hP s hs).2, fun h => (hr h).elim⟩
  unfold Context.extendActive
  cases hscopes : k.post.context.scopes with
  | nil => exact hend (r := .error .noActiveLock) (fun h => nomatch h) fun s hs => hs.1
  | cons x scopes =>
    cases htaken : Lock.taken k.post.calls with
    | nil =>
      intro s hs
      have hsited := hs.2
      rw [Post.Sited, hscopes, htaken] at hsited
      cases hsited
    | cons l ls =>
      have htarget : k.post.target = some l := by rw [Post.target, htaken]; rfl
      refine .bind (safe_lookup hscopes htaken) fun entry => ?_
      obtain _ | ⟨name, h | _ | _⟩ := entry
      · exact hend (r := .error .noActiveLock) (fun h => nomatch h) fun s hs => hs.1.1
      · -- The handle is in flight, and on the target all the time.
        refine .because (fun s hs => hs.2 name h rfl) fun hat => ?_
        refine .bind (.given (safe_fill (x := .inFlight) (fun _ h => nomatch h) (stable_marked _))
          fun s hs => hs.1) fun _ => ?_
        refine .bind (Program.safe_look _ _) fun now => ?_
        have htalk := (safe_steered (o := o) htarget (Prolongs l) (h.extend now d e)).frame
          (stable_marked (.entered l k.post.context.chain x.id))
        refine .bind (htalk.given fun s hs =>
          ⟨⟨hs.1, False, False.elim, steers_extend hat d e⟩, hs.2⟩) fun r => ?_
        intro s hs
        obtain ⟨result, old⟩ := r
        obtain ⟨⟨hmade, renewed, hrenewed, hr⟩, hentered⟩ := hs
        exact safe_conclude result old hr s ⟨⟨hmade.1, hmade.2, hrenewed⟩, hentered⟩
      · exact hend (r := .ok .lost) (fun h => nomatch h) fun s hs => hs.1.1
      · exact hend (r := .error (.extensionInFlight name)) (fun h => nomatch h) fun s hs => hs.1.1

/-! Executions. -/

/-- The context is one in which a lock was just taken around a post, and has its entry unmarked. -/
structure Entering (o : Outside ω) (p : Post) (l : Lock) (x : Context) (s : State (Trail ω)) :
    Prop where
  kept : s.Kept o
  sited : p.Sited s.rest.log
  inside : ∃ id, x = p.context.inside id l.name ∧ id < (s.chains.chain x.chain).nextId ∧
    (∀ l', .entered l' x.chain id ∉ s.rest.log) ∧
    ∀ h, (s.chains.chain x.chain).slot? id = some (.held h) → h.At l

theorem safe_enter {h : Handle} (hh : h.At l) :
    (p.context.enter l.name h).Safe (tracing o) (fun s => s.Kept o ∧ p.Sited s.rest.log)
      (Entering o p l) := by
  refine Program.safe_step fun s hs => ⟨List.suffix_rfl, hs.1.enter _ l.name h, hs.2, ?_⟩
  refine ⟨(s.chains.chain p.context.chain).nextId, rfl, ?_, fun l' hl' => ?_, fun h' hslot => ?_⟩
  · show _ < ((s.onChain p.context.chain fun _ => _).chains.chain p.context.chain).nextId
    rw [chain_onChain, if_pos rfl]
    exact Nat.lt_succ_self _
  · exact absurd (hs.1.chains.below l' _ _ hl') (Nat.lt_irrefl _)
  · change ((s.onChain p.context.chain fun _ => _).chains.chain p.context.chain).slot? _ = _ at hslot
    rw [chain_onChain, if_pos rfl, Chain.slot?, Chain.enter, Registry.get?_put_self] at hslot
    cases hslot
    exact hh

/-- A task that starts with its lock has a post where that lock was taken. -/
theorem safe_begin_beyond (hl : l.name ∉ p.calls.map Lock.name) (x : Context) :
    (p.begin l x).Safe (tracing o) (Entering o p l x) fun z s => s.Kept o ∧ z.Sited s.rest.log := by
  intro s hs
  obtain ⟨hkept, hsited, id, rfl, hid, hnew, hslot⟩ := hs
  have hc : ¬p.context.contains l.name = true := fun h => hl ((hsited.contains_iff _).1 h)
  have hmark : ((p.begin l (p.context.inside id l.name)) s) =
      ⟨s.marked (.entered l p.context.chain id), .done ⟨p.context.inside id l.name, l :: p.calls⟩⟩ := by
    rw [Post.begin, Program.step]
    simp only [Context.inside, if_neg hc]
  rw [hmark]
  refine ⟨List.suffix_cons _ _, ⟨?_, ?_⟩, ?_⟩
  · refine hkept.trail.add rfl rfl (Nat.le_refl _) trivial (fun _ h => by cases h) ?_
    intro l' n i h
    cases h
    exact hnew
  · refine hkept.chains.add fun l' n i h => ?_
    cases h
    exact ⟨hid, hslot⟩
  · show List.Forall₂ _ (⟨id, l.name⟩ :: p.context.scopes) (Lock.taken (l :: p.calls))
    rw [Lock.taken_of_not_mem hl]
    exact .cons ⟨rfl, List.mem_cons_self⟩ (hsited.mono (List.suffix_cons _ _))

/-- A task that starts where its lock is around has a post where the same locks were taken. -/
theorem safe_begin_within (hc : p.context.contains l.name = true)
    (hl : l.name ∈ p.calls.map Lock.name) : (p.begin l p.context).Safe (tracing o)
      (fun s => s.Kept o ∧ p.Sited s.rest.log) fun z s => s.Kept o ∧ z.Sited s.rest.log := by
  intro s hs
  have hmark : (p.begin l p.context) s = ⟨s, .done ⟨p.context, l :: p.calls⟩⟩ := by
    rw [Post.begin, Program.step]
    split
    · rw [if_pos hc]
    · rfl
  rw [hmark]
  refine ⟨List.suffix_rfl, hs.1, ?_⟩
  show List.Forall₂ _ p.context.scopes (Lock.taken (l :: p.calls))
  rw [Lock.taken_of_mem hl]
  exact hs.2

/-- A dialog whose questions keep something up ends as it must. -/
theorem safe_converse_ends {σ β : Type} {C : Conduct σ} {Q : Type} {A : Q → Type}
    {answer : (q : Q) → Program σ (A q)} {P : σ → Prop} {R : β → Prop}
    (h : ∀ q, (answer q).Safe C P fun _ => P) {d : Dialog Q A β} (hd : d.Ends R) :
    (Program.converse answer d).Safe C P fun a s => P s ∧ R a := by
  induction d with
  | done a => exact Program.safe_pure fun _ hs => ⟨hs, hd⟩
  | ask q next ih => exact .bind (h q) fun a => ih a (hd a)

theorem allows_leave (x : Context) : (tracing o).Allows x.leave := fun s hs =>
  ⟨hs.leave x, [], congrArg Trail.log (rest_leave_trail x s).symm⟩

theorem safe_release_none (x : Context) : (x.release (o.serving none)).Safe (tracing o)
    (fun s => s.Kept o) fun _ s => s.Kept o := by
  have hleave : (Program.change x.leave).Safe (tracing o) (fun s => s.Kept o) fun _ s => s.Kept o :=
    Program.safe_change fun s hs => (allows_leave x s hs).symm
  have hserve : ∀ q, (o.serving none q).Safe (tracing o) (fun s => s.Kept o) fun _ s => s.Kept o :=
    fun q => (safe_serving_none (P := fun _ => True) (fun _ h => h) q).mono
      (fun _ hs => ⟨hs, trivial⟩) fun _ _ _ _ _ h => h.1
  unfold Context.release
  split
  · exact Program.safe_pure fun _ hs => hs
  · refine .bind (Program.safe_look _ _) fun slot => ?_
    refine .bind hleave fun _ => ?_
    split
    · refine .bind (Program.safe_look _ _) fun now => ?_
      exact .bind (Program.safe_converse_keeping hserve _) fun r => Program.safe_pure fun _ hs => hs
    · exact Program.safe_pure fun _ hs => hs

variable {body : Post → Traced ω (Ending String α)}
  (hbody : ∀ z, (body z).Safe (tracing o) (fun s => s.Kept o ∧ z.Sited s.rest.log)
    fun _ s => s.Kept o)
include hbody

/-- **Executions** have their tasks run where the locks are that were taken. -/
theorem safe_execute_sited (p : Post) (provider : Provider) (t : Terms) :
    (execute (o.serving none) provider p.context t fun x => do
      let z ← p.begin ⟨provider, t.name⟩ x
      body z).Safe (tracing o) (fun s => s.Kept o ∧ p.Sited s.rest.log) fun _ s => s.Kept o := by
  refine .because (fun s hs => hs.2.contains_iff t.name) fun hc => ?_
  unfold execute
  by_cases hl : t.name ∈ p.calls.map Lock.name
  · rw [if_pos (hc.2 hl)]
    have htask := Program.Safe.bind
      (safe_begin_within (o := o) (l := ⟨provider, t.name⟩) (hc.2 hl) hl) hbody
    exact .bind htask fun ending => Program.safe_pure fun _ hs => hs
  · rw [if_neg fun h => hl (hc.1 h)]
    refine .bind (Program.safe_look _ _) fun now => ?_
    refine .bind (safe_converse_ends (safe_serving_none (stable_sited p))
      (ends_acquire_at provider now t)) fun r => ?_
    rcases r with e | _ | h
    · exact Program.safe_pure fun _ hs => hs.1.1
    · exact Program.safe_pure fun _ hs => hs.1.1
    · refine .because (fun _ hs => hs.2 h rfl) fun hat => ?_
      refine .bind ((safe_enter (l := ⟨provider, t.name⟩) hat).given fun _ hs => hs.1) fun x => ?_
      have htask := Program.Safe.bind (safe_begin_beyond (o := o) (l := ⟨provider, t.name⟩) hl x)
        hbody
      refine .bind (htask.guarded (allows_leave x)) fun ending => ?_
      exact .bind (safe_release_none x) fun released => Program.safe_pure fun _ hs => hs

end Specs

/-! ### Plans keep the trail -/

section Plans

variable {o : Outside ω} {shared : Bool} {p : Option Post}

/-- The post, if there is one, is where the locks are that were taken. -/
def Posted (p : Option Post) (s : State (Trail ω)) : Prop := ∀ y, p = some y → y.Sited s.rest.log

theorem stable_posted (p : Option Post) : (tracing o).Stable (Posted p) :=
  fun h hp y hy => (hp y hy).mono h

theorem safe_openPost : (openPost shared).Safe (tracing o) (fun s => s.Kept o) fun y s =>
    s.Kept o ∧ y.Sited s.rest.log := by
  unfold openPost
  split
  · exact Program.safe_pure fun _ hs => ⟨hs, .nil⟩
  · exact Program.safe_step fun _ hs => ⟨List.suffix_rfl,
      ⟨⟨hs.trail.marks, hs.trail.numbers, hs.trail.board, hs.trail.once⟩, hs.chains⟩, .nil⟩

theorem safe_post (place : Plan.Place) : (place.post shared p).Safe (tracing o)
    (fun s => s.Kept o ∧ Posted p s) fun y s => (s.Kept o ∧ y.Sited s.rest.log) ∧ Posted p s := by
  have hopen : (openPost shared).Safe (tracing o) (fun s => s.Kept o ∧ Posted p s) fun y s =>
      (s.Kept o ∧ y.Sited s.rest.log) ∧ Posted p s := safe_openPost.frame (stable_posted p)
  cases place with
  | outermost => exact hopen
  | current =>
    cases p with
    | none => exact hopen
    | some y => exact Program.safe_pure fun _ hs => ⟨⟨hs.1, hs.2 y rfl⟩, hs.2⟩
  | pinned label =>
    have hlook : (Program.look fun s : State (Trail ω) => s.rest.board.get? label).Safe (tracing o)
        (fun s => s.Kept o ∧ Posted p s) fun y s => (s.Kept o ∧ Posted p s) ∧ Posted y s :=
      Program.safe_step fun s hs =>
        ⟨List.suffix_rfl, hs, fun y hy => hs.1.trail.board label y hy⟩
    refine .bind hlook fun y => ?_
    cases y with
    | none => exact hopen.given fun _ hs => hs.1
    | some y => exact Program.safe_pure fun _ hs => ⟨⟨hs.1.1, hs.2 y rfl⟩, hs.1.2⟩

theorem safe_pinPost (label : String) (p : Option Post) :
    (Program.change (State.pinPost (ω := ω) label p)).Safe (tracing o)
      (fun s => s.Kept o ∧ Posted p s) fun _ s => s.Kept o ∧ Posted p s := by
  refine Program.safe_change fun s hs => ?_
  cases p with
  | none => exact ⟨List.suffix_rfl, hs⟩
  | some y =>
    obtain ⟨⟨ht, hc⟩, hp⟩ := hs
    refine ⟨List.suffix_rfl, ⟨⟨ht.marks, ht.numbers, fun l x hx => ?_, ht.once⟩, hc⟩, hp⟩
    simp only [State.pinPost, Registry.get?_put] at hx
    split at hx
    · cases hx
      exact hp y rfl
    · exact ht.board l x hx

/-- An extension is made. -/
theorem safe_attempt (y : Post) : (y.attempt).Safe (tracing o)
    (fun s => s.Kept o ∧ y.Sited s.rest.log) fun k s =>
      (s.Kept o ∧ .made k ∈ s.rest.log) ∧ k.post.Sited s.rest.log := by
  refine Program.safe_step fun s hs => ⟨List.suffix_cons _ _, ⟨?_, List.mem_cons_self⟩,
    hs.2.mono (List.suffix_cons _ _)⟩
  exact hs.1.add rfl rfl rfl (Nat.le_succ _)
    ⟨hs.2.names, fun m hm j hj => Nat.ne_of_lt (hs.1.trail.numbers m hm j hj)⟩ rfl
    (Nat.lt_succ_self _)

/-- An extension ends. -/
theorem safe_returned (k : Attempt) (r : Except LockError Extension) :
    (Program.change (State.marked (.returned k r))).Safe (tracing o) (Truly o k r) fun _ s =>
      s.Kept o :=
  Program.safe_change fun _ hs => ⟨List.suffix_cons _ _,
    hs.1.add rfl rfl rfl (Nat.le_refl _) hs.2.2 rfl (hs.1.trail.numbers _ hs.2.1 k rfl)⟩

/-- **Plans** keep the trail. -/
theorem safe_traced {ν : Type} (plan : Plan ω ν) (p : Option Post) :
    (plan.traced o shared p).Safe (tracing o) (fun s => s.Kept o ∧ Posted p s) fun _ s =>
      s.Kept o := by
  induction plan generalizing p with
  | done ending => exact Program.safe_pure fun _ hs => hs.1
  | act f next ih =>
    refine .bind (Program.safe_step_keeping fun s hs => ⟨List.suffix_rfl, ?_⟩) fun _ => ih p
    obtain ⟨⟨ht, hc⟩, hp⟩ := hs
    exact ⟨⟨⟨ht.marks, ht.numbers, ht.board, ht.once⟩, hc⟩, hp⟩
  | pause next ih => exact .bind (Program.safe_pause (stable_posted p)) fun _ => ih p
  | look place next ih =>
    refine .bind (safe_post place) fun y => ?_
    refine .bind (Program.safe_look _ _) fun seen => ?_
    exact (ih seen p).given fun s hs => ⟨hs.1.1, hs.2⟩
  | pin label next ih => exact .bind (safe_pinPost label p) fun _ => ih p
  | extend place d e next ih =>
    refine .bind (safe_post place) fun y => ?_
    refine .bind ((safe_attempt y).frame (stable_posted p)) fun k => ?_
    refine .bind ((safe_extendActive_target k d e).frame (stable_posted p)) fun r => ?_
    exact .bind ((safe_returned k r).frame (stable_posted p)) fun _ => ih r p
  | lock place provider t task next ihTask ih =>
    have htask : ∀ z : Post, (task.traced o shared (some z)).Safe (tracing o)
        (fun s => s.Kept o ∧ z.Sited s.rest.log) fun _ s => s.Kept o := fun z =>
      (ihTask (some z)).given fun s hs => ⟨hs.1, fun y hy => by cases hy; exact hs.2⟩
    refine .bind (safe_post place) fun y => ?_
    refine .bind ((safe_execute_sited htask y provider t).frame (stable_posted p)) fun c => ?_
    exact ih c p
  | both first second next ihFirst ihSecond ih =>
    have hside : ∀ ending : Ending String ν, (Pure.pure ending.beside : Traced ω _).Sound
        (tracing o) fun s => s.Kept o := fun ending => Program.safe_pure fun _ hs => hs
    have hboth := Program.Sound.both (stable_posted p) (.bind (ihFirst p) hside)
      (.bind (ihSecond p) hside)
    refine .bind ((hboth.frame (stable_posted p)).given fun s hs => ⟨hs, hs.2⟩) fun r => ?_
    exact ih r p
  | limit n body next ihBody ih =>
    have hlimit := Program.Sound.limit (ihBody p) (fun _ hs => hs.1) n
    refine .bind ((hlimit.frame (stable_posted p)).given fun s hs => ⟨hs, hs.2⟩) fun r => ?_
    exact ih r p

/-- At any time, what was marked is what may be marked. -/
theorem wellMarked_trailAfter {ν : Type} (o : Outside ω) (shared : Bool) (c : Clock) (w : ω)
    (es : List (Crowd.Event ω ν)) : WellMarked o (trailAfter o shared c w es) := by
  have hfresh : (tracing o).valid (⟨c, [], { world := w }⟩ : State (Trail ω)) :=
    { trail :=
        { marks := fun m older h => absurd (List.IsSuffix.length_le h) (Nat.not_succ_le_zero _)
          numbers := fun m hm => (List.not_mem_nil hm).elim
          board := fun _ _ h => nomatch h
          once := fun l l' n id hl => (List.not_mem_nil hl).elim }
      chains :=
        { below := fun l n id hl => (List.not_mem_nil hl).elim
          slots := fun l n id h hl => (List.not_mem_nil hl).elim } }
  refine (Ensemble.valid_play hfresh fun p hp => ?_).trail.marks
  obtain ⟨e, -, he⟩ := List.mem_map.1 hp
  cases e with
  | start plan =>
    cases he
    exact (safe_traced plan none).given fun s hs => ⟨hs, fun y hy => nomatch hy⟩
  | turn k => cases he
  | drop k => cases he

end Plans

end LeaseLock
