import LeaseLock.Proofs.Chronicles
import LeaseLock.Proofs.Entries
import LeaseLock.Proofs.Nesting
import LeaseLock.Proofs.Targets
import Mathlib.Data.List.Infix

/-!
# Reentry

What is there behind a call that starts its task without asking for its lock.

## The model

The programs are plans that are written down, as in `Proofs.Chronicles`: contexts are used by their
tasks and by others, also when these tasks are over, and leases are extended and lost.

## What is proved

`reentries_warranted`: at any time, a call has started its task without a question only in a context
that has its lock. The chain has then the entry of that lock for as long as the task goes on that has
got it, and its lease is lost only if an extension has come to that.

Only the context is asked, and not its chain. So such a call may start its task when the lease was
lost, and when the task with the entry is over (`reentry_without_lease`).
-/

namespace LeaseLock

variable {ω α : Type}

/-! ### What may be written down -/

/-- The task of a call may start here without a question, after what has happened. -/
structure Request.Reenters (v : Request) (x : Context) (now : Chain) (older : List Occurrence) :
    Prop where
  made : .called v ∈ older
  /-- It starts in the context of the call. -/
  context : x = v.context
  /-- The context has the lock. -/
  around : x.contains v.terms.name = true
  /-- The lock was taken by a task, and the chain has its entry unless that task is over. -/
  entries : ∀ e ∈ x.scopes, e.name = v.terms.name →
    .entered ⟨x.chain, e.id⟩ e.name ∈ older ∧ Ticket.Accords ⟨x.chain, e.id⟩ e.name older now

/-- What may be written down, given what has happened before. -/
def Occurrence.Fits (older : List Occurrence) : Occurrence → Prop
  | called v => ∀ u, .called u ∈ older → u.number ≠ v.number
  | began v x now => v.hasAsked older = false → v.Reenters x now older
  | asked _ _ | entered _ _ | left _ | extended _ _ => True

/-- All was written down as it may be. -/
def Warranted (log : List Occurrence) : Prop := ∀ m older, m :: older <:+ log → m.Fits older

theorem Warranted.cons {log : List Occurrence} {m : Occurrence} (h : Warranted log)
    (hm : m.Fits log) : Warranted (m :: log) := by
  intro m' older hs
  obtain hs | hs := List.suffix_cons_iff.1 hs
  · cases hs
    exact hm
  · exact h m' older hs

/-! ### Entries accord with what has happened -/

section Entries

variable {k : Ticket} {name : String} {log : List Occurrence} {m : Occurrence} {c : Chain}

namespace Ticket

theorem gone_left (k : Ticket) (log : List Occurrence) : k.gone (.left k :: log) = true := by
  rw [gone, decide_eq_true rfl, Bool.true_or]

theorem gone_left_of_ne {j : Ticket} (h : j ≠ k) : k.gone (.left j :: log) = k.gone log := by
  rw [gone, decide_eq_false h, Bool.false_or]

theorem gone_entered (k : Ticket) (name : String) (log : List Occurrence) :
    k.gone (.entered k name :: log) = false := by
  rw [gone, decide_eq_false fun h => h rfl, Bool.false_and]

theorem gone_entered_of_ne {j : Ticket} (h : j ≠ k) :
    k.gone (.entered j name :: log) = k.gone log := by
  rw [gone, decide_eq_true h, Bool.true_and]

/-- It has to do with the entry whether it is there. -/
def Minds (k : Ticket) : Occurrence → Prop
  | .entered j _ | .left j => j = k
  | _ => False

theorem gone_cons (hm : ¬k.Minds m) : k.gone (m :: log) = k.gone log := by
  cases m with
  | entered j name => exact gone_entered_of_ne hm
  | left j => exact gone_left_of_ne hm
  | called | asked | began | extended => rfl

theorem WasLost.cons (h : k.WasLost log) : k.WasLost (m :: log) :=
  h.imp fun _ hx => ⟨hx.1, List.mem_cons_of_mem _ hx.2⟩

theorem Accords.cons (h : k.Accords name log c) (hm : ¬k.Minds m) :
    k.Accords name (m :: log) c := by
  unfold Accords at h ⊢
  rw [gone_cons hm]
  split at h
  · exact h
  · exact ⟨h.1, h.2.1, fun hs => (h.2.2 hs).cons⟩

/-- What an entry minds, no other one does. -/
theorem Minds.eq {j : Ticket} (hj : j.Minds m) (hk : k.Minds m) : j = k := by
  cases m with
  | entered | left => exact hj.symm.trans hk
  | called | asked | began | extended => exact hk.elim

/-- Another chain has the same entry. -/
theorem Accords.of_get? {d : Chain} (h : k.Accords name log c)
    (hd : d.entries.get? k.id = c.entries.get? k.id) : k.Accords name log d := by
  unfold Accords at h ⊢
  rwa [hd]

end Ticket
end Entries

/-- The locks of a context were taken by tasks. -/
def Context.Entered (x : Context) (log : List Occurrence) : Prop :=
  ∀ e ∈ x.scopes, .entered ⟨x.chain, e.id⟩ e.name ∈ log

theorem Context.Entered.mono {x : Context} {log older : List Occurrence} (h : x.Entered older)
    (hlog : older <:+ log) : x.Entered log := fun e he => hlog.subset (h e he)

/-- The chains have the entries that they should have after what has happened. -/
def Chains.Accord (log : List Occurrence) (cs : Chains) : Prop :=
  ∀ k name, .entered k name ∈ log →
    k.id < (cs.chain k.chain).nextId ∧ k.Accords name log (cs.chain k.chain)

section Chains

variable {s : State (Chronicle ω)} {log log' : List Occurrence} {m : Occurrence} {k : Ticket}

theorem Chains.Accord.cons {cs : Chains} (h : cs.Accord log) (hm : ∀ k, ¬Ticket.Minds k m) :
    cs.Accord (m :: log) := by
  intro k name hn
  have hk := h k name ((List.mem_cons.1 hn).resolve_left fun h => hm k (h ▸ rfl))
  exact ⟨hk.1, hk.2.cons (hm k)⟩

/-- One entry is changed, and something may be written down that it minds. -/
theorem Chains.Accord.change {g : Chain → Chain} (h : s.chains.Accord log)
    (hlog : log' = log ∨ ∃ m, k.Minds m ∧ log' = m :: log)
    (hnext : (s.chains.chain k.chain).nextId ≤ (g (s.chains.chain k.chain)).nextId)
    (hother : ∀ id ≠ k.id, (g (s.chains.chain k.chain)).entries.get? id =
      (s.chains.chain k.chain).entries.get? id)
    (hk : ∀ name, .entered k name ∈ log' → k.id < (g (s.chains.chain k.chain)).nextId ∧
      k.Accords name log' (g (s.chains.chain k.chain))) :
    (s.onChain k.chain g).chains.Accord log' := by
  intro j name hn
  rw [chain_onChain]
  by_cases hjk : j = k
  · subst hjk
    rw [if_pos rfl]
    exact hk name hn
  · -- What was written down for another entry is as it was.
    have hj : j.id < (s.chains.chain j.chain).nextId ∧
        j.Accords name log' (s.chains.chain j.chain) := by
      obtain rfl | ⟨m, hm, rfl⟩ := hlog
      · exact h j name hn
      · have hnot : ¬j.Minds m := fun hj => hjk (hj.eq hm)
        have hj := h j name ((List.mem_cons.1 hn).resolve_left fun h => hnot (h ▸ rfl))
        exact ⟨hj.1, hj.2.cons hnot⟩
    split
    · rename_i hchain
      have hid : j.id ≠ k.id := fun hid => hjk (by cases j; cases k; cases hchain; cases hid; rfl)
      rw [hchain] at hj
      exact ⟨Nat.lt_of_lt_of_le hj.1 hnext, hj.2.of_get? (hother j.id hid)⟩
    · exact hj

end Chains

/-! ### Keeping a chronicle -/

/-- What was written down is in order, and goes with the chains. -/
structure State.Chronicled (s : State (Chronicle ω)) : Prop where
  marks : Warranted s.rest.log
  numbers : ∀ v, .called v ∈ s.rest.log → v.number < s.rest.nextRequest
  board : ∀ label x, s.rest.board.get? label = some x → x.Entered s.rest.log
  chains : s.chains.Accord s.rest.log

/-- All is in order, and more is written down only. -/
def chronicling : Conduct (State (Chronicle ω)) where
  valid s := s.Chronicled
  grows s s' := s.rest.log <:+ s'.rest.log
  refl _ := List.suffix_rfl
  trans h h' := h.trans h'

section Keeping

variable {s s' : State (Chronicle ω)} {m : Occurrence} {v : Request} {x : Context} {k : Ticket}
  {slot : Slot}

/-- One thing more is written down, with changes of the chains that go with it. -/
theorem State.Chronicled.add (hs : s.Chronicled) (hlog : s'.rest.log = m :: s.rest.log)
    (hboard : s'.rest.board = s.rest.board) (hnext : s'.rest.nextRequest = s.rest.nextRequest)
    (hm : m.Fits s.rest.log) (hcalled : ∀ v, m ≠ .called v)
    (hchains : s'.chains.Accord s'.rest.log) : s'.Chronicled where
  marks := hlog ▸ hs.marks.cons hm
  numbers v hv := by
    rw [hlog] at hv
    rw [hnext]
    exact hs.numbers v ((List.mem_cons.1 hv).resolve_left fun h => hcalled v h.symm)
  board label x hx := by
    rw [hlog]
    exact (hs.board label x (hboard ▸ hx)).mono (List.suffix_cons _ _)
  chains := hchains

/-- Something is written down that no entry minds. -/
theorem State.Chronicled.told (hs : s.Chronicled) (hm : m.Fits s.rest.log)
    (hcalled : ∀ v, m ≠ .called v) (hk : ∀ k, ¬Ticket.Minds k m) : (s.told m).Chronicled :=
  hs.add rfl rfl rfl hm hcalled (hs.chains.cons hk)

theorem State.Chronicled.extended (hs : s.Chronicled) (x : Context)
    (r : Except LockError Extension) : (s.told (.extended x r)).Chronicled :=
  hs.told trivial (fun _ h => nomatch h) fun _ h => h

/-- The slot of an entry is filled. -/
theorem State.Chronicled.fill (hs : s.Chronicled)
    (hslot : slot = .lost → k.WasLost s.rest.log) :
    (s.onChain k.chain (·.fill k.id slot)).Chronicled where
  marks := hs.marks
  numbers := hs.numbers
  board := hs.board
  chains := by
    have htouch := touches_fill k.id slot (s.chains.chain k.chain)
    refine hs.chains.change (.inl rfl) (Nat.le_of_eq htouch.1.symm)
      (fun id hid => (htouch.2 id).trans (if_neg hid)) fun name hn => ?_
    obtain ⟨hid, hk⟩ := hs.chains k name hn
    refine ⟨htouch.1 ▸ hid, ?_⟩
    unfold Ticket.Accords at hk ⊢
    rw [htouch.2, if_pos rfl]
    cases he : (s.chains.chain k.chain).entries.get? k.id with
    | none => rwa [he] at hk
    | some e =>
      rw [he] at hk
      exact ⟨hk.1, hk.2.1, hslot⟩

/-- The state when a task is over, and its entry was taken out. -/
def State.withdrawn (k : Ticket) (s : State (Chronicle ω)) : State (Chronicle ω) :=
  (s.told (.left k)).onChain k.chain (·.remove k.id)

theorem State.Chronicled.withdrawn (hs : s.Chronicled) (k : Ticket) :
    (s.withdrawn k).Chronicled := by
  refine hs.add rfl rfl rfl (m := .left k) trivial (fun _ h => nomatch h) ?_
  have htouch := touches_remove k.id (s.chains.chain k.chain)
  refine hs.chains.change (g := (·.remove k.id)) (.inr ⟨.left k, rfl, rfl⟩)
    (Nat.le_of_eq htouch.1.symm) (fun id hid => (htouch.2 id).trans (if_neg hid)) fun name hn => ?_
  have hn := (List.mem_cons.1 hn).resolve_left fun h => nomatch h
  refine ⟨htouch.1 ▸ (hs.chains k name hn).1, ?_⟩
  unfold Ticket.Accords
  rw [htouch.2, if_pos rfl]
  exact k.gone_left _

/-- The number for the next entry of a chain. -/
def State.nextTicket (n : Nat) (s : State (Chronicle ω)) : Ticket := ⟨n, (s.chains.chain n).nextId⟩

/-- The state when a lock was taken and its task starts. -/
def State.admitted (n : Nat) (name : String) (h : Handle) (s : State (Chronicle ω)) :
    State (Chronicle ω) :=
  (s.onChain n fun _ => ((s.chains.chain n).enter name h).2).told (.entered (s.nextTicket n) name)

theorem State.Chronicled.admitted (hs : s.Chronicled) (n : Nat) (name : String) (h : Handle) :
    (s.admitted n name h).Chronicled := by
  refine hs.add rfl rfl rfl (m := .entered (s.nextTicket n) name) trivial (fun _ h => nomatch h) ?_
  refine hs.chains.change (k := s.nextTicket n) (g := fun _ => ((s.chains.chain n).enter name h).2)
    (.inr ⟨.entered _ name, rfl, rfl⟩) (Nat.le_succ _)
    (fun id hid => Registry.get?_put_of_ne hid _ _) fun name' hn => ⟨Nat.lt_succ_self _, ?_⟩
  -- The number was not used before.
  obtain hn | hn := List.mem_cons.1 hn
  · cases hn
    unfold Ticket.Accords
    rw [show ((s.chains.chain n).enter name h).2.entries.get? (s.nextTicket n).id = _ from
      Registry.get?_put_self _ _ _]
    exact ⟨Ticket.gone_entered _ _ _, rfl, fun h => nomatch h⟩
  · exact absurd (hs.chains _ name' hn).1 (Nat.lt_irrefl _)

end Keeping

/-! ### Programs keep the chronicle -/

section Specs

variable {o : Outside ω} {v : Request} {x : Context} {P : State (Chronicle ω) → Prop}

theorem stable_entered (x : Context) : (chronicling (ω := ω)).Stable fun s => x.Entered s.rest.log :=
  fun h hx => hx.mono h

theorem stable_hasAsked (v : Request) :
    (chronicling (ω := ω)).Stable fun s => v.hasAsked s.rest.log = true := fun h hv => by
  obtain ⟨m, hm, ha⟩ := List.any_eq_true.1 hv
  exact List.any_eq_true.2 ⟨m, h.subset hm, ha⟩

/-! The service. -/

theorem safe_silently (hP : chronicling.Stable P) (q : Query) :
    (o.silently q).Safe chronicling (fun s => s.Chronicled ∧ P s) fun _ s => s.Chronicled ∧ P s := by
  refine .bind (Program.safe_look _ _) fun early => ?_
  refine .bind (Program.safe_pauses hP early) fun _ => ?_
  refine .bind (Program.safe_step_keeping fun s hs => ⟨List.suffix_rfl,
    ⟨hs.1.marks, hs.1.numbers, hs.1.board, hs.1.chains⟩,
    hP (show chronicling.grows s _ from List.suffix_rfl) hs.2⟩) fun a => ?_
  refine .bind (Program.safe_look _ _) fun late => ?_
  exact .bind (Program.safe_pauses hP late) fun _ => Program.safe_pure fun _ hs => hs

theorem safe_silently_alone (q : Query) :
    (o.silently q).Safe chronicling (fun s => s.Chronicled) fun _ s => s.Chronicled :=
  (safe_silently (P := fun _ => True) (fun _ h => h) q).mono (fun _ hs => ⟨hs, trivial⟩)
    fun _ _ _ _ _ h => h.1

/-- A question of a call is written down. -/
theorem safe_heard (hP : chronicling.Stable P) (q : Query) : (o.heard v q).Safe chronicling
    (fun s => s.Chronicled ∧ P s) fun _ s => s.Chronicled ∧ P s ∧ v.hasAsked s.rest.log = true := by
  have hstable : chronicling.Stable fun s => P s ∧ v.hasAsked s.rest.log = true :=
    fun hg h => ⟨hP hg h.1, stable_hasAsked v hg h.2⟩
  refine .bind (Program.safe_change fun s hs => ⟨List.suffix_cons _ _,
    hs.1.told trivial (fun _ h => nomatch h) fun _ h => h,
    hP (show chronicling.grows s _ from List.suffix_cons _ _) hs.2, ?_⟩) fun _ =>
      safe_silently hstable q
  exact List.any_eq_true.2 ⟨_, List.mem_cons_self, decide_eq_true rfl⟩

theorem safe_heard_keeping (hP : chronicling.Stable P) (q : Query) : (o.heard v q).Safe chronicling
    (fun s => s.Chronicled ∧ P s) fun _ s => s.Chronicled ∧ P s :=
  (safe_heard hP q).mono (fun _ hs => hs) fun _ _ _ _ _ h => ⟨h.1, h.2.1⟩

theorem safe_heard_alone (q : Query) :
    (o.heard v q).Safe chronicling (fun s => s.Chronicled) fun _ s => s.Chronicled :=
  (safe_heard (P := fun _ => True) (fun _ h => h) q).mono (fun _ hs => ⟨hs, trivial⟩)
    fun _ _ _ _ _ h => h.1

/-- **A lock is taken** with a question. -/
theorem safe_acquire_heard (hP : chronicling.Stable P) (now : Instant) :
    (Program.converse (o.heard v) (v.provider.acquire now v.terms)).Safe chronicling
      (fun s => s.Chronicled ∧ P s) fun _ s =>
        s.Chronicled ∧ P s ∧ v.hasAsked s.rest.log = true := by
  obtain ⟨q, next, hq, -⟩ := sober_acquire v.provider now v.terms
  rw [hq]
  have hstable : chronicling.Stable fun s => P s ∧ v.hasAsked s.rest.log = true :=
    fun hg h => ⟨hP hg h.1, stable_hasAsked v hg h.2⟩
  exact .bind (safe_heard hP q) fun a =>
    Program.safe_converse_keeping (safe_heard_keeping hstable) (next a)

/-! Extensions. -/

/-- The state is in order as soon as it is written down what an extension has come to. -/
def Telling (x : Context) (r : Except LockError Extension) (s : State (Chronicle ω)) : Prop :=
  (s.told (.extended x r)).Chronicled

theorem safe_empty (k : Ticket) :
    (Program.change fun s : State (Chronicle ω) =>
      s.onChain k.chain (·.fill k.id .inFlight)).Safe chronicling (fun s => s.Chronicled)
        fun _ s => s.Chronicled :=
  Program.safe_change fun _ hs => ⟨List.suffix_rfl, hs.fill fun h => (nomatch h)⟩

/-- A slot is filled again. The lease is lost only if that is what the extension has come to. -/
theorem safe_refill {k : Ticket} {slot : Slot} {r : Except LockError Extension}
    (hx : x.ticket? = some k) (hslot : slot = .lost → r = .ok .lost) :
    (do
      Program.change fun s : State (Chronicle ω) => s.onChain k.chain (·.fill k.id slot)
      pure r : Chronicled ω _).Safe chronicling (fun s => s.Chronicled) (Telling x) := by
  have htelling : ∀ _ : Unit, (Pure.pure r : Chronicled ω _).Safe chronicling (Telling x r)
      (Telling x) := fun _ => Program.safe_pure fun _ hs => hs
  refine .bind (Program.safe_change fun s hs => ⟨List.suffix_rfl, ?_⟩) htelling
  -- It makes no difference whether the slot is filled first.
  have hfill : ((s.told (.extended x r)).onChain k.chain (·.fill k.id slot)).Chronicled :=
    (hs.extended x r).fill fun h => ⟨x, hx, hslot h ▸ List.mem_cons_self⟩
  exact hfill

/-- **Extensions** have a lease lost only if they come to that. -/
theorem safe_extendActive_telling (x : Context) (d e : Span) :
    (x.extendActive o.silently d e).Safe chronicling (fun s => s.Chronicled) (Telling x) := by
  have hend : ∀ r, (Pure.pure r : Chronicled ω _).Safe chronicling (fun s => s.Chronicled)
      (Telling x) := fun r => Program.safe_pure fun s hs => hs.extended x r
  unfold Context.extendActive
  cases hscopes : x.scopes with
  | nil => exact hend _
  | cons scope scopes =>
    have hx : x.ticket? = some ⟨x.chain, scope.id⟩ := by
      rw [Context.ticket?, hscopes]
      rfl
    refine .bind (Program.safe_look _ _) fun entry => ?_
    obtain _ | ⟨name, h | _ | _⟩ := entry
    · exact hend _
    · refine .bind (safe_empty ⟨x.chain, scope.id⟩) fun _ => ?_
      refine .bind (Program.safe_look _ _) fun now => ?_
      refine .bind (Program.safe_converse_keeping safe_silently_alone _) fun r => ?_
      obtain ⟨err | (new | _ | _), old⟩ := r
      · exact safe_refill hx fun h => nomatch h
      · exact safe_refill hx fun h => nomatch h
      · exact safe_refill hx fun _ => rfl
      · exact safe_refill hx fun h => nomatch h
    · exact hend _
    · exact hend _

/-- What the extension has come to is written down. -/
theorem safe_tell (x : Context) (r : Except LockError Extension) :
    (Program.change (State.told (.extended x r))).Safe chronicling (Telling (ω := ω) x r) fun _ s =>
      s.Chronicled :=
  Program.safe_change fun _ hs => ⟨List.suffix_cons _ _, hs⟩

/-! Executions. -/

variable {body : Context → Chronicled ω (Ending String α)}
  (hbody : ∀ x, (body x).Safe chronicling (fun s => s.Chronicled ∧ x.Entered s.rest.log)
    fun _ s => s.Chronicled)
include hbody

/-- A task starts in a context whose locks were taken, if that may be written down. -/
theorem safe_task_chronicled (v : Request) (x : Context) : (v.task body x).Safe chronicling
    (fun s => s.Chronicled ∧ x.Entered s.rest.log ∧
      (v.hasAsked s.rest.log = false → v.Reenters x (s.chains.chain x.chain) s.rest.log))
    fun _ s => s.Chronicled := by
  refine .bind (Program.safe_change fun s hs => ⟨List.suffix_cons _ _, ?_, ?_⟩) fun _ => hbody x
  · exact hs.1.told hs.2.2 (fun _ h => nomatch h) fun _ h => h
  · exact hs.2.1.mono (List.suffix_cons _ _)

omit hbody in
theorem allows_withdrawn (k : Ticket) : (chronicling (ω := ω)).Allows (State.withdrawn k) :=
  fun _ hs => ⟨hs.withdrawn k, List.suffix_cons _ _⟩

omit hbody in
/-- When its task is over, a lock is given back without its entry. -/
theorem safe_release_withdrawn (v : Request) (k : Ticket) (name : String) (scopes : List Scope)
    (ending : Ending String α) {s : State (Chronicle ω)} (hs : s.Chronicled) :
    ((Context.release (o.heard v) ⟨k.chain, ⟨k.id, name⟩ :: scopes⟩ >>= fun r =>
      (pure (ending.afterRelease r) : Chronicled ω (Conclusion α))) (s.told (.left k))).Safe
        chronicling (fun _ s => s.Chronicled) s := by
  have hend : ∀ {β : Type} (b : β), (Pure.pure b : Chronicled ω β).Safe chronicling
      (fun s => s.Chronicled) fun _ s => s.Chronicled := fun b => Program.safe_pure fun _ hs => hs
  refine .before (allows_withdrawn k s hs).2 ?_
  simp only [Context.release]
  rw [Program.bind_apply, Program.look_bind, Program.change_bind]
  refine .bind ?_ fun r => hend _
  show Turn.Safe chronicling _ _ (s.withdrawn k)
  rcases ((s.told (.left k)).chains.chain k.chain).slot? k.id with _ | ⟨h | _ | _⟩
  case some.held =>
    exact Program.Safe.bind (Program.safe_look _ _) (fun now =>
      .bind (Program.safe_converse_keeping safe_heard_alone _) fun r => hend _) _ (hs.withdrawn k)
  all_goals exact hend _ _ (hs.withdrawn k)

/-- **All that follows taking a lock** that is not around yet, for which the call has asked. -/
theorem safe_held (v : Request) (hv : ¬v.context.contains v.terms.name = true) (h : Handle) :
    Program.Safe chronicling
      (fun s => s.Chronicled ∧ v.context.Entered s.rest.log ∧ v.hasAsked s.rest.log = true) (do
        let inner ← v.context.enter v.terms.name h
        let ending ← (v.run body inner).guarded inner.leave
        let released ← inner.release (o.heard v)
        pure (ending.afterRelease released) : Chronicled ω (Conclusion α)) fun _ s =>
          s.Chronicled := by
  intro s hs
  obtain ⟨hkept, hentered, hasked⟩ := hs
  let k := s.nextTicket v.context.chain
  let z := v.context.inside k.id v.terms.name
  let s' := s.admitted v.context.chain v.terms.name h
  simp only [Request.run, if_neg hv]
  -- Up to the first turn of the task, all is one step.
  show ((((v.task body z s').guarded (State.told (.left k))).bind fun a s =>
    ⟨s.told (.left k), .done a⟩).guarded z.leave |>.bind fun ending => do
      let released ← z.release (o.heard v)
      pure (ending.afterRelease released)).Safe chronicling _ s
  have hz : z.Entered s'.rest.log := by
    intro e he
    obtain rfl | he := List.mem_cons.1 he
    · exact List.mem_cons_self
    · exact List.mem_cons_of_mem _ (hentered e he)
  have hgrows : chronicling.grows s s' := List.suffix_cons _ _
  rw [Turn.guarded_bind_guarded]
  have htask : (v.task body z s').Safe chronicling (fun _ s => s.Chronicled) s' := by
    refine safe_task_chronicled hbody v z s' ⟨hkept.admitted _ _ h, hz, fun hnot => ?_⟩
    rw [stable_hasAsked v hgrows hasked] at hnot
    cases hnot
  refine .before hgrows (.bind (htask.guarded (allows_withdrawn k)) fun ending s hs => ?_)
  exact safe_release_withdrawn v k v.terms.name v.context.scopes ending hs

/-- A call for a lock that its context has starts its task. -/
theorem safe_execute_reentering (v : Request) (hv : v.context.contains v.terms.name = true) :
    (execute (o.heard v) v.provider v.context v.terms (v.run body)).Safe chronicling
      (fun s => s.Chronicled ∧ v.context.Entered s.rest.log ∧ .called v ∈ s.rest.log) fun _ s =>
        s.Chronicled := by
  unfold execute
  rw [if_pos hv]
  have hrun : v.run body v.context = v.task body v.context := if_pos hv
  rw [hrun]
  refine .bind ((safe_task_chronicled hbody v v.context).given fun s hs => ⟨hs.1, hs.2.1, fun _ => ?_⟩)
    fun ending => Program.safe_pure fun _ hs => hs
  exact ⟨hs.2.2, rfl, hv, fun e he _ => ⟨hs.2.1 e he, (hs.1.chains _ e.name (hs.2.1 e he)).2⟩⟩

/-- Any other call asks for its lock, and starts its task if it is handed out. -/
theorem safe_execute_asking (v : Request) (hv : ¬v.context.contains v.terms.name = true) :
    (execute (o.heard v) v.provider v.context v.terms (v.run body)).Safe chronicling
      (fun s => s.Chronicled ∧ v.context.Entered s.rest.log) fun _ s => s.Chronicled := by
  unfold execute
  rw [if_neg hv]
  refine .bind (Program.safe_look _ _) fun now => ?_
  refine .bind (safe_acquire_heard (stable_entered v.context) now) fun r => ?_
  rcases r with e | _ | h
  · exact Program.safe_pure fun _ hs => hs.1
  · exact Program.safe_pure fun _ hs => hs.1
  · exact safe_held hbody v hv h

/-- **Executions** keep the chronicle. -/
theorem safe_execute_chronicled (v : Request) :
    (execute (o.heard v) v.provider v.context v.terms (v.run body)).Safe chronicling
      (fun s => s.Chronicled ∧ v.context.Entered s.rest.log ∧ .called v ∈ s.rest.log) fun _ s =>
        s.Chronicled := by
  by_cases hv : v.context.contains v.terms.name = true
  · exact safe_execute_reentering hbody v hv
  · exact (safe_execute_asking hbody v hv).given fun _ hs => ⟨hs.1, hs.2.1⟩

end Specs

/-! ### Plans keep the chronicle -/

section Plans

variable {o : Outside ω} {shared : Bool} {x : Option Context}

/-- The locks of the context, if there is one, were taken by tasks. -/
abbrev Welcome (x : Option Context) : State (Chronicle ω) → Prop :=
  OfTask (fun y s => y.Entered s.rest.log) x

theorem safe_openContext : (openContext shared : Chronicled ω Context).Safe chronicling
    (fun s => s.Chronicled) fun y s => s.Chronicled ∧ y.Entered s.rest.log := by
  unfold openContext
  split
  · exact Program.safe_pure fun _ hs => ⟨hs, fun _ he => nomatch he⟩
  · exact Program.safe_step fun _ hs => ⟨List.suffix_rfl,
      ⟨hs.marks, hs.numbers, hs.board, hs.chains⟩, fun _ he => nomatch he⟩

/-- The locks of a context that is found were taken by tasks. -/
theorem safe_find (place : Plan.Place) : (place.find shared x : Chronicled ω Context).Safe
    chronicling (fun s => s.Chronicled ∧ Welcome x s) fun y s =>
      s.Chronicled ∧ y.Entered s.rest.log := by
  have hopen : (openContext shared : Chronicled ω Context).Safe chronicling
      (fun s => s.Chronicled ∧ Welcome x s) fun y s => s.Chronicled ∧ y.Entered s.rest.log :=
    safe_openContext.given fun _ hs => hs.1
  cases place with
  | outermost => exact hopen
  | current =>
    cases x with
    | none => exact hopen
    | some y => exact Program.safe_pure fun _ hs => ⟨hs.1, hs.2 y rfl⟩
  | pinned label =>
    have hlook : (Program.look fun s : State (Chronicle ω) => s.rest.board.get? label).Safe
        chronicling (fun s => s.Chronicled ∧ Welcome x s) fun y s =>
          s.Chronicled ∧ Welcome y s := fun s hs =>
      ⟨List.suffix_rfl, hs.1, fun y hy => hs.1.board label y hy⟩
    refine .bind hlook fun y => ?_
    cases y with
    | none => exact safe_openContext.given fun _ hs => hs.1
    | some y => exact Program.safe_pure fun _ hs => ⟨hs.1, hs.2 y rfl⟩

theorem safe_pinContext (label : String) (x : Option Context) :
    (Program.change (State.pinContext (ω := ω) label x)).Safe chronicling
      (fun s => s.Chronicled ∧ Welcome x s) fun _ s => s.Chronicled := by
  refine Program.safe_change fun s hs => ?_
  cases x with
  | none => exact ⟨List.suffix_rfl, hs.1⟩
  | some y =>
    refine ⟨List.suffix_rfl, ⟨hs.1.marks, hs.1.numbers, fun l x hx => ?_, hs.1.chains⟩⟩
    simp only [State.pinContext, Registry.get?_put] at hx
    split at hx
    · cases hx
      exact hs.2 y rfl
    · exact hs.1.board l x hx

/-- A call is made. -/
theorem safe_request (y : Context) (provider : Provider) (t : Terms) :
    (y.request provider t : Chronicled ω Request).Safe chronicling
      (fun s => s.Chronicled ∧ y.Entered s.rest.log) fun v s =>
        s.Chronicled ∧ v.context.Entered s.rest.log ∧ .called v ∈ s.rest.log := by
  refine Program.safe_step fun s hs => ⟨List.suffix_cons _ _, ⟨?_, fun u hu => ?_, ?_, ?_⟩,
    hs.2.mono (List.suffix_cons _ _), List.mem_cons_self⟩
  · exact hs.1.marks.cons fun u hu => Nat.ne_of_lt (hs.1.numbers u hu)
  · obtain h | hu := List.mem_cons.1 hu
    · cases h
      exact Nat.lt_succ_self _
    · exact Nat.lt_succ_of_lt (hs.1.numbers u hu)
  · exact fun label z hz => (hs.1.board label z hz).mono (List.suffix_cons _ _)
  · exact hs.1.chains.cons fun _ h => h

/-- **Each step** of a plan keeps the chronicle. -/
theorem safe_chronicled {ν : Type} (o : Outside ω) (shared : Bool) :
    (Plan.Manner.chronicled (ν := ν) o shared).Safe chronicling fun y s => y.Entered s.rest.log where
  stable := stable_entered
  act _ := Program.safe_change fun _ hs =>
    ⟨List.suffix_rfl, hs.marks, hs.numbers, hs.board, hs.chains⟩
  look place _ := .bind (safe_find place) fun _ => Program.safe_step fun _ hs =>
    ⟨List.suffix_rfl, hs.1⟩
  pin := safe_pinContext
  extend place d e _ := .bind (safe_find place) fun y =>
    .bind ((safe_extendActive_telling y d e).given fun _ hs => hs.1) fun r =>
      .bind (safe_tell y r) fun _ => Program.safe_pure fun _ hs => hs
  lock place provider t _ _ htask := .bind (safe_find place) fun y =>
    .bind (safe_request y provider t) fun v => safe_execute_chronicled htask v

/-- **Reentry is warranted**: whatever plans are carried out, however their turns are interleaved,
whichever of them are given up, and whatever the service answers, at any time all was written down
as it may be. -/
theorem reentries_warranted {ν : Type} (o : Outside ω) (shared : Bool) (c : Clock) (w : ω)
    (es : List (Crowd.Event ω ν)) : Warranted (chronicleAfter o shared c w es) := by
  have hfresh : chronicling.valid (⟨c, [], { world := w }⟩ : State (Chronicle ω)) :=
    { marks := fun m older h => absurd (List.IsSuffix.length_le h) (Nat.not_succ_le_zero _)
      numbers := fun _ h => nomatch h
      board := fun _ _ h => nomatch h
      chains := fun _ _ h => nomatch h }
  exact (Plan.valid_inManner (safe_chronicled o shared) hfresh es).marks

end Plans

/-! ### Reentry without a lease -/

/-- The chain has an entry for the lock of the call, of a task around it, and its lease is not lost. -/
def Request.isCovered (v : Request) (now : Chain) : Bool :=
  v.context.scopes.any fun e => e.name = v.terms.name &&
    (now.entries.get? e.id).any fun y => y.name = e.name && y.slot ≠ .lost

/-- A call within its own lock, when the lease has lapsed and could not be extended. -/
def calledAfterLoss : Plan (Scenario.Backend × Unit) Unit :=
  .under "job" Terms.job_ne <| .act (fun _ w => (⟨.second 60⟩, w)) <|
    .extend .current (.ofSeconds 60) .zero fun _ => .under "job" Terms.job_ne (.done (.value ()))

/-- A call for the lock of a task that is over, in the context of this task. -/
def calledAfterwards : Plan (Scenario.Backend × Unit) Unit :=
  .lock .current (.stored "node") (.early "job" Terms.job_ne) (.pin "kept" (.done (.value ())))
    fun _ => .lock (.pinned "kept") (.stored "node") (.early "job" Terms.job_ne)
      (.done (.value ())) fun _ => .done (.value ())

/-- What happens when a plan is carried out on an empty store in memory. -/
def writtenOf (plan : Plan (Scenario.Backend × Unit) Unit) : List Occurrence :=
  chronicleAfter prompt.overBackend false ⟨.epoch⟩ (.memory [] fun _ => "", ()) [.start plan]

/-- Lastly, the task of a call starts that has asked nothing and is not covered. -/
def endsUncovered : List Occurrence → Bool
  | .began v _ now :: older => !v.hasAsked older && !v.isCovered now
  | _ => false

theorem exists_of_endsUncovered {log : List Occurrence} (h : log.tails.any endsUncovered = true) :
    ∃ v x now older, .began v x now :: older <:+ log ∧ v.hasAsked older = false ∧
      v.isCovered now = false := by
  obtain ⟨tail, htail, hends⟩ := List.any_eq_true.1 h
  unfold endsUncovered at hends
  split at hends
  · rw [Bool.and_eq_true, Bool.not_eq_true', Bool.not_eq_true'] at hends
    exact ⟨_, _, _, _, (List.mem_tails _ _).1 htail, hends⟩
  · cases hends

/-- **A task may start without a lease**: its call asks nothing, and the lease of the lock that it has
around it is lost in one case, and given back in the other. -/
theorem reentry_without_lease :
    (∃ v x now older, .began v x now :: older <:+ writtenOf calledAfterLoss ∧
      v.hasAsked older = false ∧ v.isCovered now = false) ∧
    ∃ v x now older, .began v x now :: older <:+ writtenOf calledAfterwards ∧
      v.hasAsked older = false ∧ v.isCovered now = false :=
  ⟨exists_of_endsUncovered (by decide +kernel), exists_of_endsUncovered (by decide +kernel)⟩

end LeaseLock
