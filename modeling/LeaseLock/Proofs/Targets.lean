import LeaseLock.Proofs.Records
import LeaseLock.Proofs.TrailKeeping

/-!
# Targets of extensions

Whose lease is extended in nested calls, and which records are touched by that.

## The model

The programs are plans that keep a trail, as in `Proofs.Trails`. Storage calls are carried out by a
backend of any kind. All else is anybody's guess: the turns that questions and answers take, the clock,
and the answers of a key-value server.

## What is proved

`extensions_on_target`: at any time, all that is on the trail is as it ought to be (`OnTarget`). All
that an extension asks for is its target, no node sees it change a record of another name, and it
answers that the lease was extended only after a call on the target has done so.

If a call for one lock is made within a call for another one, within one for the first, then the target
there is the lock in the middle, not the one that the innermost call is for
(`extension_beside_innermost`).
-/

namespace LeaseLock

variable {ω ρ : Type}

/-! ### What ought to be on it -/

/-- The service, where storage calls are carried out by a backend that nothing else of it reaches. -/
def Outside.overBackend (o : Outside (Scenario.Backend × ρ)) : Outside (Scenario.Backend × ρ) where
  before := o.before
  after := o.after
  answer
    | .store call, c, w =>
      let (r, b) := w.1.answer call c.reading
      let (_, c', w') := o.answer (.store call) c w
      (r.answer, c', b, w'.2)
    | .send m, c, w =>
      let (r, c', w') := o.answer (.send m) c w
      (r, c', w.1, w'.2)

/-- A trail over a backend, the last thing first, is as it ought to be. -/
structure OnTarget (log : List (Mark (Scenario.Backend × ρ))) : Prop where
  /-- An extension has a number of its own. Its context has the locks that the calls around it have
  taken, and no other. -/
  made : ∀ k older, .made k :: older <:+ log →
    k.post.context.scopes.map Scope.name = (Lock.taken k.post.calls).map Lock.name ∧
      ∀ m ∈ older, ∀ j, m.attempt? = some j → j.number ≠ k.number
  /-- All that it asks for is its target. -/
  asks : ∀ k q a before after, .answered k q a before after ∈ log →
    .made k ∈ log ∧ ∃ l, k.post.target = some l ∧ l.Extends q
  /-- With that, it changes no record of another name. -/
  spares : ∀ k q a before after, .answered k q a before after ∈ log →
    ∀ n, (∀ l, k.post.target = some l → l.name ≠ n) →
      ∀ node, after.1.records node n = before.1.records node n
  /-- It answers that the lease was extended only if that has happened to its target. If records are
  stored, then one of the name and the holder has got another end, and is the same otherwise. -/
  extended : ∀ k older, .returned k (.ok .extended) :: older <:+ log →
    ∃ l, k.post.target = some l ∧ ∃ q a before after, .answered k q a before after ∈ older ∧
      l.Extends q ∧ q.renews a = true ∧
      ∀ holder, l.provider = .stored holder → before.1.isStore = true →
        ∃ x ∈ before.1.records holder l.name, x.holder = holder ∧
          ∃ e, { x with ends := e } ∈ after.1.records holder l.name

/-! ### All that is marked -/

section Backends

variable {o : Outside (Scenario.Backend × ρ)} {l : Lock} {q : Query}

/-- A question about extending a lease leaves the records of other names alone. -/
theorem records_of_extends (hq : l.Extends q) {n : String} (hn : l.name ≠ n) (c : Clock)
    (w : Scenario.Backend × ρ) (node : String) :
    (o.overBackend.answer q c w).2.2.1.records node n = w.1.records node n := by
  cases q with
  | store call =>
    obtain ⟨kind, holder, t⟩ := call
    obtain ⟨rfl, -, hname⟩ := hq
    exact w.1.records_extend_of_ne c.reading (fun h => hn (hname.symm.trans h.symm)) node
  | send m => rfl

/-- If it is answered that the lease was extended, then a record of its name has another end. -/
theorem exists_of_renews (hq : l.Extends q) {holder : String} (hp : l.provider = .stored holder)
    {c : Clock} {w : Scenario.Backend × ρ} (hr : q.renews (o.overBackend.answer q c w).1 = true)
    (hb : w.1.isStore = true) : ∃ x ∈ w.1.records holder l.name, x.holder = holder ∧
      ∃ e, { x with ends := e } ∈ (o.overBackend.answer q c w).2.2.1.records holder l.name := by
  cases q with
  | store call =>
    obtain ⟨kind, holder', t⟩ := call
    obtain ⟨rfl, hp', hname⟩ := hq
    obtain rfl : holder' = holder := Provider.stored.inj (hp'.symm.trans hp)
    have ha : (w.1.answer ⟨.extend, holder', t⟩ c.reading).1.answer = .ok .extended := by
      change Query.renews (.store ⟨.extend, holder', t⟩)
        (w.1.answer ⟨.extend, holder', t⟩ c.reading).1.answer = true at hr
      cases ha : (w.1.answer ⟨.extend, holder', t⟩ c.reading).1.answer with
      | error f =>
        rw [ha] at hr
        cases hr
      | ok e =>
        rw [ha] at hr
        rw [of_decide_eq_true hr]
    rw [← hname]
    exact Scenario.Backend.exists_extended hb ha
  | send m =>
    cases m with
    | set => exact hq.elim
    | run =>
      obtain ⟨-, environment, holder', hp', -⟩ := hq
      cases hp.symm.trans hp'
    | load =>
      obtain ⟨-, environment, holder', hp'⟩ := hq
      cases hp.symm.trans hp'

/-- What was marked as it may be is as it ought to be. -/
theorem onTarget_of_wellMarked {log : List (Mark (Scenario.Backend × ρ))}
    (h : WellMarked o.overBackend log) : OnTarget log := by
  have hanswered : ∀ k q a before after, .answered k q a before after ∈ log →
      ∃ older, .answered k q a before after :: older <:+ log ∧
        Mark.Fits o.overBackend older (.answered k q a before after) := by
    intro k q a before after hm
    obtain ⟨newer, older, hlog⟩ := List.append_of_mem hm
    exact ⟨older, ⟨newer, hlog.symm⟩, h _ _ ⟨newer, hlog.symm⟩⟩
  refine ⟨fun k older hs => h _ _ hs, fun k q a before after hm => ?_,
    fun k q a before after hm n hn node => ?_, fun k older hs => ?_⟩
  · obtain ⟨older, hs, hmade, htarget, -⟩ := hanswered k q a before after hm
    exact ⟨hs.subset (List.mem_cons_of_mem _ hmade), htarget⟩
  · obtain ⟨older, -, -, ⟨l, hl, hq⟩, c, -, rfl⟩ := hanswered k q a before after hm
    exact records_of_extends hq (hn l hl) c before node
  · obtain ⟨q, a, before, after, hm, hr⟩ := h _ _ hs rfl
    have hsuffix : older <:+ log := (List.suffix_cons _ _).trans hs
    obtain ⟨older', -, -, ⟨l, hl, hq⟩, c, rfl, rfl⟩ :=
      hanswered k q a before after (hsuffix.subset hm)
    exact ⟨l, hl, q, _, before, _, hm, hq, hr, fun holder hp hb => exists_of_renews hq hp hr hb⟩

end Backends

/-- **Extensions stay on their target**: whatever plans are carried out, however their turns are
interleaved, whichever of them are given up, and whatever the backend and all else outside, the trail
is at any time as it ought to be. -/
theorem extensions_on_target {ν : Type} (o : Outside (Scenario.Backend × ρ)) (shared : Bool)
    (c : Clock) (w : Scenario.Backend × ρ) (es : List (Crowd.Event (Scenario.Backend × ρ) ν)) :
    OnTarget (trailAfter o.overBackend shared c w es) :=
  onTarget_of_wellMarked (wellMarked_trailAfter o.overBackend shared c w es)

/-- Everything is answered at once, and there is no key-value server. -/
def prompt : Outside (Scenario.Backend × Unit) where
  before _ _ _ := 0
  answer
    | .store _, c, w => (.error .noActiveLock, c, w)
    | .send _, c, w => (.nil, c, w)
  after _ _ _ := 0

/-- A plan that runs another one under a lock. -/
def Plan.under (name : String) (h : name ≠ "") (task : Plan ω Unit) : Plan ω Unit :=
  .lock .current (.stored "node") (.early name h) task fun _ => .done (.value ())

/-- A call for the first lock within one for the second, within one for the first. The task extends a
lease to a minute from now. -/
def extendedInside : Plan ω Unit :=
  .under "first" (by decide) <| .under "second" (by decide) <| .under "first" (by decide) <|
    .extend .current (.ofSeconds 60) .zero fun _ => .done (.value ())

/-- Where such a call is made on a store in memory, and what comes of it. -/
def extendedTrail : List (Mark (Scenario.Backend × Unit)) :=
  trailAfter prompt.overBackend false ⟨.epoch⟩ (.memory [] fun _ => "", ()) [.start extendedInside]

/-- The extension says that the lease was extended. -/
def Mark.saysExtended (k : Attempt) : Mark ω → Bool
  | returned j (.ok .extended) => j = k
  | _ => false

/-- The record of the second lock changes, and that of the first not, in a call for the first. -/
def Mark.strays : Mark (Scenario.Backend × Unit) → Bool
  | answered k _ _ before after => k.post.calls.head? = some ⟨.stored "node", "first"⟩ ∧
    extendedTrail.any (·.saysExtended k) = true ∧
    after.1.records "node" "first" = before.1.records "node" "first" ∧
    after.1.records "node" "second" ≠ before.1.records "node" "second"
  | _ => false

/-- **The target is not always that of the innermost call**: in the task of a call for the first lock,
the lease that is extended is one on the second. -/
theorem extension_beside_innermost : ∃ k q a before after,
    .answered k q a before after ∈ extendedTrail ∧
      k.post.calls.head? = some ⟨.stored "node", "first"⟩ ∧
      .returned k (.ok .extended) ∈ extendedTrail ∧
      after.1.records "node" "first" = before.1.records "node" "first" ∧
      after.1.records "node" "second" ≠ before.1.records "node" "second" := by
  have hany : extendedTrail.any Mark.strays = true := by decide +kernel
  obtain ⟨m, hm, hstrays⟩ := List.any_eq_true.1 hany
  cases m with
  | answered k q a before after =>
    obtain ⟨hcall, hsays, hfirst, hsecond⟩ := of_decide_eq_true hstrays
    obtain ⟨m', hm', hreturned⟩ := List.any_eq_true.1 hsays
    refine ⟨k, q, a, before, after, hm, hcall, ?_, hfirst, hsecond⟩
    unfold Mark.saysExtended at hreturned
    split at hreturned
    · rw [← of_decide_eq_true hreturned]
      exact hm'
    · cases hreturned
  | entered | made | returned => cases hstrays

end LeaseLock
