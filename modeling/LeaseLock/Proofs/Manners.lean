import LeaseLock.Proofs.Plans
import LeaseLock.Proofs.Safety

/-!
# Manners of carrying out plans

Plans whose steps may be carried out in more than one way.

## The model

What the steps of a plan do is up to a manner. It says how a plan acts on the world, looks around, pins
a context, extends a lease and makes a locked call, given what is known of the enclosing task. What it
means that one step comes after the other, that plans are side by side, and that they are given up, is
the same in every manner.

## What is proved

If each step is safe, then so is every plan (`Plan.safe_inManner`).
-/

namespace LeaseLock

variable {ω ν σ ξ : Type}

/-- How the steps of plans are carried out on a state `σ`, if this is known of an enclosing task: `ξ`. -/
structure Plan.Manner (ω ν σ ξ : Type) where
  act (f : Clock → ω → Clock × ω) : Program σ Unit
  look (place : Plan.Place) (x : Option ξ) : Program σ View
  pin (label : String) (x : Option ξ) : Program σ Unit
  extend (place : Plan.Place) (atMostFor atLeastFor : Span) (x : Option ξ) :
    Program σ (Except LockError Extension)
  lock (place : Plan.Place) (provider : Provider) (t : Terms)
    (task : ξ → Program σ (Ending String ν)) (x : Option ξ) : Program σ (Conclusion ν)

/-- The program of a plan in a manner. -/
def Plan.inManner (m : Plan.Manner ω ν σ ξ) : Plan ω ν → Option ξ → Program σ (Ending String ν)
  | .done ending, _ => pure ending
  | .act f next, x => do
    m.act f
    next.inManner m x
  | .pause next, x => do
    Program.pause
    next.inManner m x
  | .look place next, x => do
    let seen ← m.look place x
    (next seen).inManner m x
  | .pin label next, x => do
    m.pin label x
    next.inManner m x
  | .extend place d e next, x => do
    let r ← m.extend place d e x
    (next r).inManner m x
  | .lock place provider t task next, x => do
    let c ← m.lock place provider t (fun z => task.inManner m (some z)) x
    (next c).inManner m x
  | .both first second next, x => do
    let r ← Program.both (first.inManner m x >>= fun ending => pure ending.beside)
      (second.inManner m x >>= fun ending => pure ending.beside)
    (next r).inManner m x
  | .limit n body next, x => do
    let r ← (body.inManner m x).limit n
    (next r).inManner m x

/-- What happens in a crowd that carries plans out in a manner. -/
def Crowd.Event.inManner (m : Plan.Manner ω ν σ ξ) :
    Crowd.Event ω ν → Ensemble.Event σ (Ending String ν)
  | start plan => .start (plan.inManner m none)
  | turn k => .turn k
  | drop k => .drop k

/-! ### Safe manners -/

/-- It holds of what is known of the enclosing task, if there is one. -/
def OfTask (Q : ξ → σ → Prop) (x : Option ξ) (s : σ) : Prop := ∀ z, x = some z → Q z s

/-- Each step is safe, given something that holds of what is known of the enclosing task. A locked call
is safe if its task is, given the same. -/
structure Plan.Manner.Safe (m : Plan.Manner ω ν σ ξ) (C : Conduct σ) (Q : ξ → σ → Prop) : Prop where
  stable : ∀ z, C.Stable (Q z)
  act : ∀ f, (m.act f).Sound C C.valid
  look : ∀ place x, (m.look place x).Sound C fun s => C.valid s ∧ OfTask Q x s
  pin : ∀ label x, (m.pin label x).Sound C fun s => C.valid s ∧ OfTask Q x s
  extend : ∀ place d e x, (m.extend place d e x).Sound C fun s => C.valid s ∧ OfTask Q x s
  lock : ∀ place provider t task x, (∀ z, (task z).Sound C fun s => C.valid s ∧ Q z s) →
    (m.lock place provider t task x).Sound C fun s => C.valid s ∧ OfTask Q x s

variable {m : Plan.Manner ω ν σ ξ} {C : Conduct σ} {Q : ξ → σ → Prop}

theorem Plan.Manner.Safe.stable_ofTask (hm : m.Safe C Q) (x : Option ξ) : C.Stable (OfTask Q x) :=
  fun hg hx z hz => hm.stable z hg (hx z hz)

/-- A step is safe, and then another one that knows the same of the enclosing task. -/
theorem Plan.Manner.Safe.then (hm : m.Safe C Q) {x : Option ξ} {α β : Type} {p : Program σ α}
    {f : α → Program σ β} (hp : p.Sound C fun s => C.valid s ∧ OfTask Q x s)
    (hf : ∀ a, (f a).Sound C fun s => C.valid s ∧ OfTask Q x s) :
    (p >>= f).Sound C fun s => C.valid s ∧ OfTask Q x s :=
  .bind ((hp.frame (hm.stable_ofTask x)).given fun _ hs => ⟨hs, hs.2⟩) hf

/-- **Every plan** is safe in a manner in which each step is. -/
theorem Plan.safe_inManner (hm : m.Safe C Q) (plan : Plan ω ν) (x : Option ξ) :
    (plan.inManner m x).Sound C fun s => C.valid s ∧ OfTask Q x s := by
  induction plan generalizing x with
  | done ending => exact Program.safe_pure fun _ hs => hs.1
  | act f next ih => exact hm.then ((hm.act f).given fun _ hs => hs.1) fun _ => ih x
  | pause next ih => exact .bind (Program.safe_pause (hm.stable_ofTask x)) fun _ => ih x
  | look place next ih => exact hm.then (hm.look place x) fun seen => ih seen x
  | pin label next ih => exact hm.then (hm.pin label x) fun _ => ih x
  | extend place d e next ih => exact hm.then (hm.extend place d e x) fun r => ih r x
  | lock place provider t task next ihTask ih =>
    refine hm.then (hm.lock place provider t _ x fun z => ?_) fun c => ih c x
    exact (ihTask (some z)).given fun s hs => ⟨hs.1, fun y hy => by cases hy; exact hs.2⟩
  | both first second next ihFirst ihSecond ih =>
    have hside : ∀ ending : Ending String ν, (Pure.pure ending.beside : Program σ _).Sound C
        C.valid := fun ending => Program.safe_pure fun _ hs => hs
    have hboth := Program.Sound.both (hm.stable_ofTask x) (.bind (ihFirst x) hside)
      (.bind (ihSecond x) hside)
    exact hm.then hboth fun r => ih r x
  | limit n body next ihBody ih =>
    exact hm.then (Program.Sound.limit (ihBody x) (fun _ hs => hs.1) n) fun r => ih r x

/-- **In a crowd** that carries plans out in such a manner, the state is in order at all times. -/
theorem Plan.valid_inManner (hm : m.Safe C Q) {s : σ} (hs : C.valid s)
    (es : List (Crowd.Event ω ν)) :
    C.valid ((⟨s, []⟩ : Ensemble σ (Ending String ν)).play (es.map (·.inManner m))).state := by
  refine Ensemble.valid_play hs fun p hp => ?_
  obtain ⟨e, -, he⟩ := List.mem_map.1 hp
  cases e with
  | start plan =>
    cases he
    exact (plan.safe_inManner hm none).given fun s hs => ⟨hs, fun z hz => nomatch hz⟩
  | turn k => cases he
  | drop k => cases he

end LeaseLock
