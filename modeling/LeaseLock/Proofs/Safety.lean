import LeaseLock.Proofs.Executions

/-!
# What programs owe one another

Programs that share a state and rely on one another to leave it in order.

## The model

A conduct says which states are in order, and what may become of a state while others have their
turns. A program is safe if it keeps to the conduct on every state that it may find: each of its turns
that leaves something for later leaves the state in order, and each turn is among the things that may
become of the state before; so is giving the program up. In between, it takes for granted that the
others do the same. A state need not be in order in the middle of a turn. So what is safe is said of a
program with what holds before its first turn, and what holds at its end.

## What is proved

Programs that are put together are safe if their parts are. In an ensemble of programs, of which any
number start, have their turns and are given up in any order, the state is in order at all times if
each is safe on its own (`Ensemble.valid_play`).
-/

namespace LeaseLock

/-- What programs on a state owe one another. -/
structure Conduct (σ : Type) where
  /-- The state is in order. -/
  valid : σ → Prop
  /-- What may become of a state. -/
  grows : σ → σ → Prop
  refl : ∀ s, grows s s
  trans : ∀ {s s' s''}, grows s s' → grows s' s'' → grows s s''

variable {σ α β ε : Type}

/-- What holds of a state holds of all that may become of it. -/
def Conduct.Stable (C : Conduct σ) (P : σ → Prop) : Prop := ∀ {s s'}, C.grows s s' → P s → P s'

/-- A change that is in order. -/
def Conduct.Allows (C : Conduct σ) (f : σ → σ) : Prop :=
  ∀ s, C.valid s → C.valid (f s) ∧ C.grows s (f s)

mutual

/-- What is left of a program is safe. At its end, something holds of its result and the state. -/
def Routine.Safe (C : Conduct σ) (post : α → σ → Prop) : Routine σ α → σ → Prop
  | .done a, s => post a s
  | .paused resume abandon, s =>
    C.valid s ∧ C.Allows abandon ∧
      ∀ s', C.valid s' → C.grows s s' → Turn.Safe C post (resume s') s'

/-- A turn on a state is safe. -/
def Turn.Safe (C : Conduct σ) (post : α → σ → Prop) : Turn σ α → σ → Prop
  | ⟨s', r⟩, s => C.grows s s' ∧ r.Safe C post s'

end

/-- A program is safe, given something that holds before its first turn. -/
def Program.Safe (C : Conduct σ) (pre : σ → Prop) (p : Program σ α) (post : α → σ → Prop) : Prop :=
  ∀ s, pre s → (p s).Safe C post s

/-- The state is in order at the end. -/
abbrev Program.Sound (C : Conduct σ) (pre : σ → Prop) (p : Program σ α) : Prop :=
  p.Safe C pre fun _ => C.valid

variable {C : Conduct σ}

/-! ### Routines and turns -/

theorem Turn.Safe.before {post : α → σ → Prop} {s s' : σ} {u : Turn σ α} (h : C.grows s s')
    (hu : u.Safe C post s') : u.Safe C post s := by
  cases u with
  | mk s'' r => exact ⟨C.trans h hu.1, hu.2⟩

mutual

/-- Less holds at the end. What became of an earlier state may be of help. -/
theorem Routine.Safe.mono {post post' : α → σ → Prop} {s₀ s : σ} {r : Routine σ α}
    (hr : r.Safe C post s) (h₀ : C.grows s₀ s)
    (h : ∀ a s, C.grows s₀ s → post a s → post' a s) : r.Safe C post' s := by
  match r, hr with
  | .done a, hr => exact h a s h₀ hr
  | .paused resume abandon, hr =>
    exact ⟨hr.1, hr.2.1, fun s' hv hg => Turn.Safe.mono (hr.2.2 s' hv hg) (C.trans h₀ hg) h⟩

theorem Turn.Safe.mono {post post' : α → σ → Prop} {s₀ s : σ} {u : Turn σ α}
    (hu : u.Safe C post s) (h₀ : C.grows s₀ s)
    (h : ∀ a s, C.grows s₀ s → post a s → post' a s) : u.Safe C post' s := by
  match u, hu with
  | ⟨s', r⟩, hu => exact ⟨hu.1, Routine.Safe.mono hu.2 (C.trans h₀ hu.1) h⟩

end

mutual

theorem Routine.Safe.bind {mid : α → σ → Prop} {post : β → σ → Prop} {s : σ} {r : Routine σ α}
    {f : α → Program σ β} (hr : r.Safe C mid s) (hf : ∀ a, (f a).Safe C (mid a) post) :
    (r.bind f s).Safe C post s := by
  match r, hr with
  | .done a, hr =>
    rw [Routine.bind]
    exact hf a s hr
  | .paused resume abandon, hr =>
    rw [Routine.bind]
    exact ⟨C.refl s, hr.1, hr.2.1, fun s' hv hg => Turn.Safe.bind (hr.2.2 s' hv hg) hf⟩

theorem Turn.Safe.bind {mid : α → σ → Prop} {post : β → σ → Prop} {s : σ} {u : Turn σ α}
    {f : α → Program σ β} (hu : u.Safe C mid s) (hf : ∀ a, (f a).Safe C (mid a) post) :
    (u.bind f).Safe C post s := by
  match u, hu with
  | ⟨s', r⟩, hu =>
    rw [Turn.bind]
    exact (Routine.Safe.bind hu.2 hf).before hu.1

end

mutual

theorem Routine.Safe.guarded {post : α → σ → Prop} {s : σ} {r : Routine σ α} {cleanup : σ → σ}
    (hr : r.Safe C post s) (hc : C.Allows cleanup) : (r.guarded cleanup).Safe C post s := by
  match r, hr with
  | .done a, hr => rwa [Routine.guarded]
  | .paused resume abandon, hr =>
    rw [Routine.guarded]
    refine ⟨hr.1, fun s hs => ?_, fun s' hv hg => Turn.Safe.guarded (hr.2.2 s' hv hg) hc⟩
    have hdrop := hr.2.1 s hs
    have hclean := hc _ hdrop.1
    exact ⟨hclean.1, C.trans hdrop.2 hclean.2⟩

theorem Turn.Safe.guarded {post : α → σ → Prop} {s : σ} {u : Turn σ α} {cleanup : σ → σ}
    (hu : u.Safe C post s) (hc : C.Allows cleanup) : (u.guarded cleanup).Safe C post s := by
  match u, hu with
  | ⟨s', r⟩, hu =>
    rw [Turn.guarded]
    exact ⟨hu.1, Routine.Safe.guarded hu.2 hc⟩

end

mutual

theorem Routine.Safe.limit {s : σ} {r : Routine σ α} (hr : r.Safe C (fun _ => C.valid) s)
    (n : Nat) : (r.limit n).Safe C (fun _ => C.valid) s := by
  match r, n, hr with
  | .done a, _, hr => rwa [Routine.limit]
  | .paused resume abandon, 0, hr =>
    rw [Routine.limit]
    refine ⟨hr.1, hr.2.1, fun s' hv _ => ?_⟩
    have hdrop := hr.2.1 s' hv
    exact ⟨hdrop.2, hdrop.1⟩
  | .paused resume abandon, n + 1, hr =>
    rw [Routine.limit]
    exact ⟨hr.1, hr.2.1, fun s' hv hg => Turn.Safe.limit (hr.2.2 s' hv hg) n⟩

theorem Turn.Safe.limit {s : σ} {u : Turn σ α} (hu : u.Safe C (fun _ => C.valid) s) (n : Nat) :
    (u.limit n).Safe C (fun _ => C.valid) s := by
  match u, hu with
  | ⟨s', r⟩, hu =>
    rw [Turn.limit]
    exact ⟨hu.1, Routine.Safe.limit hu.2 n⟩

end

/-- What is left of a program stays safe in the turns of others. -/
theorem Routine.Safe.later {s s' : σ} {r : Routine σ α} (hr : r.Safe C (fun _ => C.valid) s)
    (hv : C.valid s') (hg : C.grows s s') : r.Safe C (fun _ => C.valid) s' := by
  match r, hr with
  | .done a, _ => exact hv
  | .paused resume abandon, hr =>
    exact ⟨hv, hr.2.1, fun s'' hv' hg' => hr.2.2 s'' hv' (C.trans hg hg')⟩

theorem Routine.Safe.valid {s : σ} {r : Routine σ α} (hr : r.Safe C (fun _ => C.valid) s) :
    C.valid s := by
  match r, hr with
  | .done a, hr => exact hr
  | .paused resume abandon, hr => exact hr.1

theorem Routine.Safe.turn {s : σ} {r : Routine σ α} (hr : r.Safe C (fun _ => C.valid) s) :
    (r.turn s).Safe C (fun _ => C.valid) s := by
  match r, hr with
  | .done a, hr => exact ⟨C.refl s, hr⟩
  | .paused resume abandon, hr => exact hr.2.2 s hr.1 (C.refl s)

theorem Routine.Safe.abandon {s : σ} {r : Routine σ α} (hr : r.Safe C (fun _ => C.valid) s) :
    C.valid (r.abandon s) ∧ C.grows s (r.abandon s) := by
  match r, hr with
  | .done a, hr => exact ⟨hr, C.refl s⟩
  | .paused resume abandon, hr => exact hr.2.1 s hr.1

mutual

theorem Routine.Safe.alongside {s : σ} {r : Routine σ (Except ε α)}
    {next : Program σ (Except ε β)} {drop : σ → σ} (hr : r.Safe C (fun _ => C.valid) s)
    (hn : (next s).Safe C (fun _ => C.valid) s) (hd : C.Allows drop) :
    (r.alongside next drop s).Safe C (fun _ => C.valid) s := by
  match r, hr with
  | .done (.error e), hr =>
    rw [Routine.alongside]
    exact ⟨(hd s hr).2, (hd s hr).1⟩
  | .done (.ok a), hr =>
    rw [Routine.alongside]
    exact hn.bind fun b s hs => ⟨C.refl s, hs⟩
  | .paused resume abandon, hr =>
    rw [Routine.alongside]
    generalize next s = u at hn
    match u, hn with
    | ⟨s', .done (.error e)⟩, hn =>
      have hdrop := hr.2.1 s' hn.2
      exact ⟨C.trans hn.1 hdrop.2, hdrop.1⟩
    | ⟨s', .done (.ok b)⟩, hn =>
      exact ⟨hn.1, hn.2, hr.2.1, fun s'' hv hg =>
        (hr.2.2 s'' hv (C.trans hn.1 hg)).bind fun a s hs => ⟨C.refl s, hs⟩⟩
    | ⟨s', .paused resume₂ abandon₂⟩, hn =>
      obtain ⟨hg', hv', hdrop₂, hresume₂⟩ := hn
      refine ⟨hg', hv', fun s hs => ?_, fun s'' hv hg => ?_⟩
      · have h₁ := hr.2.1 s hs
        have h₂ := hdrop₂ _ h₁.1
        exact ⟨h₂.1, C.trans h₁.2 h₂.2⟩
      · exact Turn.Safe.alongside (hr.2.2 s'' hv (C.trans hg' hg))
          (fun s hv' hg' => hresume₂ s hv' (C.trans hg hg')) hdrop₂

theorem Turn.Safe.alongside {s : σ} {u : Turn σ (Except ε α)} {next : Program σ (Except ε β)}
    {drop : σ → σ} (hu : u.Safe C (fun _ => C.valid) s)
    (hn : ∀ s', C.valid s' → C.grows s s' → (next s').Safe C (fun _ => C.valid) s')
    (hd : C.Allows drop) : (u.alongside next drop).Safe C (fun _ => C.valid) s := by
  match u, hu with
  | ⟨s', r⟩, hu =>
    rw [Turn.alongside]
    exact (Routine.Safe.alongside hu.2 (hn s' hu.2.valid hu.1) hd).before hu.1

end

/-! ### Programs -/

namespace Program

variable {pre pre' : σ → Prop} {mid post post' : α → σ → Prop} {p : Program σ α}

/-- More holds before and less at the end. What was there before may be of help. -/
theorem Safe.mono (hp : p.Safe C pre post) (hpre : ∀ s, pre' s → pre s)
    (hpost : ∀ s a s', pre' s → C.grows s s' → post a s' → post' a s') : p.Safe C pre' post' :=
  fun s hs => (hp s (hpre s hs)).mono (C.refl s) fun a s' hg h => hpost s a s' hs hg h

theorem Safe.given (hp : p.Safe C pre post) (h : ∀ s, pre' s → pre s) : p.Safe C pre' post :=
  fun s hs => hp s (h s hs)

/-- What is known before the first turn may be used. -/
theorem Safe.because {φ : Prop} (h : ∀ s, pre s → φ) (hp : φ → p.Safe C pre post) :
    p.Safe C pre post := fun s hs => hp (h s hs) s hs

/-- What is stable holds at the end if it holds before. -/
theorem Safe.frame {P : σ → Prop} (hp : p.Safe C pre post) (hP : C.Stable P) :
    p.Safe C (fun s => pre s ∧ P s) fun a s => post a s ∧ P s :=
  fun s hs => (hp s hs.1).mono (C.refl s) fun _ _ hg h => ⟨h, hP hg hs.2⟩

theorem Safe.bind {post : β → σ → Prop} {f : α → Program σ β} (hp : p.Safe C pre mid)
    (hf : ∀ a, (f a).Safe C (mid a) post) : (p >>= f).Safe C pre post :=
  fun s hs => (hp s hs).bind hf

theorem safe_pure {a : α} (h : ∀ s, pre s → post a s) :
    (Pure.pure a : Program σ α).Safe C pre post := fun s hs => ⟨C.refl s, h s hs⟩

theorem safe_step {f : σ → α × σ} (h : ∀ s, pre s → C.grows s (f s).2 ∧ post (f s).1 (f s).2) :
    (Program.step f).Safe C pre post := h

theorem safe_look (P : σ → Prop) (f : σ → α) : (Program.look f).Safe C P fun _ => P :=
  fun s hs => ⟨C.refl s, hs⟩

theorem safe_change {post : Unit → σ → Prop} {f : σ → σ}
    (h : ∀ s, pre s → C.grows s (f s) ∧ post () (f s)) : (Program.change f).Safe C pre post := h

theorem safe_step_keeping {P : σ → Prop} {f : σ → α × σ}
    (h : ∀ s, P s → C.grows s (f s).2 ∧ P (f s).2) : (Program.step f).Safe C P fun _ => P := h

/-- Nothing is lost while a program waits. -/
theorem safe_pause {P : σ → Prop} (hP : C.Stable P) :
    Program.pause.Safe C (fun s => C.valid s ∧ P s) fun _ s => C.valid s ∧ P s :=
  fun s hs => ⟨C.refl s, hs.1, fun s hs => ⟨hs, C.refl s⟩, fun _ hv hg =>
    ⟨C.refl _, hv, hP hg hs.2⟩⟩

theorem safe_pauses {P : σ → Prop} (hP : C.Stable P) (n : Nat) :
    (Program.pauses n).Safe C (fun s => C.valid s ∧ P s) fun _ s => C.valid s ∧ P s := by
  induction n with
  | zero => exact safe_pure fun _ hs => hs
  | succ n ih => exact .bind (safe_pause hP) fun _ => ih

/-- A dialog whose questions are answered safely, with something that holds at each of its points. -/
theorem safe_converse {Q : Type} {A : Q → Type} {answer : (q : Q) → Program σ (A q)}
    {held : Dialog Q A α → σ → Prop}
    (h : ∀ q next, (answer q).Safe C (held (.ask q next)) fun a => held (next a))
    (d : Dialog Q A α) : (Program.converse answer d).Safe C (held d) fun a => held (.done a) := by
  induction d with
  | done a => exact safe_pure fun _ hs => hs
  | ask q next ih => exact .bind (h q next) ih

/-- A dialog whose questions keep something up. -/
theorem safe_converse_keeping {Q : Type} {A : Q → Type} {answer : (q : Q) → Program σ (A q)}
    {P : σ → Prop} (h : ∀ q, (answer q).Safe C P fun _ => P) (d : Dialog Q A α) :
    (Program.converse answer d).Safe C P fun _ => P := by
  induction d with
  | done a => exact safe_pure fun _ hs => hs
  | ask q next ih => exact .bind (h q) ih

theorem Safe.guarded {cleanup : σ → σ} (hp : p.Safe C pre post) (hc : C.Allows cleanup) :
    (p.guarded cleanup).Safe C pre post := fun s hs => (hp s hs).guarded hc

theorem Sound.limit (hp : p.Sound C pre) (hpre : ∀ s, pre s → C.valid s) (n : Nat) :
    (p.limit n).Sound C pre := by
  cases n with
  | zero => exact safe_pure hpre
  | succ n => exact fun s hs => (hp s hs).limit n

theorem Sound.both {p : Program σ (Except ε α)} {q : Program σ (Except ε β)} {P : σ → Prop}
    (hP : C.Stable P) (hp : p.Sound C fun s => C.valid s ∧ P s)
    (hq : q.Sound C fun s => C.valid s ∧ P s) :
    (Program.both p q).Sound C fun s => C.valid s ∧ P s :=
  fun s hs => (hp s hs).alongside (fun s' hv hg => hq s' ⟨hv, hP hg hs.2⟩)
    fun s hs => ⟨hs, C.refl s⟩

end Program

/-! ### Ensembles -/

/-- Programs that are carried out on one state. -/
structure Ensemble (σ α : Type) where
  state : σ
  /-- What is left of each program; of one that was given up, nothing is. -/
  members : List (Option (Routine σ α)) := []

namespace Ensemble

/-- What happens next. -/
inductive Event (σ α : Type) where
  /-- A program starts. -/
  | start (p : Program σ α)
  /-- A program has its next turn. -/
  | turn (k : Nat)
  /-- A program is given up. -/
  | drop (k : Nat)

/-- Lets an event happen. One that makes no sense changes nothing. -/
def step (f : Ensemble σ α) : Event σ α → Ensemble σ α
  | .start p => ⟨(p f.state).state, f.members ++ [some (p f.state).rest]⟩
  | .turn k => match f.members[k]? with
    | some (some r) => ⟨(r.turn f.state).state, f.members.set k (some (r.turn f.state).rest)⟩
    | _ => f
  | .drop k => match f.members[k]? with
    | some (some r) => ⟨r.abandon f.state, f.members.set k none⟩
    | _ => f

/-- Lets events happen one after the other. -/
def play (f : Ensemble σ α) (es : List (Event σ α)) : Ensemble σ α := es.foldl step f

/-- The state is in order, and so is what is left of the programs. -/
structure Safe (C : Conduct σ) (f : Ensemble σ α) : Prop where
  valid : C.valid f.state
  members : ∀ r, some r ∈ f.members → r.Safe C (fun _ => C.valid) f.state

variable {f : Ensemble σ α}

theorem Safe.members_later (hf : f.Safe C) {s : σ} (hv : C.valid s) (hg : C.grows f.state s)
    {r : Routine σ α} (hr : some r ∈ f.members) : r.Safe C (fun _ => C.valid) s :=
  (hf.members r hr).later hv hg

theorem Safe.step {e : Event σ α} (hf : f.Safe C) (he : ∀ p, e = .start p → p.Sound C C.valid) :
    (f.step e).Safe C := by
  match e with
  | .start p =>
    have hu := he p rfl f.state hf.valid
    simp only [Ensemble.step]
    cases hp : p f.state with
    | mk s r =>
      rw [hp] at hu
      refine ⟨hu.2.valid, fun r' hr' => ?_⟩
      obtain hr' | hr' := List.mem_append.1 hr'
      · exact hf.members_later hu.2.valid hu.1 hr'
      · cases List.mem_singleton.1 hr'
        exact hu.2
  | .turn k =>
    simp only [Ensemble.step]
    split
    · rename_i r hk
      have hu := (hf.members r (List.mem_of_getElem? hk)).turn
      cases hp : r.turn f.state with
      | mk s r =>
        rw [hp] at hu
        refine ⟨hu.2.valid, fun r' hr' => ?_⟩
        obtain hr' | hr' := List.mem_or_eq_of_mem_set hr'
        · exact hf.members_later hu.2.valid hu.1 hr'
        · cases hr'
          exact hu.2
    · exact hf
  | .drop k =>
    simp only [Ensemble.step]
    split
    · rename_i r hk
      have hdrop := (hf.members r (List.mem_of_getElem? hk)).abandon
      refine ⟨hdrop.1, fun r' hr' => ?_⟩
      obtain hr' | hr' := List.mem_or_eq_of_mem_set hr'
      · exact hf.members_later hdrop.1 hdrop.2 hr'
      · cases hr'
    · exact hf

/-- **The state is in order** at all times, if it is so at first and all programs are sound. -/
theorem valid_play {s : σ} (hs : C.valid s) {es : List (Event σ α)}
    (he : ∀ p, .start p ∈ es → p.Sound C C.valid) :
    C.valid ((⟨s, []⟩ : Ensemble σ α).play es).state := by
  have hsafe : ∀ {f : Ensemble σ α}, f.Safe C → (f.play es).Safe C := by
    induction es with
    | nil => exact fun hf => hf
    | cons e es ih =>
      intro f hf
      exact ih (fun p hp => he p (List.mem_cons_of_mem _ hp))
        (hf.step fun p hp => he p (hp ▸ List.mem_cons_self))
  exact (hsafe ⟨hs, fun _ hr => (List.not_mem_nil hr).elim⟩).valid

end Ensemble

end LeaseLock
