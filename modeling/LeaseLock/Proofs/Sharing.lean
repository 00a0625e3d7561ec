import LeaseLock.Proofs.Plans
import Mathlib.Data.List.Forall2

/-!
# Sharing a chain

Plans go the same way whether their outermost calls share one chain or have a chain each.

## The model

The same events are played twice. In one run all outermost calls use the first chain, in the other
each has a new one. An entry has a number of its own in either run, and `Link` is the pair of them.
States are alike if all that is outside is the same and linked entries are (`State.Alike`); contexts
are if they name the same locks, with linked entries. What is left of a program in one run is like
what is left of it in the other if, whatever happens to states that are alike, the next turns of both
lead to such states again, and to the same results in the end (`Routine.Alike`). Links are never taken
back, and new ones are added when locks are taken.

## What is proved

`sharing_unobservable`: the runs have the same exchanges with the service, the same clock and world
outside, and all plans learn the same and end in the same way.
-/

namespace LeaseLock

variable {ω ν α β ε : Type}

/-! ### Likeness -/

/-- The numbers of an entry in both runs: on the shared chain, and on one of its own. -/
structure Link where
  shared : Nat
  /-- The chain in the other run. -/
  chain : Nat
  own : Nat

/-- The contexts name the same locks, with linked entries. -/
structure Context.Alike (links : List Link) (x x' : Context) : Prop where
  chain : x.chain = 0
  scopes : List.Forall₂ (fun e e' => e.name = e'.name ∧ ⟨e.id, x'.chain, e'.id⟩ ∈ links)
    x.scopes x'.scopes

/-- All that is outside is the same, and so are linked entries. -/
structure State.Alike (links : List Link) (s s' : State (Watch ω ν)) : Prop where
  clock : s.clock = s'.clock
  world : s.rest.world = s'.rest.world
  exchanges : s.rest.exchanges = s'.rest.exchanges
  notes : s.rest.notes = s'.rest.notes
  board : ∀ label,
    Option.Rel (Context.Alike links) (s.rest.board.get? label) (s'.rest.board.get? label)
  entry : ∀ l ∈ links,
    (s.chains.chain 0).entries.get? l.shared = (s'.chains.chain l.chain).entries.get? l.own
  below : ∀ l ∈ links, l.shared < (s.chains.chain 0).nextId
  below' : ∀ l ∈ links, l.own < (s'.chains.chain l.chain).nextId
  apart : ∀ l ∈ links, ∀ m ∈ links, l.shared = m.shared ↔ l.chain = m.chain ∧ l.own = m.own

mutual

/-- From states that are alike, both routines go on to such states, and to the same result. -/
def Routine.Alike : Routine (State (Watch ω ν)) α → List Link → Routine (State (Watch ω ν)) α → Prop
  | .done a, _, .done b => a = b
  | .paused resume abandon, links, .paused resume' abandon' =>
    ∀ links' s s', links ⊆ links' → State.Alike links' s s' →
      State.Alike links' (abandon s) (abandon' s') ∧ Turn.Alike (resume s) links' (resume' s')
  | .done _, _, .paused _ _ => False
  | .paused _ _, _, .done _ => False

/-- So they do after these turns. -/
def Turn.Alike : Turn (State (Watch ω ν)) α → List Link → Turn (State (Watch ω ν)) α → Prop
  | ⟨s, r⟩, links, ⟨s', r'⟩ =>
    ∃ links', links ⊆ links' ∧ State.Alike links' s s' ∧ r.Alike links' r'

end

/-- From states that are alike, both programs go on to such states, and to the same result. -/
def Program.Alike (links : List Link) (p p' : Program (State (Watch ω ν)) α) : Prop :=
  ∀ links' s s', links ⊆ links' → State.Alike links' s s' → (p s).Alike links' (p' s')

/-! ### Programs that are put together -/

section Programs

variable {links links' : List Link} {s s' : State (Watch ω ν)}

theorem Program.Alike.mono {p p' : Program (State (Watch ω ν)) α} (h : p.Alike links p')
    (hl : links ⊆ links') : p.Alike links' p' :=
  fun _ _ _ hl' hs => h _ _ _ (List.Subset.trans hl hl') hs

theorem Turn.Alike.mono {u u' : Turn (State (Watch ω ν)) α} (h : u.Alike links' u')
    (hl : links ⊆ links') : u.Alike links u' := by
  match u, u', h with
  | ⟨s, r⟩, ⟨s', r'⟩, ⟨more, hl', hs, hr⟩ => exact ⟨more, List.Subset.trans hl hl', hs, hr⟩

mutual

theorem Routine.Alike.bind {r r' : Routine (State (Watch ω ν)) α}
    {f f' : α → Program (State (Watch ω ν)) β} {links : List Link} (hr : r.Alike links r')
    (hf : ∀ a, (f a).Alike links (f' a)) (s s' : State (Watch ω ν)) (hs : s.Alike links s') :
    (r.bind f s).Alike links (r'.bind f' s') := by
  match r, r', hr with
  | .done a, .done b, hr =>
    rw [Routine.bind, Routine.bind, show a = b from hr]
    exact hf b links s s' (List.Subset.refl _) hs
  | .paused resume abandon, .paused resume' abandon', hr =>
    rw [Routine.bind, Routine.bind]
    refine ⟨links, List.Subset.refl _, hs, fun more s s' hl hs => ⟨(hr more s s' hl hs).1, ?_⟩⟩
    exact Turn.Alike.bind (hr more s s' hl hs).2 fun a => (hf a).mono hl

theorem Turn.Alike.bind {u u' : Turn (State (Watch ω ν)) α}
    {f f' : α → Program (State (Watch ω ν)) β} {links : List Link} (hu : u.Alike links u')
    (hf : ∀ a, (f a).Alike links (f' a)) : (u.bind f).Alike links (u'.bind f') := by
  match u, u', hu with
  | ⟨s, r⟩, ⟨s', r'⟩, ⟨more, hl, hs, hr⟩ =>
    rw [Turn.bind, Turn.bind]
    exact (Routine.Alike.bind hr (fun a => (hf a).mono hl) s s' hs).mono hl

end

/-- Both clean up in the same way. -/
def CleanAlike (links : List Link) (f f' : State (Watch ω ν) → State (Watch ω ν)) : Prop :=
  ∀ links' s s', links ⊆ links' → s.Alike links' s' → (f s).Alike links' (f' s')

theorem CleanAlike.mono {f f' : State (Watch ω ν) → State (Watch ω ν)} (h : CleanAlike links f f')
    (hl : links ⊆ links') : CleanAlike links' f f' :=
  fun _ _ _ hl' hs => h _ _ _ (List.Subset.trans hl hl') hs

mutual

theorem Routine.Alike.guarded {r r' : Routine (State (Watch ω ν)) α}
    {f f' : State (Watch ω ν) → State (Watch ω ν)} {links : List Link} (hr : r.Alike links r')
    (hf : CleanAlike links f f') : (r.guarded f).Alike links (r'.guarded f') := by
  match r, r', hr with
  | .done a, .done b, hr =>
    rw [Routine.guarded, Routine.guarded]
    exact hr
  | .paused resume abandon, .paused resume' abandon', hr =>
    rw [Routine.guarded, Routine.guarded]
    refine fun more s s' hl hs => ⟨hf more _ _ hl (hr more s s' hl hs).1, ?_⟩
    exact Turn.Alike.guarded (hr more s s' hl hs).2 (hf.mono hl)

theorem Turn.Alike.guarded {u u' : Turn (State (Watch ω ν)) α}
    {f f' : State (Watch ω ν) → State (Watch ω ν)} {links : List Link} (hu : u.Alike links u')
    (hf : CleanAlike links f f') : (u.guarded f).Alike links (u'.guarded f') := by
  match u, u', hu with
  | ⟨s, r⟩, ⟨s', r'⟩, ⟨more, hl, hs, hr⟩ =>
    rw [Turn.guarded, Turn.guarded]
    exact ⟨more, hl, hs, Routine.Alike.guarded hr (hf.mono hl)⟩

end

mutual

theorem Routine.Alike.limit {r r' : Routine (State (Watch ω ν)) α} {links : List Link}
    (hr : r.Alike links r') (n : Nat) : (r.limit n).Alike links (r'.limit n) := by
  match r, r', n, hr with
  | .done a, .done b, _, hr =>
    rw [Routine.limit, Routine.limit]
    exact congrArg some hr
  | .paused resume abandon, .paused resume' abandon', 0, hr =>
    rw [Routine.limit, Routine.limit]
    intro more s s' hl hs
    have ha := (hr more s s' hl hs).1
    exact ⟨ha, more, List.Subset.refl _, ha, rfl⟩
  | .paused resume abandon, .paused resume' abandon', n + 1, hr =>
    rw [Routine.limit, Routine.limit]
    refine fun more s s' hl hs => ⟨(hr more s s' hl hs).1, ?_⟩
    exact Turn.Alike.limit (hr more s s' hl hs).2 n

theorem Turn.Alike.limit {u u' : Turn (State (Watch ω ν)) α} {links : List Link}
    (hu : u.Alike links u') (n : Nat) : (u.limit n).Alike links (u'.limit n) := by
  match u, u', hu with
  | ⟨s, r⟩, ⟨s', r'⟩, ⟨more, hl, hs, hr⟩ =>
    rw [Turn.limit, Turn.limit]
    exact ⟨more, hl, hs, Routine.Alike.limit hr n⟩

end

theorem Program.Alike.pure (a : α) :
    (Pure.pure a : Program (State (Watch ω ν)) α).Alike links (Pure.pure a) :=
  fun links' _ _ _ hs => ⟨links', List.Subset.refl _, hs, rfl⟩

theorem Program.Alike.bind {p p' : Program (State (Watch ω ν)) α}
    {f f' : α → Program (State (Watch ω ν)) β} (hp : p.Alike links p')
    (hf : ∀ a, (f a).Alike links (f' a)) : (p >>= f).Alike links (p' >>= f') :=
  fun links' s s' hl hs => (hp links' s s' hl hs).bind fun a => (hf a).mono hl

mutual

theorem Routine.Alike.alongside {r r' : Routine (State (Watch ω ν)) (Except ε α)}
    {next next' : Program (State (Watch ω ν)) (Except ε β)}
    {drop drop' : State (Watch ω ν) → State (Watch ω ν)} {links : List Link}
    (hr : r.Alike links r') (hn : next.Alike links next') (hd : CleanAlike links drop drop')
    (s s' : State (Watch ω ν)) (hs : s.Alike links s') :
    (r.alongside next drop s).Alike links (r'.alongside next' drop' s') := by
  match r, r', hr with
  | .done a, .done b, hr =>
    cases (show a = b from hr)
    cases a with
    | error e =>
      rw [Routine.alongside, Routine.alongside]
      exact ⟨links, List.Subset.refl _, hd links s s' (List.Subset.refl _) hs, rfl⟩
    | ok a =>
      rw [Routine.alongside, Routine.alongside]
      exact (hn links s s' (List.Subset.refl _) hs).bind fun b => .pure _
  | .paused resume abandon, .paused resume' abandon', hr =>
    rw [Routine.alongside, Routine.alongside]
    -- The second ones have their turns, too.
    have hu := hn links s s' (List.Subset.refl _) hs
    generalize next s = u at hu
    generalize next' s' = u' at hu
    match u, u', hu with
    | ⟨t, .done b⟩, ⟨t', .done b'⟩, ⟨more, hl, ht, hb⟩ =>
      cases (show b = b' from hb)
      cases b with
      | error e => exact ⟨more, hl, (hr more t t' hl ht).1, rfl⟩
      | ok b =>
        refine ⟨more, hl, ht, fun more' s s' hl' hs => ?_⟩
        obtain ⟨ha, hu⟩ := hr more' s s' (List.Subset.trans hl hl') hs
        exact ⟨ha, hu.bind fun a => .pure _⟩
    | ⟨t, .paused resume₂ abandon₂⟩, ⟨t', .paused resume₂' abandon₂'⟩, ⟨more, hl, ht, hr₂⟩ =>
      refine ⟨more, hl, ht, fun more' s s' hl' hs => ?_⟩
      obtain ⟨ha, hu⟩ := hr more' s s' (List.Subset.trans hl hl') hs
      refine ⟨(hr₂ more' _ _ hl' ha).1, ?_⟩
      exact Turn.Alike.alongside hu
        (fun more s s' hl hs => (hr₂ more s s' (List.Subset.trans hl' hl) hs).2)
        (fun more s s' hl hs => (hr₂ more s s' (List.Subset.trans hl' hl) hs).1)

theorem Turn.Alike.alongside {u u' : Turn (State (Watch ω ν)) (Except ε α)}
    {next next' : Program (State (Watch ω ν)) (Except ε β)}
    {drop drop' : State (Watch ω ν) → State (Watch ω ν)} {links : List Link}
    (hu : u.Alike links u') (hn : next.Alike links next') (hd : CleanAlike links drop drop') :
    (u.alongside next drop).Alike links (u'.alongside next' drop') := by
  match u, u', hu with
  | ⟨s, r⟩, ⟨s', r'⟩, ⟨more, hl, hs, hr⟩ =>
    rw [Turn.alongside, Turn.alongside]
    exact (Routine.Alike.alongside hr (hn.mono hl) (hd.mono hl) s s' hs).mono hl

end

namespace Program.Alike

theorem step {f f' : State (Watch ω ν) → α × State (Watch ω ν)}
    (h : ∀ links' s s', links ⊆ links' → s.Alike links' s' →
      (f s).1 = (f' s').1 ∧ (f s).2.Alike links' (f' s').2) :
    (Program.step f).Alike links (Program.step f') :=
  fun links' s s' hl hs => ⟨links', List.Subset.refl _, (h links' s s' hl hs).2,
    (h links' s s' hl hs).1⟩

theorem look {f f' : State (Watch ω ν) → α}
    (h : ∀ links' s s', links ⊆ links' → s.Alike links' s' → f s = f' s') :
    (Program.look f).Alike links (Program.look f') :=
  step fun links' s s' hl hs => ⟨h links' s s' hl hs, hs⟩

theorem change {f f' : State (Watch ω ν) → State (Watch ω ν)} (h : CleanAlike links f f') :
    (Program.change f).Alike links (Program.change f') :=
  step fun links' s s' hl hs => ⟨rfl, h links' s s' hl hs⟩

theorem pause : (Program.pause : Program (State (Watch ω ν)) Unit).Alike links Program.pause :=
  fun links' _ _ _ hs => ⟨links', List.Subset.refl _, hs, fun more _ _ _ hs =>
    ⟨hs, more, List.Subset.refl _, hs, rfl⟩⟩

theorem pauses (n : Nat) :
    (Program.pauses n : Program (State (Watch ω ν)) Unit).Alike links (Program.pauses n) := by
  induction n with
  | zero => exact pure ()
  | succ n ih => exact bind pause fun _ => ih

theorem guarded {p p' : Program (State (Watch ω ν)) α}
    {f f' : State (Watch ω ν) → State (Watch ω ν)} (hp : p.Alike links p')
    (hf : CleanAlike links f f') : (p.guarded f).Alike links (p'.guarded f') :=
  fun links' s s' hl hs => Turn.Alike.guarded (hp links' s s' hl hs) (hf.mono hl)

theorem limit {p p' : Program (State (Watch ω ν)) α} (hp : p.Alike links p') (n : Nat) :
    (p.limit n).Alike links (p'.limit n) := by
  cases n with
  | zero => exact pure none
  | succ n => exact fun links' s s' hl hs => Turn.Alike.limit (hp links' s s' hl hs) n

theorem both {p p' : Program (State (Watch ω ν)) (Except ε α)}
    {q q' : Program (State (Watch ω ν)) (Except ε β)} (hp : p.Alike links p')
    (hq : q.Alike links q') : (Program.both p q).Alike links (Program.both p' q') :=
  fun links' s s' hl hs =>
    Turn.Alike.alongside (hp links' s s' hl hs) (hq.mono hl) fun _ _ _ _ hs => hs

/-- The service does the same in both runs. -/
theorem service (o : Outside ω) (q : Query) :
    (o.service (ν := ν) q).Alike links (o.service q) := by
  have hlook : ∀ f : Query → Clock → ω → Nat,
      (Program.look fun s : State (Watch ω ν) => f q s.clock s.rest.world).Alike links
        (Program.look fun s => f q s.clock s.rest.world) := by
    refine fun f => look fun _ s s' _ hs => ?_
    rw [hs.clock, hs.world]
  refine bind (hlook o.before) fun n => bind (pauses n) fun _ => bind (step ?_) fun a =>
    bind (hlook o.after) fun n => bind (pauses n) fun _ => pure a
  intro more s s' _ hs
  simp only [hs.clock, hs.world]
  refine ⟨trivial, { hs with clock := rfl, world := rfl, exchanges := ?_ }⟩
  exact congrArg (List.cons _) hs.exchanges

theorem converse (o : Outside ω) (d : Talk α) :
    (Program.converse (o.service (ν := ν)) d).Alike links (Program.converse o.service d) := by
  induction d with
  | done a => exact pure a
  | ask q next ih => exact bind (service o q) ih

end Program.Alike

end Programs

/-! ### Contexts -/

section Contexts

variable {links links' : List Link} {x x' : Context} {s s' : State (Watch ω ν)} {l : Link}

theorem Context.Alike.mono (h : x.Alike links x') (hl : links ⊆ links') : x.Alike links' x' :=
  ⟨h.chain, h.scopes.imp fun _ _ he => ⟨he.1, hl he.2⟩⟩

/-- The same for contexts that need not be there. -/
theorem alike_mono {y y' : Option Context} (h : Option.Rel (Context.Alike links) y y')
    (hl : links ⊆ links') : Option.Rel (Context.Alike links') y y' := by
  cases h with
  | none => exact .none
  | some h => exact .some (h.mono hl)

theorem Context.Alike.contains_eq (h : x.Alike links x') (name : String) :
    x.contains name = x'.contains name := by
  obtain ⟨n, scopes⟩ := x
  obtain ⟨n', scopes'⟩ := x'
  obtain ⟨-, h⟩ := h
  simp only [Context.contains] at h ⊢
  induction h with
  | nil => rfl
  | cons he _ ih => rw [List.any_cons, List.any_cons, he.1, ih]

theorem Context.Alike.depth_eq (h : x.Alike links x') : x.depth = x'.depth := h.scopes.length_eq

/-- The leases that may be extended have the same terms. -/
theorem Context.Alike.activeTerms_eq (h : x.Alike links x') (hs : s.Alike links s') :
    x.activeTerms s.chains = x'.activeTerms s'.chains := by
  obtain ⟨n, scopes⟩ := x
  obtain ⟨n', scopes'⟩ := x'
  obtain ⟨rfl, h⟩ := h
  cases h with
  | nil => rfl
  | cons he _ =>
    have hslot := congrArg (Option.map Entry.slot) (hs.entry _ he.2)
    simp only [Context.activeTerms, Chain.slot?]
    rw [hslot]

/-- What can be seen is the same. -/
theorem Context.Alike.view_eq (h : x.Alike links x') (hs : s.Alike links s') :
    x.view s = x'.view s' := by
  have hnow : s.now = s'.now := congrArg Clock.reading hs.clock
  rw [Context.view, Context.view, hnow, h.depth_eq, h.activeTerms_eq hs, funext h.contains_eq]

/-! ### Entries -/

/-- What is done to a chain only concerns one entry. -/
def Chain.Touches (id : Nat) (φ : Option Entry → Option Entry) (g : Chain → Chain) : Prop :=
  ∀ c, (g c).nextId = c.nextId ∧
    ∀ j, (g c).entries.get? j = if j = id then φ (c.entries.get? id) else c.entries.get? j

theorem touches_fill (id : Nat) (y : Slot) :
    Chain.Touches id (Option.map fun e => { e with slot := y }) (·.fill id y) := by
  intro c
  simp only [Chain.fill]
  cases he : c.entries.get? id with
  | none =>
    refine ⟨rfl, fun j => ?_⟩
    show c.entries.get? j = _
    split
    · subst j
      exact he
    · rfl
  | some e => exact ⟨rfl, fun j => Registry.get?_put j id _ _⟩

theorem touches_remove (id : Nat) : Chain.Touches id (fun _ => none) (·.remove id) :=
  fun c => ⟨rfl, fun j => Registry.get?_erase j id c.entries⟩

/-- Linked entries are changed in the same way. -/
theorem State.Alike.touch (hs : s.Alike links s') (hl : l ∈ links)
    {φ : Option Entry → Option Entry} {g g' : Chain → Chain} (hg : Chain.Touches l.shared φ g)
    (hg' : Chain.Touches l.own φ g') : (s.onChain 0 g).Alike links (s'.onChain l.chain g') where
  clock := hs.clock
  world := hs.world
  exchanges := hs.exchanges
  notes := hs.notes
  board := hs.board
  entry := by
    intro m hm
    have hap := hs.apart m hm l hl
    rw [chain_onChain, if_pos rfl, (hg _).2, chain_onChain]
    by_cases hml : m.shared = l.shared
    · obtain ⟨hc, ho⟩ := hap.1 hml
      rw [if_pos hml, if_pos hc, (hg' _).2, if_pos ho, hs.entry l hl]
    · rw [if_neg hml, hs.entry m hm]
      split
      · rename_i hc
        rw [(hg' _).2, if_neg fun ho => hml (hap.2 ⟨hc, ho⟩), hc]
      · rfl
  below := by
    intro m hm
    rw [chain_onChain, if_pos rfl, (hg _).1]
    exact hs.below m hm
  below' := by
    intro m hm
    rw [chain_onChain]
    split
    · rename_i hc
      rw [(hg' _).1, ← hc]
      exact hs.below' m hm
    · exact hs.below' m hm
  apart := hs.apart

/-- The entries that a task gets in both runs are linked from then on. -/
theorem State.Alike.enter (hs : s.Alike links s') (n : Nat) (name : String) (h : Handle) :
    (s.onChain 0 fun _ => ((s.chains.chain 0).enter name h).2).Alike
      (⟨(s.chains.chain 0).nextId, n, (s'.chains.chain n).nextId⟩ :: links)
      (s'.onChain n fun _ => ((s'.chains.chain n).enter name h).2) := by
  have hne : ∀ m ∈ links, m.shared ≠ (s.chains.chain 0).nextId :=
    fun m hm => Nat.ne_of_lt (hs.below m hm)
  have hne' : ∀ m ∈ links, m.chain = n → m.own ≠ (s'.chains.chain n).nextId :=
    fun m hm hc => Nat.ne_of_lt (hc ▸ hs.below' m hm)
  refine ⟨hs.clock, hs.world, hs.exchanges, hs.notes, fun label => ?_, ?_, ?_, ?_, ?_⟩
  · exact alike_mono (hs.board label) (List.subset_cons_self _ _)
  · refine List.forall_mem_cons.2 ⟨?_, fun m hm => ?_⟩
    · rw [chain_onChain, if_pos rfl, chain_onChain, if_pos rfl]
      exact (Registry.get?_put_self _ _ _).trans (Registry.get?_put_self _ _ _).symm
    · rw [chain_onChain, if_pos rfl, chain_onChain]
      refine (Registry.get?_put_of_ne (hne m hm) _ _).trans ((hs.entry m hm).trans ?_)
      split
      · rename_i hc
        rw [hc]
        exact (Registry.get?_put_of_ne (hne' m hm hc) _ _).symm
      · rfl
  · rw [chain_onChain, if_pos rfl]
    refine List.forall_mem_cons.2 ⟨Nat.lt_succ_self _, fun m hm => ?_⟩
    exact Nat.lt_succ_of_lt (hs.below m hm)
  · refine List.forall_mem_cons.2 ⟨?_, fun m hm => ?_⟩
    · rw [chain_onChain, if_pos rfl]
      exact Nat.lt_succ_self _
    · rw [chain_onChain]
      split
      · rename_i hc
        exact Nat.lt_succ_of_lt (hc ▸ hs.below' m hm)
      · exact hs.below' m hm
  · refine List.forall_mem_cons.2 ⟨List.forall_mem_cons.2 ⟨?_, fun m hm => ?_⟩, fun m hm =>
      List.forall_mem_cons.2 ⟨?_, hs.apart m hm⟩⟩
    · exact ⟨fun _ => ⟨rfl, rfl⟩, fun _ => rfl⟩
    · exact ⟨fun h => (hne m hm h.symm).elim, fun h => (hne' m hm h.1.symm h.2.symm).elim⟩
    · exact ⟨fun h => (hne m hm h).elim, fun h => (hne' m hm h.1 h.2).elim⟩

end Contexts

/-! ### Leases and executions -/

section Executions

variable {links : List Link} {x x' : Context} {o : Outside ω}

/-- **Extensions** come to the same. -/
theorem alike_extendActive (hx : x.Alike links x') (d e : Span) :
    (x.extendActive (o.service (ν := ν)) d e).Alike links (x'.extendActive o.service d e) := by
  obtain ⟨n, scopes⟩ := x
  obtain ⟨n', scopes'⟩ := x'
  obtain ⟨rfl, h⟩ := hx
  cases h with
  | nil => exact .pure _
  | @cons a a' _ _ ha _ =>
    have hfill (y : Slot) : CleanAlike (ω := ω) (ν := ν) links (·.onChain 0 (·.fill a.id y))
        (·.onChain n' (·.fill a'.id y)) :=
      fun _ _ _ hl hs => hs.touch (hl ha.2) (touches_fill a.id y) (touches_fill a'.id y)
    simp only [Context.extendActive]
    refine .bind (.look fun _ _ _ hl hs => hs.entry _ (hl ha.2)) fun entry => ?_
    split
    · exact .pure _
    · exact .pure _
    · exact .pure _
    · refine .bind (.change (hfill _)) fun _ =>
        .bind (.look fun _ _ _ _ hs => congrArg Clock.reading hs.clock) fun now =>
          .bind (.converse o _) fun r => .bind (.change (hfill _)) fun _ => .pure _

/-- Giving a lease back comes to the same. -/
theorem alike_release (hx : x.Alike links x') :
    (x.release (o.service (ν := ν))).Alike links (x'.release o.service) := by
  obtain ⟨n, scopes⟩ := x
  obtain ⟨n', scopes'⟩ := x'
  obtain ⟨rfl, h⟩ := hx
  cases h with
  | nil => exact .pure _
  | @cons a a' _ _ ha _ =>
    simp only [Context.release]
    refine .bind (.look fun _ _ _ hl hs => congrArg _ (hs.entry _ (hl ha.2))) fun slot =>
      .bind (.change fun _ _ _ hl hs =>
        hs.touch (hl ha.2) (touches_remove a.id) (touches_remove a'.id)) fun _ => ?_
    split
    · exact .bind (.look fun _ _ _ _ hs => congrArg Clock.reading hs.clock) fun now =>
        .bind (.converse o _) fun r => .pure _
    · exact .pure _

/-- Leaving takes out linked entries. -/
theorem alike_leave (hx : x.Alike links x') : CleanAlike (ω := ω) (ν := ν) links x.leave x'.leave := by
  obtain ⟨n, scopes⟩ := x
  obtain ⟨n', scopes'⟩ := x'
  obtain ⟨rfl, h⟩ := hx
  cases h with
  | nil => exact fun _ _ _ _ hs => hs
  | @cons a a' _ _ ha _ =>
    exact fun _ _ _ hl hs => hs.touch (hl ha.2) (touches_remove a.id) (touches_remove a'.id)

/-- Entering goes on in contexts that are alike. -/
theorem alike_enter (hx : x.Alike links x') (name : String) (h : Handle)
    {f f' : Context → Program (State (Watch ω ν)) α}
    (hf : ∀ links' z z', links ⊆ links' → z.Alike links' z' → (f z).Alike links' (f' z')) :
    (x.enter name h >>= f).Alike links (x'.enter name h >>= f') := by
  obtain ⟨n, scopes⟩ := x
  obtain ⟨n', scopes'⟩ := x'
  obtain ⟨rfl, hscopes⟩ := hx
  intro more s s' hl hs
  have hsub := List.subset_cons_self
    (⟨(s.chains.chain 0).nextId, n', (s'.chains.chain n').nextId⟩ : Link) more
  have hz : Context.Alike (⟨(s.chains.chain 0).nextId, n', (s'.chains.chain n').nextId⟩ :: more)
      ⟨0, ⟨(s.chains.chain 0).nextId, name⟩ :: scopes⟩
      ⟨n', ⟨(s'.chains.chain n').nextId, name⟩ :: scopes'⟩ :=
    ⟨rfl, .cons ⟨rfl, List.mem_cons_self⟩
      (hscopes.imp fun _ _ he => ⟨he.1, hsub (hl he.2)⟩)⟩
  have hf' := hf _ _ _ (List.Subset.trans hl hsub) hz
  exact (hf' _ _ _ (List.Subset.refl _) (hs.enter n' name h)).mono hsub

/-- The notes of tasks are no concern of states that are alike. -/
theorem alike_attended (hx : x.Alike links x') {p p' : Watched ω ν α} (hp : p.Alike links p') :
    (x.attended p).Alike links (x'.attended p') := by
  obtain ⟨n, scopes⟩ := x
  obtain ⟨n', scopes'⟩ := x'
  obtain ⟨-, h⟩ := hx
  have hstarted (k k' : Ticket) : CleanAlike (ω := ω) (ν := ν) links (State.started k)
      (State.started k') := fun _ _ _ _ hs => { hs with }
  have hended (k k' : Ticket) : CleanAlike (ω := ω) (ν := ν) links (State.ended k)
      (State.ended k') := fun _ _ _ _ hs => { hs with }
  cases h with
  | nil => exact hp
  | cons =>
    exact .bind (.change (hstarted _ _)) fun _ => .bind (.guarded hp (hended _ _)) fun a =>
      .bind (.change (hended _ _)) fun _ => .pure a

/-- **Executions** come to the same, if their tasks do. -/
theorem alike_execute (hx : x.Alike links x') (provider : Provider) (t : Terms)
    {task task' : Context → Program (State (Watch ω ν)) (Ending String α)}
    (ht : ∀ links' z z', links ⊆ links' → z.Alike links' z' →
      (task z).Alike links' (task' z')) :
    (execute o.service provider x t task).Alike links (execute o.service provider x' t task') := by
  unfold execute
  rw [hx.contains_eq]
  split
  · exact .bind (ht links x x' (List.Subset.refl _) hx) fun ending => .pure _
  · refine .bind (.look fun _ _ _ _ hs => congrArg Clock.reading hs.clock) fun now =>
      .bind (.converse o _) fun r => ?_
    split
    · exact .pure _
    · exact .pure _
    · refine alike_enter hx t.name _ fun more z z' hl hz => ?_
      exact .bind (.guarded (ht more z z' hl hz) (alike_leave hz)) fun ending =>
        .bind (alike_release hz) fun released => .pure _

end Executions

/-! ### Plans -/

section Plans

variable {links : List Link} {x x' : Option Context}

/-- Outermost calls have contexts without locks in both runs. -/
theorem alike_outermost {f f' : Context → Program (State (Watch ω ν)) α}
    (hf : ∀ links' y y', links ⊆ links' → y.Alike links' y' → (f y).Alike links' (f' y')) :
    (outermost true >>= f).Alike links (outermost false >>= f') := by
  intro more s s' hl hs
  have hy : Context.Alike more ⟨0, []⟩ ⟨s'.rest.nextChain, []⟩ := ⟨rfl, .nil⟩
  exact hf more _ _ hl hy more s s'.withNextChain (List.Subset.refl _) { hs with }

/-- Plans use contexts that are alike. -/
theorem alike_context (place : Plan.Place) (hx : Option.Rel (Context.Alike links) x x')
    {f f' : Context → Program (State (Watch ω ν)) α}
    (hf : ∀ links' y y', links ⊆ links' → y.Alike links' y' → (f y).Alike links' (f' y')) :
    (place.context true x >>= f).Alike links (place.context false x' >>= f') := by
  cases place with
  | current =>
    cases hx with
    | none => exact alike_outermost hf
    | some hy => exact hf links _ _ (List.Subset.refl _) hy
  | outermost => exact alike_outermost hf
  | pinned label =>
    intro more s s' hl hs
    have hb := hs.board label
    simp only [Plan.Place.context]
    rw [Program.bind_apply, Program.look_bind, Program.bind_apply, Program.look_bind]
    generalize s.rest.board.get? label = b at hb ⊢
    generalize s'.rest.board.get? label = b' at hb ⊢
    cases hb with
    | none => exact alike_outermost hf more s s' hl hs
    | some hy => exact hf more _ _ hl hy more s s' (List.Subset.refl _) hs

theorem alike_learned (n : Note ν) :
    CleanAlike (ω := ω) links (State.learned n) (State.learned n) :=
  fun _ _ _ _ hs => { hs with notes := congrArg (List.cons n) hs.notes }

theorem alike_acted (f : Clock → ω → Clock × ω) :
    CleanAlike (ν := ν) links (State.acted f) (State.acted f) := by
  intro more s s' _ hs
  have hf : f s.clock s.rest.world = f s'.clock s'.rest.world := by rw [hs.clock, hs.world]
  exact { hs with clock := congrArg Prod.fst hf, world := congrArg Prod.snd hf }

theorem alike_pin (label : String) (hx : Option.Rel (Context.Alike links) x x') :
    CleanAlike (ω := ω) (ν := ν) links (State.pin label x) (State.pin label x') := by
  intro more s s' hl hs
  cases hx with
  | none => exact hs
  | some hy =>
    refine { hs with board := fun l => ?_ }
    show Option.Rel _ ((s.rest.board.put label _).get? l) ((s'.rest.board.put label _).get? l)
    rw [Registry.get?_put, Registry.get?_put]
    split
    · exact .some (hy.mono hl)
    · exact hs.board l

/-- **Plans** go the same way in both runs. -/
theorem alike_plan (o : Outside ω) (plan : Plan ω ν) (hx : Option.Rel (Context.Alike links) x x') :
    (plan.program o true x).Alike links (plan.program o false x') := by
  induction plan generalizing links x x' with
  | done ending => exact .pure ending
  | act f next ih => exact .bind (.change (alike_acted f)) fun _ => ih hx
  | pause next ih => exact .bind .pause fun _ => ih hx
  | look place next ih =>
    refine alike_context place hx fun more y y' hl hy => ?_
    exact .bind (.look fun _ _ _ hl hs => (hy.mono hl).view_eq hs) fun v =>
      .bind (.change (alike_learned _)) fun _ => ih v (alike_mono hx hl)
  | pin label next ih => exact .bind (.change (alike_pin label hx)) fun _ => ih hx
  | extend place d e next ih =>
    refine alike_context place hx fun more y y' hl hy => ?_
    exact .bind (alike_extendActive hy d e) fun r =>
      .bind (.change (alike_learned _)) fun _ => ih r (alike_mono hx hl)
  | lock place provider t task next ih_task ih =>
    refine alike_context place hx fun more y y' hl hy => ?_
    refine .bind (alike_execute hy provider t fun more' z z' hl' hz => ?_) fun c =>
      .bind (.change (alike_learned _)) fun _ => ih c (alike_mono hx hl)
    rw [hy.contains_eq]
    split
    · exact ih_task (.some hz)
    · exact alike_attended hz (ih_task (.some hz))
  | both first second next ih₁ ih₂ ih =>
    exact .bind (.both (.bind (ih₁ hx) fun _ => .pure _) (.bind (ih₂ hx) fun _ => .pure _)) fun r =>
      ih r hx
  | limit n body next ih_body ih => exact .bind (.limit (ih_body hx) n) fun r => ih r hx

end Plans

/-! ### Crowds -/

section Lists

variable {R : α → β → Prop} {l : List α} {l' : List β}

theorem forall₂_getElem? (h : List.Forall₂ R l l') (k : Nat) : Option.Rel R l[k]? l'[k]? := by
  induction h generalizing k with
  | nil => exact .none
  | cons hab _ ih =>
    cases k with
    | zero => exact .some hab
    | succ k => exact ih k

theorem forall₂_set (h : List.Forall₂ R l l') (k : Nat) {a : α} {b : β} (hab : R a b) :
    List.Forall₂ R (l.set k a) (l'.set k b) := by
  induction h generalizing k with
  | nil => exact .nil
  | cons hcd h ih =>
    cases k with
    | zero => exact .cons hab h
    | succ k => exact .cons hcd (ih k)

end Lists

section Rests

variable {links links' : List Link} {r r' : Routine (State (Watch ω ν)) α} {s s' : State (Watch ω ν)}

theorem Routine.Alike.mono (h : r.Alike links r') (hl : links ⊆ links') : r.Alike links' r' := by
  match r, r', h with
  | .done a, .done b, h => exact h
  | .paused _ _, .paused _ _, h =>
    exact fun more s s' hl' hs => h more s s' (List.Subset.trans hl hl') hs

theorem Routine.Alike.turn (h : r.Alike links r') (hs : s.Alike links s') :
    (r.turn s).Alike links (r'.turn s') := by
  match r, r', h with
  | .done a, .done b, h => exact ⟨links, List.Subset.refl _, hs, h⟩
  | .paused _ _, .paused _ _, h => exact (h links s s' (List.Subset.refl _) hs).2

theorem Routine.Alike.abandon (h : r.Alike links r') (hs : s.Alike links s') :
    (r.abandon s).Alike links (r'.abandon s') := by
  match r, r', h with
  | .done a, .done b, h => exact hs
  | .paused _ _, .paused _ _, h => exact (h links s s' (List.Subset.refl _) hs).1

end Rests

namespace Crowd

/-- What is left of a plan in one run is like what is left of it in the other. -/
abbrev AlikeRest (links : List Link)
    (m m' : Option (Routine (State (Watch ω ν)) (Ending String ν))) : Prop :=
  Option.Rel (fun r r' => r.Alike links r') m m'

/-- The states are alike, and so are the plans. -/
structure Alike (links : List Link) (f f' : Crowd ω ν) : Prop where
  state : f.state.Alike links f'.state
  members : List.Forall₂ (AlikeRest links) f.members f'.members

variable {links links' : List Link} {f f' : Crowd ω ν}
  {m m' : Option (Routine (State (Watch ω ν)) (Ending String ν))}

theorem AlikeRest.mono (h : AlikeRest links m m') (hl : links ⊆ links') : AlikeRest links' m m' := by
  cases h with
  | none => exact .none
  | some h => exact .some (h.mono hl)

theorem AlikeRest.endingOf_eq (h : AlikeRest links m m') : endingOf m = endingOf m' := by
  match m, m', h with
  | none, none, _ => rfl
  | some (.done a), some (.done b), .some h => rw [show a = b from h]
  | some (.paused _ _), some (.paused _ _), .some _ => rfl

theorem Alike.endings_eq (h : f.Alike links f') : f.endings = f'.endings := by
  obtain ⟨s, ms⟩ := f
  obtain ⟨s', ms'⟩ := f'
  obtain ⟨-, h⟩ := h
  simp only [endings] at h ⊢
  induction h with
  | nil => rfl
  | cons hm _ ih => rw [List.map_cons, List.map_cons, hm.endingOf_eq, ih]

/-- **Each event** leaves crowds alike. -/
theorem Alike.step (h : f.Alike links f') (o : Outside ω) (e : Event ω ν) :
    ∃ links', (f.step o true e).Alike links' (f'.step o false e) := by
  cases e with
  | start plan =>
    have hu := alike_plan o plan .none links f.state f'.state (List.Subset.refl _) h.state
    simp only [Crowd.step]
    generalize plan.program o true none f.state = u at hu ⊢
    generalize plan.program o false none f'.state = u' at hu ⊢
    match u, u', hu with
    | ⟨s, r⟩, ⟨s', r'⟩, ⟨more, hl, hs, hr⟩ =>
      exact ⟨more, hs, List.rel_append (h.members.imp fun _ _ hm => hm.mono hl)
        (.cons (.some hr) .nil)⟩
  | turn k =>
    have hm := forall₂_getElem? h.members k
    simp only [Crowd.step]
    generalize f.members[k]? = m at hm ⊢
    generalize f'.members[k]? = m' at hm ⊢
    match m, m', hm with
    | none, none, _ => exact ⟨links, h⟩
    | some none, some none, _ => exact ⟨links, h⟩
    | some (some r), some (some r'), .some (.some hr) =>
      have hu := hr.turn h.state
      simp only
      generalize r.turn f.state = u at hu ⊢
      generalize r'.turn f'.state = u' at hu ⊢
      match u, u', hu with
      | ⟨s, r⟩, ⟨s', r'⟩, ⟨more, hl, hs, hr⟩ =>
        exact ⟨more, hs, forall₂_set (h.members.imp fun _ _ hm => hm.mono hl) k (.some hr)⟩
  | drop k =>
    have hm := forall₂_getElem? h.members k
    simp only [Crowd.step]
    generalize f.members[k]? = m at hm ⊢
    generalize f'.members[k]? = m' at hm ⊢
    match m, m', hm with
    | none, none, _ => exact ⟨links, h⟩
    | some none, some none, _ => exact ⟨links, h⟩
    | some (some r), some (some r'), .some (.some hr) =>
      exact ⟨links, hr.abandon h.state, forall₂_set h.members k .none⟩

theorem Alike.play (h : f.Alike links f') (o : Outside ω) (es : List (Event ω ν)) :
    ∃ links', (f.play o true es).Alike links' (f'.play o false es) := by
  induction es generalizing f f' links with
  | nil => exact ⟨links, h⟩
  | cons e es ih =>
    obtain ⟨links', h'⟩ := h.step o e
    exact ih h'

theorem alike_fresh (c : Clock) (w : ω) : Alike [] (fresh c w : Crowd ω ν) (fresh c w) where
  state := by
    refine ⟨rfl, rfl, rfl, rfl, fun _ => .none, ?_, ?_, ?_, ?_⟩
    all_goals exact fun l hl => (List.not_mem_nil hl).elim
  members := .nil

/-- **Nobody can tell** whether outermost calls share a chain: after the same events, the service was
asked the same and answered the same, the clock and the world outside are the same, all that plans
have seen and what their extensions and locked calls came to is the same, and they have ended in the
same way. -/
theorem sharing_unobservable (o : Outside ω) (c : Clock) (w : ω) (es : List (Event ω ν)) :
    let f := (fresh c w).play o true es
    let f' := (fresh c w).play o false es
    f.state.rest.exchanges = f'.state.rest.exchanges ∧ f.state.rest.notes = f'.state.rest.notes ∧
      f.endings = f'.endings ∧ f.state.clock = f'.state.clock ∧
      f.state.rest.world = f'.state.rest.world := by
  intro f f'
  obtain ⟨links, h⟩ := (alike_fresh c w).play o es
  exact ⟨h.state.exchanges, h.state.notes, h.endings_eq, h.state.clock, h.state.world⟩

end Crowd

end LeaseLock
