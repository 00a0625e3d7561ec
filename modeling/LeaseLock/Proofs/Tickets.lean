import LeaseLock.Proofs.Courses
import LeaseLock.Proofs.Plans

/-!
# Tickets

What programs owe that take locks, so that no entry of theirs stays behind.

## The model

A task that has taken a lock has a ticket: the number of its entry, and the chain that this is on.
`entered` and `left` are notes of the tickets that were handed out and of those whose tasks have ended
or were given up. Chains are in order if their entries are those of the tickets that are still out
(`State.Tidy`).

What is left of a program between two of its turns owes some tickets, those of its tasks that go on
(`Routine.Minds`): in each turn and when it is given up, all tickets that it owes, or has got in that
turn, are handed in or owed from then on, and chains that were in order still are (`Passes`). That is
a statement on what remains to be done only, so programs that share chains do not get in each other's
way.

## What is proved

Handing a ticket out together with its entry, and handing it in, keeps chains in order. Programs that
are put together owe what their parts do; a routine that is guarded by handing a ticket in owes that
ticket on top (`Routine.Minds.settle`). Programs that bring in no entry and take none away
(`Program.IsQuiet`), such as extensions, owe nothing.
-/

namespace LeaseLock

/-! ### The numbers of entries -/

/-- The numbers of the entries. -/
def Chain.ids (c : Chain) : List Nat := c.entries.map Prod.fst

namespace Registry

variable {κ ν : Type} [DecidableEq κ]

theorem keys_put_of_get? {k : κ} {v : ν} {r : Registry κ ν} (h : get? k r = some v) (w : ν) :
    (put k w r).map Prod.fst = r.map Prod.fst := by
  induction r with
  | nil => cases h
  | cons e r ih =>
    by_cases hk : e.1 = k
    · simp [put, hk]
    · rw [get?, if_neg hk] at h
      simp [put, hk, ih h]

theorem keys_put_of_not_mem {k : κ} {r : Registry κ ν} (h : k ∉ r.map Prod.fst) (w : ν) :
    (put k w r).map Prod.fst = r.map Prod.fst ++ [k] := by
  induction r with
  | nil => rfl
  | cons e r ih =>
    rw [List.map_cons, List.mem_cons, not_or] at h
    simp [put, Ne.symm h.1, ih h.2]

theorem keys_erase (k : κ) (r : Registry κ ν) :
    (erase k r).map Prod.fst = (r.map Prod.fst).filter (· ≠ k) := by
  induction r with
  | nil => rfl
  | cons e r ih => by_cases hk : e.1 = k <;> simp [erase, hk, ih]

end Registry

namespace Chain

variable (c : Chain)

theorem ids_fill (id : Nat) (x : Slot) : (c.fill id x).ids = c.ids := by
  unfold fill
  split
  · rename_i e he
    exact Registry.keys_put_of_get? he _
  · rfl

theorem nextId_fill (id : Nat) (x : Slot) : (c.fill id x).nextId = c.nextId := by
  unfold fill
  split <;> rfl

theorem ids_enter (name : String) (h : Handle) (hc : c.nextId ∉ c.ids) :
    (c.enter name h).2.ids = c.ids ++ [c.nextId] := Registry.keys_put_of_not_mem hc _

theorem ids_remove (id : Nat) : (c.remove id).ids = c.ids.filter (· ≠ id) :=
  Registry.keys_erase id c.entries

theorem isEmpty_of_ids (h : c.ids = []) : c.isEmpty = true := by
  rw [isEmpty, List.isEmpty_iff]
  exact List.map_eq_nil_iff.1 h

end Chain

/-! ### What is required -/

variable {ω ν α β : Type}

/-- The entries of the chains are those of the tickets that were handed out and not handed in. -/
structure State.Tidy (s : State (Watch ω ν)) : Prop where
  /-- There is an entry for each of these tickets, and no other. -/
  accounted : ∀ n id, id ∈ (s.chains.chain n).ids ↔
    ⟨n, id⟩ ∈ s.rest.entered ∧ (⟨n, id⟩ : Ticket) ∉ s.rest.left
  /-- The entries of a chain have different numbers. -/
  distinct : ∀ n, (s.chains.chain n).ids.Nodup
  /-- No number is used again. -/
  unused : s.rest.entered.Nodup
  /-- The number for the next entry is above all that were used. -/
  below : ∀ n id, (⟨n, id⟩ : Ticket) ∈ s.rest.entered → id < (s.chains.chain n).nextId
  /-- Only tickets that were handed out are handed in. -/
  known : ∀ k ∈ s.rest.left, k ∈ s.rest.entered

/-- No entry comes or goes. -/
structure Quiet (s s' : State (Watch ω ν)) : Prop where
  ids : ∀ n, (s'.chains.chain n).ids = (s.chains.chain n).ids
  nextId : ∀ n, (s'.chains.chain n).nextId = (s.chains.chain n).nextId
  entered : s'.rest.entered = s.rest.entered
  left : s'.rest.left = s.rest.left

/-! ### Programs without entries of their own -/

theorem Quiet.refl (s : State (Watch ω ν)) : Quiet s s := ⟨fun _ => rfl, fun _ => rfl, rfl, rfl⟩

theorem Quiet.trans {s s' s'' : State (Watch ω ν)} (h : Quiet s s') (h' : Quiet s' s'') :
    Quiet s s'' :=
  ⟨fun n => (h'.ids n).trans (h.ids n), fun n => (h'.nextId n).trans (h.nextId n),
    h'.entered.trans h.entered, h'.left.trans h.left⟩

theorem tolerant_quiet : Tolerant (@Quiet ω ν) fun s s' => s' = s where
  refl := Quiet.refl
  trans := Quiet.trans
  drops_refl := fun _ => rfl
  drops_trans := fun h h' => h'.trans h
  of_drops := by
    intro s s' h
    rw [h]
    exact Quiet.refl s

/-- The program brings in no entry and takes none away, and giving it up does nothing at all. -/
abbrev Program.IsQuiet (p : Program (State (Watch ω ν)) α) : Prop := p.Goes Quiet fun s s' => s' = s

/-- The service only does what it does when it answers. -/
theorem goes_service {turns drops : State (Watch ω ν) → State (Watch ω ν) → Prop}
    (hl : Tolerant turns drops) {o : Outside ω} {q : Query}
    (hr : (o.reply (ν := ν) q).Goes turns drops) : (o.service (ν := ν) q).Goes turns drops :=
  .bind hl (.look hl _) fun n => .bind hl (.pauses hl n) fun _ => .bind hl hr fun a =>
    .bind hl (.look hl _) fun n => .bind hl (.pauses hl n) fun _ => .pure hl a

theorem quiet_service (o : Outside ω) (q : Query) : (o.service (ν := ν) q).IsQuiet :=
  goes_service tolerant_quiet (.step fun _ => ⟨fun _ => rfl, fun _ => rfl, rfl, rfl⟩)

theorem quiet_converse (o : Outside ω) (d : Talk α) :
    (Program.converse (o.service (ν := ν)) d).IsQuiet :=
  .converse tolerant_quiet (quiet_service o) d

theorem quiet_fill (n id : Nat) (x : Slot) (s : State (Watch ω ν)) :
    Quiet s (s.onChain n (·.fill id x)) := by
  refine ⟨fun j => ?_, fun j => ?_, rfl, rfl⟩ <;> rw [chain_onChain] <;> split
  · subst j
    exact Chain.ids_fill ..
  · rfl
  · subst j
    exact Chain.nextId_fill ..
  · rfl

/-- **Extensions** bring in no entry and take none away. -/
theorem quiet_extendActive (o : Outside ω) (x : Context) (d e : Span) :
    (x.extendActive (o.service (ν := ν)) d e).IsQuiet :=
  goes_extendActive tolerant_quiet (quiet_service o) quiet_fill x d e

/-! ### Tickets that are owed -/

/-- From one state to another, all tickets that were owed before, and all that are handed out on the
way, are handed in or owed afterwards. -/
structure Passes (owed : List Ticket) (s : State (Watch ω ν)) (owed' : List Ticket)
    (s' : State (Watch ω ν)) : Prop where
  tidy : s.Tidy → s'.Tidy
  entered : s.rest.entered ⊆ s'.rest.entered
  left : s.rest.left ⊆ s'.rest.left
  known : owed' ⊆ s'.rest.entered
  kept : ∀ k, k ∈ owed ∨ k ∈ s'.rest.entered ∧ k ∉ s.rest.entered → k ∈ s'.rest.left ∨ k ∈ owed'

mutual

/-- What is left of a program owes tickets: it hands them in when it is given up, and until it ends.
-/
def Routine.Minds : Routine (State (Watch ω ν)) α → List Ticket → Prop
  | .done _, owed => owed = []
  | .paused resume abandon, owed => ∀ s, owed ⊆ s.rest.entered →
    Passes owed s [] (abandon s) ∧ Turn.Minds (resume s) owed s

/-- The turn was taken in a state, with these tickets owed. -/
def Turn.Minds : Turn (State (Watch ω ν)) α → List Ticket → State (Watch ω ν) → Prop
  | ⟨s', r⟩, owed, s => ∃ owed', Passes owed s owed' s' ∧ r.Minds owed'

end

/-- The program hands in all tickets that are handed out on its way. -/
def Program.Minds (p : Program (State (Watch ω ν)) α) : Prop := ∀ s, (p s).Minds [] s

section Minds

variable {s s' s'' : State (Watch ω ν)} {owed owed' owed'' : List Ticket} {k : Ticket}

theorem Passes.refl (h : owed ⊆ s.rest.entered) : Passes owed s owed s where
  tidy := id
  entered := List.Subset.refl _
  left := List.Subset.refl _
  known := h
  kept := fun _ hk => .inr (hk.resolve_right fun hk => hk.2 hk.1)

theorem Passes.trans (h : Passes owed s owed' s') (h' : Passes owed' s' owed'' s'') :
    Passes owed s owed'' s'' where
  tidy := h'.tidy ∘ h.tidy
  entered := List.Subset.trans h.entered h'.entered
  left := List.Subset.trans h.left h'.left
  known := h'.known
  kept := by
    intro k hk
    by_cases hk' : k ∈ owed ∨ k ∈ s'.rest.entered ∧ k ∉ s.rest.entered
    · obtain hl | ho := h.kept k hk'
      · exact .inl (h'.left hl)
      · exact h'.kept k (.inl ho)
    · -- It is handed out in the second part.
      obtain ho | ⟨hs'', hs⟩ := hk
      · exact (hk' (.inl ho)).elim
      · exact h'.kept k (.inr ⟨hs'', fun hs' => hk' (.inr ⟨hs', hs⟩)⟩)

/-- Other tickets may be owed all along. -/
theorem Passes.beside {more owing owing' : List Ticket} (h : Passes owed s owed' s')
    (hm : more ⊆ s.rest.entered) (ho : ∀ k ∈ owing, k ∈ owed ∨ k ∈ more)
    (ho' : ∀ k, k ∈ owing' ↔ k ∈ owed' ∨ k ∈ more) : Passes owing s owing' s' where
  tidy := h.tidy
  entered := h.entered
  left := h.left
  known := fun k hk => ((ho' k).1 hk).elim (fun hk => h.known hk) fun hk => h.entered (hm hk)
  kept := by
    intro k hk
    rw [ho' k, ← or_assoc]
    obtain hk | hk := hk
    · exact (ho k hk).imp_left fun hk => h.kept k (.inl hk)
    · exact .inl (h.kept k (.inr hk))

theorem Passes.append {more : List Ticket} (h : Passes owed s owed' s')
    (hm : more ⊆ s.rest.entered) : Passes (owed ++ more) s (owed' ++ more) s' :=
  h.beside hm (fun _ => List.mem_append.1) fun _ => List.mem_append

theorem Passes.prepend {more : List Ticket} (h : Passes owed s owed' s')
    (hm : more ⊆ s.rest.entered) : Passes (more ++ owed) s (more ++ owed') s' :=
  h.beside hm (fun _ hk => (List.mem_append.1 hk).symm) fun _ => List.mem_append.trans or_comm

theorem Passes.of_quiet (h : Quiet s s') : Passes [] s [] s' where
  tidy := by
    intro ht
    constructor
    · intro n id
      rw [h.ids, h.entered, h.left]
      exact ht.accounted n id
    · intro n
      rw [h.ids]
      exact ht.distinct n
    · rw [h.entered]
      exact ht.unused
    · intro n id
      rw [h.entered, h.nextId]
      exact ht.below n id
    · rw [h.entered, h.left]
      exact ht.known
  entered := h.entered ▸ List.Subset.refl _
  left := h.left ▸ List.Subset.refl _
  known := List.nil_subset _
  kept := by
    rw [h.entered]
    exact fun k hk => (hk.resolve_left List.not_mem_nil).elim fun h h' => (h' h).elim

/-- What was done before the turn comes on top. -/
theorem Turn.Minds.before {u : Turn (State (Watch ω ν)) α} (h : Passes owed s owed' s')
    (hu : u.Minds owed' s') : u.Minds owed s := by
  cases u with
  | mk s'' r =>
    obtain ⟨owed'', hp, hr⟩ := hu
    exact ⟨owed'', h.trans hp, hr⟩

end Minds

/-! ### Handing tickets out and in -/

section Entries

variable {s : State (Watch ω ν)} {k : Ticket}

/-- A task has got its entry, with the lease in its slot, and its ticket. -/
def State.handOut (n : Nat) (name : String) (h : Handle) (s : State (Watch ω ν)) :
    State (Watch ω ν) :=
  (s.onChain n fun _ => ((s.chains.chain n).enter name h).2).started
    ⟨n, (s.chains.chain n).nextId⟩

/-- A task has handed in its ticket, and its entry is gone. -/
def State.handIn (k : Ticket) (s : State (Watch ω ν)) : State (Watch ω ν) :=
  (s.ended k).onChain k.chain (·.remove k.id)

theorem chain_handOut (n : Nat) (name : String) (h : Handle) (s : State (Watch ω ν)) (j : Nat) :
    (s.handOut n name h).chains.chain j =
      if j = n then ((s.chains.chain n).enter name h).2 else s.chains.chain j :=
  chain_onChain s j n fun _ => ((s.chains.chain n).enter name h).2

theorem chain_handIn (k : Ticket) (s : State (Watch ω ν)) (j : Nat) :
    (s.handIn k).chains.chain j =
      if j = k.chain then (s.chains.chain k.chain).remove k.id else s.chains.chain j :=
  chain_onChain (s.ended k) j k.chain _

theorem State.Tidy.nextId_not_mem (ht : s.Tidy) (n : Nat) :
    (⟨n, (s.chains.chain n).nextId⟩ : Ticket) ∉ s.rest.entered :=
  fun hn => Nat.lt_irrefl _ (ht.below _ _ hn)

theorem State.Tidy.handOut (ht : s.Tidy) (n : Nat) (name : String) (h : Handle) :
    (s.handOut n name h).Tidy := by
  have hnew := ht.nextId_not_mem n
  have hids := (s.chains.chain n).ids_enter name h fun hc => hnew ((ht.accounted _ _).1 hc).1
  have hentered : (s.handOut n name h).rest.entered =
      ⟨n, (s.chains.chain n).nextId⟩ :: s.rest.entered := rfl
  have hleft : (s.handOut n name h).rest.left = s.rest.left := rfl
  constructor
  · intro j id
    rw [chain_handOut, hentered, hleft, List.mem_cons, Ticket.mk.injEq]
    split
    · subst j
      rw [hids, List.mem_append, List.mem_singleton, ht.accounted]
      constructor
      · rintro (⟨he, hl⟩ | rfl)
        · exact ⟨.inr he, hl⟩
        · exact ⟨.inl ⟨rfl, rfl⟩, fun hl => hnew (ht.known _ hl)⟩
      · rintro ⟨⟨-, rfl⟩ | he, hl⟩
        · exact .inr rfl
        · exact .inl ⟨he, hl⟩
    · rename_i hj
      rw [ht.accounted, or_iff_right fun h => hj h.1]
  · intro j
    rw [chain_handOut]
    split
    · rw [hids]
      refine List.nodup_append.2 ⟨ht.distinct n, by simp, fun a ha b hb hab => ?_⟩
      rw [hab, List.mem_singleton.1 hb] at ha
      exact hnew ((ht.accounted _ _).1 ha).1
    · exact ht.distinct j
  · exact List.nodup_cons.2 ⟨hnew, ht.unused⟩
  · intro j id
    rw [hentered, chain_handOut, List.mem_cons, Ticket.mk.injEq]
    split
    · subst j
      rintro (⟨-, rfl⟩ | he)
      · exact Nat.lt_succ_self _
      · exact Nat.lt_succ_of_lt (ht.below _ _ he)
    · rename_i hj
      exact fun he => ht.below j id (he.resolve_left fun he => hj he.1)
  · exact fun k hk => List.mem_cons_of_mem _ (ht.known k hk)

theorem State.Tidy.handIn (ht : s.Tidy) (hk : k ∈ s.rest.entered) : (s.handIn k).Tidy := by
  have hentered : (s.handIn k).rest.entered = s.rest.entered := rfl
  have hleft : (s.handIn k).rest.left = k :: s.rest.left := rfl
  constructor
  · intro j id
    rw [chain_handIn, hentered, hleft, List.mem_cons, not_or]
    split
    · subst j
      have hid : (⟨k.chain, id⟩ : Ticket) = k ↔ id = k.id := by
        cases k
        simp
      rw [Chain.ids_remove, List.mem_filter, ht.accounted, decide_eq_true_eq, hid, and_assoc]
      exact and_congr_right fun _ => and_comm
    · rename_i hj
      rw [ht.accounted, and_iff_right fun h => hj (congrArg Ticket.chain h)]
  · intro j
    rw [chain_handIn]
    split
    · rw [Chain.ids_remove]
      exact (ht.distinct _).filter _
    · exact ht.distinct j
  · exact ht.unused
  · intro j id
    rw [hentered, chain_handIn]
    split
    · subst j
      exact ht.below _ id
    · exact ht.below j id
  · exact fun j hj => (List.mem_cons.1 hj).elim (fun h => h ▸ hk) (ht.known j)

/-- A task gets a ticket that nobody had before. -/
theorem passes_handOut (n : Nat) (name : String) (h : Handle) (s : State (Watch ω ν)) :
    Passes [] s [⟨n, (s.chains.chain n).nextId⟩] (s.handOut n name h) where
  tidy := fun ht => ht.handOut n name h
  entered := List.subset_cons_self _ _
  left := List.Subset.refl _
  known := List.cons_subset_cons _ (List.nil_subset _)
  kept := by
    rintro k (hk | ⟨hk, hk'⟩)
    · exact (List.not_mem_nil hk).elim
    · exact .inr (List.mem_singleton.2 ((List.mem_cons.1 hk).resolve_right hk'))

/-- A task that ends, or is given up, hands in its ticket. -/
theorem passes_handIn (hk : k ∈ s.rest.entered) : Passes [k] s [] (s.handIn k) where
  tidy := fun ht => ht.handIn hk
  entered := List.Subset.refl _
  left := List.subset_cons_self _ _
  known := List.nil_subset _
  kept := by
    rintro j (hj | ⟨hj, hj'⟩)
    · exact .inl (List.mem_cons.2 (.inl (List.mem_singleton.1 hj)))
    · exact (hj' hj).elim

end Entries

/-! ### What programs owe -/

section Programs

variable {k : Ticket}

mutual

theorem Routine.minds_of_quiet {r : Routine (State (Watch ω ν)) α}
    (h : r.Goes Quiet fun s s' => s' = s) : r.Minds [] := by
  match r, h with
  | .done a, _ => rfl
  | .paused resume abandon, h =>
    intro s _
    refine ⟨?_, Turn.minds_of_quiet (h.2 s)⟩
    rw [h.1 s]
    exact Passes.refl (List.nil_subset _)

theorem Turn.minds_of_quiet {u : Turn (State (Watch ω ν)) α} {s : State (Watch ω ν)}
    (h : u.Goes Quiet (fun s s' => s' = s) s) : u.Minds [] s := by
  match u, h with
  | ⟨s', r⟩, h => exact ⟨[], Passes.of_quiet h.1, Routine.minds_of_quiet h.2⟩

end

mutual

theorem Routine.Minds.bind {r : Routine (State (Watch ω ν)) α}
    {f : α → Program (State (Watch ω ν)) β} {owed : List Ticket} (hr : r.Minds owed)
    (hf : ∀ a, (f a).Minds) (s : State (Watch ω ν)) (hs : owed ⊆ s.rest.entered) :
    (r.bind f s).Minds owed s := by
  match r, hr with
  | .done a, hr =>
    rw [Routine.bind, show owed = [] from hr]
    exact hf a s
  | .paused resume abandon, hr =>
    rw [Routine.bind]
    refine ⟨owed, Passes.refl hs, fun s hs => ⟨(hr s hs).1, ?_⟩⟩
    exact Turn.Minds.bind (hr s hs).2 hf

theorem Turn.Minds.bind {u : Turn (State (Watch ω ν)) α}
    {f : α → Program (State (Watch ω ν)) β} {owed : List Ticket} {s : State (Watch ω ν)}
    (hu : u.Minds owed s) (hf : ∀ a, (f a).Minds) : (u.bind f).Minds owed s := by
  match u, hu with
  | ⟨s', r⟩, ⟨owed', hp, hr⟩ =>
    rw [Turn.bind]
    exact (Routine.Minds.bind hr hf s' hp.known).before hp

end

mutual

/-- **A ticket on top.** It is handed in when the routine is given up, and after its end. -/
theorem Routine.Minds.settle {r : Routine (State (Watch ω ν)) α}
    {cleanup : State (Watch ω ν) → State (Watch ω ν)} {f : α → Program (State (Watch ω ν)) β}
    {owed : List Ticket} (hr : r.Minds owed)
    (hc : ∀ s, k ∈ s.rest.entered → Passes [k] s [] (cleanup s))
    (hf : ∀ a s, k ∈ s.rest.entered → (f a s).Minds [k] s) (s : State (Watch ω ν))
    (hs : owed ++ [k] ⊆ s.rest.entered) :
    ((r.guarded cleanup).bind f s).Minds (owed ++ [k]) s := by
  match r, hr with
  | .done a, hr =>
    rw [Routine.guarded, Routine.bind, show owed = [] from hr]
    exact hf a s (hs (List.mem_append_right _ List.mem_cons_self))
  | .paused resume abandon, hr =>
    rw [Routine.guarded, Routine.bind]
    refine ⟨owed ++ [k], Passes.refl hs, fun s hs => ?_⟩
    obtain ⟨ho, hk⟩ := List.append_subset.1 hs
    obtain ⟨hp, hu⟩ := hr s ho
    have hp' := hc (abandon s) (hp.entered (hk List.mem_cons_self))
    exact ⟨(hp.append hk).trans hp', Turn.Minds.settle hu hc hf hk⟩

theorem Turn.Minds.settle {u : Turn (State (Watch ω ν)) α}
    {cleanup : State (Watch ω ν) → State (Watch ω ν)} {f : α → Program (State (Watch ω ν)) β}
    {owed : List Ticket} {s : State (Watch ω ν)} (hu : u.Minds owed s)
    (hc : ∀ s, k ∈ s.rest.entered → Passes [k] s [] (cleanup s))
    (hf : ∀ a s, k ∈ s.rest.entered → (f a s).Minds [k] s) (hk : [k] ⊆ s.rest.entered) :
    ((u.guarded cleanup).bind f).Minds (owed ++ [k]) s := by
  match u, hu with
  | ⟨s', r⟩, ⟨owed', hp, hr⟩ =>
    rw [Turn.guarded, Turn.bind]
    have hs' := hp.append hk
    exact (Routine.Minds.settle hr hc hf s' hs'.known).before hs'

end

mutual

theorem Routine.Minds.limit {r : Routine (State (Watch ω ν)) α} {owed : List Ticket}
    (hr : r.Minds owed) (n : Nat) : (r.limit n).Minds owed := by
  match r, n, hr with
  | .done a, _, hr => rwa [Routine.limit]
  | .paused resume abandon, 0, hr =>
    rw [Routine.limit]
    exact fun s hs => ⟨(hr s hs).1, [], (hr s hs).1, rfl⟩
  | .paused resume abandon, n + 1, hr =>
    rw [Routine.limit]
    exact fun s hs => ⟨(hr s hs).1, Turn.Minds.limit (hr s hs).2 n⟩

theorem Turn.Minds.limit {u : Turn (State (Watch ω ν)) α} {owed : List Ticket}
    {s : State (Watch ω ν)} (hu : u.Minds owed s) (n : Nat) : (u.limit n).Minds owed s := by
  match u, hu with
  | ⟨s', r⟩, ⟨owed', hp, hr⟩ =>
    rw [Turn.limit]
    exact ⟨owed', hp, Routine.Minds.limit hr n⟩

end

mutual

theorem Routine.Minds.alongside {ε : Type} {r : Routine (State (Watch ω ν)) (Except ε α)}
    {next : Program (State (Watch ω ν)) (Except ε β)}
    {drop : State (Watch ω ν) → State (Watch ω ν)} {owed₁ owed₂ : List Ticket}
    (hr : r.Minds owed₁) (hn : ∀ s, owed₂ ⊆ s.rest.entered → (next s).Minds owed₂ s)
    (hd : ∀ s, owed₂ ⊆ s.rest.entered → Passes owed₂ s [] (drop s))
    (s : State (Watch ω ν)) (hs : owed₁ ++ owed₂ ⊆ s.rest.entered) :
    (r.alongside next drop s).Minds (owed₁ ++ owed₂) s := by
  obtain ⟨hs₁, hs₂⟩ := List.append_subset.1 hs
  match r, hr with
  | .done (.error e), hr =>
    rw [Routine.alongside, show owed₁ = [] from hr]
    exact ⟨[], hd s hs₂, rfl⟩
  | .done (.ok a), hr =>
    rw [Routine.alongside, show owed₁ = [] from hr]
    exact (hn s hs₂).bind fun b s => ⟨[], Passes.refl (List.nil_subset _), rfl⟩
  | .paused resume abandon, hr =>
    rw [Routine.alongside]
    -- The second one has its turn, too.
    have hu := hn s hs₂
    generalize next s = u at hu
    match u, hu with
    | ⟨s', .done (.error e)⟩, ⟨_, hp, rfl⟩ =>
      have hp' := hp.prepend hs₁
      rw [List.append_nil] at hp'
      exact ⟨[], hp'.trans (hr s' hp'.known).1, rfl⟩
    | ⟨s', .done (.ok b)⟩, ⟨_, hp, rfl⟩ =>
      have hp' := hp.prepend hs₁
      rw [List.append_nil] at hp'
      refine ⟨owed₁, hp', fun s hs => ⟨(hr s hs).1, (hr s hs).2.bind fun a s => ?_⟩⟩
      exact ⟨[], Passes.refl (List.nil_subset _), rfl⟩
    | ⟨s', .paused resume₂ abandon₂⟩, ⟨owed₂', hp, hr₂⟩ =>
      refine ⟨owed₁ ++ owed₂', hp.prepend hs₁, fun s hs => ?_⟩
      obtain ⟨hs₁, hs₂⟩ := List.append_subset.1 hs
      obtain ⟨ha, hu⟩ := hr s hs₁
      have hs' : owed₂' ⊆ (abandon s).rest.entered := List.Subset.trans hs₂ ha.entered
      refine ⟨(ha.append hs₂).trans (hr₂ (abandon s) hs').1, ?_⟩
      exact Turn.Minds.alongside hu (fun s hs => (hr₂ s hs).2) (fun s hs => (hr₂ s hs).1) hs₂

theorem Turn.Minds.alongside {ε : Type} {u : Turn (State (Watch ω ν)) (Except ε α)}
    {next : Program (State (Watch ω ν)) (Except ε β)}
    {drop : State (Watch ω ν) → State (Watch ω ν)} {owed₁ owed₂ : List Ticket}
    {s : State (Watch ω ν)} (hu : u.Minds owed₁ s)
    (hn : ∀ s, owed₂ ⊆ s.rest.entered → (next s).Minds owed₂ s)
    (hd : ∀ s, owed₂ ⊆ s.rest.entered → Passes owed₂ s [] (drop s))
    (hs : owed₂ ⊆ s.rest.entered) : (u.alongside next drop).Minds (owed₁ ++ owed₂) s := by
  match u, hu with
  | ⟨s', r⟩, ⟨owed', hp, hr⟩ =>
    rw [Turn.alongside]
    have hp' := hp.append hs
    exact (Routine.Minds.alongside hr hn hd s' hp'.known).before hp'

end

theorem Routine.Minds.turn {r : Routine (State (Watch ω ν)) α} {owed : List Ticket}
    (hr : r.Minds owed) {s : State (Watch ω ν)} (hs : owed ⊆ s.rest.entered) :
    (r.turn s).Minds owed s := by
  cases r with
  | done a => exact ⟨owed, Passes.refl hs, hr⟩
  | paused resume abandon => exact (hr s hs).2

theorem Routine.Minds.abandon {r : Routine (State (Watch ω ν)) α} {owed : List Ticket}
    (hr : r.Minds owed) {s : State (Watch ω ν)} (hs : owed ⊆ s.rest.entered) :
    Passes owed s [] (r.abandon s) := by
  cases r with
  | done a =>
    rw [show owed = [] from hr]
    exact Passes.refl (List.nil_subset _)
  | paused resume abandon => exact (hr s hs).1

namespace Program

variable {p : Program (State (Watch ω ν)) α} {f : α → Program (State (Watch ω ν)) β}

theorem IsQuiet.minds (h : p.IsQuiet) : p.Minds := fun s => Turn.minds_of_quiet (h s)

theorem Minds.bind (hp : p.Minds) (hf : ∀ a, (f a).Minds) : (p >>= f).Minds :=
  fun s => Turn.Minds.bind (hp s) hf

theorem Minds.pure (a : α) : (Pure.pure a : Program (State (Watch ω ν)) α).Minds :=
  IsQuiet.minds (.pure tolerant_quiet a)

theorem Minds.change {f : State (Watch ω ν) → State (Watch ω ν)} (h : ∀ s, Quiet s (f s)) :
    (Program.change f).Minds := IsQuiet.minds (.change h)

theorem Minds.look (f : State (Watch ω ν) → α) : (Program.look f).Minds :=
  IsQuiet.minds (.look tolerant_quiet f)

theorem Minds.pause : (Program.pause : Program (State (Watch ω ν)) Unit).Minds :=
  IsQuiet.minds (.pause tolerant_quiet)

theorem Minds.limit (hp : p.Minds) (n : Nat) : (p.limit n).Minds := by
  cases n with
  | zero => exact Minds.pure none
  | succ n => exact fun s => Turn.Minds.limit (hp s) n

theorem Minds.both {ε : Type} {p : Program (State (Watch ω ν)) (Except ε α)}
    {q : Program (State (Watch ω ν)) (Except ε β)} (hp : p.Minds) (hq : q.Minds) :
    (Program.both p q).Minds := by
  intro s
  have hnil : ([] : List Ticket) ⊆ s.rest.entered := List.nil_subset _
  exact Turn.Minds.alongside (hp s) (fun s _ => hq s) (fun s _ => Passes.refl (List.nil_subset _)) hnil

end Program

end Programs

end LeaseLock
