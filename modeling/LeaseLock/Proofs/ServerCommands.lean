import LeaseLock.Proofs.Families
import LeaseLock.Proofs.LeaseTerms
import Mathlib.Data.List.Induction

/-!
# What a family sends to a key-value server

Every command that one acquisition leads to, with the numbers that go with it.

## The model

The family is begun by an acquisition at a key-value server, which may hand out a handle or none. What
is called on the handles, at which readings of the clock, and what the server answers is free, as for
any family. A call may send several commands, since a script that is not known is loaded and run again.

## What is proved

`commands_lawful`: the acquisition sends one command, which sets the key to a value. Whatever is sent
later is sent by a call of a valid handle. It loads the script of that call, or runs it with the key and
the value that were set (`Lawful`); and it is run, unless the terms for an extension are out of order
(`Runs`).

Extensions copy the key and the value from handle to handle, while the terms are made anew at the
reading of the clock. So the invariant of a run says of every handle that it bears the mark of the
acquisition, and which calls its terms can stem from (`Marks`).

The numbers that are sent are whole milliseconds. A lease is for one at least (`LeaseMillis`). A key that
is given back is kept for what is left of the minimum, which is no more than the maximum unless the clock
reads less than when the terms were made (`KeptMillis`). Both are found without leaving the bounds of
spans and of 64-bit numbers.
-/

namespace LeaseLock

/-! ### What a dialog asks -/

namespace Dialog

variable {Q R : Type} {A : Q → Type} {B : R → Type} {α β : Type}
variable {P : Q → Prop} {d : Dialog Q A α}

/-- Whatever the answers are, only such questions are asked. -/
def Asks (P : Q → Prop) : Dialog Q A α → Prop
  | done _ => True
  | ask q next => P q ∧ ∀ a, (next a).Asks P

theorem Asks.mono {P' : Q → Prop} (h : d.Asks P) (himp : ∀ q, P q → P' q) : d.Asks P' := by
  induction d with
  | done a => trivial
  | ask q next ih => exact ⟨himp q h.1, fun a => ih a (h.2 a)⟩

theorem Asks.map {f : α → β} (h : d.Asks P) : (d.map f).Asks P := by
  induction d with
  | done a => trivial
  | ask q next ih => exact ⟨h.1, fun a => ih a (h.2 a)⟩

theorem Asks.via {P : R → Prop} {f : Q → R} {g : ∀ q, B (f q) → A q}
    (h : d.Asks fun q => P (f q)) : (d.via f g).Asks P := by
  induction d with
  | done a => trivial
  | ask q next ih => exact ⟨h.1, fun b => ih _ (h.2 _)⟩

/-- What is asked when the dialog is held goes before what was asked already. -/
theorem Asks.hold (h : d.Asks P) (answer : List ((q : Q) × A q) → (q : Q) → A q)
    (asked : List ((q : Q) × A q)) :
    ∃ new, (d.hold answer asked).2 = new ++ asked ∧ ∀ a ∈ new, P a.1 := by
  induction d generalizing asked with
  | done a => exact ⟨[], rfl, fun _ ha => nomatch ha⟩
  | ask q next ih =>
    obtain ⟨new, hnew, hall⟩ := ih (answer asked q) (h.2 _) (⟨q, answer asked q⟩ :: asked)
    refine ⟨new ++ [⟨q, answer asked q⟩], ?_, fun a ha => ?_⟩
    · rw [Dialog.hold, hnew, List.append_assoc, List.singleton_append]
    · obtain ha | ha := List.mem_append.1 ha
      · exact hall a ha
      · rw [List.mem_singleton.1 ha]
        exact h.1

end Dialog

/-! ### Milliseconds -/

namespace Span

theorem wholeMillis_mono {d e : Span} (h : d ≤ e) : d.wholeMillis ≤ e.wholeMillis :=
  Int.tdiv_le_tdiv (by decide) h

theorem wholeMillis_le (d : Span) : d.wholeMillis ≤ 9223372036854775807 :=
  Int.tdiv_le_tdiv (by decide) d.upper

end Span

/-- What is left of the minimum is no more than the maximum, once the terms have been made. -/
theorem Terms.since_le (t : Terms) {now : Instant} (h : t.createdAt ≤ now) :
    t.atLeastUntil.since now ≤ t.atMostFor := by
  have hleast := t.atLeastFor_le
  rw [Instant.le_def] at h
  rw [Span.le_def] at hleast ⊢
  rw [Instant.nanos_since, t.atLeastUntil_eq]
  omega

namespace Redis

/-- **The milliseconds of a lease**: the whole ones, or one where there is none, as a positive signed
64-bit number. -/
structure LeaseMillis (d : Span) (n : Int) : Prop where
  whole : n = max 1 d.wholeMillis
  pos : 1 ≤ n
  fits : n ≤ 9223372036854775807

theorem leaseMillis (d : Span) : LeaseMillis d (expiryMillis d) where
  whole := Int.max_comm _ _
  pos := Int.le_max_right _ _
  fits := Int.max_le.2 ⟨d.wholeMillis_le, by decide⟩

/-- **The milliseconds for which a key is kept**: the whole ones of what is left of the minimum, or none.
They are no more than those of the maximum if the terms had been made by `now`. -/
structure KeptMillis (t : Terms) (now : Instant) (n : Int) : Prop where
  /-- The difference of the instants is a span. -/
  left : -Span.limit ≤ t.atLeastUntil.nanos - now.nanos ∧
    t.atLeastUntil.nanos - now.nanos ≤ Span.limit
  whole : n = max 0 ((t.atLeastUntil.nanos - now.nanos).tdiv nanosPerMilli)
  nonneg : 0 ≤ n
  fits : n ≤ 9223372036854775807
  le_atMostFor : t.createdAt ≤ now → n ≤ t.atMostFor.wholeMillis

theorem keptMillis (t : Terms) (now : Instant) : KeptMillis t now (keepMillis t now) where
  left := ⟨(t.atLeastUntil.since now).lower, (t.atLeastUntil.since now).upper⟩
  whole := Int.max_comm _ _
  nonneg := Int.le_max_right _ _
  fits := Int.max_le.2 ⟨Span.wholeMillis_le _, by decide⟩
  le_atMostFor hnow :=
    Int.max_le.2 ⟨Span.wholeMillis_mono (t.since_le hnow), Span.wholeMillis_mono t.atMostFor_nonneg⟩

end Redis

/-! ### The commands of a call -/

/-- The script behind a call. -/
def Use.script : Use → Redis.Script
  | release => .release
  | extend _ _ => .extend

/-- The call is not refused for what it asks for: an extension needs terms that are in order. -/
def Use.InOrder (now : Instant) (name : String) : Use → Prop
  | release => True
  | extend d e => Terms.InOrder now name d e

namespace Redis

/-- **What a call may send**, of a lease on the terms `t` that is marked by a key and a value. -/
inductive Lawful (key value : String) (t : Terms) (now : Instant) : Use → Command → Prop where
  | release {n : Int} (hn : KeptMillis t now n) :
      Lawful key value t now .release (.run .release key value n)
  | extend {d e : Span} {new : Terms} {n : Int} (hmade : Terms.make now t.name d e = .ok new)
      (hn : LeaseMillis new.atMostFor n) :
      Lawful key value t now (.extend d e) (.run .extend key value n)
  | load {u : Use} : Lawful key value t now u (.load u.script)

theorem asks_runScript (s : Script) (key value : String) (n : Int) :
    (runScript s key value n).Asks fun c => c = .run s key value n ∨ c = .load s := by
  refine ⟨.inl rfl, fun r => ?_⟩
  dsimp only
  split
  · refine ⟨.inr rfl, fun loaded => ?_⟩
    cases loaded with
    | failure m => trivial
    | text | integer | nil => exact ⟨.inl rfl, fun _ => trivial⟩
  · trivial

end Redis

section Calls

variable {l : Redis.Lease} (now : Instant)

/-- **A call of a valid lease sends what it may**, whatever the server answers. -/
theorem asks_talk (hv : l.valid = true) (u : Use) :
    (u.talk now (.keyed l)).Asks fun q =>
      ∃ c, q = .send c ∧ Redis.Lawful l.key l.value l.terms now u c := by
  cases u with
  | release =>
    refine Dialog.Asks.map (Dialog.Asks.map (Dialog.Asks.via ?_))
    rw [Redis.Lease.release, if_pos hv]
    refine Dialog.Asks.map ((Redis.asks_runScript _ _ _ _).mono ?_)
    rintro _ (rfl | rfl)
    · exact ⟨_, rfl, .release (Redis.keptMillis l.terms now)⟩
    · exact ⟨_, rfl, .load⟩
  | extend d e =>
    refine Dialog.Asks.map (Dialog.Asks.map (Dialog.Asks.via ?_))
    rw [Redis.Lease.extend, if_pos hv]
    cases hmade : Terms.make now l.terms.name d e with
    | error f => trivial
    | ok new =>
      have hn : Redis.LeaseMillis new.atMostFor (Redis.expiryMillis d) := by
        rw [(Terms.asAsked_of_make hmade).atMostFor_eq]
        exact Redis.leaseMillis d
      refine Dialog.Asks.map ((Redis.asks_runScript _ _ _ _).mono ?_)
      rintro _ (rfl | rfl)
      · exact ⟨_, rfl, .extend hmade hn⟩
      · exact ⟨_, rfl, .load⟩

/-- A call that is in order begins by running its script. -/
theorem talk_runs (hv : l.valid = true) {u : Use} (hu : u.InOrder now l.terms.name) :
    ∃ n next, u.talk now (.keyed l) = .ask (.send (.run u.script l.key l.value n)) next := by
  cases u with
  | release =>
    rw [Use.talk, Handle.release, Redis.Lease.release, if_pos hv]
    exact ⟨_, _, rfl⟩
  | extend d e =>
    obtain ⟨new, hmade⟩ := Terms.exists_make hu
    rw [Use.talk, Handle.extend, Redis.Lease.extend, if_pos hv, hmade]
    exact ⟨_, _, rfl⟩

/-- **A handle that is handed out** is marked as the one that was called, and its terms are made at the
reading of the clock. -/
theorem ends_talk_got (hv : l.valid = true) (u : Use) :
    (u.talk now (.keyed l)).Ends fun x => ∀ h ∈ x.got, ∃ d e new, u = .extend d e ∧
      Terms.make now l.terms.name d e = .ok new ∧ h = .keyed { l with terms := new } := by
  cases u with
  | release =>
    refine Dialog.Ends.map (Dialog.ends_of_forall ?_ _)
    rintro ⟨_ | _, _⟩ h hh <;> cases hh
  | extend d e =>
    refine Dialog.Ends.map (Dialog.Ends.map (Dialog.Ends.via ?_))
    rw [Redis.Lease.extend, if_pos hv]
    cases hmade : Terms.make now l.terms.name d e with
    | error f =>
      intro h hh
      cases hh
    | ok new =>
      refine Dialog.Ends.map (Dialog.ends_of_forall ?_ _)
      rintro (f | n) h hh
      · cases hh
      · by_cases hn : n = 1
        · simp only [if_pos hn] at hh
          cases hh
          exact ⟨d, e, new, rfl, hmade, rfl⟩
        · simp only [if_neg hn] at hh
          cases hh

end Calls

/-! ### Families at a key-value server -/

namespace Family

variable {answers : Answers} {f : Family} {key value : String} {t : Terms} {us : List Usage}
  {l : Redis.Lease} {u : Usage}

/-- The family that an acquisition begins, with a handle if it hands one out. -/
def begun (answers : Answers) (provider : Provider) (now : Instant) (t : Terms) : Family :=
  let (got, asked) := (provider.acquire now t).hold answers []
  ⟨match got with
    | .ok h => h.toList
    | .error _ => [], asked⟩

/-- The terms that a handle can be on after some calls: those of the acquisition, or those of an
extension, made at its reading of the clock. -/
inductive InForce (t : Terms) (us : List Usage) : Terms → Prop where
  | acquired : InForce t us t
  | extended {u : Usage} {d e : Span} {new : Terms} (hu : u ∈ us) (huse : u.use = .extend d e)
      (hmade : Terms.make u.now t.name d e = .ok new) : InForce t us new

theorem InForce.name_eq {new : Terms} (h : InForce t us new) : new.name = t.name := by
  cases h with
  | acquired => rfl
  | extended _ _ hmade => exact Terms.name_of_make hmade

theorem InForce.createdAt_eq {new : Terms} (h : InForce t us new) :
    new.createdAt = t.createdAt ∨ ∃ u ∈ us, new.createdAt = u.now := by
  cases h with
  | acquired => exact .inl rfl
  | extended hu _ hmade => exact .inr ⟨_, hu, (Terms.asAsked_of_make hmade).createdAt_eq⟩

theorem InForce.snoc {new : Terms} (h : InForce t us new) (u : Usage) :
    InForce t (us ++ [u]) new := by
  cases h with
  | acquired => exact .acquired
  | extended hu huse hmade => exact .extended (List.mem_append_left _ hu) huse hmade

/-- The lease bears the mark of the acquisition. -/
structure Marks (key value : String) (t : Terms) (us : List Usage) (l : Redis.Lease) : Prop where
  key_eq : l.key = key
  value_eq : l.value = value
  inForce : InForce t us l.terms

theorem Marks.snoc (h : Marks key value t us l) (u : Usage) : Marks key value t (us ++ [u]) l :=
  ⟨h.key_eq, h.value_eq, h.inForce.snoc u⟩

theorem Marks.spent (h : Marks key value t us l) : Marks key value t us l.spent :=
  ⟨h.key_eq, h.value_eq, h.inForce⟩

/-- **All handles bear the mark** of one acquisition. -/
def Marked (key value : String) (t : Terms) (us : List Usage) (f : Family) : Prop :=
  ∀ h ∈ f.handles, ∃ l, h = .keyed l ∧ Marks key value t us l

/-- **A call sends this**, made on a valid handle that may send it. -/
def Sends (key value : String) (f : Family) (u : Usage) (q : Query) : Prop :=
  ∃ l c, f.handles[u.which]? = some (.keyed l) ∧ l.valid = true ∧ q = .send c ∧
    Redis.Lawful key value l.terms u.now u.use c

/-- One call keeps the marks. -/
theorem Marked.call (hf : f.Marked key value t us) (answers : Answers) (u : Usage) :
    (f.call answers u).2.Marked key value t (us ++ [u]) := by
  have hsnoc : f.Marked key value t (us ++ [u]) := fun h hh => by
    obtain ⟨l, hl, hmarks⟩ := hf h hh
    exact ⟨l, hl, hmarks.snoc u⟩
  cases hh : f.handles[u.which]? with
  | none => rwa [call_of_none hh]
  | some h =>
    cases hv : h.valid with
    | false => rwa [call_of_spent hh hv]
    | true =>
      obtain ⟨l, rfl, hmarks⟩ := hf h (List.mem_of_getElem? hh)
      have hused := (ends_talk u.now hv u.use).hold answers f.asked
      have hgot := (ends_talk_got u.now hv u.use).hold answers f.asked
      rw [Family.call, hh]
      intro h' hh'
      obtain hh' | hh' := List.mem_append.1 hh'
      · obtain hh' | rfl := List.mem_or_eq_of_mem_set hh'
        · exact hsnoc h' hh'
        · obtain hsame | hspent := hused.used_eq
          · rw [hsame]
            exact ⟨l, rfl, hmarks.snoc u⟩
          · rw [hspent]
            exact ⟨l.spent, rfl, hmarks.spent.snoc u⟩
      · obtain ⟨d, e, new, huse, hmade, rfl⟩ := hgot h' (Option.mem_toList.1 hh')
        have hu : u ∈ us ++ [u] := List.mem_append_right _ List.mem_cons_self
        rw [hmarks.inForce.name_eq] at hmade
        exact ⟨_, rfl, hmarks.key_eq, hmarks.value_eq, .extended hu huse hmade⟩

/-- One call sends what its handle may send. -/
theorem Marked.exists_sent (hf : f.Marked key value t us) (answers : Answers) (u : Usage) :
    ∃ new, (f.call answers u).2.asked = new ++ f.asked ∧ ∀ a ∈ new, f.Sends key value u a.1 := by
  cases hh : f.handles[u.which]? with
  | none => exact ⟨[], by rw [call_of_none hh]; rfl, fun _ ha => nomatch ha⟩
  | some h =>
    cases hv : h.valid with
    | false => exact ⟨[], by rw [call_of_spent hh hv]; rfl, fun _ ha => nomatch ha⟩
    | true =>
      obtain ⟨l, rfl, hmarks⟩ := hf h (List.mem_of_getElem? hh)
      obtain ⟨new, hnew, hall⟩ := (asks_talk u.now hv u.use).hold answers f.asked
      refine ⟨new, ?_, fun a ha => ?_⟩
      · rw [Family.call, hh]
        exact hnew
      · obtain ⟨c, hc, hlawful⟩ := hall a ha
        rw [hmarks.key_eq, hmarks.value_eq] at hlawful
        exact ⟨l, c, hh, hv, hc, hlawful⟩

/-- A call in order of a valid handle runs its script, with the key and the value of the acquisition. -/
def Runs (key value : String) (t : Terms) (answers : Answers) (f : Family) : Prop :=
  ∀ u l, f.handles[u.which]? = some (.keyed l) → l.valid = true → u.use.InOrder u.now t.name →
    ∃ n r new, (f.call answers u).2.asked =
      new ++ ⟨.send (.run u.use.script key value n), r⟩ :: f.asked

theorem Marked.runs (hf : f.Marked key value t us) (answers : Answers) :
    f.Runs key value t answers := by
  intro u l hh hv hu
  obtain ⟨_, hl, hmarks⟩ := hf _ (List.mem_of_getElem? hh)
  cases hl
  rw [← hmarks.inForce.name_eq] at hu
  obtain ⟨n, next, htalk⟩ := talk_runs u.now hv hu
  have hasks := asks_talk u.now hv u.use
  rw [htalk] at hasks
  rw [Family.call, hh, ← hmarks.key_eq, ← hmarks.value_eq]
  simp only [htalk, Dialog.hold]
  obtain ⟨new, hnew, -⟩ := (hasks.2 _).hold answers _
  exact ⟨n, _, new, hnew⟩

theorem calls_snoc (f : Family) (us : List Usage) (u : Usage) :
    f.calls answers (us ++ [u]) = ((f.calls answers us).call answers u).2 := by
  rw [calls, List.foldl_append]
  rfl

theorem Marked.calls (hf : f.Marked key value t []) (answers : Answers) (us : List Usage) :
    (f.calls answers us).Marked key value t us := by
  induction us using List.reverseRecOn with
  | nil => exact hf
  | append_singleton us u ih =>
    rw [calls_snoc]
    exact ih.call answers u

/-- **Any number of calls** send what their handles may send at the time. -/
theorem Marked.exists_sent_calls (hf : f.Marked key value t []) (answers : Answers)
    (us : List Usage) :
    ∃ sent, (f.calls answers us).asked = sent ++ f.asked ∧
      ∀ a ∈ sent, ∃ before u after, us = before ++ u :: after ∧
        (f.calls answers before).Sends key value u a.1 := by
  induction us using List.reverseRecOn with
  | nil => exact ⟨[], rfl, fun _ ha => nomatch ha⟩
  | append_singleton us u ih =>
    obtain ⟨sent, hsent, hall⟩ := ih
    obtain ⟨new, hnew, hsends⟩ := (hf.calls answers us).exists_sent answers u
    refine ⟨new ++ sent, ?_, fun a ha => ?_⟩
    · rw [calls_snoc, hnew, hsent, List.append_assoc]
    · obtain ha | ha := List.mem_append.1 ha
      · exact ⟨us, u, [], rfl, hsends a ha⟩
      · obtain ⟨before, u', after, hus, hsend⟩ := hall a ha
        refine ⟨before, u', after ++ [u], ?_, hsend⟩
        rw [hus, List.append_assoc, List.cons_append]

/-- The acquisition sends one command, and a handle that it hands out bears its mark. -/
theorem begun_keyed (answers : Answers) (environment holder : String) (now : Instant) (t : Terms) :
    (∃ r, (begun answers (.keyed environment holder) now t).asked =
      [⟨.send (.set (Redis.lockKey environment t.name) (Redis.lockValue now holder)
        (Redis.expiryMillis t.atMostFor)), r⟩]) ∧
    (begun answers (.keyed environment holder) now t).Marked (Redis.lockKey environment t.name)
      (Redis.lockValue now holder) t [] := by
  rw [begun, Provider.acquire, Redis.Lease.acquire, Redis.Talk.lift, Dialog.via, Dialog.map, Dialog.hold]
  cases answers [] (.send (.set (Redis.lockKey environment t.name) (Redis.lockValue now holder)
    (Redis.expiryMillis t.atMostFor))) with
  | failure | nil => exact ⟨⟨_, rfl⟩, fun h hh => (List.not_mem_nil hh).elim⟩
  | text | integer =>
    refine ⟨⟨_, rfl⟩, fun h hh => ?_⟩
    rw [List.mem_singleton.1 hh]
    exact ⟨_, rfl, rfl, rfl, .acquired⟩

/-- **The commands of a family at a key-value server.** The acquisition sends one command, which sets the
key to a value for the milliseconds of the lease. Whatever is called on the handles that come of it, at
whatever readings of the clock and with whatever answers, they all bear the mark of the acquisition. A
call that is in order of one that is valid runs its script, and every command that is sent on the way is
sent by a call of a valid handle that may send it. -/
theorem commands_lawful (environment holder : String) (now : Instant) (t : Terms) (answers : Answers)
    (us : List Usage) :
    let key := Redis.lockKey environment t.name
    let value := Redis.lockValue now holder
    let f := begun answers (.keyed environment holder) now t
    (∃ n r, f.asked = [⟨.send (.set key value n), r⟩] ∧ Redis.LeaseMillis t.atMostFor n) ∧
    (f.calls answers us).Marked key value t us ∧
    (f.calls answers us).Runs key value t answers ∧
    ∃ sent, (f.calls answers us).asked = sent ++ f.asked ∧
      ∀ a ∈ sent, ∃ before u after, us = before ++ u :: after ∧
        (f.calls answers before).Marked key value t before ∧
        (f.calls answers before).Sends key value u a.1 := by
  intro key value f
  obtain ⟨⟨r, hset⟩, hmarked⟩ := begun_keyed answers environment holder now t
  obtain ⟨sent, hsent, hall⟩ := hmarked.exists_sent_calls answers us
  have hcalls := hmarked.calls answers us
  refine ⟨⟨_, r, hset, Redis.leaseMillis t.atMostFor⟩, hcalls, hcalls.runs answers, sent, hsent,
    fun a ha => ?_⟩
  obtain ⟨before, u, after, hus, hsends⟩ := hall a ha
  exact ⟨before, u, after, hus, hmarked.calls answers before, hsends⟩

/-- An extension after half a minute for a minute, of which twenty seconds are kept, and a release ten
seconds later. -/
def extendedThenKept : List Usage :=
  [⟨0, .second 30, .extend (.ofSeconds 60) (.ofSeconds 20)⟩, ⟨1, .second 40, .release⟩]

/-- The release is sent, and keeps the key for the ten seconds that are left, which is less than the
minute. -/
theorem forgetful_commands_lawful :
    let key := Redis.lockKey "test" "job"
    let value := Redis.lockValue .epoch "node"
    let f := begun forgetful (.keyed "test" "node") .epoch (.inSeconds 0 60 0)
    (∃ n r new, (f.calls forgetful extendedThenKept).asked = new ++
      ⟨.send (.run .release key value n), r⟩ :: (f.calls forgetful (extendedThenKept.take 1)).asked) ∧
    ∃ earlier, (f.calls forgetful extendedThenKept).asked =
        ⟨.send (.run .release key value 10000), .integer 1⟩ :: earlier ∧
      f.asked = [⟨.send (.set key value 60000), .text "OK"⟩] ∧
      ∃ t : Terms, t.createdAt ≤ .second 40 ∧ Redis.KeptMillis t (.second 40) 10000 ∧
        10000 ≤ t.atMostFor.wholeMillis := by
  intro key value f
  obtain ⟨-, -, hruns, -⟩ := commands_lawful "test" "node" .epoch (.inSeconds 0 60 0) forgetful
    (extendedThenKept.take 1)
  refine ⟨hruns ⟨1, .second 40, .release⟩ _ rfl rfl trivial, ?_⟩
  obtain ⟨-, -, -, sent, hsent, hall⟩ :=
    commands_lawful "test" "node" .epoch (.inSeconds 0 60 0) forgetful extendedThenKept
  have hset : f.asked = [⟨.send (.set key value 60000), .text "OK"⟩] := rfl
  obtain ⟨earlier, hasked⟩ : ∃ earlier, (f.calls forgetful extendedThenKept).asked =
      ⟨.send (.run .release key value 10000), .integer 1⟩ :: earlier := ⟨_, rfl⟩
  refine ⟨earlier, hasked, hset, ?_⟩
  have hlast : ⟨.send (.run .release key value 10000), .integer 1⟩ ∈ sent := by
    have hsame := hasked.symm.trans hsent
    cases sent with
    | nil => cases hsame.trans hset
    | cons a sent =>
      rw [(List.cons.inj hsame).1]
      exact List.mem_cons_self
  obtain ⟨before, u, after, hus, hmarked, l, c, hl, -, hc, hlawful⟩ := hall _ hlast
  cases hc
  obtain ⟨_, hl', hmarks⟩ := hmarked _ (List.mem_of_getElem? hl)
  cases hl'
  generalize huse : u.use = use at hlawful
  cases hlawful with
  | release hn =>
    have hlate : ∀ u ∈ extendedThenKept, u.now ≤ .second 40 := by decide
    have hcreated : l.terms.createdAt ≤ .second 40 := by
      obtain hfirst | ⟨u', hu', hlater⟩ := hmarks.inForce.createdAt_eq
      · rw [hfirst]
        decide
      · rw [hlater]
        exact hlate u' (hus ▸ List.mem_append_left _ hu')
    have hu : u ∈ extendedThenKept := hus ▸ List.mem_append_right _ List.mem_cons_self
    obtain rfl | rfl : u = _ ∨ u = _ := by simpa [extendedThenKept] using hu
    · cases huse
    · exact ⟨l.terms, hcreated, hn, hn.le_atMostFor hcreated⟩

end Family
end LeaseLock
