import LeaseLock.Lock.Handle

/-!
# Handles and what becomes of them

One acquisition, and all that is ever done with the handles that come of it.

## The model

A family is what one acquisition led to: the handle that was got, and the handles that extensions of
it, or extensions of these, handed out. Releases and extensions are called on any of them in any
order, each with a clock reading and durations of its own. What is asked is answered by whoever
knows all that was asked before. He may fail, refuse to extend, or reply with nonsense; his answers
need not fit together. The handles are of either kind, and the dialogs are those of `Handle.release`
and `Handle.extend`.

Calls are made one after the other, since a call has its handle to itself. A call that is dropped
before its end is not among them.

## What is proved

`orderly`: the family keeps the contract `Orderly` at any time. At most one of its handles is valid.
A call on another one is refused without a question, a call that changes nothing leaves every handle
as it was, only a release, an extension or a loss makes a handle invalid, and after a release or a
loss the family is silent for good.
-/

namespace LeaseLock

/-! ### Dialogs that are held to their end -/

namespace Dialog

variable {Q R : Type} {A : Q → Type} {B : R → Type} {α β : Type}

/-- Holds a dialog with somebody who knows all that was asked before. The questions and answers are
those so far, the last one first. -/
def hold (answer : List ((q : Q) × A q) → (q : Q) → A q) :
    Dialog Q A α → List ((q : Q) × A q) → α × List ((q : Q) × A q)
  | done a, asked => (a, asked)
  | ask q next, asked => (next (answer asked q)).hold answer (⟨q, answer asked q⟩ :: asked)

/-- Whatever the answers are, the end is one of these. -/
def Ends (P : α → Prop) : Dialog Q A α → Prop
  | done a => P a
  | ask _ next => ∀ a, (next a).Ends P

theorem Ends.hold {P : α → Prop} {d : Dialog Q A α} (h : d.Ends P)
    (answer : List ((q : Q) × A q) → (q : Q) → A q) (asked : List ((q : Q) × A q)) :
    P (d.hold answer asked).1 := by
  induction d generalizing asked with
  | done a => exact h
  | ask q next ih => exact ih _ (h _) _

theorem ends_of_forall {P : α → Prop} (h : ∀ a, P a) (d : Dialog Q A α) : d.Ends P := by
  induction d with
  | done a => exact h a
  | ask q next ih => exact ih

theorem Ends.map {P : β → Prop} {f : α → β} {d : Dialog Q A α} (h : d.Ends fun a => P (f a)) :
    (d.map f).Ends P := by
  induction d with
  | done a => exact h
  | ask q next ih => exact fun a => ih a (h a)

theorem Ends.via {P : α → Prop} {f : Q → R} {g : ∀ q, B (f q) → A q} {d : Dialog Q A α}
    (h : d.Ends P) : (d.via f g).Ends P := by
  induction d with
  | done a => exact h
  | ask q next ih => exact fun b => ih _ (h _)

end Dialog

/-! ### Calls of a handle -/

/-- What is called on a handle. -/
inductive Use where
  | release
  | extend (atMostFor atLeastFor : Span)

/-- What a call of a handle comes to. -/
inductive Upshot where
  /-- The lease was given back. -/
  | released
  /-- The lease was extended. -/
  | extended
  /-- The lease had lapsed or was somebody else's. -/
  | lost
  /-- The service cannot extend leases. -/
  | unsupported
  /-- The call failed. -/
  | failed (e : LockError)
  deriving DecidableEq

/-- The handle is used up by this. -/
def Upshot.spends : Upshot → Bool
  | released | extended | lost => true
  | unsupported | failed _ => false

/-- The lease does not go on after this. -/
def Upshot.final : Upshot → Bool
  | released | lost => true
  | extended | unsupported | failed _ => false

/-- What a call of a handle leaves. -/
structure Aftermath where
  upshot : Upshot
  /-- The handle that was called. -/
  used : Handle
  /-- The handle that was handed out. -/
  got : Option Handle := none

namespace Aftermath

/-- What a release leaves. -/
def ofRelease : Except LockError Unit × Handle → Aftermath
  | (.ok (), h) => ⟨.released, h, none⟩
  | (.error e, h) => ⟨.failed e, h, none⟩

/-- What an extension leaves. -/
def ofExtend : Except LockError (Renewal Handle) × Handle → Aftermath
  | (.ok (.extended new), h) => ⟨.extended, h, some new⟩
  | (.ok .lost, h) => ⟨.lost, h, none⟩
  | (.ok .unsupported, h) => ⟨.unsupported, h, none⟩
  | (.error e, h) => ⟨.failed e, h, none⟩

end Aftermath

/-- The dialog of a call at a reading of the clock. -/
def Use.talk (now : Instant) (h : Handle) : Use → Talk Aftermath
  | release => (h.release now).map .ofRelease
  | extend atMostFor atLeastFor => (h.extend now atMostFor atLeastFor).map .ofExtend

/-- The handle after it was used up. -/
def Handle.spent : Handle → Handle
  | stored l => stored l.spent
  | keyed l => keyed l.spent

theorem Handle.valid_spent (h : Handle) : h.spent.valid = false := by cases h <;> rfl

/-- What a call of a valid handle may leave. -/
inductive Aftermath.Fits (h : Handle) : Aftermath → Prop where
  | released : Fits h ⟨.released, h.spent, none⟩
  | extended (new : Handle) (hv : new.valid = true) (hn : new.terms.name = h.terms.name) :
      Fits h ⟨.extended, h.spent, some new⟩
  | lost : Fits h ⟨.lost, h.spent, none⟩
  | unsupported : Fits h ⟨.unsupported, h, none⟩
  | failed (e : LockError) : Fits h ⟨.failed e, h, none⟩

/-- A call leaves its handle as it was, or used up. -/
theorem Aftermath.Fits.used_eq {h : Handle} {x : Aftermath} (hx : x.Fits h) :
    x.used = h ∨ x.used = h.spent := by
  cases hx with
  | released | extended | lost => exact .inr rfl
  | unsupported | failed => exact .inl rfl

section Calls

variable {h : Handle} (now : Instant)

theorem ends_release (hv : h.valid = true) :
    ((h.release now).map Aftermath.ofRelease).Ends (Aftermath.Fits h) := by
  refine Dialog.Ends.map ?_
  cases h with
  | stored l =>
    rw [Handle.release, Lease.release, if_pos (show l.valid = true from hv)]
    refine Dialog.Ends.map (Dialog.Ends.via ?_)
    rintro (e | -)
    · exact .failed e
    · exact .released
  | keyed l =>
    rw [Handle.release, Redis.Lease.release, if_pos (show l.valid = true from hv)]
    refine Dialog.Ends.map (Dialog.Ends.via (Dialog.Ends.map (Dialog.ends_of_forall ?_ _)))
    rintro (e | _)
    · exact .failed e
    · exact .released

theorem ends_extend (hv : h.valid = true) (d e : Span) :
    ((h.extend now d e).map Aftermath.ofExtend).Ends (Aftermath.Fits h) := by
  refine Dialog.Ends.map ?_
  cases h with
  | stored l =>
    rw [Handle.extend, Lease.extend, if_pos (show l.valid = true from hv)]
    refine Dialog.Ends.map (Dialog.Ends.via ?_)
    cases ht : Terms.make now l.terms.name d e with
    | error f => exact .failed (.terms f)
    | ok t =>
      rintro (e | (_ | _ | _))
      · exact .failed e
      · exact .extended (.stored { l with terms := t }) hv (Terms.name_of_make ht)
      · exact .lost
      · exact .unsupported
  | keyed l =>
    rw [Handle.extend, Redis.Lease.extend, if_pos (show l.valid = true from hv)]
    refine Dialog.Ends.map (Dialog.Ends.via ?_)
    cases ht : Terms.make now l.terms.name d e with
    | error f => exact .failed (.terms f)
    | ok t =>
      refine Dialog.Ends.map (Dialog.ends_of_forall ?_ _)
      rintro (e | n)
      · exact .failed e
      · by_cases hn : n = 1
        · simp only [if_pos hn]
          exact .extended (.keyed { l with terms := t }) hv (Terms.name_of_make ht)
        · simp only [if_neg hn]
          exact .lost

/-- **A call of a valid handle**, of either kind and whatever the answers are. -/
theorem ends_talk (hv : h.valid = true) (u : Use) : (u.talk now h).Ends (Aftermath.Fits h) := by
  cases u with
  | release => exact ends_release now hv
  | extend d e => exact ends_extend now hv d e

/-- **A call of a handle that is not valid** fails before it asks anything. -/
theorem talk_of_spent (hv : h.valid = false) (u : Use) :
    u.talk now h = .done ⟨.failed (.handleSpent h.terms.name), h, none⟩ := by
  cases h with
  | stored l =>
    have hl : ¬l.valid = true := by rw [show l.valid = false from hv]; exact Bool.false_ne_true
    cases u with
    | release => rw [Use.talk, Handle.release, Lease.release, if_neg hl]; rfl
    | extend d e => rw [Use.talk, Handle.extend, Lease.extend, if_neg hl]; rfl
  | keyed l =>
    have hl : ¬l.valid = true := by rw [show l.valid = false from hv]; exact Bool.false_ne_true
    cases u with
    | release => rw [Use.talk, Handle.release, Redis.Lease.release, if_neg hl]; rfl
    | extend d e => rw [Use.talk, Handle.extend, Redis.Lease.extend, if_neg hl]; rfl

end Calls

/-! ### Families -/

/-- A question that was asked, and its answer. -/
abbrev Asked : Type := (q : Query) × q.Answer

/-- Whoever answers, as he knows what was asked before, the last question first. -/
abbrev Answers : Type := List Asked → (q : Query) → q.Answer

/-- What one acquisition led to. -/
structure Family where
  /-- The handles, in the order in which they were handed out. -/
  handles : List Handle
  /-- What was asked since, and for the acquisition itself, the last question first. -/
  asked : List Asked

/-- A call of one of the handles. -/
structure Usage where
  /-- The place of the handle. -/
  which : Nat
  now : Instant
  use : Use

namespace Family

variable {answers : Answers} {f : Family} {u : Usage} {h : Handle}

/-- Calls a handle. There is nothing to call where no handle is. -/
def call (answers : Answers) (f : Family) (u : Usage) : Option Upshot × Family :=
  match f.handles[u.which]? with
  | none => (none, f)
  | some h =>
    let (x, asked) := (u.use.talk u.now h).hold answers f.asked
    (some x.upshot, ⟨f.handles.set u.which x.used ++ x.got.toList, asked⟩)

/-- Calls handles one after the other. -/
def calls (answers : Answers) (f : Family) (us : List Usage) : Family :=
  us.foldl (fun f u => (f.call answers u).2) f

/-- The contract of a family. -/
structure Orderly (answers : Answers) (f : Family) : Prop where
  /-- At most one handle is valid. -/
  one : (f.handles.filter Handle.valid).length ≤ 1
  /-- A call on a handle that is not valid is an error of its own kind. Nothing is asked, and nothing
  changes. -/
  refused : ∀ u h, f.handles[u.which]? = some h → h.valid = false →
    ∃ e, f.call answers u = (some (.failed e), f) ∧ e.kind = .invalidState
  /-- A call that fails or is not supported leaves all handles as they were. The one that was called
  is valid, unless the error says that it is not. -/
  kept : ∀ u h x, f.handles[u.which]? = some h → (f.call answers u).1 = some x →
    x.spends = false →
    (f.call answers u).2.handles = f.handles ∧
      (h.valid = true ∨ ∃ e, x = .failed e ∧ e.kind = .invalidState)
  /-- Any other call was made on a valid handle, which is invalid now. The others are as they were,
  and after an extension, there is a new one that is valid. -/
  spent : ∀ u h x, f.handles[u.which]? = some h → (f.call answers u).1 = some x →
    x.spends = true →
    h.valid = true ∧ ∃ new : Option Handle,
      (f.call answers u).2.handles = f.handles.set u.which h.spent ++ new.toList ∧
      (new.isSome = true ↔ x = .extended) ∧
      ∀ l ∈ new, l.valid = true ∧ l.terms.name = h.terms.name
  /-- A handle becomes invalid only by a call of its own that comes to a release, an extension or a
  loss. -/
  only : ∀ u i h h', f.handles[i]? = some h → h.valid = true →
    (f.call answers u).2.handles[i]? = some h' → h'.valid = false →
    i = u.which ∧ ∃ x, (f.call answers u).1 = some x ∧ x.spends = true
  /-- After a release or a loss, nothing is asked any more, whatever is called. -/
  silent : ∀ u x, (f.call answers u).1 = some x → x.final = true →
    ∀ us, (f.call answers u).2.calls answers us = (f.call answers u).2

/-! ### One call -/

theorem set_same (hh : f.handles[u.which]? = some h) : f.handles.set u.which h = f.handles := by
  obtain ⟨_, hget⟩ := List.getElem?_eq_some_iff.1 hh
  rw [← hget, List.set_getElem_self]

theorem call_of_none (hh : f.handles[u.which]? = none) : f.call answers u = (none, f) := by
  rw [call, hh]

theorem call_of_spent (hh : f.handles[u.which]? = some h) (hv : h.valid = false) :
    f.call answers u = (some (.failed (.handleSpent h.terms.name)), f) := by
  rw [call, hh]
  simp only [talk_of_spent u.now hv, Dialog.hold, set_same hh, Option.toList_none, List.append_nil]

/-- **One call** of a valid handle does what its dialog allows, and leaves the others alone. -/
theorem exists_call (answers : Answers) (hh : f.handles[u.which]? = some h) (hv : h.valid = true) :
    ∃ (x : Aftermath) (asked : List Asked), x.Fits h ∧ f.call answers u =
      (some x.upshot, ⟨f.handles.set u.which x.used ++ x.got.toList, asked⟩) := by
  have hx := (ends_talk u.now hv u.use).hold answers f.asked
  refine ⟨_, ((u.use.talk u.now h).hold answers f.asked).2, hx, ?_⟩
  rw [call, hh]

/-- A handle is as it was after a call, unless it was called itself while it was valid. -/
theorem handle_call (answers : Answers) (u : Usage) {i : Nat} (hi : f.handles[i]? = some h) :
    (f.call answers u).2.handles[i]? = some h ∨ i = u.which ∧ ∃ x : Aftermath, x.Fits h ∧
      (f.call answers u).1 = some x.upshot ∧ (f.call answers u).2.handles[i]? = some x.used := by
  cases hh : f.handles[u.which]? with
  | none =>
    rw [call_of_none hh]
    exact .inl hi
  | some called =>
    cases hv : called.valid with
    | false =>
      rw [call_of_spent hh hv]
      exact .inl hi
    | true =>
      obtain ⟨x, asked, hx, hcall⟩ := exists_call answers hh hv
      have hlt := (List.getElem?_eq_some_iff.1 hi).1
      have hafter : (f.call answers u).2.handles[i]? = (f.handles.set u.which x.used)[i]? := by
        rw [hcall]
        exact List.getElem?_append_left (by rw [List.length_set]; exact hlt)
      by_cases hwhich : u.which = i
      · subst hwhich
        cases hi.symm.trans hh
        rw [List.getElem?_set_self hlt] at hafter
        exact .inr ⟨rfl, x, hx, by rw [hcall], hafter⟩
      · rw [List.getElem?_set_ne hwhich] at hafter
        exact .inl (hafter.trans hi)

/-! ### Any number of calls -/

/-- No handle but the last one is valid. -/
def InLine (f : Family) : Prop :=
  ∃ hs l, f.handles = hs ++ [l] ∧ ∀ h ∈ hs, h.valid = false

theorem InLine.one (hf : f.InLine) : (f.handles.filter Handle.valid).length ≤ 1 := by
  obtain ⟨hs, l, hhs, hspent⟩ := hf
  rw [hhs, List.filter_append,
    List.filter_eq_nil_iff.2 fun h hh => by rw [hspent h hh]; exact Bool.false_ne_true,
    List.nil_append]
  exact List.length_filter_le _ [l]

/-- A valid handle is the last one, so what a call of it leaves comes last. -/
theorem InLine.exists_call (hf : f.InLine) (answers : Answers)
    (hh : f.handles[u.which]? = some h) (hv : h.valid = true) :
    ∃ (hs : List Handle) (x : Aftermath) (asked : List Asked),
      (∀ l ∈ hs, l.valid = false) ∧ x.Fits h ∧
      f.call answers u = (some x.upshot, ⟨hs ++ [x.used] ++ x.got.toList, asked⟩) := by
  obtain ⟨x, asked, hx, hcall⟩ := Family.exists_call answers hh hv
  obtain ⟨hs, l, hhs, hspent⟩ := hf
  rw [hhs] at hh hcall
  have hwhich : u.which = hs.length := by
    have hlen := (List.getElem?_eq_some_iff.1 hh).1
    rw [List.length_append, List.length_singleton] at hlen
    refine Nat.le_antisymm (Nat.le_of_lt_succ hlen) (Nat.not_lt.1 fun hlt => ?_)
    rw [List.getElem?_append_left hlt] at hh
    rw [hspent h (List.mem_of_getElem? hh)] at hv
    cases hv
  rw [hwhich, List.set_append_right _ _ (Nat.le_refl _), Nat.sub_self, List.set_cons_zero] at hcall
  exact ⟨hs, x, asked, hspent, hx, hcall⟩

theorem InLine.call (hf : f.InLine) (u : Usage) : (f.call answers u).2.InLine := by
  cases hh : f.handles[u.which]? with
  | none => rwa [call_of_none hh]
  | some h =>
    cases hv : h.valid with
    | false => rwa [call_of_spent hh hv]
    | true =>
      obtain ⟨hs, x, asked, hspent, hx, hcall⟩ := hf.exists_call answers hh hv
      rw [hcall]
      cases hx with
      | extended new _ _ =>
        refine ⟨hs ++ [h.spent], new, rfl, fun l hl => ?_⟩
        obtain hl | hl := List.mem_append.1 hl
        · exact hspent l hl
        · rw [List.mem_singleton.1 hl, h.valid_spent]
      | released | lost | unsupported | failed => exact ⟨hs, _, List.append_nil _, hspent⟩

theorem InLine.calls (hf : f.InLine) (us : List Usage) : (f.calls answers us).InLine := by
  induction us generalizing f with
  | nil => exact hf
  | cons u us ih => exact ih (hf.call u)

/-- A family without a valid handle stays as it is, and nothing is asked. -/
theorem calls_of_spent (hf : ∀ h ∈ f.handles, h.valid = false) (us : List Usage) :
    f.calls answers us = f := by
  induction us with
  | nil => rfl
  | cons u us ih =>
    have hcall : (f.call answers u).2 = f := by
      cases hh : f.handles[u.which]? with
      | none => rw [call_of_none hh]
      | some h => rw [call_of_spent hh (hf h (List.mem_of_getElem? hh))]
    rw [calls, List.foldl_cons, hcall]
    exact ih

/-! ### The contract -/

theorem orderly_of_inLine (hf : f.InLine) : f.Orderly answers where
  one := hf.one
  refused u h hh hv := ⟨_, call_of_spent hh hv, rfl⟩
  kept u h x hh hx hs := by
    cases hv : h.valid with
    | false =>
      rw [call_of_spent hh hv] at hx ⊢
      cases hx
      exact ⟨rfl, .inr ⟨_, rfl, rfl⟩⟩
    | true =>
      obtain ⟨y, asked, hy, hcall⟩ := Family.exists_call answers hh hv
      rw [hcall] at hx ⊢
      cases hx
      cases hy with
      | released | extended | lost => cases hs
      | unsupported | failed => exact ⟨(List.append_nil _).trans (set_same hh), .inl rfl⟩
  spent u h x hh hx hs := by
    cases hv : h.valid with
    | false =>
      rw [call_of_spent hh hv] at hx
      cases hx
      cases hs
    | true =>
      obtain ⟨y, asked, hy, hcall⟩ := Family.exists_call answers hh hv
      rw [hcall] at hx ⊢
      cases hx
      refine ⟨rfl, y.got, ?_⟩
      cases hy with
      | released | lost =>
        exact ⟨rfl, iff_of_false Bool.false_ne_true (fun h => nomatch h), fun l hl => nomatch hl⟩
      | extended new hnv hn =>
        refine ⟨rfl, iff_of_true rfl rfl, fun l hl => ?_⟩
        cases hl
        exact ⟨hnv, hn⟩
      | unsupported | failed => cases hs
  only u i h h' hi hvalid hi' hinvalid := by
    have hne : h ≠ h' := fun hsame => by
      rw [← hsame, hvalid] at hinvalid
      cases hinvalid
    obtain hsame | ⟨hwhich, x, hx, hupshot, hused⟩ := handle_call answers u hi
    · cases hsame.symm.trans hi'
      exact (hne rfl).elim
    · cases hused.symm.trans hi'
      refine ⟨hwhich, _, hupshot, ?_⟩
      cases hx with
      | released | extended | lost => rfl
      | unsupported | failed => exact (hne rfl).elim
  silent u x hx hfinal us := by
    cases hh : f.handles[u.which]? with
    | none =>
      rw [call_of_none hh] at hx
      cases hx
    | some h =>
      cases hv : h.valid with
      | false =>
        rw [call_of_spent hh hv] at hx
        cases hx
        cases hfinal
      | true =>
        obtain ⟨hs, y, asked, hspent, hy, hcall⟩ := hf.exists_call answers hh hv
        rw [hcall] at hx ⊢
        cases hx
        refine calls_of_spent (fun l hl => ?_) us
        cases hy with
        | released | lost =>
          obtain hl | hl := List.mem_append.1 (List.append_nil (hs ++ [h.spent]) ▸ hl)
          · exact hspent l hl
          · rw [List.mem_singleton.1 hl, h.valid_spent]
        | extended | unsupported | failed => cases hfinal

theorem ends_acquire (provider : Provider) (now : Instant) (t : Terms) :
    (provider.acquire now t).Ends fun r =>
      ∀ h, r = .ok (some h) → h.valid = true ∧ h.terms = t := by
  cases provider with
  | stored holder =>
    refine Dialog.Ends.map (Dialog.Ends.via (Dialog.Ends.map (Dialog.ends_of_forall ?_ _)))
    rintro (e | _ | _) h hr
    · simp only [] at hr
      split at hr <;> cases hr
    · cases hr
    · cases hr
      exact ⟨rfl, rfl⟩
  | keyed environment holder =>
    refine Dialog.Ends.map (Dialog.Ends.via ?_)
    rintro (_ | _ | _ | _) h hr <;> cases hr <;> exact ⟨rfl, rfl⟩

/-- **Families are orderly**: whatever handle was got, by whichever provider and with whatever
answers, it is valid, and whatever is called on it and on all that comes of it, the contract holds
at any time. -/
theorem orderly (provider : Provider) (now : Instant) (t : Terms) (answers : Answers) (h : Handle)
    (asked : List Asked) (ha : (provider.acquire now t).hold answers [] = (.ok (some h), asked)) :
    h.valid = true ∧ h.terms = t ∧
      ∀ us, ((⟨[h], asked⟩ : Family).calls answers us).Orderly answers := by
  have hgot := (ends_acquire provider now t).hold answers []
  rw [ha] at hgot
  have hline : InLine ⟨[h], asked⟩ := ⟨[], h, rfl, fun _ hl => nomatch hl⟩
  exact ⟨(hgot h rfl).1, (hgot h rfl).2, fun us => orderly_of_inLine (hline.calls us)⟩

/-- A key-value server that lets the key be taken and extended, but has to be told the scripts. -/
def forgetful : Answers := fun asked q =>
  match q with
  | .store _ => .error .noActiveLock
  | .send (.set _ _ _) => .text "OK"
  | .send (.load s) => .text s.digest
  | .send (.run s _ _ _) =>
    if asked.any fun a => match a.1 with
      | .send (.load known) => known = s
      | _ => false
    then .integer 1 else .failure "NOSCRIPT No matching script."

/-- The handle that is got there for a minute. -/
def forTheMinute : Handle :=
  .keyed ⟨.inSeconds 0 60 0, Redis.lockKey "test" "job", Redis.lockValue .epoch "node", true⟩

/-- The question that it took. -/
def setForTheMinute : Asked :=
  ⟨.send (.set (Redis.lockKey "test" "job") (Redis.lockValue .epoch "node") 60000), .text "OK"⟩

/-- An extension after half a minute, then a release of the new handle and, in vain, one of the
old handle. -/
def extendedThenReleased : List Usage :=
  [⟨0, .second 30, .extend (.ofSeconds 60) .zero⟩, ⟨1, .second 40, .release⟩,
    ⟨0, .second 50, .release⟩]

/-- For the extension and for the first release, a script is run in vain, loaded, and run. -/
theorem forgetful_orderly :
    ((Provider.keyed "test" "node").acquire .epoch (.inSeconds 0 60 0)).hold forgetful [] =
        (.ok (some forTheMinute), [setForTheMinute]) ∧
      ((⟨[forTheMinute], [setForTheMinute]⟩ : Family).calls forgetful
        extendedThenReleased).Orderly forgetful ∧
      ((⟨[forTheMinute], [setForTheMinute]⟩ : Family).calls forgetful
        extendedThenReleased).asked.length = 7 :=
  have ha : ((Provider.keyed "test" "node").acquire .epoch (.inSeconds 0 60 0)).hold forgetful [] =
      (.ok (some forTheMinute), [setForTheMinute]) := rfl
  ⟨ha, (orderly _ _ _ forgetful _ _ ha).2.2 extendedThenReleased, by decide +kernel⟩

end Family
end LeaseLock
