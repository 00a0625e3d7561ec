import LeaseLock.Proofs.KeyServers
import LeaseLock.Proofs.ServerTimes

/-!
# Keys and values

What the key and the value of a lock at a key-value server say of the lock and of who has it.

## The model

A key joins the environment and the name of the lock by a colon, a value the stamp of the acquisition and
the holder by an at sign. Environments, names and holders are texts of any kind.

## What is proved

`values_identify`: two values are the same exactly if the holders are, and the instants of the
acquisitions cut down to milliseconds. So a script that is run for one acquisition does nothing to a key
with the value of another holder, or of another millisecond.

`keys_apart`: two locks have the same key exactly if they are the same or one of the environments goes on
into the name of the other lock (`Alike`), which is not possible without a colon in an environment. What is
sent for a lock does nothing to the keys of the others; but as long as a lock is there, another one with
the same key cannot be taken.

Where a text is joined from two by a character, it can be cut at any other place where this stands
(`joined_eq_iff`). No stamp has an at sign in it, so values are cut at the first one.
-/

namespace LeaseLock

/-! ### Joined texts -/

section Joined

variable {α : Type} {c : α} {l l' r r' : List α}

/-- **Two texts that are joined by a character** come to the same if they are the same, or if one goes on
into the other after the character. -/
theorem joined_eq_iff : l ++ c :: r = l' ++ c :: r' ↔
    (l = l' ∧ r = r') ∨ (∃ x, l' = l ++ c :: x ∧ r = x ++ c :: r') ∨
      ∃ x, l = l' ++ c :: x ∧ r' = x ++ c :: r := by
  constructor
  · intro h
    rcases List.append_eq_append_iff.1 h with ⟨x, hl, hr⟩ | ⟨x, hl, hr⟩
    · cases x with
      | nil =>
        left
        simp_all
      | cons d x =>
        obtain ⟨rfl, htail⟩ := List.cons.inj hr
        exact .inr (.inl ⟨x, hl, htail⟩)
    · cases x with
      | nil =>
        left
        simp_all
      | cons d x =>
        obtain ⟨rfl, htail⟩ := List.cons.inj hr
        exact .inr (.inr ⟨x, hl, htail⟩)
  · rintro (⟨rfl, rfl⟩ | ⟨x, rfl, rfl⟩ | ⟨x, rfl, rfl⟩) <;> simp

/-- They are the same if the character is in neither of the first texts. -/
theorem joined_inj (h : c ∉ l) (h' : c ∉ l') : l ++ c :: r = l' ++ c :: r' ↔ l = l' ∧ r = r' := by
  rw [joined_eq_iff]
  constructor
  · rintro (heq | ⟨x, rfl, -⟩ | ⟨x, rfl, -⟩)
    · exact heq
    · simp at h'
    · simp at h
  · exact .inl

end Joined

/-! ### Stamps in values -/

namespace Stamp

open Text Text.Numeral

variable {t u : Instant} {c : Char} {cs : List Char}

/-- The character may be in a date or a time of the day. -/
def isMark (c : Char) : Bool := c.isDigit || c == '-' || c == '+' || c == ':' || c == '.'

theorem all_isMark_of_isRun (h : isRun cs = true) : cs.all isMark = true := by
  rw [isRun] at h
  rw [List.all_eq_true] at h ⊢
  intro c hc
  simp [isMark, h c hc]

theorem all_isMark_pair (n : Int) : (pair n).all isMark = true := all_isMark_of_isRun (isRun_pair n)

theorem all_isMark_yearText (y : Int) : (yearText y).all isMark = true := by
  have hdigits (n : Nat) : (padded 4 n).all isMark = true := all_isMark_of_isRun (isRun_padded 4 n)
  rw [yearText]
  split
  · exact hdigits _
  · rw [List.all_cons, hdigits]
    split <;> decide

theorem all_isMark_dateText (d : Date) : (dateText d).all isMark = true := by
  simp only [dateText, List.all_append, List.all_cons, all_isMark_yearText, all_isMark_pair]
  decide

/-- The time of the day in milliseconds. -/
def timeChars (t : Instant) : List Char := clockText t.timeOfDay ++ '.' :: millisText t.subsecond

theorem all_isMark_timeChars (t : Instant) : (timeChars t).all isMark = true := by
  have hmillis : (millisText t.subsecond).all isMark = true := all_isMark_of_isRun (isRun_padded 3 _)
  simp only [timeChars, clockText, List.all_append, List.all_cons, all_isMark_pair, hmillis]
  decide

theorem not_mem_of_all (h : cs.all isMark = true) (hc : isMark c = false) : c ∉ cs := by
  intro hmem
  rw [List.all_eq_true.1 h c hmem] at hc
  cases hc

theorem rfcChars_split (t : Instant) :
    rfcChars t = dateText t.date ++ 'T' :: (timeChars t ++ ['Z']) := by
  simp [rfcChars, timeChars]

theorem storedChars_split (t : Instant) : storedChars t = dateText t.date ++ ' ' :: timeChars t := by
  simp [storedChars, timeChars]

/-- **Stamps are the same** exactly if the instants are that are cut down to milliseconds. -/
theorem rfcChars_eq_iff : rfcChars t = rfcChars u ↔ t.floorMillis = u.floorMillis := by
  have hmarks (t : Instant) : 'T' ∉ dateText t.date := not_mem_of_all (all_isMark_dateText _) (by decide)
  have hmarks' (t : Instant) : ' ' ∉ dateText t.date := not_mem_of_all (all_isMark_dateText _) (by decide)
  have hstored : rfcChars t = rfcChars u ↔ storedChars t = storedChars u := by
    rw [rfcChars_split, rfcChars_split, joined_inj (hmarks t) (hmarks u), List.append_cancel_right_eq,
      storedChars_split, storedChars_split, joined_inj (hmarks' t) (hmarks' u)]
  rw [hstored]
  constructor
  · intro h
    have hread := readChars_storedChars t
    rw [h, readChars_storedChars u] at hread
    exact (Moment.ofInstant_inj (Except.ok.inj hread)).symm
  · intro h
    have htexts : stored t = stored u := stored_eq_of_floorMillis h
    rw [stored, stored] at htexts
    exact String.ofList_injective htexts

theorem at_not_mem_rfcChars (t : Instant) : '@' ∉ rfcChars t := by
  have hdate := not_mem_of_all (all_isMark_dateText t.date) (show isMark '@' = false by decide)
  have htime := not_mem_of_all (all_isMark_timeChars t) (show isMark '@' = false by decide)
  simp [rfcChars_split, hdate, htime]

end Stamp

namespace Redis

/-! ### Values -/

theorem toList_lockValue (now : Instant) (holder : String) :
    (lockValue now holder).toList = "ADDED:".toList ++ (Stamp.rfcChars now ++ '@' :: holder.toList) := by
  simp [lockValue, Stamp.rfc]

/-- **Values are the same** exactly if holder and millisecond are. -/
theorem lockValue_eq_iff {now later : Instant} {holder other : String} :
    lockValue now holder = lockValue later other ↔
      holder = other ∧ now.floorMillis = later.floorMillis := by
  rw [← String.toList_inj, toList_lockValue, toList_lockValue, List.append_cancel_left_eq,
    joined_inj (Stamp.at_not_mem_rfcChars _) (Stamp.at_not_mem_rfcChars _), Stamp.rfcChars_eq_iff,
    String.toList_inj, and_comm]

/-- **Values tell who has a lock, and since when.** Two values are the same exactly if the holders are and
the instants are in the same millisecond. So take two acquisitions of which this does not hold, of the same
lock or of others. Every script that is run for the first one, whatever is called on its handles, has
another value than the second one sets; at a server that has the latter under the key of the script,
nothing is changed. -/
theorem values_identify :
    (∀ now later holder other, lockValue now holder = lockValue later other ↔
      holder = other ∧ now.floorMillis = later.floorMillis) ∧
    ∀ a b : Acquisition, ¬(a.holder = b.holder ∧ a.now.floorMillis = b.now.floorMillis) →
      ∀ script key value millis, a.Sends (.run script key value millis) →
      ∀ key' value' millis', b.Sends (.set key' value' millis') →
      value ≠ value' ∧
        ∀ {σ : Type} (srv : Server σ), srv.Documented → ∀ s arrival,
          srv.find s arrival key = some value' →
          ∀ other, srv.Same other arrival s (srv.after s arrival (.run script key value millis)) := by
  refine ⟨fun _ _ _ _ => lockValue_eq_iff, ?_⟩
  intro a b hother script key value millis hrun key' value' millis' hset
  have hvalue : value = a.value := by
    cases hrun.bears
    rfl
  have hvalue' : value' = b.value := by
    cases hset.bears
    rfl
  have hne : value ≠ value' := by
    rw [hvalue, hvalue', Acquisition.value, Acquisition.value, ne_eq, lockValue_eq_iff]
    exact hother
  refine ⟨hne, ?_⟩
  intro σ srv h s arrival hfound other
  exact h.run_of_ne hfound hne other

/-- An acquisition for half a minute at the start of 1970. -/
def atEpoch (environment holder name : String) (h : name ≠ "") : Acquisition :=
  ⟨environment, holder, .epoch, .early name h⟩

/-- The release that one holder sends does nothing to the key while another one has it, even if what comes
after an at sign is the same in both values. -/
theorem others_keep_values :
    let a := atEpoch "default" "x@y" "job" Terms.job_ne
    let b := atEpoch "default" "y" "job" Terms.job_ne
    a.value ≠ b.value ∧
      let s := Shelf.holding b.key b.value
      Shelf.server.find (Shelf.server.after s .epoch (.run .release a.key a.value 0)) .epoch b.key =
        some b.value := by
  intro a b
  have hrun : a.Sends (.run .release a.key a.value 0) :=
    ⟨Family.forgetful, [⟨0, .epoch, .release⟩], .integer 1, List.mem_cons_self⟩
  obtain ⟨hne, hserver⟩ := values_identify.2 a b (by decide) .release a.key a.value 0 hrun b.key b.value _
    b.sends_request
  refine ⟨hne, ?_⟩
  intro s
  have hfound := Shelf.find_holding b.key b.value
  rw [hserver Shelf.server Shelf.documented s .epoch hfound b.key .epoch (Int.le_refl _), hfound]

/-! ### Keys -/

/-- **Two locks that have one key**: the same lock, or two of which the environment of the one goes on
after a colon into the name of the other. -/
inductive Alike : (environment name environment' name' : String) → Prop where
  | same (environment name : String) : Alike environment name environment name
  | shorter (environment between name : String) :
    Alike environment (between ++ ":" ++ name) (environment ++ ":" ++ between) name
  | longer (environment between name : String) :
    Alike (environment ++ ":" ++ between) name environment (between ++ ":" ++ name)

variable {environment name environment' name' : String}

theorem toList_lockKey (environment name : String) :
    (lockKey environment name).toList = "job-lock:".toList ++ (environment.toList ++ ':' :: name.toList) := by
  simp [lockKey]

theorem lockKey_eq_iff :
    lockKey environment name = lockKey environment' name' ↔ Alike environment name environment' name' := by
  rw [← String.toList_inj, toList_lockKey, toList_lockKey, List.append_cancel_left_eq, joined_eq_iff]
  constructor
  · rintro (⟨he, hn⟩ | ⟨x, he, hn⟩ | ⟨x, he, hn⟩)
    · rw [String.toList_inj] at he hn
      subst he hn
      exact .same _ _
    · obtain rfl : environment' = environment ++ ":" ++ String.ofList x := by
        rw [← String.toList_inj, he]
        simp
      obtain rfl : name = String.ofList x ++ ":" ++ name' := by
        rw [← String.toList_inj, hn]
        simp
      exact .shorter _ _ _
    · obtain rfl : environment = environment' ++ ":" ++ String.ofList x := by
        rw [← String.toList_inj, he]
        simp
      obtain rfl : name' = String.ofList x ++ ":" ++ name := by
        rw [← String.toList_inj, hn]
        simp
      exact .longer _ _ _
  · intro h
    cases h with
    | same => simp
    | shorter _ between _ => exact .inr (.inl ⟨between.toList, by simp, by simp⟩)
    | longer _ between _ => exact .inr (.inr ⟨between.toList, by simp, by simp⟩)

/-- Without a colon in an environment they are the same lock. -/
theorem Alike.eq_of_not_mem (h : Alike environment name environment' name')
    (hcolon : ':' ∉ environment.toList) (hcolon' : ':' ∉ environment'.toList) :
    environment = environment' ∧ name = name' := by
  cases h with
  | same => exact ⟨rfl, rfl⟩
  | shorter => simp at hcolon'
  | longer => simp at hcolon

/-- The locks of two acquisitions have one key. -/
def Acquisition.Shares (a b : Acquisition) : Prop :=
  Alike a.environment a.terms.name b.environment b.terms.name

theorem Acquisition.shares_iff {a b : Acquisition} : a.Shares b ↔ a.key = b.key := lockKey_eq_iff.symm

/-- What is sent for locks with other keys leaves a key. -/
theorem find_key_performAll {σ : Type} {srv : Server σ} (h : srv.Documented) {a : Acquisition}
    {later : Instant} {cs : List (Instant × Command)}
    (hcs : ∀ c ∈ cs, c.1 ≤ later ∧ ∃ b : Acquisition, ¬a.Shares b ∧ b.Sends c.2) (s : σ) :
    srv.find (srv.performAll s cs) later a.key = srv.find s later a.key := by
  apply Server.find_performAll h
  intro c hc
  obtain ⟨hnow, b, hother, hsent⟩ := hcs c hc
  refine ⟨hnow, hsent.bears.key?_ne ?_⟩
  intro heq
  exact hother (Acquisition.shares_iff.2 heq.symm)

/-- **A lock has a key of its own** unless a colon brings it together with another one. Another lock has its
key exactly if it is the same lock, or if the environment of one goes on into the name of the other; if
there is no colon in the environments, it is the same lock. At a server, nothing that is sent for locks with
other keys, in any number and whatever is called on their handles, changes what is under the key or keeps
the lock from being taken. But the lock is refused as long as there is something under the key of another
one with which it shares the key. -/
theorem keys_apart (a : Acquisition) :
    (∀ environment name, a.key = lockKey environment name ↔
      Alike a.environment a.terms.name environment name) ∧
    (∀ environment name, ':' ∉ a.environment.toList → ':' ∉ environment.toList →
      a.key = lockKey environment name → a.environment = environment ∧ a.terms.name = name) ∧
    ∀ {σ : Type} (srv : Server σ), srv.Documented →
      (∀ cs later s, (∀ c ∈ cs, c.1 ≤ later ∧ ∃ b : Acquisition, ¬a.Shares b ∧ b.Sends c.2) →
        srv.find (srv.performAll s cs) later a.key = srv.find s later a.key) ∧
      (∀ cs s, (∀ c ∈ cs, c.1 ≤ a.now ∧ ∃ b : Acquisition, ¬a.Shares b ∧ b.Sends c.2) →
        srv.find s a.now a.key = none → ¬srv.Fails (srv.performAll s cs) a.now a.request →
        srv.acquire (srv.performAll s cs) a = .ok (some a.lease)) ∧
      ∀ (b : Acquisition) s found, a.Shares b → srv.find s a.now b.key = some found →
        ¬srv.Fails s a.now a.request → srv.acquire s a = .ok none := by
  refine ⟨fun _ _ => lockKey_eq_iff, ?_, ?_⟩
  · intro environment name hcolon hcolon' heq
    exact (lockKey_eq_iff.1 heq).eq_of_not_mem hcolon hcolon'
  · intro σ srv h
    refine ⟨?_, ?_, ?_⟩
    · intro cs later s hcs
      exact find_key_performAll h hcs s
    · intro cs s hcs hfree hdone
      apply Server.acquire_of_free h _ hdone
      rw [find_key_performAll h hcs s, hfree]
    · intro b s found hshares hfound hdone
      rw [← Acquisition.shares_iff.1 hshares] at hfound
      exact Server.acquire_of_taken h hfound hdone

/-- One lock is taken in an environment while it is taken in another one. But a colon in an environment, and
one in the name of a lock, make two locks of different names refuse one another. -/
theorem apart_and_together :
    let test := atEpoch "test" "node" "job" Terms.job_ne
    let live := atEpoch "live" "node" "job" Terms.job_ne
    let inner := atEpoch "a:b" "node" "c" (by decide)
    let outer := atEpoch "a" "other" "b:c" (by decide)
    Shelf.server.acquire (Shelf.server.performAll ⟨[], []⟩ [(.epoch, live.request)]) test =
      .ok (some test.lease) ∧
    Shelf.server.acquire (Shelf.server.performAll ⟨[], []⟩ [(.epoch, outer.request)]) inner = .ok none := by
  intro test live inner outer
  constructor
  · apply ((keys_apart test).2.2 Shelf.server Shelf.documented).2.1 _ _ _ rfl Shelf.not_fails_set
    intro c hc
    rw [List.mem_singleton.1 hc]
    refine ⟨Int.le_refl _, live, ?_, live.sends_request⟩
    intro hshares
    have hsame := hshares.eq_of_not_mem (by decide) (by decide)
    exact absurd hsame.1 (by decide)
  · have hset : Shelf.server.Keeps (Shelf.server.performAll ⟨[], []⟩ [(.epoch, outer.request)]) .epoch
        outer.key outer.value (expiryMillis outer.terms.atMostFor) :=
      (Shelf.documented.free rfl outer.isExpiry Shelf.not_fails_set).2
    have hfound := hset .epoch (Int.le_refl _) (by decide)
    have hshares : inner.Shares outer := .longer "a" "b" "c"
    exact ((keys_apart inner).2.2 Shelf.server Shelf.documented).2.2 outer _ _ hshares hfound
      Shelf.not_fails_set

end Redis
end LeaseLock
