import LeaseLock.Proofs.ServerCommands
import LeaseLock.Redis.Effect
import LeaseLock.Registry

/-!
# Key-value servers

What can be relied on of a server that keeps values under keys, and what can be said of it if only the
commands of one acquisition reach it.

## The model

A server is any machine that replies to commands and of which can be found out, at any instant, what is
under a key. It counts time as the clock does. `Server.Documented` says what its makers promise. A key
stays as long as it was said to, and may stay a little longer. A command may always fail, for instance
because the server does not know the script, and then nothing happens.

## What is proved

Commands about one key leave what is under another one (`find_performAll`), and so do scripts that are
run with another value than the one that is under their key (`Documented.run_of_ne`). All that a family
sends is about one key and one value (`Acquisition.Sends.bears`). A lock is acquired exactly if there is
nothing under its key, unless the command fails (`acquire_of_taken`, `acquire_of_free`). A shelf is a
server as documented (`Shelf.documented`).
-/

namespace LeaseLock.Redis

/-- A key-value server with states in `σ`. -/
structure Server (σ : Type) where
  /-- The value under a key at an instant, if nothing is done in the meantime. -/
  find : σ → Instant → String → Option String
  /-- The reply to a command at an instant, and the state after it. -/
  perform : σ → Instant → Command → Reply × σ

/-- The key that a command is about. -/
def Command.key? : Command → Option String
  | set key _ _ => some key
  | run _ key _ _ => some key
  | load _ => none

/-- The server takes the milliseconds for a time to expire: there are some, and they end within signed
64-bit numbers of milliseconds. -/
def IsExpiry (now : Instant) (millis : Int) : Prop :=
  0 < millis ∧ now.nanos + millis * nanosPerMilli ≤ 9223372036854775807 * nanosPerMilli

namespace Server

variable {σ : Type} (srv : Server σ)

/-- The command fails. -/
def Fails (s : σ) (now : Instant) (c : Command) : Prop := ∃ m, (srv.perform s now c).1 = .failure m

/-- The state after a command. -/
def after (s : σ) (now : Instant) (c : Command) : σ := (srv.perform s now c).2

/-- From an instant on, the same is found under a key in both states. -/
def Same (key : String) (now : Instant) (s s' : σ) : Prop :=
  ∀ later, now ≤ later → srv.find s' later key = srv.find s later key

/-- The value is under the key for some milliseconds. -/
def Keeps (s : σ) (now : Instant) (key value : String) (millis : Int) : Prop :=
  ∀ later, now ≤ later → later.nanos < now.nanos + millis * nanosPerMilli →
    srv.find s later key = some value

/-- What becomes of a key, with a value under it, by the deed of a script. -/
def Obeys (s s' : σ) (now : Instant) (key value : String) (millis : Int) : Deed → Prop
  | .leave => srv.Same key now s s'
  | .expire => IsExpiry now millis → srv.Keeps s' now key value millis
  | .delete => ∀ later, now ≤ later → srv.find s' later key = none

/-- **What the makers of a server promise.** -/
structure Documented : Prop where
  /-- A command that fails changes nothing. -/
  failed {s : σ} {now : Instant} {c : Command} (h : srv.Fails s now c) (key : String) :
    srv.Same key now s (srv.after s now c)
  /-- No command changes another key than its own. -/
  elsewhere {c : Command} {key : String} (h : c.key? ≠ some key) (s : σ) (now : Instant) :
    srv.Same key now s (srv.after s now c)
  /-- A key that is there is not set. -/
  taken {s : σ} {now : Instant} {key found value : String} {millis : Int}
    (h : srv.find s now key = some found) (hdone : ¬srv.Fails s now (.set key value millis)) :
    (srv.perform s now (.set key value millis)).1 = .nil ∧
      srv.Same key now s (srv.after s now (.set key value millis))
  /-- A key that is not there is set, and stays for the milliseconds. -/
  free {s : σ} {now : Instant} {key value : String} {millis : Int} (h : srv.find s now key = none)
    (hmillis : IsExpiry now millis) (hdone : ¬srv.Fails s now (.set key value millis)) :
    (srv.perform s now (.set key value millis)).1 = .text "OK" ∧
      srv.Keeps (srv.after s now (.set key value millis)) now key value millis
  /-- A script does what it comes to. -/
  obeys {s : σ} {now : Instant} {script : Script} {key value : String} {millis : Int}
    (hdone : ¬srv.Fails s now (.run script key value millis)) :
    let deed := script.deed (srv.find s now key) value millis
    (srv.perform s now (.run script key value millis)).1 = .integer deed.changed ∧
      srv.Obeys s (srv.after s now (.run script key value millis)) now key value millis deed

namespace Documented

variable {srv} (h : srv.Documented)
include h

/-- **A script leaves all keys** if there is another value under its own than it is run with. -/
theorem run_of_ne {s : σ} {now : Instant} {script : Script} {key value found : String} {millis : Int}
    (hfound : srv.find s now key = some found) (hne : value ≠ found) (other : String) :
    srv.Same other now s (srv.after s now (.run script key value millis)) := by
  by_cases hfails : srv.Fails s now (.run script key value millis)
  · exact h.failed hfails other
  · by_cases hkey : key = other
    · subst hkey
      have hdeed : script.deed (srv.find s now key) value millis = .leave := by
        apply Script.deed_of_ne
        rw [hfound]
        intro heq
        exact hne (Option.some.inj heq).symm
      have hobeys := (h.obeys hfails).2
      rwa [hdeed] at hobeys
    · apply h.elsewhere
      simpa [Command.key?] using hkey

end Documented

/-- The state after some commands, each at its instant. -/
def performAll (s : σ) (cs : List (Instant × Command)) : σ :=
  cs.foldl (fun s c => srv.after s c.1 c.2) s

/-- **Commands about other keys leave a key**, any number of them. -/
theorem find_performAll {srv : Server σ} (h : srv.Documented) {key : String} {later : Instant}
    {cs : List (Instant × Command)} (hcs : ∀ c ∈ cs, c.1 ≤ later ∧ c.2.key? ≠ some key) (s : σ) :
    srv.find (srv.performAll s cs) later key = srv.find s later key := by
  induction cs generalizing s with
  | nil => rfl
  | cons c cs ih =>
    obtain ⟨⟨hnow, hkey⟩, hcs⟩ := List.forall_mem_cons.1 hcs
    calc srv.find (srv.performAll s (c :: cs)) later key
        = srv.find (srv.after s c.1 c.2) later key := ih hcs _
      _ = srv.find s later key := h.elsewhere hkey s c.1 later hnow

end Server

/-! ### What a family sends -/

/-- The command is about the key, and about the value if it is about any. -/
inductive Command.Bears (key value : String) : Command → Prop where
  | set (millis : Int) : Command.Bears key value (.set key value millis)
  | run (script : Script) (millis : Int) : Command.Bears key value (.run script key value millis)
  | load (script : Script) : Command.Bears key value (.load script)

theorem Lawful.bears {key value : String} {t : Terms} {now : Instant} {u : Use} {c : Command}
    (h : Lawful key value t now u c) : c.Bears key value := by
  cases h with
  | release _ => exact .run _ _
  | extend _ _ => exact .run _ _
  | load => exact .load _

theorem Command.Bears.key?_ne {key value other : String} {c : Command} (h : c.Bears key value)
    (hne : key ≠ other) : c.key? ≠ some other := by
  cases h <;> simp [Command.key?, hne]

/-- An acquisition of a lock at a key-value server. -/
structure Acquisition where
  environment : String
  holder : String
  now : Instant
  terms : Terms

namespace Acquisition

/-- The key of the lock. -/
def key (a : Acquisition) : String := lockKey a.environment a.terms.name

/-- The value that marks the acquisition. -/
def value (a : Acquisition) : String := lockValue a.now a.holder

/-- The family that the acquisition begins. -/
def family (a : Acquisition) (answers : Answers) : Family :=
  Family.begun answers (.keyed a.environment a.holder) a.now a.terms

/-- The command is sent for the acquisition, or for what is called on the handles that come of it. -/
def Sends (a : Acquisition) (c : Command) : Prop :=
  ∃ answers us r, (⟨.send c, r⟩ : (q : Query) × q.Answer) ∈ ((a.family answers).calls answers us).asked

/-- **All that is sent for an acquisition** is about its key and its value. -/
theorem Sends.bears {a : Acquisition} {c : Command} (h : a.Sends c) : c.Bears a.key a.value := by
  obtain ⟨answers, us, r, hc⟩ := h
  obtain ⟨⟨r', hset⟩, hmarked⟩ :=
    Family.begun_keyed answers a.environment a.holder a.now a.terms
  obtain ⟨sent, hsent, hall⟩ := hmarked.exists_sent_calls answers us
  rw [family, hsent] at hc
  rcases List.mem_append.1 hc with hc | hc
  · obtain ⟨before, u, after, -, l, c', -, -, heq, hlawful⟩ := hall _ hc
    cases heq
    exact hlawful.bears
  · rw [hset] at hc
    cases List.mem_singleton.1 hc
    exact .set _

/-- The lease that is got if the lock is. -/
def lease (a : Acquisition) : Lease := ⟨a.terms, a.key, a.value, true⟩

/-- What the reply to its request makes of the acquisition. -/
def outcome (a : Acquisition) : Reply → Except LockError (Option Lease)
  | .failure _ => .error (.backend .command)
  | .nil => .ok none
  | _ => .ok (some a.lease)

/-- The command that takes the lock. -/
def request (a : Acquisition) : Command := .set a.key a.value (expiryMillis a.terms.atMostFor)

theorem sends_request (a : Acquisition) : a.Sends a.request := by
  obtain ⟨⟨r, hset⟩, -⟩ :=
    Family.begun_keyed Family.forgetful a.environment a.holder a.now a.terms
  refine ⟨Family.forgetful, [], r, ?_⟩
  show _ ∈ (a.family Family.forgetful).asked
  rw [family, hset]
  exact List.mem_cons_self

theorem isExpiry (a : Acquisition) : IsExpiry a.now (expiryMillis a.terms.atMostFor) := by
  have hmillis := leaseMillis a.terms.atMostFor
  refine ⟨hmillis.pos, ?_⟩
  have hnow := a.now.upper
  have huntil := a.terms.atMostUntil.upper
  have hcreated := a.terms.createdAt.lower
  have hnonneg : 0 ≤ a.terms.atMostFor.nanos := a.terms.atMostFor_nonneg
  have hlength := a.terms.atMostUntil_eq
  rw [hmillis.whole, Span.wholeMillis, Int.tdiv_eq_ediv_of_nonneg hnonneg]
  simp only [Instant.first, Instant.last, nanosPerSecond, nanosPerMilli] at *
  omega

end Acquisition

namespace Server

variable {σ : Type} (srv : Server σ)

/-- What an acquisition comes to at a server. -/
def acquire (s : σ) (a : Acquisition) : Except LockError (Option Lease) :=
  ((Lease.acquire a.environment a.holder a.now a.terms).hold
    (fun _ c => (srv.perform s a.now c).1) []).1

variable {srv} {s : σ} {a : Acquisition}

/-- The reply to the request decides. -/
theorem acquire_eq : srv.acquire s a = a.outcome (srv.perform s a.now a.request).1 := by
  unfold acquire Lease.acquire
  simp only [Dialog.hold]
  rw [Acquisition.request, Acquisition.key, Acquisition.value]
  cases (srv.perform s a.now (.set _ _ _)).1 <;> rfl

variable (h : srv.Documented)
include h

/-- Nothing is acquired while there is something under the key. -/
theorem acquire_of_taken {found : String} (hfound : srv.find s a.now a.key = some found)
    (hdone : ¬srv.Fails s a.now a.request) : srv.acquire s a = .ok none := by
  have hreply : (srv.perform s a.now a.request).1 = .nil := (h.taken hfound hdone).1
  rw [acquire_eq, hreply]
  rfl

/-- A lock with nothing under its key is acquired. -/
theorem acquire_of_free (hfound : srv.find s a.now a.key = none)
    (hdone : ¬srv.Fails s a.now a.request) : srv.acquire s a = .ok (some a.lease) := by
  have hreply : (srv.perform s a.now a.request).1 = .text "OK" := (h.free hfound a.isExpiry hdone).1
  rw [acquire_eq, hreply]
  rfl

end Server

/-! ### A server -/

/-- A server that knows some scripts, and has values under keys until certain nanoseconds. -/
structure Shelf where
  known : List Script
  entries : Registry String (String × Int)

namespace Shelf

/-- What is under a key, if it has not expired. -/
def find (s : Shelf) (now : Instant) (key : String) : Option String :=
  ((Registry.get? key s.entries).filter (now.nanos < ·.2)).map (·.1)

/-- Puts a value under a key for some milliseconds. -/
def put (s : Shelf) (now : Instant) (key value : String) (millis : Int) : Shelf :=
  { s with entries := Registry.put key (value, now.nanos + millis * nanosPerMilli) s.entries }

/-- Does what a script comes to. -/
def obey (s : Shelf) (now : Instant) (key value : String) (millis : Int) : Deed → Shelf
  | .leave => s
  | .expire => s.put now key value millis
  | .delete => { s with entries := Registry.erase key s.entries }

/-- Performs a command. -/
def perform (s : Shelf) (now : Instant) : Command → Reply × Shelf
  | .set key value millis =>
    if (s.find now key).isSome then (.nil, s) else (.text "OK", s.put now key value millis)
  | .run script key value millis =>
    if script ∈ s.known then
      let deed := script.deed (s.find now key) value millis
      (.integer deed.changed, s.obey now key value millis deed)
    else (.failure "NOSCRIPT No matching script.", s)
  | .load script => (.text script.digest, { s with known := script :: s.known })

/-- The shelf as a server. -/
def server : Server Shelf := ⟨find, perform⟩

section

variable {s : Shelf} {now later : Instant} {j key value : String} {millis : Int} {script : Script}

theorem find_eq_some_iff : s.find now key = some value ↔
    ∃ expiry, Registry.get? key s.entries = some (value, expiry) ∧ now.nanos < expiry := by
  simp [find, Option.filter_eq_some_iff]

theorem find_put_self (h : later.nanos < now.nanos + millis * nanosPerMilli) :
    (s.put now key value millis).find later key = some value :=
  find_eq_some_iff.2 ⟨_, Registry.get?_put_self _ _ _, h⟩

theorem find_obey_of_ne (h : j ≠ key) (d : Deed) :
    (s.obey now key value millis d).find later j = s.find later j := by
  cases d <;> simp [obey, find, put, h]

/-- A command leaves what is under another key. -/
theorem find_perform_of_ne {c : Command} (h : c.key? ≠ some j) :
    (s.perform now c).2.find later j = s.find later j := by
  cases c with
  | set key value millis =>
    have hne : j ≠ key := by simpa [Command.key?, eq_comm] using h
    simp only [perform]
    split
    · rfl
    · exact find_obey_of_ne hne .expire
  | run script key value millis =>
    have hne : j ≠ key := by simpa [Command.key?, eq_comm] using h
    simp only [perform]
    split
    · exact find_obey_of_ne hne _
    · rfl
  | load script => rfl

/-- What fails is a script that the shelf does not know. -/
theorem perform_of_fails {c : Command} (h : server.Fails s now c) : (s.perform now c).2 = s := by
  obtain ⟨m, hm⟩ := h
  replace hm : (s.perform now c).1 = .failure m := hm
  cases c with
  | set key value millis =>
    simp only [perform] at hm
    split at hm <;> cases hm
  | run script key value millis =>
    simp only [perform] at hm ⊢
    split at hm
    · cases hm
    · rename_i hknown
      rw [if_neg hknown]
  | load script => cases hm

theorem not_fails_set : ¬server.Fails s now (.set key value millis) := by
  rintro ⟨m, hm⟩
  replace hm : (s.perform now (.set key value millis)).1 = .failure m := hm
  simp only [perform] at hm
  split at hm <;> cases hm

theorem not_fails_run (h : script ∈ s.known) : ¬server.Fails s now (.run script key value millis) := by
  rintro ⟨m, hm⟩
  simp [server, perform, h] at hm

/-- A script that does not fail is known. -/
theorem perform_of_done (h : ¬server.Fails s now (.run script key value millis)) :
    s.perform now (.run script key value millis) =
      let deed := script.deed (s.find now key) value millis
      (.integer deed.changed, s.obey now key value millis deed) := by
  simp only [perform]
  split
  · rfl
  · rename_i hknown
    refine absurd ⟨"NOSCRIPT No matching script.", ?_⟩ h
    simp [server, perform, hknown]

theorem obeys_obey (d : Deed) :
    server.Obeys s (s.obey now key value millis d) now key value millis d := by
  cases d with
  | leave => exact fun later hle => rfl
  | expire => exact fun hmillis later hle hlt => find_put_self hlt
  | delete =>
    intro later hle
    simp [server, obey, find]

end

/-- **A shelf is a server as documented.** -/
theorem documented : server.Documented where
  failed {s now c} h key := by
    intro later hle
    show (s.perform now c).2.find later key = s.find later key
    rw [perform_of_fails h]
  elsewhere {c key} h s now := by
    intro later hle
    exact find_perform_of_ne h
  taken {s now key found value millis} h hdone := by
    have hset : s.perform now (.set key value millis) = (.nil, s) := by
      replace h : s.find now key = some found := h
      simp [perform, h]
    constructor
    · exact congrArg Prod.fst hset
    · intro later hle
      exact congrArg (fun r => r.2.find later key) hset
  free {s now key value millis} h hmillis hdone := by
    have hset : s.perform now (.set key value millis) = (.text "OK", s.put now key value millis) := by
      replace h : s.find now key = none := h
      simp [perform, h]
    constructor
    · exact congrArg Prod.fst hset
    · intro later hle hlt
      show (s.perform now (.set key value millis)).2.find later key = some value
      rw [hset]
      exact find_put_self hlt
  obeys {s now script key value millis} hdone := by
    have hrun := perform_of_done hdone
    constructor
    · exact congrArg Prod.fst hrun
    · show server.Obeys s (s.perform now (.run script key value millis)).2 now key value millis _
      rw [hrun]
      exact obeys_obey _

/-- A shelf that knows the scripts, with a value under a key for the first half minute of 1970. -/
def holding (key value : String) : Shelf :=
  ⟨[.release, .extend], [(key, (value, 30 * nanosPerSecond))]⟩

theorem find_holding (key value : String) : server.find (holding key value) .epoch key = some value :=
  find_eq_some_iff.2 ⟨30 * nanosPerSecond, by simp [holding, Registry.get?], by decide⟩

end Shelf
end LeaseLock.Redis
