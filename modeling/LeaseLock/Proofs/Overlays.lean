import LeaseLock.Settings.Environment

/-!
# Settings under an environment

What an environment makes of settings, and that it makes nothing more of them a second time.

## The model

A variable gives its text unless it is absent or blank (`Environment.Gives`). It decides a setting: what
its text means goes in the place of what was there before (`Environment.Decides`). Three variables
decide the parts of a backend, from which it is chosen anew; the parts of the backend before fill in for
those that give nothing (`Environment.Parts`).

## What is proved

`overlay_decided`: an environment that gives nothing changes nothing. The settings under any other are
those that the variables decide (`Overlaid`); there are none exactly if the parts make no backend, or a
switch has a text that is not one of its words. And settings that came out of an environment stay as
they are under it.

The last of these is for the backend a matter of its names. A text names a backend if it is one of its
spellings (`make_eq_ok_iff`), which no longer shows in the backend. But each backend is made again from
its own name, URL and environment, and also if any of these is replaced by the part that it was made
from (`make_again`).
-/

namespace LeaseLock

/-! ### Backends and their parts -/

namespace BackendChoice

variable {b : BackendChoice} {kind kind' : String} {url url' environment environment' : Option String}

/-- The names of a backend in their usual form. -/
def spellings : BackendChoice → List String
  | memory => ["memory", "in-memory", "in_memory"]
  | sqlite _ => ["sqlite"]
  | postgres _ => ["postgres", "postgresql"]
  | mysql _ => ["mysql", "mariadb"]
  | redis _ _ => ["redis"]

/-- The text names the backend, in letters of any case and with blanks around it. -/
def IsNamed (b : BackendChoice) (kind : String) : Prop :=
  ∃ w ∈ b.spellings, Text.lower (Text.trim kind) = w

/-- The backend has this URL, and this environment or the default one, as far as it has any. -/
def Fits (url environment : Option String) : BackendChoice → Prop
  | memory => True
  | sqlite u | postgres u | mysql u => url = some u
  | redis u e => url = some u ∧ environment.getD Redis.defaultEnvironment = e

theorem isNamed_iff : b.IsNamed kind ↔ normalized kind ∈ b.spellings := by
  simp [IsNamed, normalized]

theorem withUrl_eq_ok_iff {u : String} :
    withUrl kind u environment = .ok b ↔
      kind ∈ b.spellings ∧ b ≠ .memory ∧ b.Fits (some u) environment := by
  constructor
  · intro h
    unfold withUrl at h
    split at h <;> cases h <;> simp [spellings, Fits]
  · rintro ⟨hkind, hb, hfits⟩
    cases b with
    | memory => exact absurd rfl hb
    | sqlite u' | postgres u' | mysql u' =>
      cases hfits
      simp only [spellings, List.mem_cons, List.not_mem_nil, or_false] at hkind
      rcases hkind with rfl | rfl <;> rfl
    | redis u' e =>
      obtain ⟨hu, rfl⟩ := hfits
      cases hu
      simp only [spellings, List.mem_cons, List.not_mem_nil, or_false] at hkind
      subst hkind
      rfl

/-- **A backend is made** by its names, from a URL and an environment that fit it. -/
theorem make_eq_ok_iff : make kind url environment = .ok b ↔ b.IsNamed kind ∧ b.Fits url environment := by
  simp only [isNamed_iff, make]
  by_cases hmemory : normalized kind ∈ ["memory", "in-memory", "in_memory"]
  · rw [if_pos hmemory]
    constructor
    · intro h
      cases h
      exact ⟨hmemory, trivial⟩
    · rintro ⟨hkind, -⟩
      cases b with
      | memory => rfl
      | sqlite | postgres | mysql | redis =>
        simp only [spellings, List.mem_cons, List.not_mem_nil, or_false] at hkind hmemory
        rcases hmemory with h | h | h <;> simp [h] at hkind
  · rw [if_neg hmemory]
    cases url with
    | none =>
      constructor
      · intro h
        cases h
      · rintro ⟨hkind, hfits⟩
        cases b with
        | memory => exact absurd hkind hmemory
        | sqlite | postgres | mysql => cases hfits
        | redis => cases hfits.1
    | some u =>
      simp only [withUrl_eq_ok_iff]
      constructor
      · rintro ⟨hkind, -, hfits⟩
        exact ⟨hkind, hfits⟩
      · rintro ⟨hkind, hfits⟩
        refine ⟨hkind, ?_, hfits⟩
        rintro rfl
        exact hmemory hkind

theorem normalized_kind (b : BackendChoice) : normalized b.kind = b.kind := by
  rw [normalized, Text.trim, Text.lower_ofList]
  cases b <;> simp only [kind] <;> decide

theorem isNamed_kind (b : BackendChoice) : b.IsNamed b.kind := by
  rw [isNamed_iff, normalized_kind]
  cases b <;> simp [kind, spellings]

/-- **A backend is made again** from parts of its own and parts that it was made from. -/
theorem make_again (h : make kind url environment = .ok b) (hkind : kind' = kind ∨ kind' = b.kind)
    (hurl : url' = url ∨ url' = b.url?)
    (henvironment : environment' = environment ∨ environment' = b.environment?) :
    make kind' url' environment' = .ok b := by
  obtain ⟨hnamed, hfits⟩ := make_eq_ok_iff.1 h
  apply make_eq_ok_iff.2
  constructor
  · rcases hkind with rfl | rfl
    · exact hnamed
    · exact isNamed_kind b
  · cases b with
    | memory => trivial
    | sqlite u | postgres u | mysql u =>
      rcases hurl with rfl | rfl
      · exact hfits
      · rfl
    | redis u e =>
      constructor
      · rcases hurl with rfl | rfl
        · exact hfits.1
        · rfl
      · rcases henvironment with rfl | rfl
        · exact hfits.2
        · rfl

theorem make_self (b : BackendChoice) : make b.kind b.url? b.environment? = .ok b := by
  apply make_eq_ok_iff.2
  refine ⟨isNamed_kind b, ?_⟩
  cases b <;> simp [Fits, url?, environment?]

end BackendChoice

/-! ### Variables and what they decide -/

namespace Environment

variable {e : Environment} {v : Variable} {α : Type} {meaning : String → α} {before before' a a' : α}

/-- The variable has a text, and it is not blank. -/
def Gives (e : Environment) (v : Variable) (x : String) : Prop :=
  Registry.get? v.name e = some x ∧ Text.isAllBlank x = false

/-- All variables are absent or blank. -/
def IsSilent (e : Environment) : Prop :=
  ∀ (v : Variable) x, Registry.get? v.name e = some x → Text.isAllBlank x = true

/-- **What a variable decides**: the meaning of its text goes in the place of what was there before, which
is kept if it gives none. -/
inductive Decides (e : Environment) (v : Variable) (meaning : String → α) (before : α) : α → Prop where
  | given {x : String} (h : e.Gives v x) : Decides e v meaning before (meaning x)
  | kept (h : ∀ x, ¬e.Gives v x) : Decides e v meaning before before

theorem text?_eq_some_iff {x : String} : e.text? v = some x ↔ e.Gives v x := by
  simp [text?, Gives, Option.filter_eq_some_iff]

theorem text?_eq_none_iff : e.text? v = none ↔ ∀ x, ¬e.Gives v x := by
  simp only [Option.eq_none_iff_forall_ne_some, ne_eq, text?_eq_some_iff]

theorem decides_iff : e.Decides v meaning before a ↔ ((e.text? v).map meaning).getD before = a := by
  constructor
  · intro h
    cases h with
    | given h => simp [text?_eq_some_iff.2 h]
    | kept h => simp [text?_eq_none_iff.2 h]
  · rintro rfl
    cases h : e.text? v with
    | none => exact .kept (text?_eq_none_iff.1 h)
    | some x => exact .given (text?_eq_some_iff.1 h)

theorem Decides.given_or_kept (h : e.Decides v meaning before a) :
    (∃ x, e.Gives v x ∧ meaning x = a) ∨ before = a := by
  cases h with
  | given h => exact .inl ⟨_, h, rfl⟩
  | kept h => exact .inr rfl

/-- Decided once more, it is what it was decided to be or what was there before. -/
theorem Decides.again (h : e.Decides v meaning before a) (h' : e.Decides v meaning before' a') :
    a' = a ∨ a' = before' := by
  rw [decides_iff] at h h'
  cases hx : e.text? v with
  | none => simp_all
  | some x => simp_all

/-- What was decided stays so. -/
theorem Decides.stays (h : e.Decides v meaning before a) : e.Decides v meaning a a := by
  cases h with
  | given h => exact .given h
  | kept h => exact .kept h

/-- **The parts of a backend**, after one that was there before. -/
structure Parts (e : Environment) (b : BackendChoice) (kind : String) (url environment : Option String) :
    Prop where
  kind : e.Decides .backend id b.kind kind
  url : e.Decides .url some b.url? url
  environment : e.Decides .environment some b.environment? environment

end Environment

/-! ### Settings -/

/-- The text is one of the words of a switch, in letters of any case and with blanks around it. -/
def IsSwitch (x : String) : Prop :=
  Text.lower (Text.trim x) ∈ ["true", "1", "yes", "on", "false", "0", "no", "off"]

theorem exists_switch_error_iff {x : String} : (∃ f, switch x = .error f) ↔ ¬IsSwitch x := by
  have hwords : IsSwitch x ↔ Text.lower (Text.trim x) ∈ ["true", "1", "yes", "on"] ∨
      Text.lower (Text.trim x) ∈ ["false", "0", "no", "off"] :=
    List.mem_append (s := ["true", "1", "yes", "on"])
  rw [hwords]
  unfold switch
  dsimp only
  split
  · rename_i h
    simp [h]
  · split
    · rename_i h
      simp [h]
    · rename_i h h'
      simp only [h, h', or_self, not_false_eq_true, iff_true]
      exact ⟨_, rfl⟩

/-- **The settings under an environment**, each decided by its variable; those without one are kept. -/
structure Overlaid (e : Environment) (s s' : Settings) : Prop where
  backend : ∃ kind url environment, e.Parts s.backend kind url environment ∧
    BackendChoice.make kind url environment = .ok s'.backend
  tableName : e.Decides .table id s.tableName s'.tableName
  useServerTime : e.Decides .useServerTime switch (.ok s.useServerTime) (.ok s'.useServerTime)
  lockedBy : e.Decides .lockedBy some s.lockedBy s'.lockedBy
  product : s'.product = s.product
  createTable : s'.createTable = s.createTable
  atMostFor : e.Decides .atMostFor id s.atMostFor s'.atMostFor
  atLeastFor : e.Decides .atLeastFor id s.atLeastFor s'.atLeastFor

namespace Settings

open Environment (decides_iff)

variable {e : Environment} {s s' : Settings} {b : BackendChoice}

theorem overlaidBackend_eq_iff {r : Except SettingsFault BackendChoice} :
    overlaidBackend b e = r ↔ ∃ kind url environment, e.Parts b kind url environment ∧
      BackendChoice.make kind url environment = r := by
  have hmake : overlaidBackend b e = BackendChoice.make ((e.text? .backend).getD b.kind)
      ((e.text? .url).or b.url?) ((e.text? .environment).or b.environment?) := by
    unfold overlaidBackend
    split
    · rename_i hkind hurl henvironment
      simp [hkind, hurl, henvironment, BackendChoice.make_self]
    · rfl
  rw [hmake]
  constructor
  · intro h
    refine ⟨_, _, _, ⟨?_, ?_, ?_⟩, h⟩
    · exact decides_iff.2 (by simp)
    · exact decides_iff.2 (by cases e.text? .url <;> rfl)
    · exact decides_iff.2 (by cases e.text? .environment <;> rfl)
  · rintro ⟨kind, url, environment, ⟨hkind, hurl, henvironment⟩, rfl⟩
    rw [← decides_iff.1 hkind, ← decides_iff.1 hurl, ← decides_iff.1 henvironment]
    cases e.text? .backend <;> cases e.text? .url <;> cases e.text? .environment <;> rfl

theorem overlaidSwitch_eq_iff {u : Bool} {r : Except SettingsFault Bool} :
    overlaidSwitch u e = r ↔ e.Decides .useServerTime switch (.ok u) r := by
  rw [decides_iff, overlaidSwitch]
  cases e.text? .useServerTime <;> rfl

/-- An optional text in the place of another one. -/
theorem decides_or {v : Variable} {before after : Option String} :
    e.Decides v some before after ↔ (e.text? v).or before = after := by
  rw [decides_iff]
  cases e.text? v <;> rfl

/-- **The settings under an environment** are those that its variables decide. -/
theorem overlay_eq_ok_iff : s.overlay e = .ok s' ↔ Overlaid e s s' := by
  constructor
  · intro h
    cases hbackend : overlaidBackend s.backend e with
    | error f =>
      rw [overlay, hbackend] at h
      cases h
    | ok b =>
      cases hswitch : overlaidSwitch s.useServerTime e with
      | error f =>
        rw [overlay, hbackend, hswitch] at h
        cases h
      | ok u =>
        rw [overlay, hbackend, hswitch] at h
        cases h
        exact {
          backend := overlaidBackend_eq_iff.1 hbackend
          tableName := decides_iff.2 (by simp)
          useServerTime := overlaidSwitch_eq_iff.1 hswitch
          lockedBy := decides_or.2 rfl
          product := rfl
          createTable := rfl
          atMostFor := decides_iff.2 (by simp)
          atLeastFor := decides_iff.2 (by simp) }
  · intro h
    have htable := decides_iff.1 h.tableName
    have hmost := decides_iff.1 h.atMostFor
    have hleast := decides_iff.1 h.atLeastFor
    rw [Option.map_id_fun, id] at htable hmost hleast
    rw [overlay, overlaidBackend_eq_iff.2 h.backend, overlaidSwitch_eq_iff.2 h.useServerTime]
    simp only [bind, Except.bind, pure, Except.pure, htable, decides_or.1 h.lockedBy, hmost, hleast,
      ← h.product, ← h.createTable]

/-- There are none if no backend can be made, or a switch has another text than one of its words. -/
theorem overlay_eq_error_iff : (∃ f, s.overlay e = .error f) ↔
    (∃ kind url environment f, e.Parts s.backend kind url environment ∧
      BackendChoice.make kind url environment = .error f) ∨
    ∃ x, e.Gives .useServerTime x ∧ ¬IsSwitch x := by
  constructor
  · rintro ⟨f, h⟩
    cases hbackend : overlaidBackend s.backend e with
    | error f =>
      obtain ⟨kind, url, environment, hparts, hmake⟩ := overlaidBackend_eq_iff.1 hbackend
      exact .inl ⟨kind, url, environment, f, hparts, hmake⟩
    | ok b =>
      cases hswitch : overlaidSwitch s.useServerTime e with
      | error f =>
        rcases (overlaidSwitch_eq_iff.1 hswitch).given_or_kept with ⟨x, hgiven, hx⟩ | hkept
        · exact .inr ⟨x, hgiven, exists_switch_error_iff.1 ⟨f, hx⟩⟩
        · cases hkept
      | ok u =>
        rw [overlay, hbackend, hswitch] at h
        cases h
  · rintro (⟨kind, url, environment, f, hparts, hmake⟩ | ⟨x, hgiven, hx⟩)
    · refine ⟨f, ?_⟩
      rw [overlay, overlaidBackend_eq_iff.2 ⟨kind, url, environment, hparts, hmake⟩]
      rfl
    · obtain ⟨f, hf⟩ := exists_switch_error_iff.2 hx
      have hswitch : overlaidSwitch s.useServerTime e = .error f :=
        overlaidSwitch_eq_iff.2 (hf ▸ .given hgiven)
      rw [overlay, hswitch]
      cases overlaidBackend s.backend e with
      | error f' => exact ⟨f', rfl⟩
      | ok b => exact ⟨f, rfl⟩

end Settings

/-- **Settings that came out of an environment** are the same under it. -/
theorem Overlaid.again {e : Environment} {s s' : Settings} (h : Overlaid e s s') : Overlaid e s' s' := by
  obtain ⟨kind, url, environment, hparts, hmake⟩ := h.backend
  obtain ⟨kind', url', environment', hparts', -⟩ :=
    Settings.overlaidBackend_eq_iff.1 (Eq.refl (Settings.overlaidBackend s'.backend e))
  have hagain : BackendChoice.make kind' url' environment' = .ok s'.backend :=
    BackendChoice.make_again hmake (hparts.kind.again hparts'.kind) (hparts.url.again hparts'.url)
      (hparts.environment.again hparts'.environment)
  exact {
    backend := ⟨kind', url', environment', hparts', hagain⟩
    tableName := h.tableName.stays
    useServerTime := h.useServerTime.stays
    lockedBy := h.lockedBy.stays
    product := rfl
    createTable := rfl
    atMostFor := h.atMostFor.stays
    atLeastFor := h.atLeastFor.stays }

/-- An environment that gives nothing changes nothing. -/
theorem Overlaid.of_isSilent {e : Environment} (h : e.IsSilent) (s : Settings) : Overlaid e s s := by
  have hkept {α : Type} (v : Variable) (meaning : String → α) (before : α) :
      e.Decides v meaning before before := by
    apply Environment.Decides.kept
    rintro x ⟨hx, hblank⟩
    simp [h v x hx] at hblank
  exact {
    backend := ⟨_, _, _, ⟨hkept _ _ _, hkept _ _ _, hkept _ _ _⟩, s.backend.make_self⟩
    tableName := hkept _ _ _
    useServerTime := hkept _ _ _
    lockedBy := hkept _ _ _
    product := rfl
    createTable := rfl
    atMostFor := hkept _ _ _
    atLeastFor := hkept _ _ _ }

namespace Settings

open Environment (decides_iff)

/-- **An environment over settings.** It changes nothing if all its variables are absent or blank. In any
case the settings under it are those that its variables decide, and there are none exactly if the parts
that these leave of a backend make none, or the text of the switch is not one of its words. Under the same
environment again, the settings that came out of it are as they are. -/
theorem overlay_decided (s : Settings) (e : Environment) :
    (e.IsSilent → s.overlay e = .ok s) ∧
    (∀ s', s.overlay e = .ok s' ↔ Overlaid e s s') ∧
    ((∃ f, s.overlay e = .error f) ↔
      (∃ kind url environment f, e.Parts s.backend kind url environment ∧
        BackendChoice.make kind url environment = .error f) ∨
      ∃ x, e.Gives .useServerTime x ∧ ¬IsSwitch x) ∧
    ∀ s', s.overlay e = .ok s' → s'.overlay e = .ok s' := by
  refine ⟨?_, fun s' => overlay_eq_ok_iff, overlay_eq_error_iff, ?_⟩
  · intro hsilent
    exact overlay_eq_ok_iff.2 (.of_isSilent hsilent s)
  · intro s' h
    exact overlay_eq_ok_iff.2 (overlay_eq_ok_iff.1 h).again

/-- Settings for a key-value server, with the environment of the locks given. -/
def keyed : Settings := { standard with backend := .redis "redis://one" "blue" }

/-- Variables that move the settings to a database, under another of its names. -/
def moving : Environment := [("DCS_LOCK_BACKEND", " MariaDB"), ("DCS_LOCK_URL", "mysql://two"),
  ("DCS_LOCK_TABLE", "\t"), ("DCS_LOCK_USE_DB_TIME", "On ")]

/-- The settings after the move. -/
def moved : Settings := { keyed with backend := .mysql "mysql://two", useServerTime := true }

theorem overlaid_moving : Overlaid moving keyed moved := by
  have hnamed : (BackendChoice.mysql "mysql://two").IsNamed " MariaDB" := by
    rw [BackendChoice.IsNamed, Text.trim, Text.lower_ofList]
    exact ⟨"mariadb", by decide, by decide⟩
  have hswitch : switch "On " = .ok true := by
    rw [switch, Text.trim, Text.lower_ofList]
    exact if_pos (by decide)
  -- the environment of the locks is still one of the parts, though a database has no use for it
  exact {
    backend := ⟨" MariaDB", some "mysql://two", some "blue",
      ⟨decides_iff.2 rfl, decides_iff.2 rfl, decides_iff.2 rfl⟩,
      BackendChoice.make_eq_ok_iff.2 ⟨hnamed, rfl⟩⟩
    tableName := decides_iff.2 rfl
    useServerTime := hswitch ▸ .given ⟨rfl, by decide⟩
    lockedBy := decides_iff.2 rfl
    product := rfl
    createTable := rfl
    atMostFor := decides_iff.2 rfl
    atLeastFor := decides_iff.2 rfl }

/-- Variables of which one is no switch. -/
def undecided : Environment := [("DCS_LOCK_USE_DB_TIME", "perhaps")]

/-- A blank variable changes nothing. The move comes to pass, and nothing is moved a second time; without a
word for the switch there are no settings. -/
theorem moved_stays :
    keyed.overlay [("DCS_LOCK_REDIS_ENV", " ")] = .ok keyed ∧
    (keyed.overlay moving = .ok moved ∧ moved.overlay moving = .ok moved) ∧
    ∃ f, keyed.overlay undecided = .error f := by
  refine ⟨?_, ?_, ?_⟩
  · apply (overlay_decided keyed _).1
    intro v x hx
    cases v <;> simp [Registry.get?, Variable.name] at hx
    subst hx
    decide
  · obtain ⟨-, hdecided, -, hstays⟩ := overlay_decided keyed moving
    have hmoved := (hdecided moved).2 overlaid_moving
    exact ⟨hmoved, hstays moved hmoved⟩
  · apply (overlay_decided keyed undecided).2.2.1.2
    refine .inr ⟨"perhaps", ⟨rfl, by decide⟩, ?_⟩
    rw [IsSwitch, Text.trim, Text.lower_ofList]
    decide

end Settings
end LeaseLock
