/-!
# Registries

Values kept under keys.

## The model

A registry is a list of keys with their values, in the order in which the keys first came in. Only
the first value under a key counts. Reading goes through `get?`; what the other operations do to it
is all that is used of them.
-/

namespace LeaseLock

/-- Values under keys. -/
abbrev Registry (κ ν : Type) := List (κ × ν)

namespace Registry

variable {κ ν : Type} [DecidableEq κ]

/-- The value under a key. -/
def get? (k : κ) : Registry κ ν → Option ν
  | [] => none
  | (j, v) :: r => if j = k then some v else get? k r

/-- Puts a value under a key, in place of the one there. -/
def put (k : κ) (v : ν) : Registry κ ν → Registry κ ν
  | [] => [(k, v)]
  | (j, w) :: r => if j = k then (k, v) :: r else (j, w) :: put k v r

/-- Takes a key and all its values out. -/
def erase (k : κ) : Registry κ ν → Registry κ ν
  | [] => []
  | (j, v) :: r => if j = k then erase k r else (j, v) :: erase k r

/-- The same keys with other values. -/
def mapValues {μ : Type} (g : ν → μ) (r : Registry κ ν) : Registry κ μ := r.map fun e => (e.1, g e.2)

/-- There is a value under the key. -/
def has (k : κ) (r : Registry κ ν) : Bool := (get? k r).isSome

@[simp] theorem get?_nil (k : κ) : get? k ([] : Registry κ ν) = none := rfl

@[simp] theorem get?_put_self (k : κ) (v : ν) (r : Registry κ ν) :
    get? k (put k v r) = some v := by
  induction r with
  | nil => simp [put, get?]
  | cons e r ih => by_cases h : e.1 = k <;> simp [put, get?, h, ih]

@[simp] theorem get?_put_of_ne {j k : κ} (h : j ≠ k) (v : ν) (r : Registry κ ν) :
    get? j (put k v r) = get? j r := by
  induction r with
  | nil => simp [put, get?, Ne.symm h]
  | cons e r ih =>
    by_cases hk : e.1 = k
    · simp [put, get?, hk, Ne.symm h]
    · by_cases hj : e.1 = j <;> simp [put, get?, hk, hj, h, ih]

@[simp] theorem get?_erase_self (k : κ) (r : Registry κ ν) : get? k (erase k r) = none := by
  induction r with
  | nil => rfl
  | cons e r ih => by_cases h : e.1 = k <;> simp [erase, get?, h, ih]

@[simp] theorem get?_erase_of_ne {j k : κ} (h : j ≠ k) (r : Registry κ ν) :
    get? j (erase k r) = get? j r := by
  induction r with
  | nil => rfl
  | cons e r ih =>
    by_cases hk : e.1 = k
    · simp [erase, get?, hk, Ne.symm h, ih]
    · by_cases hj : e.1 = j <;> simp [erase, get?, hk, hj, h, ih]

theorem get?_put (j k : κ) (v : ν) (r : Registry κ ν) :
    get? j (put k v r) = if j = k then some v else get? j r := by
  split
  · subst j; exact get?_put_self k v r
  · exact get?_put_of_ne ‹_› v r

theorem get?_erase (j k : κ) (r : Registry κ ν) :
    get? j (erase k r) = if j = k then none else get? j r := by
  split
  · subst j; exact get?_erase_self k r
  · exact get?_erase_of_ne ‹_› r

/-- What is there under a key stays there, or is replaced. -/
theorem exists_get?_put {j : κ} {v : ν} {r : Registry κ ν} (h : get? j r = some v) (k : κ) (w : ν) :
    ∃ v', get? j (put k w r) = some v' := by
  rw [get?_put]
  split
  · exact ⟨w, rfl⟩
  · exact ⟨v, h⟩

theorem mem_of_get? {k : κ} {v : ν} {r : Registry κ ν} (h : get? k r = some v) : (k, v) ∈ r := by
  induction r with
  | nil => cases h
  | cons e r ih =>
    rw [get?] at h
    split at h
    · rename_i hk
      cases h
      subst hk
      exact List.mem_cons_self
    · exact List.mem_cons_of_mem _ (ih h)

/-- What is there already need not be put there. -/
theorem put_of_get? {k : κ} {v : ν} {r : Registry κ ν} (h : get? k r = some v) : put k v r = r := by
  induction r with
  | nil => cases h
  | cons e r ih =>
    rw [get?] at h
    rw [put]
    split at h
    · rename_i hk
      cases h
      rw [if_pos hk, ← hk]
    · rename_i hk
      rw [if_neg hk, ih h]

section Values

variable {μ : Type} (g : ν → μ)

theorem get?_mapValues (k : κ) (r : Registry κ ν) :
    get? k (mapValues g r) = (get? k r).map g := by
  induction r with
  | nil => rfl
  | cons e r ih =>
    rw [mapValues, List.map_cons, get?, get?]
    split
    · rfl
    · exact ih

theorem mapValues_put (k : κ) (v : ν) (r : Registry κ ν) :
    mapValues g (put k v r) = put k (g v) (mapValues g r) := by
  induction r with
  | nil => rfl
  | cons e r ih =>
    by_cases hk : e.1 = k
    · simp [mapValues, put, hk]
    · simpa [mapValues, put, hk] using ih

theorem mapValues_erase (k : κ) (r : Registry κ ν) :
    mapValues g (erase k r) = erase k (mapValues g r) := by
  induction r with
  | nil => rfl
  | cons e r ih =>
    by_cases hk : e.1 = k
    · simpa [mapValues, erase, hk] using ih
    · simpa [mapValues, erase, hk] using ih

end Values

end Registry
end LeaseLock
