import LeaseLock.Redis.Command

/-!
# What scripts do

The scripts of a key-value server, clause by clause, and what becomes of the key that they are run for.

## The model

A clause ends the script with a deed if its test holds; the last one has no test. The text that is sent
to the server is that of the clauses (`Script.text_eq`). A test looks at the value under the key and at
the arguments of the script, the value and the milliseconds.
-/

namespace LeaseLock.Redis

/-- What a script asks. -/
inductive Test where
  /-- Not the given value is under the key. -/
  | differs
  /-- The given value is under the key. -/
  | agrees
  /-- There is time left. -/
  | timeLeft
  deriving DecidableEq

namespace Test

/-- The text of a test. -/
def text : Test → String
  | differs => "redis.call('GET', KEYS[1]) ~= ARGV[1]"
  | agrees => "redis.call('GET', KEYS[1]) == ARGV[1]"
  | timeLeft => "tonumber(ARGV[2]) > 0"

/-- The test holds, by what is found under the key. -/
def holds (found : Option String) (value : String) (millis : Int) : Test → Bool
  | differs => found ≠ some value
  | agrees => found = some value
  | timeLeft => 0 < millis

end Test

/-- What a script does in the end. -/
inductive Deed where
  /-- Nothing. -/
  | leave
  /-- The key is to expire after the milliseconds. -/
  | expire
  /-- The key is deleted. -/
  | delete
  deriving DecidableEq

namespace Deed

/-- The text of a deed. -/
def text : Deed → String
  | leave => "0"
  | expire => "redis.call('PEXPIRE', KEYS[1], ARGV[2])"
  | delete => "redis.call('DEL', KEYS[1])"

/-- The number of keys that are changed, which is what the script answers. -/
def changed : Deed → Int
  | leave => 0
  | expire | delete => 1

end Deed

/-- A deed that is done if the test holds. -/
structure Clause where
  test : Option Test
  deed : Deed
  deriving DecidableEq

namespace Clause

/-- The text of a clause. -/
def text (c : Clause) : String :=
  match c.test with
  | none => "return " ++ c.deed.text ++ "\n"
  | some t => "if " ++ t.text ++ " then\n  return " ++ c.deed.text ++ "\nend\n"

/-- The clause ends the script. -/
def ends (found : Option String) (value : String) (millis : Int) (c : Clause) : Bool :=
  c.test.all (·.holds found value millis)

end Clause

namespace Script

/-- The clauses of a script. -/
def clauses : Script → List Clause
  | release => [⟨some .differs, .leave⟩, ⟨some .timeLeft, .expire⟩, ⟨none, .delete⟩]
  | extend => [⟨some .agrees, .expire⟩, ⟨none, .leave⟩]

/-- The clauses make up the text. -/
theorem text_eq (s : Script) : s.text = "\n" ++ String.join (s.clauses.map Clause.text) := by
  cases s <;> decide +kernel

/-- What a script does with a key, by what is found under it: the deed of the first clause that ends
the script. -/
def deed (found : Option String) (value : String) (millis : Int) (s : Script) : Deed :=
  match s.clauses.find? (·.ends found value millis) with
  | some c => c.deed
  | none => .leave

variable {found : Option String} {value : String} {millis : Int}

/-- A key that has not the value is left alone. -/
theorem deed_of_ne (h : found ≠ some value) (s : Script) : s.deed found value millis = .leave := by
  cases s <;> simp [deed, clauses, Clause.ends, Test.holds, h]

theorem deed_release_of_pos (h : 0 < millis) :
    Script.release.deed (some value) value millis = .expire := by
  simp [deed, clauses, Clause.ends, Test.holds, h]

theorem deed_release_of_nonpos (h : millis ≤ 0) :
    Script.release.deed (some value) value millis = .delete := by
  simp [deed, clauses, Clause.ends, Test.holds, Int.not_lt.2 h]

end Script
end LeaseLock.Redis
