import LeaseLock.Text.Numeral

/-!
# Commands to a key-value server

What is sent to a key-value server to take, extend and give back locks, and what it replies.

## The model

A lock is a key that expires. It is taken by setting the key if it is not there. Giving it back
and extending it are scripts that run on the server and act only if the key still has the value
that was set. The server knows a script by its digest once it has been loaded.
-/

namespace LeaseLock.Redis

/-- The scripts that run on the server. -/
inductive Script where
  /-- Lets the key expire, or deletes it if there is no time left to keep it. -/
  | release
  /-- Gives the key a new time to expire. -/
  | extend
  deriving DecidableEq

namespace Script

/-- The text of a script. -/
def text : Script → String
  | release => "
if redis.call('GET', KEYS[1]) ~= ARGV[1] then
  return 0
end
if tonumber(ARGV[2]) > 0 then
  return redis.call('PEXPIRE', KEYS[1], ARGV[2])
end
return redis.call('DEL', KEYS[1])
"
  | extend => "
if redis.call('GET', KEYS[1]) == ARGV[1] then
  return redis.call('PEXPIRE', KEYS[1], ARGV[2])
end
return 0
"

/-- The digest under which the server keeps a script, which is the SHA-1 of its text. -/
def digest : Script → String
  | release => "06987f914a0dcb98845b42435402c6b8e476c4a6"
  | extend => "7e4fc0fd36b8e3fd48ee0ede3d1bdb6e4880b281"

end Script

/-- A command. -/
inductive Command where
  /-- Sets a key that is not there, to expire after a number of milliseconds. -/
  | set (key value : String) (millis : Int)
  /-- Runs a script for a key, a value and a number of milliseconds. -/
  | run (script : Script) (key value : String) (millis : Int)
  /-- Makes a script known. -/
  | load (script : Script)
  deriving DecidableEq

/-- The words of a command. -/
def Command.words : Command → List String
  | set key value millis =>
    ["SET", key, value, "NX", "PX", String.ofList (Text.Numeral.signed millis)]
  | run script key value millis =>
    ["EVALSHA", script.digest, "1", key, value, String.ofList (Text.Numeral.signed millis)]
  | load script => ["SCRIPT", "LOAD", script.text]

/-- A reply. -/
inductive Reply where
  | text (s : String)
  | integer (n : Int)
  | nil
  | failure (s : String)
  deriving DecidableEq

namespace Reply

/-- The server does not know the script: the failure's code, its first word, says so. -/
def isUnknownScript : Reply → Bool
  | failure s => s.toList.takeWhile (· ≠ ' ') == "NOSCRIPT".toList
  | _ => false

/-- The integer that a script answers, also in the form of text. -/
def integer? : Reply → Option Int
  | integer n => some n
  | text s => Text.Numeral.signed? s.toList
  | _ => none

end Reply
end LeaseLock.Redis
