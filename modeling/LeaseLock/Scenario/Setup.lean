import LeaseLock.Scenario.World
import LeaseLock.Settings.Connection

/-!
# Setting up scenarios

The worlds in which scenarios begin.

## The model

The nodes share one store in memory, or play back answers, or each has a service on a table. The
tables may be reached through one pool of connections or through one for each node; every node
creates the table as it is set up, unless it is told not to. Or each node is connected by settings
of its own, with nothing shared in memory. The first thing that goes wrong ends the setting up.
-/

namespace LeaseLock.Scenario

/-- How the nodes of a scenario keep locks in tables. -/
structure TableSetup where
  url : String
  /-- Each node has a pool of its own. -/
  separate : Bool
  schema : Sql.Schema
  useServerTime : Bool
  product : Option Sql.Product
  createTable : Bool

namespace TableSetup

/-- The settings of a node. -/
def settings (t : TableSetup) (node : String) : Sql.TableSettings where
  schema := t.schema
  lockedBy := node
  useServerTime := t.useServerTime
  product := t.product

/-- The pool of the node at place `i`. The first one opens the pool that is shared. -/
def pool (t : TableSetup) (i : Nat) (shared : Option Sql.Pool) (d : Sql.Disk) :
    Except LockError (Sql.Pool × Sql.Disk) :=
  match shared with
  | some p => if t.separate then d.connect i t.url else .ok (p, d)
  | none => d.connect i t.url

/-- Sets up the service of a node on a pool. -/
def service (t : TableSetup) (node : String) (p : Sql.Pool) (d : Sql.Disk) :
    Except LockError (Sql.Storage × Sql.Disk) := do
  let d ← if t.createTable then d.create p t.schema else pure d
  return (.ofSettings p (t.settings node), d)

/-- Sets up the services of the nodes from place `i` on. -/
def services (t : TableSetup) (i : Nat) (shared : Option Sql.Pool) (d : Sql.Disk) :
    List String → Except LockError (Registry String Sql.Storage × Sql.Disk)
  | [] => .ok ([], d)
  | node :: rest => do
    let (p, d) ← t.pool i shared d
    let (s, d) ← t.service node p d
    let (others, d) ← services t (i + 1) (some p) d rest
    return ((node, s) :: others, d)

/-- The tables of the nodes, given the clock of the database. -/
def backend (t : TableSetup) (d : Sql.Disk) (clock : Instant) (nodes : List String) :
    Except LockError Backend := do
  let (services, d) ← t.services 0 none d nodes
  return .tables d services clock

end TableSetup

namespace Backend

/-- One store in memory for all nodes. -/
def sharedMemory : Backend := .memory [] fun _ => ""

/-- A store in memory for each node. -/
def separateMemory : Backend := .memory [] id

/-- The dialects of the nodes. -/
def dialects : Backend → List (String × Sql.Dialect)
  | tables _ services _ => services.map fun e => (e.1, e.2.dialect)
  | _ => []

/-- What keeps the locks of the nodes from place `i` on, by the settings. -/
def keepers (s : Settings) (i : Nat) (d : Sql.Disk) :
    List String → Except LockError (Registry String Keeper × Sql.Disk)
  | [] => .ok ([], d)
  | node :: rest => do
    let (k, d) ← s.connect node i d
    let (others, d) ← keepers s (i + 1) d rest
    return ((node, k) :: others, d)

/-- The nodes that keep their locks in tables. -/
def storages (ks : Registry String Keeper) : Registry String Sql.Storage :=
  ks.filterMap fun (node, k) => match k with
    | .table s => some (node, s)
    | .memory => none

/-- What keeps the locks of nodes by settings, given the clock of the database. -/
def ofSettings (s : Settings) (d : Sql.Disk) (clock : Instant) (nodes : List String) :
    Except LockError Backend := do
  let (ks, d) ← keepers s 0 d nodes
  if s.backend = .memory then return separateMemory
  else return .tables d (storages ks) clock

end Backend
end LeaseLock.Scenario
