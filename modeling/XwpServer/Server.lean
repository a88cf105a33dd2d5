/-
  XwpServer.Server

  The server (`server.c`): `max_threads` workers in `server_listen_proc`, as many
  connections, the guard, and the descriptor table of the process.

  The list of free connections is threaded through their field `next`, and the
  workers take from it and put back under the server's mutex.  `accept` may return
  any descriptor number that is free, in particular one that has just been closed.
-/

import XwpServer.ConnectionInv
import XwpServer.Lib.LinkedList
import Mathlib.Data.Fin.Basic

namespace XwpServer

open Transition

/-! ## The state -/

/-- A descriptor number with the socket it was accepted for; sockets are numbered in
    the order they are accepted. -/
structure Accepted where
  number : Nat
  socket : Nat
  deriving DecidableEq, Repr

/-- Where a worker is in `server_listen_proc`, with its locals `fd` and `c`. -/
inductive ListenPc (n : Nat) where
  | accept
  | popLock (fd : Accepted) | popHead (fd : Accepted) | popNext (fd : Accepted) (c : Fin n)
  | popUnlock (fd : Accepted) (c : Fin n)
  /-- In `connection_run`, or at one of the two asserts around it. -/
  | run (fd : Accepted) (c : Fin n)
  | pushLock (c : Fin n) | pushNext (c : Fin n) | pushHead (c : Fin n) | pushUnlock (c : Fin n)
  deriving DecidableEq, Repr

/-- `server_t`, its threads, and the descriptor table. -/
structure Server (n : Nat) where
  connections : Fin n → Connection
  /-- The field `next` of each connection. -/
  next : Fin n → Option (Fin n)
  freeConnections : Option (Fin n)
  /-- The worker that holds the mutex. -/
  mutex : Option (Fin n) := none
  workers : Fin n → ListenPc n := fun _ => .accept
  /-- `i` of `server_guard_proc`. -/
  guardAt : Nat := 0
  /-- The socket each descriptor number denotes. -/
  table : Nat → Option Nat := fun _ => none
  /-- The number of sockets accepted so far. -/
  sockets : Nat := 0
  /-- The descriptor each connection was last run with. -/
  client : Fin n → Accepted := fun _ => ⟨0, 0⟩

namespace Server

variable {n : Nat}

/-! ## `server_create` -/

/-- One round of the loop over the connections: link the one before. -/
def linkPrevious (next : Fin n → Option (Fin n)) (i : Fin n) : Fin n → Option (Fin n) :=
  if 0 < i.val then Function.update next ⟨i.val - 1, by omega⟩ (some i) else next

/-- `server_create`. -/
def create (n : Nat) (clock : Nat) : Server n where
  connections := fun _ => Connection.created clock
  next := (List.finRange n).foldl linkPrevious fun _ => none
  freeConnections := (List.finRange n).head?

/-! ## Steps -/

inductive Move (n : Nat) where
  /-- `accept` returns a descriptor. -/
  | accept (w : Fin n) (number : Nat)
  /-- The worker does its next step outside `connection_run`. -/
  | listen (w : Fin n)
  /-- The worker does its next step inside `connection_run`. -/
  | worker (w : Fin n) (x : Choice)
  | guard
  | tick (d : Nat)
  deriving DecidableEq, Repr

/-- A step of a worker outside `accept` and `connection_run`; `none` when it waits for the
    mutex or an assert fails. -/
def listenStep (s : Server n) (w : Fin n) : Option (Server n) :=
  let goto (s : Server n) (pc : ListenPc n) := { s with workers := Function.update s.workers w pc }
  match s.workers w with
  | .popLock fd => if s.mutex.isSome then none else some (goto { s with mutex := some w } (.popHead fd))
  | .popHead fd => s.freeConnections.map fun c => goto s (.popNext fd c)
  | .popNext fd c => some (goto { s with freeConnections := s.next c } (.popUnlock fd c))
  | .popUnlock fd c => some (goto { s with mutex := none } (.run fd c))
  | .pushLock c => if s.mutex.isSome then none else some (goto { s with mutex := some w } (.pushNext c))
  | .pushNext c =>
    some (goto { s with next := Function.update s.next c s.freeConnections } (.pushHead c))
  | .pushHead c => some (goto { s with freeConnections := some c } (.pushUnlock c))
  | .pushUnlock _ => some (goto { s with mutex := none } .accept)
  | .accept | .run _ _ => none

/-- The step closes the client's descriptor. -/
def closesFd (c : Connection) : XwpServer.Move → Bool
  | .worker .next => c.worker = .reusableClear && c.fd.isSome
  | .guard => c.guard = .closeFd && c.fd.isSome
  | _ => false

/-- A step on the connection `i` that makes it `c`. -/
def onConnection (s : Server n) (i : Fin n) (m : XwpServer.Move) (c : Connection) : Server n :=
  { s with
    connections := Function.update s.connections i c
    table :=
      if closesFd (s.connections i) m then Function.update s.table (s.client i).number none
      else s.table }

/-- A step of a worker inside `connection_run`. -/
def runStep (s : Server n) (w : Fin n) (x : Choice) : Option (Server n) :=
  match s.workers w with
  | .run fd i =>
    if (s.connections i).state ≠ .reuseable ∧
        ((s.connections i).worker = .idle ∨ (s.connections i).worker = .returned) then
      none  -- assert(c->state == CONNECTION_REUSEABLE)
    else (workerStep (s.connections i) x).map fun c =>
      let s' := s.onConnection i (.worker x) c
      { s' with
        client := if (s.connections i).worker = .idle then Function.update s.client i fd else s.client
        workers :=
          if (s.connections i).worker = .returned then Function.update s.workers w (.pushLock i)
          else s.workers }
  | _ => none

/-- A step of the guard, on the connection it is at. -/
def guardStep (timeout : Int) (s : Server n) : Option (Server n) :=
  if h : s.guardAt < n then
    let i : Fin n := ⟨s.guardAt, h⟩
    (XwpServer.guardStep timeout (s.connections i)).map fun c =>
      { s.onConnection i .guard c with
        guardAt := if c.guard = .away then s.guardAt + 1 else s.guardAt }
  else some { s with guardAt := 0 }

/-- The step function. -/
def step (timeout : Int) (s : Server n) : Move n → Option (Server n)
  | .accept w number =>
    if s.workers w = .accept ∧ s.table number = none then
      some { s with
        table := Function.update s.table number (some s.sockets)
        sockets := s.sockets + 1
        workers := Function.update s.workers w (.popLock ⟨number, s.sockets⟩) }
    else none
  | .listen w => s.listenStep w
  | .worker w x => s.runStep w x
  | .guard => s.guardStep timeout
  | .tick d => some { s with
      connections := fun i => { s.connections i with clock := (s.connections i).clock + d } }

end Server

end XwpServer
