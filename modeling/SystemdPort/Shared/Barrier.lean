/-
# Shared.Barrier — barriers between two processes

`src/shared/barrier.c`.  Each side adds to an event counter of its own, which the other side
drains, and keeps a signed count of the barriers it has placed and not yet seen of the
other side; special values of the count tell who aborted.  A pipe reports a hang-up once
the other side has closed its end or is gone.

The two sides are interleaved at their system calls.  What a system call does besides
what the state of the other side decides (be interrupted, fail) is in the action of a step.
-/
import SystemdPort.Lib.Run

namespace SystemdPort.Shared

open Lib

set_option autoImplicit false

/-! ## One side -/

namespace Barrier

/-- `BARRIER_ABORTION` -/
def abortion : Nat := 2 ^ 63 - 1

def weAborted : Int := -2 ^ 63 + 1
def theyAborted : Int := -2 ^ 63 + 2
def iAborted : Int := -2 ^ 63 + 3

/-- The conversion to `int64_t` after an operation on `uint64_t`. -/
def toInt64 (x : Int) : Int := Int.bmod x (2 ^ 64)

/-- The largest value of an event counter. -/
def maxCounter : Nat := 2 ^ 64 - 2

inductive Call where
  | place | abort | waitNext | waitAbortion | syncNext | sync
  deriving DecidableEq

/-- Where a process is. -/
inductive Pc where
  | idle
  /-- About to write to its counter. -/
  | write (call : Call) (buf : Nat)
  /-- About to poll. -/
  | poll (call : Call) (comp : Int)
  /-- Behind a poll, which has seen data in the counter and a hang-up, or not. -/
  | polled (call : Call) (comp : Int) (data hangup : Bool)
  deriving DecidableEq

structure Process where
  barriers : Int := 0
  pc : Pc := .idle
  /-- Whether its end of the pipe is open. -/
  pipe : Bool := true
  exited : Bool := false
  /-- The barriers it has placed, whether it has aborted, and whether a system call failed. -/
  placed : Nat := 0
  aborted : Bool := false
  failed : Bool := false

namespace Process

/-- `barrier_i_aborted()` -/
def iAborted (b : Process) : Bool := b.barriers = Barrier.iAborted ∨ b.barriers = weAborted

/-- `barrier_they_aborted()` -/
def theyAborted (b : Process) : Bool := b.barriers = Barrier.theyAborted ∨ b.barriers = weAborted

/-- `barrier_is_aborted()` -/
def isAborted (b : Process) : Bool :=
  b.barriers = Barrier.iAborted ∨ b.barriers = Barrier.theyAborted ∨ b.barriers = weAborted

/-- What a call returns once its work is done. -/
def result (b : Process) : Call → Bool
  | .place => true
  | .abort => !b.theyAborted
  | .waitAbortion => !b.iAborted
  | .waitNext | .syncNext | .sync => !b.isAborted

def finish (call : Call) (b : Process) : Process × Option (Call × Bool) :=
  ({ b with pc := .idle }, some (call, b.result call))

/-- An unexpected error of a system call, which closes the pipe and counts as abortion. -/
def fatal (call : Call) (b : Process) : Process × Option (Call × Bool) :=
  finish call { b with pipe := false, barriers := weAborted, failed := true }

/-- The rest of `barrier_write()` behind a successful `write()`. -/
def written (buf : Nat) (b : Process) : Process :=
  if abortion ≤ buf then
    { b with aborted := true, barriers := if b.theyAborted then weAborted else Barrier.iAborted }
  else
    { b with placed := b.placed + buf
             barriers := if b.isAborted then b.barriers else toInt64 (b.barriers + buf) }

/-- The condition of the loop in `barrier_read()`. -/
def loop (call : Call) (comp : Int) (b : Process) : Process × Option (Call × Bool) :=
  if comp < b.barriers then ({ b with pc := .poll call comp }, none) else b.finish call

/-- The rest of a round of the loop, once there is a value. -/
def noted (buf : Nat) (b : Process) : Process :=
  if abortion ≤ buf then
    { b with barriers := if b.iAborted then weAborted else Barrier.theyAborted }
  else { b with barriers := if b.isAborted then b.barriers else toInt64 (b.barriers - buf) }

/-- `barrier_read()` up to the first system call. -/
def barrierRead (call : Call) (comp : Int) (b : Process) : Process × Option (Call × Bool) :=
  if b.theyAborted then b.finish call else b.loop call comp

/-- A call up to its first system call. -/
def start (b : Process) : Call → Process × Option (Call × Bool)
  | .place => if b.isAborted then (b, some (.place, false)) else ({ b with pc := .write .place 1 }, none)
  | .abort =>
    if b.iAborted then b.finish .abort else ({ b with pc := .write .abort abortion }, none)
  | .waitNext =>
    if b.isAborted then (b, some (.waitNext, false)) else b.barrierRead .waitNext (b.barriers - 1)
  | .waitAbortion => b.barrierRead .waitAbortion Barrier.theyAborted
  | .syncNext =>
    if b.isAborted then (b, some (.syncNext, false)) else b.barrierRead .syncNext (max 0 (b.barriers - 1))
  | .sync => if b.isAborted then (b, some (.sync, false)) else b.barrierRead .sync 0

end Process

/-! ## Both sides -/

inductive Side where
  | parent | child
  deriving DecidableEq

def Side.other : Side → Side
  | .parent => .child
  | .child => .parent

structure State where
  process : Side → Process := fun _ => {}
  /-- The counters, by the side that adds to them. -/
  counter : Side → Nat := fun _ => 0

/-- What happens next on a side. -/
inductive Action where
  | call (call : Call)
  | write | writeAgain | writeFailed
  | poll | pollInterrupted | pollFailed
  | read | readAgain | readFailed
  | hangup
  | exit
  deriving DecidableEq

namespace State

/-- Whether a side gets POLLHUP or POLLERR for its end of the pipe. -/
def hungUp (s : State) (i : Side) : Bool := !(s.process i.other).pipe || (s.process i.other).exited

def setProcess (s : State) (i : Side) (b : Process) : State :=
  { s with process := Function.update s.process i b }

def setCounter (s : State) (i : Side) (n : Nat) : State :=
  { s with counter := Function.update s.counter i n }

/-- A step of one side, with what is returned by the call that ends with it. -/
def step (s : State) (i : Side) (a : Action) : Option (State × Option (Call × Bool)) :=
  let b := s.process i
  let done (r : Process × Option (Call × Bool)) := some (s.setProcess i r.1, r.2)
  if b.exited then none
  else
    match b.pc, a with
    | _, .exit => some (s.setProcess i { b with exited := true, pipe := false }, none)
    | .idle, .call call => done (b.start call)
    | .write call buf, .write =>
      if s.counter i + buf ≤ maxCounter then
        let r := (b.written buf).finish call
        some ((s.setCounter i (s.counter i + buf)).setProcess i r.1, r.2)
      else none
    -- EAGAIN or EINTR
    | .write _ _, .writeAgain => some (s, none)
    | .write call _, .writeFailed => done (b.fatal call)
    | .poll call comp, .poll =>
      let data : Bool := 0 < s.counter i.other
      if data || s.hungUp i then some (s.setProcess i { b with pc := .polled call comp data (s.hungUp i) }, none)
      else none
    | .poll _ _, .pollInterrupted => some (s, none)
    | .poll call _, .pollFailed => done (b.fatal call)
    | .polled call comp true _, .read =>
      if 0 < s.counter i.other then
        let r := (b.noted (s.counter i.other)).loop call comp
        some ((s.setCounter i.other 0).setProcess i r.1, r.2)
      else none
    | .polled call comp true _, .readAgain => done (b.loop call comp)
    | .polled call _ true _, .readFailed => done (b.fatal call)
    | .polled call comp false true, .hangup => done ((b.noted abortion).loop call comp)
    | _, _ => none

/-- A step of the system, for a schedule of sides and actions. -/
def next (s : State) (act : Side × Action) : Option (State × Option (Side × Call × Bool)) :=
  (s.step act.1 act.2).map fun r => (r.1, r.2.map fun returned => (act.1, returned))

end State

end Barrier

end SystemdPort.Shared
