import Jpgsync.Lib.StepSystem
import Jpgsync.Protocol

/-!
# Handshake — how the connections of a session are set up

The beginning of `Peer::Sync` on both sides. On each side the main thread
calls `InitSyncConnection(&upload_fd, false)` and `sync_initializer` calls
`InitSyncConnection(&download_fd, true)`; both then run
`update_initializer`, and the main thread joins the other and swaps the two
fds if they do not match. The slave's threads connect, the master's accept,
and nobody knows which of the master's threads gets which connection.

A step is one step of one of the four threads. A connection is named after
the thread of the slave that established it, and an fd by the connection it
is an end of.
-/

namespace Jpgsync

/-! ## The update port on the wire -/

/-- `sizeof(uint16_t)`. -/
abbrev sizeofPort : Nat := 2

/-- `htons`, as the bytes that are sent. -/
def htons (port : UInt16) : Bytes := [(port >>> 8).toUInt8, port.toUInt8]

/-- `ntohs` of the bytes that were read. -/
def ntohs (buf : Bytes) : UInt16 :=
  ((buf.getD 0 0).toUInt16 <<< 8) ||| (buf.getD 1 0).toUInt16

@[simp] theorem length_htons (port : UInt16) : (htons port).length = sizeofPort := rfl

/-- Bit `i` of a port made of two bytes is a bit of the byte in whose half
it lies. -/
theorem getLsbD_port (a b : UInt8) (i : Nat) (hi : i < 16) :
    ((a.toUInt16 <<< 8) ||| b.toUInt16).toBitVec.getLsbD i =
      if i < 8 then b.toBitVec.getLsbD i else a.toBitVec.getLsbD (i - 8) := by
  by_cases h : i < 8
  · simp [h, hi]
  · have hb : b.toBitVec.getLsbD i = false := BitVec.getLsbD_of_ge _ _ (by omega)
    simp [h, hi, hb]

/-- A port arrives. -/
theorem ntohs_htons (port : UInt16) : ntohs (htons port) = port := by
  apply UInt16.toBitVec_inj.mp
  apply BitVec.eq_of_getLsbD_eq
  intro i hi
  show (((port >>> 8).toUInt8.toUInt16 <<< 8) ||| port.toUInt8.toUInt16).toBitVec.getLsbD i = _
  rw [getLsbD_port _ _ _ hi]
  by_cases h : i < 8
  · simp [h]
  · simp [h, show i - 8 < 8 by omega, show 8 + (i - 8) = i by omega]

/-- Two bytes are the port read from them. -/
theorem htons_ntohs {buf : Bytes} (h : buf.length = sizeofPort) : htons (ntohs buf) = buf := by
  match buf, h with
  | [a, b], _ =>
    have hhigh : ((((a.toUInt16 <<< 8) ||| b.toUInt16)) >>> 8).toUInt8 = a := by
      apply UInt8.toBitVec_inj.mp
      apply BitVec.eq_of_getLsbD_eq
      intro i hi
      have hbit := getLsbD_port a b (8 + i) (by omega)
      rw [if_neg (by omega), show 8 + i - 8 = i by omega] at hbit
      rw [← hbit]
      simp [hi]
    have hlow : ((a.toUInt16 <<< 8) ||| b.toUInt16).toUInt8 = b := by
      apply UInt8.toBitVec_inj.mp
      apply BitVec.eq_of_getLsbD_eq
      intro i hi
      have hbit := getLsbD_port a b i (by omega)
      rw [if_pos hi] at hbit
      rw [← hbit]
      simp [hi, show i < 16 by omega]
    show [_, _] = _
    rw [show ntohs [a, b] = (a.toUInt16 <<< 8) ||| b.toUInt16 from rfl, hhigh, hlow]

/-! ## The four threads -/

inductive Role where
  | master
  | slave
deriving DecidableEq, Repr

def Role.other : Role → Role
  | .master => .slave
  | .slave => .master

@[simp] theorem Role.other_other (r : Role) : r.other.other = r := by cases r <;> rfl

theorem Role.other_ne (r : Role) : r.other ≠ r := by cases r <;> decide

theorem Role.eq_other {r r' : Role} (h : r ≠ r') : r = r'.other := by
  cases r <;> cases r' <;> first | rfl | exact absurd rfl h

/-- The threads of `Sync` that call `InitSyncConnection`. -/
inductive Thread where
  | main                 -- for `upload_fd`
  | syncInitializer      -- for `download_fd`
deriving DecidableEq, Repr

def Thread.other : Thread → Thread
  | .main => .syncInitializer
  | .syncInitializer => .main

@[simp] theorem Thread.other_other (t : Thread) : t.other.other = t := by cases t <;> rfl

theorem Thread.eq_other {t t' : Thread} (h : t ≠ t') : t = t'.other := by
  cases t <;> cases t' <;> first | rfl | exact absurd rfl h

/-- The `download` argument of a thread's call. -/
def Thread.download : Thread → Bool
  | .main => false
  | .syncInitializer => true

/-- The byte that `WriteByte(*sync_fd, download)` sends. -/
def Thread.downloadByte (t : Thread) : UInt8 := if t.download then 1 else 0

/-- What `InitSyncConnection` returns once the peer's byte is read. The
slave leaves it to the master to resolve a mismatch. -/
def initSyncConnection : Role → (download peerDownload : Bool) → Bool
  | .master, download, peerDownload => peerDownload != download
  | .slave, _, _ => true

/-- What a thread does next. -/
inductive InitPc where
  -- `Master::InitSyncConnection`
  | accept
  | writePort (rest : Bytes)
  -- `Slave::InitSyncConnection`
  | connect
  | readPort (buf : Bytes)
  | resolve (updatePort : UInt16)
  -- `Peer::InitSyncConnection`
  | writeDownload
  | readDownload
  -- `update_initializer`
  | lockUpdate
  | initUpdate
  | unlockUpdate
  -- the main thread in `Sync`
  | join
  | swap
  | finished
deriving DecidableEq, Repr

/-- What ends the process of a side: the calls of `Logger::Fatal`, and the
exception of a `connect` that nobody listens to. -/
inductive InitFailure where
  | noUpdatePort             -- failed to receive update port from master
  | noPeerDownload           -- failed to receive peer connection id
  | multipleSlaves           -- cannot connect to multiple slaves
  | noUpdateConnection       -- failed to establish update connection to master
  | connectRefused
deriving DecidableEq, Repr

abbrev Party := Role × Thread

/-- Both sides. The `upload_fd` and `download_fd` of a side are the `fd` of
its two threads. -/
structure Handshake where
  pc : Party → InitPc
  fd : Party → Option Thread
  matched : Role → Option Bool          -- of the main thread, once it is known
  swapped : Role → Bool
  initUpdateMutex : Role → Option Thread
  updateFd : Role → Bool                -- `update_fd` is open
  failure : Role → Option InitFailure
  connected : Thread → Bool             -- the connection is established
  acceptor : Thread → Option Thread     -- the thread of the master that has accepted it
  stream : Party → Fifo UInt8           -- what a side has written on a connection
  updateSock : Bool                     -- the master listens on `update_sock_`
  updateQueued : Bool                   -- a connection waits there
  updatePort : Option UInt16            -- what `update_addr_info_` was resolved with

namespace Handshake

/-- Where a thread of a side begins. -/
def initialPc : Role → InitPc
  | .master => .accept
  | .slave => .connect

/-- `Listen` and `Attach` have returned and `Sync` has been called on both
sides. -/
def start : Handshake where
  pc p := initialPc p.1
  fd _ := none
  matched _ := none
  swapped _ := false
  initUpdateMutex _ := none
  updateFd _ := false
  failure _ := none
  connected _ := false
  acceptor _ := none
  stream _ := .empty
  updateSock := true
  updateQueued := false
  updatePort := none

def uploadFd (s : Handshake) (r : Role) : Option Thread := s.fd (r, .main)

def downloadFd (s : Handshake) (r : Role) : Option Thread := s.fd (r, .syncInitializer)

/-- The thread goes on to `pc`. -/
def goto (s : Handshake) (p : Party) (pc : InitPc) : Handshake :=
  { s with pc := Function.update s.pc p pc }

/-- The process of a side ends. -/
def fail (s : Handshake) (r : Role) (failure : InitFailure) : Handshake :=
  { s with failure := Function.update s.failure r (some failure) }

/-- Replace what a side has written on a connection. -/
def setStream (s : Handshake) (p : Party) (stream : Fifo UInt8) : Handshake :=
  { s with stream := Function.update s.stream p stream }

/-! ## One step of one thread -/

/-- `Accept(sync_sock_)`, which takes the connection `c`. -/
def accept (port : UInt16) (s : Handshake) (m c : Thread) : Option Handshake :=
  if s.connected c = true ∧ s.acceptor c = none then
    some { s.goto (.master, m) (.writePort (htons port)) with
      fd := Function.update s.fd (.master, m) (some c)
      acceptor := Function.update s.acceptor c (some m) }
  else none

/-- `sync_addr_info_->Connect(sync_fd)`. The address was resolved when the
slave attached, and the master listens. -/
def connect (s : Handshake) (c : Thread) : Handshake :=
  { s.goto (.slave, c) (.readPort []) with
    fd := Function.update s.fd (.slave, c) (some c)
    connected := Function.update s.connected c true }

/-- The call that sends the update port. -/
def writePort (s : Handshake) (p : Party) (c : Thread) (rest : Bytes) (k : Nat) :
    Option Handshake :=
  (writeExactly (s.stream (p.1, c)) rest k).map fun
    | .complete => s.goto p .writeDownload
    | .more rest output => (s.goto p (.writePort rest)).setStream (p.1, c) output

/-- The call that receives it. -/
def readPort (s : Handshake) (p : Party) (c : Thread) (buf : Bytes) (k : Nat) :
    Option Handshake :=
  (readExactly (s.stream (p.1.other, c)) sizeofPort buf k).map fun
    | .complete => s.goto p (.resolve (ntohs buf))
    | .short => s.fail p.1 .noUpdatePort
    | .more buf input => (s.goto p (.readPort buf)).setStream (p.1.other, c) input

def writeDownload (s : Handshake) (p : Party) (c : Thread) : Handshake :=
  (s.goto p .readDownload).setStream (p.1, c) ((s.stream (p.1, c)).push [p.2.downloadByte])

/-- The value returned to the main thread is `matched`. -/
def readDownload (s : Handshake) (p : Party) (c : Thread) : Option Handshake :=
  (readByte (s.stream (p.1.other, c))).map fun
    | (none, _) => s.fail p.1 .noPeerDownload
    | (some byte, input) =>
      { (s.goto p .lockUpdate).setStream (p.1.other, c) input with
        matched :=
          if p.2 = .main then
            Function.update s.matched p.1
              (some (initSyncConnection p.1 p.2.download (decide (byte ≠ 0))))
          else s.matched }

/-- `InitUpdateConnection`, for the thread that finds `update_fd` closed. -/
def initUpdateConnection (port : UInt16) (s : Handshake) : Party → Option Handshake
  | (.master, t) =>
    if s.updateSock = false then some (s.fail .master .multipleSlaves)
    else if s.updateQueued then
      some { s.goto (.master, t) .unlockUpdate with
        updateFd := Function.update s.updateFd .master true
        updateQueued := false
        updateSock := false }
    else none
  | (.slave, t) =>
    match s.updatePort with
    | none => some (s.fail .slave .noUpdateConnection)
    | some updatePort =>
      if updatePort = port ∧ s.updateSock = true then
        some { s.goto (.slave, t) .unlockUpdate with
          updateFd := Function.update s.updateFd .slave true
          updateQueued := true }
      else some (s.fail .slave .connectRefused)

/-- `std::swap(download_fd, upload_fd)` if they do not match. -/
def swap (s : Handshake) (p : Party) : Handshake :=
  if s.matched p.1 = some false then
    { s.goto p .finished with
      fd := fun q => if q.1 = p.1 then s.fd (q.1, q.2.other) else s.fd q
      swapped := Function.update s.swapped p.1 true }
  else s.goto p .finished

/-- One step of one thread: `k` is how many bytes a call moves, and which
connection `accept` returns. -/
def step (port : UInt16) (s : Handshake) : Party × Nat → Option Handshake
  | ((r, t), k) =>
    if (s.failure r).isSome then none
    else match r, s.pc (r, t) with
      | .master, .accept => s.accept port t (if k = 0 then .main else .syncInitializer)
      | .slave, .connect => some (s.connect t)
      | .master, .writePort rest => (s.fd (r, t)).bind fun c => s.writePort (r, t) c rest k
      | .slave, .readPort buf => (s.fd (r, t)).bind fun c => s.readPort (r, t) c buf k
      -- both threads of the slave resolve, and find the same port
      | .slave, .resolve updatePort =>
        some { s.goto (r, t) .writeDownload with updatePort := some updatePort }
      | _, .writeDownload => (s.fd (r, t)).map fun c => s.writeDownload (r, t) c
      | _, .readDownload => (s.fd (r, t)).bind fun c => s.readDownload (r, t) c
      | _, .lockUpdate =>
        if s.initUpdateMutex r = none then
          some { s.goto (r, t) .initUpdate with
            initUpdateMutex := Function.update s.initUpdateMutex r (some t) }
        else none
      | _, .initUpdate =>
        if s.updateFd r then some (s.goto (r, t) .unlockUpdate)
        else s.initUpdateConnection port (r, t)
      | _, .unlockUpdate =>
        some { s.goto (r, t) (if t = .main then .join else .finished) with
          initUpdateMutex := Function.update s.initUpdateMutex r none }
      | _, .join =>
        if s.pc (r, .syncInitializer) = .finished then some (s.goto (r, t) .swap) else none
      | _, .swap => some (s.swap (r, t))
      | _, _ => none

/-- Both sides, with the master's update port. -/
def system (port : UInt16) : StepSystem Handshake (Party × Nat) := ⟨step port⟩

/-- The initialisation of a side is over: `Sync` starts its threads. -/
def Initialised (s : Handshake) (r : Role) : Prop := s.pc (r, .main) = .finished

/-- Two threads of one role met: the master's `upload_fd` and the slave's
are ends of one connection. -/
def SwapNeeded (s : Handshake) : Prop := ∃ t, s.acceptor t = some t

end Handshake

end Jpgsync
