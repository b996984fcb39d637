import Jpgsync.Handshake

/-!
# Moves — what a step of the handshake can do

Every step of a thread is one `Move`, which gives the state before it what
the invariants ask for: where the thread was, which connection it used, and
how the bytes of that connection went on.
-/

namespace Jpgsync

namespace Handshake

variable {port : UInt16} {s t : Handshake} {p q : Party} {k : Nat}

/-- What one step of a thread can do. -/
inductive Move (port : UInt16) (s : Handshake) : Party → Handshake → Prop
  | accept (m c : Thread) (hpc : s.pc (.master, m) = .accept) (hconn : s.connected c = true)
      (hfree : s.acceptor c = none) :
      Move port s (.master, m)
        { s.goto (.master, m) (.writePort (htons port)) with
          fd := Function.update s.fd (.master, m) (some c)
          acceptor := Function.update s.acceptor c (some m) }
  | connect (c : Thread) (hpc : s.pc (.slave, c) = .connect) :
      Move port s (.slave, c) (s.connect c)
  | writePort (m c : Thread) (rest rest' : Bytes) (output : Fifo UInt8)
      (hpc : s.pc (.master, m) = .writePort rest) (hfd : s.fd (.master, m) = some c)
      (hout : output.pending ++ rest' = (s.stream (.master, c)).pending ++ rest)
      (hclosed : output.closed = (s.stream (.master, c)).closed)
      (hlen : rest'.length < rest.length) :
      Move port s (.master, m)
        ((s.goto (.master, m) (.writePort rest')).setStream (.master, c) output)
  | portWritten (m c : Thread) (hpc : s.pc (.master, m) = .writePort [])
      (hfd : s.fd (.master, m) = some c) :
      Move port s (.master, m) (s.goto (.master, m) .writeDownload)
  | readPort (c d : Thread) (buf buf' : Bytes) (input : Fifo UInt8)
      (hpc : s.pc (.slave, c) = .readPort buf) (hfd : s.fd (.slave, c) = some d)
      (hin : buf' ++ input.pending = buf ++ (s.stream (.master, d)).pending)
      (hclosed : input.closed = (s.stream (.master, d)).closed)
      (hlen : buf.length < buf'.length) (hle : buf'.length ≤ sizeofPort) :
      Move port s (.slave, c)
        ((s.goto (.slave, c) (.readPort buf')).setStream (.master, d) input)
  | portRead (c d : Thread) (buf : Bytes) (hpc : s.pc (.slave, c) = .readPort buf)
      (hfd : s.fd (.slave, c) = some d) (hlen : buf.length = sizeofPort) :
      Move port s (.slave, c) (s.goto (.slave, c) (.resolve (ntohs buf)))
  | portMissing (c d : Thread) (hclosed : (s.stream (.master, d)).closed = true) :
      Move port s (.slave, c) (s.fail .slave .noUpdatePort)
  | resolve (c : Thread) (updatePort : UInt16) (hpc : s.pc (.slave, c) = .resolve updatePort) :
      Move port s (.slave, c)
        { s.goto (.slave, c) .writeDownload with updatePort := some updatePort }
  | writeDownload (p : Party) (c : Thread) (hpc : s.pc p = .writeDownload)
      (hfd : s.fd p = some c) : Move port s p (s.writeDownload p c)
  | readDownload (p : Party) (c : Thread) (byte : UInt8) (input : Fifo UInt8)
      (hpc : s.pc p = .readDownload) (hfd : s.fd p = some c)
      (hin : (s.stream (p.1.other, c)).pending = byte :: input.pending)
      (hclosed : input.closed = (s.stream (p.1.other, c)).closed) :
      Move port s p
        { (s.goto p .lockUpdate).setStream (p.1.other, c) input with
          matched :=
            if p.2 = .main then
              Function.update s.matched p.1
                (some (initSyncConnection p.1 p.2.download (decide (byte ≠ 0))))
            else s.matched }
  | downloadMissing (p : Party) (c : Thread)
      (hclosed : (s.stream (p.1.other, c)).closed = true) :
      Move port s p (s.fail p.1 .noPeerDownload)
  | lockUpdate (p : Party) (hpc : s.pc p = .lockUpdate) (hfree : s.initUpdateMutex p.1 = none) :
      Move port s p
        { s.goto p .initUpdate with
          initUpdateMutex := Function.update s.initUpdateMutex p.1 (some p.2) }
  | updateOpen (p : Party) (hpc : s.pc p = .initUpdate) (hopen : s.updateFd p.1 = true) :
      Move port s p (s.goto p .unlockUpdate)
  | acceptUpdate (m : Thread) (hpc : s.pc (.master, m) = .initUpdate)
      (hqueued : s.updateQueued = true) :
      Move port s (.master, m)
        { s.goto (.master, m) .unlockUpdate with
          updateFd := Function.update s.updateFd .master true
          updateQueued := false
          updateSock := false }
  | connectUpdate (c : Thread) (hpc : s.pc (.slave, c) = .initUpdate) :
      Move port s (.slave, c)
        { s.goto (.slave, c) .unlockUpdate with
          updateFd := Function.update s.updateFd .slave true
          updateQueued := true }
  | updateMissing (p : Party) (failure : InitFailure) (hpc : s.pc p = .initUpdate)
      (hshut : s.updateFd p.1 = false)
      (hcause : s.updateSock = false ∨ p.1 = .slave ∧ s.updatePort ≠ some port) :
      Move port s p (s.fail p.1 failure)
  | unlockUpdate (p : Party) (hpc : s.pc p = .unlockUpdate) :
      Move port s p
        { s.goto p (if p.2 = .main then .join else .finished) with
          initUpdateMutex := Function.update s.initUpdateMutex p.1 none }
  | join (p : Party) (hpc : s.pc p = .join)
      (hother : s.pc (p.1, .syncInitializer) = .finished) : Move port s p (s.goto p .swap)
  | swap (p : Party) (hpc : s.pc p = .swap) : Move port s p (s.swap p)

theorem move_accept {m c : Thread} (hpc : s.pc (.master, m) = .accept)
    (h : s.accept port m c = some t) : Move port s (.master, m) t := by
  unfold Handshake.accept at h
  split at h
  · rename_i hfree
    cases h
    exact .accept m c hpc hfree.1 hfree.2
  · cases h

theorem move_writePort {m c : Thread} {rest : Bytes} (hpc : s.pc (.master, m) = .writePort rest)
    (hfd : s.fd (.master, m) = some c) (h : s.writePort (.master, m) c rest k = some t) :
    Move port s (.master, m) t := by
  obtain ⟨result, hresult, rfl⟩ := Option.map_eq_some_iff.mp h
  cases result with
  | complete =>
      rw [writeExactly_complete hresult] at hpc
      exact .portWritten m c hpc hfd
  | more rest' output =>
      obtain ⟨hout, _, hclosed, _⟩ := writeExactly_more hresult
      exact .writePort m c rest rest' output hpc hfd hout hclosed (length_writeExactly hresult)

theorem move_readPort {c d : Thread} {buf : Bytes} (hpc : s.pc (.slave, c) = .readPort buf)
    (hfd : s.fd (.slave, c) = some d) (h : s.readPort (.slave, c) d buf k = some t) :
    Move port s (.slave, c) t := by
  obtain ⟨result, hresult, rfl⟩ := Option.map_eq_some_iff.mp h
  cases result with
  | complete => exact .portRead c d buf hpc hfd (readExactly_complete hresult)
  | short => exact .portMissing c d (readExactly_short hresult).2.1
  | more buf' input =>
      obtain ⟨hin, hle, _, hclosed⟩ := readExactly_more hresult
      exact .readPort c d buf buf' input hpc hfd hin hclosed (length_readExactly hresult) hle

theorem move_readDownload {c : Thread} (hpc : s.pc p = .readDownload) (hfd : s.fd p = some c)
    (h : s.readDownload p c = some t) : Move port s p t := by
  obtain ⟨⟨byte, input⟩, hread, rfl⟩ := Option.map_eq_some_iff.mp h
  cases byte with
  | none => exact .downloadMissing p c (readByte_none hread).1
  | some byte =>
      obtain ⟨hin, _, hclosed⟩ := readByte_some hread
      exact .readDownload p c byte input hpc hfd hin hclosed

theorem move_initUpdateConnection (hpc : s.pc p = .initUpdate) (hshut : s.updateFd p.1 = false)
    (h : s.initUpdateConnection port p = some t) : Move port s p t := by
  obtain ⟨r, th⟩ := p
  cases r with
  | master =>
      simp only [initUpdateConnection] at h
      split at h
      · rename_i hsock
        cases h
        exact .updateMissing _ _ hpc hshut (Or.inl hsock)
      · split at h
        · rename_i hqueued
          cases h
          exact .acceptUpdate th hpc hqueued
        · cases h
  | slave =>
      simp only [initUpdateConnection] at h
      split at h
      next hport =>
        cases h
        exact .updateMissing _ _ hpc hshut (Or.inr ⟨rfl, by rw [hport]; simp⟩)
      next updatePort hport =>
        split at h
        · cases h
          exact .connectUpdate th hpc
        · rename_i hneither
          cases h
          refine .updateMissing _ _ hpc hshut ?_
          by_cases hsock : s.updateSock = true
          · refine Or.inr ⟨rfl, fun heq => hneither ⟨?_, hsock⟩⟩
            exact Option.some.inj (hport.symm.trans heq)
          · exact Or.inl (Bool.eq_false_iff.mpr hsock)

/-- **Every step is a move.** -/
theorem move_of_step (hst : (system port).step s (p, k) = some t) : Move port s p t := by
  obtain ⟨r, th⟩ := p
  simp only [system, step] at hst
  split at hst
  · cases hst
  · rename_i hrunning
    split at hst
    next hpc => exact move_accept hpc hst
    next hpc =>
      cases hst
      exact .connect th hpc
    next rest hpc =>
      obtain ⟨c, hfd, h⟩ := Option.bind_eq_some_iff.mp hst
      exact move_writePort hpc hfd h
    next buf hpc =>
      obtain ⟨c, hfd, h⟩ := Option.bind_eq_some_iff.mp hst
      exact move_readPort hpc hfd h
    next updatePort hpc =>
      cases hst
      exact .resolve th updatePort hpc
    next hpc =>
      obtain ⟨c, hfd, rfl⟩ := Option.map_eq_some_iff.mp hst
      exact .writeDownload _ c hpc hfd
    next hpc =>
      obtain ⟨c, hfd, h⟩ := Option.bind_eq_some_iff.mp hst
      exact move_readDownload hpc hfd h
    next hpc =>
      split at hst
      · rename_i hfree
        cases hst
        exact .lockUpdate _ hpc hfree
      · cases hst
    next hpc =>
      split at hst
      · rename_i hopen
        cases hst
        exact .updateOpen _ hpc hopen
      · rename_i hshut
        exact move_initUpdateConnection hpc (Bool.eq_false_iff.mpr hshut) hst
    next hpc =>
      cases hst
      exact .unlockUpdate _ hpc
    next hpc =>
      split at hst
      · rename_i hother
        cases hst
        exact .join _ hpc hother
      · cases hst
    next hpc =>
      cases hst
      exact .swap _ hpc
    next => cases hst

end Handshake

end Jpgsync
