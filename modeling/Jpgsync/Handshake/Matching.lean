import Jpgsync.Handshake.Moves

/-!
# Matching — the two ends of each connection

On a connection that has been accepted, each side first owes the other its
greeting (the master's is the update port) and then its `download` byte.
What one side has read, what is on the way and what the other still has to
write is that message, at every moment and in every schedule.
-/

namespace Jpgsync

/-- `Peer::InitSyncConnection` is over. -/
def InitPc.Exchanged : InitPc → Prop
  | .lockUpdate | .initUpdate | .unlockUpdate | .join | .swap | .finished => True
  | .accept | .writePort _ | .connect | .readPort _ | .resolve _ => False
  | .writeDownload | .readDownload => False

/-- Where a thread can be: each side has its own `InitSyncConnection`, and
only the main thread joins and swaps. -/
def InitPc.Of (p : Party) : InitPc → Prop
  | .accept | .writePort _ => p.1 = .master
  | .readPort buf => p.1 = .slave ∧ buf.length ≤ sizeofPort
  | .connect | .resolve _ => p.1 = .slave
  | .join | .swap => p.2 = .main
  | .writeDownload | .readDownload => True
  | .lockUpdate | .initUpdate | .unlockUpdate | .finished => True

namespace Handshake

variable {port : UInt16} {s t u : Handshake} {p q : Party} {r : Role} {th : Thread}

/-- What a side writes before its `download` byte. -/
def greeting (port : UInt16) : Role → Bytes
  | .master => htons port
  | .slave => []

/-- What a thread still has to write on its connection. -/
def unsent (th : Thread) : InitPc → Bytes
  | .writePort rest => rest ++ [th.downloadByte]
  | .connect | .readPort _ | .resolve _ | .writeDownload => [th.downloadByte]
  | .accept | .readDownload => []
  | .lockUpdate | .initUpdate | .unlockUpdate | .join | .swap | .finished => []

/-- What a thread of `r` has read on its connection, whose other end the
thread `peer` has. -/
def consumed (port : UInt16) (r : Role) (peer : Thread) : InitPc → Bytes
  | .accept | .connect => []
  | .readPort buf => buf
  | .resolve updatePort => htons updatePort
  | .writePort _ | .writeDownload | .readDownload => greeting port r.other
  | .lockUpdate | .initUpdate | .unlockUpdate | .join | .swap | .finished =>
    greeting port r.other ++ [peer.downloadByte]

theorem unsent_of_exchanged {pc : InitPc} (h : pc.Exchanged) : unsent th pc = [] := by
  cases pc <;> first | rfl | exact h.elim

theorem consumed_of_exchanged {pc : InitPc} (h : pc.Exchanged) (peer : Thread) :
    consumed port r peer pc = greeting port r.other ++ [peer.downloadByte] := by
  cases pc <;> first | rfl | exact h.elim

theorem ne_initialPc_of_exchanged {pc : InitPc} (h : pc.Exchanged) : pc ≠ initialPc r := by
  rintro rfl
  cases r <;> exact h.elim

/-- The fd a thread's `InitSyncConnection` has set. -/
def heldFd (s : Handshake) (p : Party) : Option Thread :=
  if s.swapped p.1 then s.fd (p.1, p.2.other) else s.fd p

/-- The thread of a side that has an end of the connection `c`. -/
def owner (s : Handshake) (r : Role) (c : Thread) : Option Thread :=
  match r with
  | .master => s.acceptor c
  | .slave => if s.connected c then some c else none

/-- The message from `r.other` to `r` on the connection `c`. -/
def Carries (port : UInt16) (s : Handshake) (r : Role) (c : Thread) : Prop :=
  ∀ th peer, s.owner r c = some th → s.owner r.other c = some peer →
    consumed port r peer (s.pc (r, th)) ++ (s.stream (r.other, c)).pending ++
      unsent peer (s.pc (r.other, peer)) = greeting port r.other ++ [peer.downloadByte]

structure Matching (port : UInt16) (s : Handshake) : Prop where
  held : ∀ r th c, s.heldFd (r, th) = some c ↔ s.owner r c = some th
  begun : ∀ r th, s.heldFd (r, th) = none ↔ s.pc (r, th) = initialPc r
  -- a connection nobody has accepted is silent
  fresh : ∀ c, s.acceptor c = none →
    (∀ r, (s.stream (r, c)).pending = []) ∧ (s.connected c = true → s.pc (.slave, c) = .readPort [])
  established : ∀ c m, s.acceptor c = some m → s.connected c = true
  carries : ∀ r c, s.Carries port r c
  opened : ∀ p, (s.stream p).closed = false
  swapped : ∀ r, s.swapped r = true → s.pc (r, .main) = .finished
  joined : ∀ r, s.pc (r, .main) = .swap ∨ s.pc (r, .main) = .finished →
    s.pc (r, .syncInitializer) = .finished
  places : ∀ p, (s.pc p).Of p

/-- A connection on which nothing happens. -/
theorem Carries.frame {c : Thread} (h : s.Carries port r c)
    (howner : ∀ r, t.owner r c = s.owner r c)
    (hpc : ∀ r th, s.owner r c = some th → t.pc (r, th) = s.pc (r, th))
    (hstream : ∀ r, t.stream (r, c) = s.stream (r, c)) : t.Carries port r c := by
  intro th peer hth hpeer
  rw [howner] at hth hpeer
  rw [hpc _ _ hth, hpc _ _ hpeer, hstream]
  exact h th peer hth hpeer

theorem matching_start : Matching port start where
  held r th c := by cases r <;> simp [heldFd, owner, start]
  begun r th := by simp [heldFd, start]
  fresh c _ := ⟨fun _ => rfl, by simp [start]⟩
  established c m h := by simp [start] at h
  carries r c th peer h _ := by cases r <;> simp [owner, start] at h
  opened _ := rfl
  swapped r h := by simp [start] at h
  joined r h := by cases r <;> simp [start, initialPc] at h
  places p := by
    obtain ⟨_ | _, th⟩ := p <;> exact rfl

/-! ## A thread goes on -/

/-- The two states agree on who is connected with whom. -/
structure SameEnds (s t : Handshake) : Prop where
  fd : t.fd = s.fd
  swapped : t.swapped = s.swapped
  connected : t.connected = s.connected
  acceptor : t.acceptor = s.acceptor

theorem SameEnds.owner (h : SameEnds s t) (r : Role) (c : Thread) : t.owner r c = s.owner r c := by
  cases r
  · exact congrFun h.acceptor c
  · simp only [Handshake.owner, h.connected]

theorem SameEnds.heldFd (h : SameEnds s t) (p : Party) : t.heldFd p = s.heldFd p := by
  simp only [Handshake.heldFd, h.swapped, h.fd]

/-- A side with a thread that is not finished has not swapped. -/
theorem Matching.not_swapped (h : Matching port s) (hpc : s.pc (r, th) ≠ .finished) :
    s.swapped r = false := by
  by_contra hne
  have hmain := h.swapped r (by simpa using hne)
  cases th with
  | main => exact hpc hmain
  | syncInitializer => exact hpc (h.joined r (Or.inr hmain))

/-- A thread that is not finished holds the fd it has. -/
theorem Matching.fd_eq (h : Matching port s) (hpc : s.pc p ≠ .finished) :
    s.heldFd p = s.fd p := by
  simp [Handshake.heldFd, h.not_swapped (show s.pc (p.1, p.2) ≠ .finished from hpc)]

/-- A thread's own connection. -/
theorem Matching.owner_of_fd {c : Thread} (h : Matching port s) (hpc : s.pc p ≠ .finished)
    (hfd : s.fd p = some c) : s.owner p.1 c = some p.2 :=
  (h.held p.1 p.2 c).mp ((h.fd_eq hpc).trans hfd)

/-- The slave's end of an accepted connection. -/
theorem Matching.owner_slave {c m : Thread} (h : Matching port s) (hacc : s.acceptor c = some m) :
    s.owner .slave c = some c := by
  simp [Handshake.owner, h.established c m hacc]

/-- A side has one end of a connection. -/
theorem Matching.conn_inj {c d : Thread} (h : Matching port s) (hc : s.owner r c = some th)
    (hd : s.owner r d = some th) : c = d :=
  Option.some.inj (((h.held r th c).mpr hc).symm.trans ((h.held r th d).mpr hd))

/-- The connection of a thread that has begun. -/
theorem Matching.exists_owner (h : Matching port s) (hpc : s.pc (r, th) ≠ initialPc r) :
    ∃ c, s.owner r c = some th := by
  cases hheld : s.heldFd (r, th) with
  | none => exact absurd ((h.begun r th).mp hheld) hpc
  | some c => exact ⟨c, (h.held r th c).mp hheld⟩

/-- The fd of a thread that has begun and not finished. -/
theorem Matching.exists_fd (h : Matching port s) (hpc : s.pc p ≠ initialPc p.1)
    (hrunning : s.pc p ≠ .finished) : ∃ c, s.owner p.1 c = some p.2 ∧ s.fd p = some c := by
  obtain ⟨c, hc⟩ := h.exists_owner (show s.pc (p.1, p.2) ≠ initialPc p.1 from hpc)
  refine ⟨c, hc, ?_⟩
  rw [← h.fd_eq hrunning]
  exact (h.held p.1 p.2 c).mpr hc

/-- **A thread goes on** on its connection `c`, whose other end has an
owner too: what it has read, followed by what is on the way, and what is on
the way, followed by what it still has to write, stay the same. -/
theorem Matching.advance {pc' : InitPc} {c peer : Thread} (h : Matching port s)
    (hown : s.owner p.1 c = some p.2) (hpeer : s.owner p.1.other c = some peer)
    (hends : SameEnds s t) (hpcs : t.pc = Function.update s.pc p pc')
    (hframe : ∀ q, q.2 ≠ c → t.stream q = s.stream q)
    (hclosed : ∀ q, (t.stream q).closed = false)
    (hread : consumed port p.1 peer pc' ++ (t.stream (p.1.other, c)).pending =
      consumed port p.1 peer (s.pc p) ++ (s.stream (p.1.other, c)).pending)
    (hwrite : (t.stream (p.1, c)).pending ++ unsent p.2 pc' =
      (s.stream (p.1, c)).pending ++ unsent p.2 (s.pc p))
    (hbegun : pc' ≠ initialPc p.1) (hrunning : s.pc p ≠ .finished)
    (hplace : pc'.Of p)
    (hjoin : p.2 = .main → pc' = .swap ∨ pc' = .finished →
      s.pc (p.1, .syncInitializer) = .finished) :
    Matching port t := by
  have hsame : ∀ q, q ≠ p → t.pc q = s.pc q := by
    intro q hq
    rw [hpcs, Function.update_of_ne hq]
  have hself : t.pc p = pc' := by rw [hpcs, Function.update_self]
  -- an owner of another connection is another thread
  have hothers : ∀ r d th, d ≠ c → s.owner r d = some th → (r, th) ≠ p := by
    rintro r d th hd hth rfl
    exact hd (h.conn_inj hth hown)
  have hacc : s.acceptor c ≠ none := by
    obtain ⟨_ | _, th⟩ := p
    · exact fun hnone => by simp [Handshake.owner, hnone] at hown
    · exact fun hnone => by simp [Handshake.owner, Role.other, hnone] at hpeer
  refine ⟨fun r th d => ?_, fun r th => ?_, fun d hd => ?_, fun d m hd => ?_, fun r d => ?_,
    hclosed, fun r hr => ?_, fun r hr => ?_, fun q => ?_⟩
  · rw [hends.heldFd, hends.owner]
    exact h.held r th d
  · rw [hends.heldFd, h.begun]
    by_cases hp : (r, th) = p
    · subst hp
      rw [hself]
      refine iff_of_false (fun heq => ?_) hbegun
      have hnone := (h.begun r th).mpr heq
      rw [(h.held r th c).mpr hown] at hnone
      cases hnone
    · rw [hsame _ hp]
  · rw [hends.acceptor] at hd
    have hne : d ≠ c := fun heq => hacc (heq ▸ hd)
    obtain ⟨hsilent, hpc⟩ := h.fresh d hd
    refine ⟨fun r => by rw [hframe _ hne]; exact hsilent r, fun hconn => ?_⟩
    rw [hends.connected] at hconn
    have hown' : s.owner .slave d = some d := by simp [Handshake.owner, hconn]
    rw [hsame _ (hothers _ _ _ hne hown')]
    exact hpc hconn
  · rw [hends.acceptor] at hd
    rw [hends.connected]
    exact h.established d m hd
  · by_cases hd : d = c
    · subst hd
      intro th w hth hw
      rw [hends.owner] at hth hw
      have hmessage := h.carries r d th w hth hw
      by_cases hr : r = p.1
      -- the thread reads
      · subst hr
        obtain rfl : th = p.2 := Option.some.inj (hth.symm.trans hown)
        obtain rfl : w = peer := Option.some.inj (hw.symm.trans hpeer)
        rw [hsame (p.1.other, w) fun heq => Role.other_ne _ (congrArg Prod.fst heq),
          show t.pc (p.1, p.2) = pc' from hself, hread]
        exact hmessage
      -- the thread writes
      · obtain rfl : r = p.1.other := Role.eq_other hr
        rw [Role.other_other] at hw hmessage ⊢
        obtain rfl : w = p.2 := Option.some.inj (hw.symm.trans hown)
        rw [hsame (p.1.other, th) fun heq => Role.other_ne _ (congrArg Prod.fst heq),
          show t.pc (p.1, p.2) = pc' from hself, List.append_assoc, hwrite, ← List.append_assoc]
        exact hmessage
    · exact (h.carries r d).frame (fun r => hends.owner r d)
        (fun r th hth => hsame _ (hothers r d th hd hth)) fun r => hframe _ hd
  · rw [hends.swapped] at hr
    have hmain := h.swapped r hr
    rw [hsame _ fun heq => hrunning (heq ▸ hmain)]
    exact hmain
  · by_cases hp : (r, Thread.main) = p
    · subst hp
      rw [hself] at hr
      rw [hsame _ fun heq => by cases congrArg Prod.snd heq]
      exact hjoin rfl hr
    · rw [hsame _ hp] at hr
      have hother := h.joined r hr
      rw [hsame _ fun heq => hrunning (heq ▸ hother)]
      exact hother
  · by_cases hq : q = p
    · subst hq
      rw [hself]
      exact hplace
    · rw [hsame _ hq]
      exact h.places q

/-- A thread whose peer has an end of the connection too. -/
theorem Matching.exists_peer {c : Thread} (h : Matching port s) (hown : s.owner p.1 c = some p.2)
    (hheard : s.pc p ≠ .readPort [] ∨ (s.stream (.master, c)).pending ≠ []) :
    ∃ peer, s.owner p.1.other c = some peer := by
  obtain ⟨_ | _, th⟩ := p
  · exact ⟨c, h.owner_slave hown⟩
  · cases hacc : s.acceptor c with
    | some m => exact ⟨m, hacc⟩
    | none =>
        obtain ⟨hsilent, hpc⟩ := h.fresh c hacc
        have hconn : s.connected c = true ∧ c = th := by simpa [Handshake.owner] using hown
        obtain ⟨hconn, rfl⟩ := hconn
        rcases hheard with hne | hne
        · exact absurd (hpc hconn) hne
        · exact absurd (hsilent .master) hne

/-- **A thread goes on without its connection.** -/
theorem Matching.localStep {pc' : InitPc} (h : Matching port s)
    (hends : SameEnds s t) (hpcs : t.pc = Function.update s.pc p pc')
    (hstream : t.stream = s.stream)
    (hpc : s.pc p ≠ initialPc p.1 ∧ s.pc p ≠ .readPort [] ∧ s.pc p ≠ .finished)
    (hread : ∀ peer, consumed port p.1 peer pc' = consumed port p.1 peer (s.pc p))
    (hwrite : unsent p.2 pc' = unsent p.2 (s.pc p))
    (hbegun : pc' ≠ initialPc p.1) (hplace : pc'.Of p)
    (hjoin : p.2 = .main → pc' = .swap ∨ pc' = .finished →
      s.pc (p.1, .syncInitializer) = .finished) :
    Matching port t := by
  obtain ⟨c, hown⟩ := h.exists_owner (show s.pc (p.1, p.2) ≠ initialPc p.1 from hpc.1)
  obtain ⟨peer, hpeer⟩ := h.exists_peer hown (Or.inl hpc.2.1)
  refine h.advance hown hpeer hends hpcs (fun q _ => by rw [hstream]) (fun q => ?_) ?_ ?_ hbegun
    hpc.2.2 hplace hjoin
  · rw [hstream]
    exact h.opened q
  · rw [hread, hstream]
  · rw [hwrite, hstream]

/-- What the slave resolves is the update port. -/
theorem Matching.resolved {c : Thread} {updatePort : UInt16} (h : Matching port s)
    (hpc : s.pc (.slave, c) = .resolve updatePort) : updatePort = port := by
  have hbegun : s.pc (.slave, c) ≠ initialPc .slave := by simp [hpc, initialPc]
  obtain ⟨d, hown⟩ := h.exists_owner hbegun
  obtain ⟨peer, hpeer⟩ := h.exists_peer (p := (.slave, c)) hown (Or.inl (by simp [hpc]))
  have hmessage := h.carries .slave d c peer hown hpeer
  rw [hpc] at hmessage
  have hbytes : htons updatePort = htons port :=
    List.append_inj_left (by simpa [consumed, greeting, Role.other] using hmessage) rfl
  rw [← ntohs_htons updatePort, hbytes, ntohs_htons]

/-- The byte a thread reads last is that of the thread it is connected to. -/
theorem Matching.peer_download {c : Thread} {byte : UInt8} {rest : Bytes} (h : Matching port s)
    (hpc : s.pc p = .readDownload) (hfd : s.fd p = some c)
    (hin : (s.stream (p.1.other, c)).pending = byte :: rest) :
    ∃ peer, s.owner p.1.other c = some peer ∧ byte = peer.downloadByte := by
  have hown := h.owner_of_fd (by simp [hpc]) hfd
  obtain ⟨peer, hpeer⟩ := h.exists_peer hown (Or.inl (by simp [hpc]))
  have hmessage := h.carries p.1 c p.2 peer hown hpeer
  rw [show s.pc (p.1, p.2) = .readDownload from hpc, hin] at hmessage
  simp only [consumed, List.append_assoc] at hmessage
  have htail := List.append_cancel_left hmessage
  exact ⟨peer, hpeer, (List.cons.inj htail).1⟩

/-- A thread writes on its connection. -/
theorem Matching.writes {pc' : InitPc} {c : Thread} {output : Fifo UInt8} (h : Matching port s)
    (hfd : s.fd p = some c) (hpc : s.pc p ≠ .readPort [] ∧ s.pc p ≠ .finished)
    (hread : ∀ peer, consumed port p.1 peer pc' = consumed port p.1 peer (s.pc p))
    (hout : output.pending ++ unsent p.2 pc' =
      (s.stream (p.1, c)).pending ++ unsent p.2 (s.pc p))
    (hclosed : output.closed = (s.stream (p.1, c)).closed)
    (hbegun : pc' ≠ initialPc p.1) (hplace : pc'.Of p) (hearly : pc' ≠ .swap ∧ pc' ≠ .finished) :
    Matching port ((s.goto p pc').setStream (p.1, c) output) := by
  have hown := h.owner_of_fd hpc.2 hfd
  obtain ⟨peer, hpeer⟩ := h.exists_peer hown (Or.inl hpc.1)
  refine h.advance hown hpeer ⟨rfl, rfl, rfl, rfl⟩ rfl (fun q hq => ?_) (fun q => ?_) ?_ ?_ hbegun
    hpc.2 hplace fun _ hlate => ?_
  · exact Function.update_of_ne (fun heq => hq (congrArg Prod.snd heq)) _ _
  · by_cases hq : q = (p.1, c)
    · subst hq
      simpa [setStream, hclosed] using h.opened _
    · simpa [setStream, Handshake.goto, Function.update_of_ne hq] using h.opened q
  · have hne : (p.1.other, c) ≠ (p.1, c) := fun heq => Role.other_ne _ (congrArg Prod.fst heq)
    simp [setStream, Handshake.goto, hread peer, Function.update_of_ne hne]
  · simpa [setStream] using hout
  · rcases hlate with hlate | hlate
    · exact absurd hlate hearly.1
    · exact absurd hlate hearly.2

/-- A thread reads on its connection. -/
theorem Matching.reads {pc' : InitPc} {c peer : Thread} {input : Fifo UInt8} (h : Matching port s)
    (hown : s.owner p.1 c = some p.2) (hpeer : s.owner p.1.other c = some peer)
    (hends : SameEnds s t) (hpcs : t.pc = Function.update s.pc p pc')
    (hstream : t.stream = Function.update s.stream (p.1.other, c) input)
    (hin : consumed port p.1 peer pc' ++ input.pending =
      consumed port p.1 peer (s.pc p) ++ (s.stream (p.1.other, c)).pending)
    (hwrite : unsent p.2 pc' = unsent p.2 (s.pc p))
    (hclosed : input.closed = (s.stream (p.1.other, c)).closed) (hrunning : s.pc p ≠ .finished)
    (hbegun : pc' ≠ initialPc p.1) (hplace : pc'.Of p) (hearly : pc' ≠ .swap ∧ pc' ≠ .finished) :
    Matching port t := by
  refine h.advance hown hpeer hends hpcs (fun q hq => ?_) (fun q => ?_) ?_ ?_ hbegun hrunning
    hplace fun _ hlate => ?_
  · rw [hstream]
    exact Function.update_of_ne (fun heq => hq (congrArg Prod.snd heq)) _ _
  · rw [hstream]
    by_cases hq : q = (p.1.other, c)
    · subst hq
      rw [Function.update_self, hclosed]
      exact h.opened _
    · rw [Function.update_of_ne hq]
      exact h.opened q
  · rw [hstream, Function.update_self]
    exact hin
  · have hne : (p.1, c) ≠ (p.1.other, c) := fun heq =>
      Role.other_ne _ (congrArg Prod.fst heq).symm
    rw [hstream, Function.update_of_ne hne, hwrite]
  · rcases hlate with hlate | hlate
    · exact absurd hlate hearly.1
    · exact absurd hlate hearly.2

/-- A thread whose connection is set up goes on. -/
theorem Matching.later {pc' : InitPc} (h : Matching port s) (hends : SameEnds s t)
    (hpcs : t.pc = Function.update s.pc p pc') (hstream : t.stream = s.stream)
    (hpc : (s.pc p).Exchanged) (hrunning : s.pc p ≠ .finished) (hpc' : pc'.Exchanged)
    (hplace : pc'.Of p)
    (hjoin : p.2 = .main → pc' = .swap ∨ pc' = .finished →
      s.pc (p.1, .syncInitializer) = .finished) : Matching port t := by
  refine h.localStep hends hpcs hstream ⟨ne_initialPc_of_exchanged hpc, ?_, hrunning⟩
    (fun peer => ?_) ?_ (ne_initialPc_of_exchanged hpc') hplace hjoin
  · rintro heq
    rw [heq] at hpc
    exact hpc
  · rw [consumed_of_exchanged hpc, consumed_of_exchanged hpc']
  · rw [unsent_of_exchanged hpc, unsent_of_exchanged hpc']

/-! ## New connections -/

/-- The thread `p` gets an end of the connection `c`. -/
structure Gains (s t : Handshake) (p : Party) (c : Thread) : Prop where
  heldFd : ∀ q, t.heldFd q = if q = p then some c else s.heldFd q
  owner : ∀ r d, t.owner r d = if (r, d) = (p.1, c) then some p.2 else s.owner r d

theorem Gains.held {c : Thread} (g : Gains s t p c) (h : Matching port s)
    (hnew : s.heldFd p = none) (hfree : s.owner p.1 c = none) (r : Role) (th d : Thread) :
    t.heldFd (r, th) = some d ↔ t.owner r d = some th := by
  have hold := h.held r th d
  rw [g.heldFd, g.owner]
  by_cases hp : (r, th) = p
  · subst hp
    rw [hnew] at hold
    by_cases hd : d = c
    · simp [hd]
    · rw [if_pos rfl, if_neg (by simpa using hd)]
      exact iff_of_false (fun heq => hd (Option.some.inj heq).symm) fun heq => by
        cases hold.mpr heq
  · rw [if_neg hp]
    by_cases hd : (r, d) = (p.1, c)
    · obtain ⟨rfl, rfl⟩ := Prod.mk.inj hd
      rw [hfree] at hold
      rw [if_pos rfl]
      refine iff_of_false (fun heq => ?_) fun heq => hp ?_
      · cases hold.mp heq
      · rw [← Option.some.inj heq]
    · rw [if_neg hd]
      exact hold

/-- The state in which a thread that has just begun has its connection. -/
theorem Matching.gain {pc' : InitPc} {c : Thread} (h : Matching port s) (g : Gains s t p c)
    (hpc : s.pc p = initialPc p.1) (hfree : s.owner p.1 c = none)
    (hpcs : t.pc = Function.update s.pc p pc')
    (hbegun : pc' ≠ initialPc p.1 ∧ pc' ≠ .swap ∧ pc' ≠ .finished) (hplace : pc'.Of p)
    (hswapped : t.swapped = s.swapped) (hstream : t.stream = s.stream)
    (hfresh : ∀ d, t.acceptor d = none → s.acceptor d = none ∧
      (t.connected d = true → t.pc (.slave, d) = .readPort []))
    (hestablished : ∀ d m, t.acceptor d = some m → t.connected d = true)
    (hcarries : ∀ r, t.Carries port r c) : Matching port t := by
  have hsame : ∀ q, q ≠ p → t.pc q = s.pc q := by
    intro q hq
    rw [hpcs, Function.update_of_ne hq]
  have hself : t.pc p = pc' := by rw [hpcs, Function.update_self]
  have hrunning : s.pc p ≠ .finished := by
    rw [hpc]
    cases p.1 <;> simp [initialPc]
  have hnew : s.heldFd p = none := (h.begun p.1 p.2).mpr hpc
  refine ⟨g.held h hnew hfree, fun r th => ?_, fun d hd => ?_, hestablished, fun r d => ?_,
    fun q => ?_, fun r hr => ?_, fun r hr => ?_, fun q => ?_⟩
  · rw [g.heldFd]
    by_cases hp : (r, th) = p
    · subst hp
      rw [if_pos rfl, hself]
      exact iff_of_false (by simp) hbegun.1
    · rw [if_neg hp, hsame _ hp]
      exact h.begun r th
  · rw [hstream]
    exact ⟨(h.fresh d (hfresh d hd).1).1, (hfresh d hd).2⟩
  · by_cases hd : d = c
    · subst hd
      exact hcarries r
    · refine (h.carries r d).frame (fun r => ?_) (fun r th hth => hsame _ ?_) fun r => by
        rw [hstream]
      · rw [g.owner, if_neg fun heq => hd (Prod.mk.inj heq).2]
      · rintro rfl
        rw [(h.held r th d).mpr hth] at hnew
        cases hnew
  · rw [hstream]
    exact h.opened q
  · rw [hswapped] at hr
    have hmain := h.swapped r hr
    rw [hsame _ fun heq => hrunning (heq ▸ hmain)]
    exact hmain
  · by_cases hp : (r, Thread.main) = p
    · subst hp
      rw [hself] at hr
      rcases hr with hr | hr
      · exact absurd hr hbegun.2.1
      · exact absurd hr hbegun.2.2
    · rw [hsame _ hp] at hr
      have hother := h.joined r hr
      rw [hsame _ fun heq => hrunning (heq ▸ hother)]
      exact hother
  · by_cases hq : q = p
    · subst hq
      rw [hself]
      exact hplace
    · rw [hsame _ hq]
      exact h.places q

theorem Matching.connect {c : Thread} (h : Matching port s) (hpc : s.pc (.slave, c) = .connect) :
    Matching port (s.connect c) := by
  have hunused : s.connected c = false := by
    have hheld := (h.begun .slave c).mpr hpc
    by_contra hne
    have hown : s.owner .slave c = some c := by simpa [Handshake.owner] using hne
    rw [(h.held .slave c c).mpr hown] at hheld
    cases hheld
  have hfree : s.acceptor c = none := by
    by_contra hne
    obtain ⟨m, hm⟩ := Option.ne_none_iff_exists'.mp hne
    rw [h.established c m hm] at hunused
    cases hunused
  have hswapped : s.swapped .slave = false :=
    h.not_swapped (show s.pc (.slave, c) ≠ .finished by simp [hpc])
  have g : Gains s (s.connect c) (.slave, c) c := by
    constructor
    · rintro ⟨r, th⟩
      cases r <;>
        simp [Handshake.heldFd, Handshake.connect, goto, hswapped, Function.update_apply]
    · intro r d
      cases r
      · simp [Handshake.owner, Handshake.connect, goto]
      · by_cases hd : d = c <;> simp [Handshake.owner, Handshake.connect, goto, hd]
  refine h.gain g hpc (by simp [Handshake.owner, hunused]) rfl (by simp [initialPc])
    ⟨rfl, Nat.zero_le _⟩ rfl rfl
    (fun d hd => ⟨hd, fun hconn => ?_⟩) (fun d m hd => ?_) fun r th w hth hw => ?_
  · by_cases hdc : d = c
    · subst hdc
      simp [Handshake.connect, goto]
    · have hconn' : s.connected d = true := by simpa [Handshake.connect, hdc] using hconn
      simpa [Handshake.connect, goto, hdc] using (h.fresh d hd).2 hconn'
  · by_cases hdc : d = c
    · simp [Handshake.connect, hdc]
    · simpa [Handshake.connect, hdc] using h.established d m hd
  -- nobody has accepted the connection
  · have hnone : (s.connect c).owner .master c = none := hfree
    cases r with
    | master =>
        rw [hnone] at hth
        cases hth
    | slave =>
        rw [Role.other, hnone] at hw
        cases hw

theorem Matching.accept {m c : Thread} (h : Matching port s)
    (hpc : s.pc (.master, m) = .accept) (hconn : s.connected c = true)
    (hfree : s.acceptor c = none) :
    Matching port
      { s.goto (.master, m) (.writePort (htons port)) with
        fd := Function.update s.fd (.master, m) (some c)
        acceptor := Function.update s.acceptor c (some m) } := by
  have hswapped : s.swapped .master = false :=
    h.not_swapped (show s.pc (.master, m) ≠ .finished by simp [hpc])
  obtain ⟨hsilent, hslave⟩ := h.fresh c hfree
  refine h.gain (p := (.master, m)) (c := c) ⟨?_, ?_⟩ hpc hfree rfl (by simp [initialPc]) rfl rfl
    rfl (fun d hd => ?_) (fun d m' hd => ?_) fun r th w hth hw => ?_
  · rintro ⟨r, th⟩
    cases r <;> simp [Handshake.heldFd, goto, hswapped, Function.update_apply]
  · intro r d
    cases r
    · by_cases hd : d = c <;> simp [Handshake.owner, hd]
    · rw [if_neg (by simp)]
      rfl
  · have hne : d ≠ c := by
      rintro rfl
      simp at hd
    have hold : s.acceptor d = none := by simpa [hne] using hd
    exact ⟨hold, fun hd' => by simpa [goto] using (h.fresh d hold).2 hd'⟩
  · by_cases hdc : d = c
    · subst hdc
      exact hconn
    · exact h.established d m' (by simpa [hdc] using hd)
  -- both sides still have everything to write
  · have hpc' : s.pc (.slave, c) = .readPort [] := hslave hconn
    cases r with
    | master =>
        obtain rfl : m = th := by simpa [Handshake.owner] using hth
        obtain rfl : c = w := by simpa [Handshake.owner, Role.other, goto, hconn] using hw
        simp [goto, hpc', Role.other, consumed, greeting, unsent, hsilent]
    | slave =>
        obtain rfl : c = th := by simpa [Handshake.owner, goto, hconn] using hth
        obtain rfl : m = w := by simpa [Handshake.owner, Role.other] using hw
        simp [goto, hpc', Role.other, consumed, greeting, unsent, hsilent]

/-- Swapping leaves every thread with the connection it has set up. -/
theorem Matching.swap (h : Matching port s) (hpc : s.pc p = .swap) :
    Matching port (s.swap p) := by
  have hmain : p.2 = .main := by
    have hplace := h.places p
    rwa [hpc] at hplace
  have hpc' : s.pc (p.1, .main) = .swap := by rw [← hmain, ← hpc]
  have hswapped : s.swapped p.1 = false :=
    h.not_swapped (show s.pc (p.1, .main) ≠ .finished by simp [hpc'])
  have hfinished : Matching port (s.goto p .finished) :=
    h.later ⟨rfl, rfl, rfl, rfl⟩ rfl rfl (by simp [hpc, InitPc.Exchanged]) (by simp [hpc])
      True.intro True.intro fun _ _ => h.joined p.1 (Or.inl hpc')
  unfold Handshake.swap
  split
  · have hheld : ∀ q, (if Function.update s.swapped p.1 true q.1 = true then
        if q.1 = p.1 then s.fd (q.1, q.2.other.other) else s.fd (q.1, q.2.other)
        else if q.1 = p.1 then s.fd (q.1, q.2.other) else s.fd q) = s.heldFd q := by
      rintro ⟨r, th⟩
      by_cases hr : r = p.1
      · subst hr
        simp [Handshake.heldFd, hswapped]
      · simp [Handshake.heldFd, hr]
    refine ⟨fun r th c => ?_, fun r th => ?_, hfinished.fresh, hfinished.established,
      hfinished.carries, hfinished.opened, fun r hr => ?_, hfinished.joined, hfinished.places⟩
    · exact (iff_of_eq (congrArg (· = some c) (hheld (r, th)))).trans (hfinished.held r th c)
    · exact (iff_of_eq (congrArg (· = none) (hheld (r, th)))).trans (hfinished.begun r th)
    · by_cases hrole : r = p.1
      · subst hrole
        rw [← hmain]
        exact Function.update_self _ _ _
      · exact hfinished.swapped r (by simpa [goto, hrole] using hr)
  · exact hfinished

/-- **Every step keeps the ends together.** -/
theorem Matching.step (h : Matching port s) (hst : Move port s p t) : Matching port t := by
  cases hst with
  | accept m c hpc hconn hfree => exact h.accept hpc hconn hfree
  | connect c hpc => exact h.connect hpc
  | writePort m c rest rest' output hpc hfd hout hclosed hlen =>
      refine h.writes hfd (by simp [hpc]) (by simp [hpc, consumed]) ?_ hclosed (by simp [initialPc])
        rfl (by simp)
      simp only [hpc, unsent, ← List.append_assoc, hout]
  | portWritten m c hpc hfd =>
      refine h.localStep ⟨rfl, rfl, rfl, rfl⟩ rfl rfl ?_ ?_ ?_ ?_ True.intro ?_ <;>
        simp [hpc, initialPc, consumed, unsent]
  | readPort c d buf buf' input hpc hfd hin hclosed hlen hle =>
      have hown := h.owner_of_fd (by simp [hpc]) hfd
      have hheard : (s.stream (.master, d)).pending ≠ [] := by
        intro hnone
        have hcut := congrArg List.length hin
        simp [hnone] at hcut
        omega
      obtain ⟨peer, hpeer⟩ := h.exists_peer hown (Or.inr hheard)
      exact h.reads hown hpeer ⟨rfl, rfl, rfl, rfl⟩ rfl rfl
        (by simpa [hpc, consumed, Role.other] using hin) (by simp [hpc, unsent]) hclosed
        (by simp [hpc]) (by simp [initialPc]) ⟨rfl, hle⟩ (by simp)
  | portRead c d buf hpc hfd hlen =>
      refine h.localStep ⟨rfl, rfl, rfl, rfl⟩ rfl rfl ⟨?_, ?_, ?_⟩ ?_ ?_ ?_ rfl ?_
      · simp [hpc, initialPc]
      · rintro hempty
        rw [hpc] at hempty
        cases hempty
        cases hlen
      · simp [hpc]
      · simp [hpc, consumed, htons_ntohs hlen]
      · simp [hpc, unsent]
      · simp [initialPc]
      · simp
  | portMissing c d hclosed =>
      rw [h.opened] at hclosed
      cases hclosed
  | resolve c updatePort hpc =>
      refine h.localStep ⟨rfl, rfl, rfl, rfl⟩ rfl rfl ?_ ?_ ?_ ?_ True.intro ?_
      · simp [hpc, initialPc]
      · simp [hpc, consumed, greeting, Role.other, h.resolved hpc]
      · simp [hpc, unsent]
      · simp [initialPc]
      · simp
  | writeDownload p c hpc hfd =>
      refine h.writes hfd (by simp [hpc]) (by simp [hpc, consumed]) (by simp [hpc, unsent]) rfl
        ?_ ?_ (by simp)
      · cases p.1 <;> simp [initialPc]
      · exact True.intro
  | readDownload p c byte input hpc hfd hin hclosed =>
      obtain ⟨peer, hpeer, hbyte⟩ := h.peer_download hpc hfd hin
      refine h.reads (h.owner_of_fd (by simp [hpc]) hfd) hpeer ⟨rfl, rfl, rfl, rfl⟩ rfl rfl ?_
        (by simp [hpc, unsent]) hclosed (by simp [hpc]) ?_ ?_ (by simp)
      · simp [hpc, consumed, hin, hbyte]
      · cases p.1 <;> simp [initialPc]
      · exact True.intro
  | downloadMissing p c hclosed =>
      rw [h.opened] at hclosed
      cases hclosed
  | lockUpdate p hpc hfree =>
      exact h.later ⟨rfl, rfl, rfl, rfl⟩ rfl rfl (by simp [hpc, InitPc.Exchanged]) (by simp [hpc])
        True.intro True.intro (by simp)
  | updateOpen p hpc hopen =>
      exact h.later ⟨rfl, rfl, rfl, rfl⟩ rfl rfl (by simp [hpc, InitPc.Exchanged]) (by simp [hpc])
        True.intro True.intro (by simp)
  | acceptUpdate m hpc hqueued =>
      exact h.later ⟨rfl, rfl, rfl, rfl⟩ rfl rfl (by simp [hpc, InitPc.Exchanged]) (by simp [hpc])
        True.intro True.intro (by simp)
  | connectUpdate c hpc =>
      exact h.later ⟨rfl, rfl, rfl, rfl⟩ rfl rfl (by simp [hpc, InitPc.Exchanged]) (by simp [hpc])
        True.intro True.intro (by simp)
  | updateMissing p failure hpc hshut hcause =>
      exact ⟨h.held, h.begun, h.fresh, h.established, h.carries, h.opened, h.swapped, h.joined,
        h.places⟩
  | unlockUpdate p hpc =>
      obtain ⟨r, th⟩ := p
      refine h.later ⟨rfl, rfl, rfl, rfl⟩ rfl rfl (by simp [hpc, InitPc.Exchanged]) (by simp [hpc])
        ?_ ?_ ?_
      · cases th <;> exact True.intro
      · cases th <;> trivial
      · rintro rfl hlate
        simp at hlate
  | join p hpc hother =>
      have hplace := h.places p
      rw [hpc] at hplace
      exact h.later ⟨rfl, rfl, rfl, rfl⟩ rfl rfl (by simp [hpc, InitPc.Exchanged]) (by simp [hpc])
        True.intro hplace fun _ _ => hother
  | swap p hpc => exact h.swap hpc

end Handshake

end Jpgsync
