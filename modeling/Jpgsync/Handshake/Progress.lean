import Jpgsync.Handshake.Verdict

/-!
# Progress — the handshake always ends

No schedule of the four threads leaves one of them waiting for ever, and no
process is ended: as long as a side is not initialised some thread has a
step, and every step uses up a part of a fixed amount of work.
-/

namespace Jpgsync

/-- Inside `update_initializer`, with the mutex. -/
def InitPc.Locks : InitPc → Prop
  | .initUpdate | .unlockUpdate => True
  | .accept | .writePort _ | .connect | .readPort _ | .resolve _ => False
  | .writeDownload | .readDownload | .lockUpdate | .join | .swap | .finished => False

/-- `update_fd` has been found open or has been opened. -/
def InitPc.Updated : InitPc → Prop
  | .unlockUpdate | .join | .swap | .finished => True
  | .accept | .writePort _ | .connect | .readPort _ | .resolve _ => False
  | .writeDownload | .readDownload | .lockUpdate | .initUpdate => False

/-- On the slave: `Resolve` has returned. -/
def InitPc.Resolved : InitPc → Prop
  | .writeDownload | .readDownload => True
  | .lockUpdate | .initUpdate | .unlockUpdate | .join | .swap | .finished => True
  | .accept | .writePort _ | .connect | .readPort _ | .resolve _ => False

/-- The most steps a thread still takes. -/
def InitPc.work : InitPc → Nat
  | .accept => 14
  | .connect => 14
  | .writePort rest => 10 + rest.length
  | .readPort buf => 10 + (sizeofPort - buf.length)
  | .resolve _ => 9
  | .writeDownload => 8
  | .readDownload => 7
  | .lockUpdate => 6
  | .initUpdate => 5
  | .unlockUpdate => 4
  | .join => 3
  | .swap => 2
  | .finished => 0

namespace Handshake

variable {port : UInt16} {s t : Handshake} {p : Party} {r : Role} {th c m : Thread} {k : Nat}

/-! ## The update connection -/

structure Updating (port : UInt16) (s : Handshake) : Prop where
  running : ∀ r, s.failure r = none
  locked : ∀ r th, s.initUpdateMutex r = some th ↔ (s.pc (r, th)).Locks
  updated : ∀ r th, (s.pc (r, th)).Updated → s.updateFd r = true
  listening : s.updateSock = true ↔ s.updateFd .master = false
  queued : s.updateFd .slave = true ↔ s.updateQueued = true ∨ s.updateFd .master = true
  resolved : ∀ c, (s.pc (.slave, c)).Resolved → s.updatePort = some port

theorem updating_start : Updating port start where
  running _ := rfl
  locked r th := by cases r <;> simp [start, initialPc, InitPc.Locks]
  updated r th h := by cases r <;> exact h.elim
  listening := by simp [start]
  queued := by simp [start]
  resolved c h := h.elim

theorem pc_swap (s : Handshake) (p : Party) :
    (s.swap p).pc = Function.update s.pc p .finished := by
  unfold swap
  split <;> rfl

/-- What a step of `p` that goes on to `pc'` has to keep. -/
theorem Updating.advance {pc' : InitPc} (h : Updating port s)
    (hpcs : t.pc = Function.update s.pc p pc') (hfailure : t.failure = s.failure)
    (hmutex : ∀ th, t.initUpdateMutex p.1 = some th ↔
      if th = p.2 then pc'.Locks else (s.pc (p.1, th)).Locks)
    (hother : ∀ r, r ≠ p.1 → t.initUpdateMutex r = s.initUpdateMutex r)
    (hopen : ∀ r, s.updateFd r = true → t.updateFd r = true)
    (hupdated : pc'.Updated → t.updateFd p.1 = true)
    (hlistening : t.updateSock = true ↔ t.updateFd .master = false)
    (hqueued : t.updateFd .slave = true ↔ t.updateQueued = true ∨ t.updateFd .master = true)
    (hport : s.updatePort = some port → t.updatePort = some port)
    (hresolved : p.1 = .slave → pc'.Resolved → t.updatePort = some port) : Updating port t := by
  have hsame : ∀ q, q ≠ p → t.pc q = s.pc q := by
    intro q hq
    rw [hpcs, Function.update_of_ne hq]
  have hself : t.pc p = pc' := by rw [hpcs, Function.update_self]
  refine ⟨fun r => ?_, fun r th => ?_, fun r th hth => ?_, hlistening, hqueued, fun c hc => ?_⟩
  · rw [hfailure]
    exact h.running r
  · by_cases hr : r = p.1
    · subst hr
      rw [hmutex]
      by_cases hth : th = p.2
      · subst hth
        rw [if_pos rfl, show t.pc (p.1, p.2) = pc' from hself]
      · rw [if_neg hth, hsame _ fun heq => hth (congrArg Prod.snd heq)]
    · rw [hother r hr, h.locked, hsame _ fun heq => hr (congrArg Prod.fst heq)]
  · by_cases hp : (r, th) = p
    · subst hp
      rw [hself] at hth
      exact hupdated hth
    · rw [hsame _ hp] at hth
      exact hopen r (h.updated r th hth)
  · by_cases hp : (Role.slave, c) = p
    · subst hp
      rw [hself] at hc
      exact hresolved rfl hc
    · rw [hsame _ hp] at hc
      exact hport (h.resolved c hc)

/-- The mutex when a thread neither takes nor leaves it. -/
theorem Updating.locked_of_iff {pc' : InitPc} (h : Updating port s)
    (hlocks : pc'.Locks ↔ (s.pc p).Locks) (th : Thread) :
    s.initUpdateMutex p.1 = some th ↔ if th = p.2 then pc'.Locks else (s.pc (p.1, th)).Locks := by
  rw [h.locked]
  by_cases hth : th = p.2
  · subst hth
    rw [if_pos rfl, hlocks]
  · rw [if_neg hth]

/-- The two states agree on the update connection. -/
structure SameUpdate (s t : Handshake) : Prop where
  failure : t.failure = s.failure
  initUpdateMutex : t.initUpdateMutex = s.initUpdateMutex
  updateFd : t.updateFd = s.updateFd
  updateSock : t.updateSock = s.updateSock
  updateQueued : t.updateQueued = s.updateQueued
  updatePort : t.updatePort = s.updatePort

/-- A step that is not about the update connection. -/
theorem Updating.quiet {pc' : InitPc} (h : Updating port s) (hupdate : SameUpdate s t)
    (hpcs : t.pc = Function.update s.pc p pc')
    (hlocks : pc'.Locks ↔ (s.pc p).Locks) (hupdated : pc'.Updated → s.updateFd p.1 = true)
    (hresolved : p.1 = .slave → pc'.Resolved → (s.pc p).Resolved) : Updating port t := by
  refine h.advance hpcs hupdate.failure (fun th => ?_) (fun r _ => ?_) (fun r hr => ?_)
    (fun hup => ?_) ?_ ?_ (fun hport => ?_) fun hp hpc' => ?_
  · rw [hupdate.initUpdateMutex]
    exact h.locked_of_iff hlocks th
  · rw [hupdate.initUpdateMutex]
  · rwa [hupdate.updateFd]
  · rw [hupdate.updateFd]
    exact hupdated hup
  · rw [hupdate.updateSock, hupdate.updateFd]
    exact h.listening
  · rw [hupdate.updateFd, hupdate.updateQueued]
    exact h.queued
  · rwa [hupdate.updatePort]
  · rw [hupdate.updatePort]
    obtain ⟨r, c⟩ := p
    obtain rfl : r = .slave := hp
    exact h.resolved c (hresolved rfl hpc')

/-- A step before the mutex. -/
theorem Updating.before {pc' : InitPc} (h : Updating port s) (hupdate : SameUpdate s t)
    (hpcs : t.pc = Function.update s.pc p pc') (hpc : ¬ (s.pc p).Locks)
    (hpc' : ¬ pc'.Locks ∧ ¬ pc'.Updated)
    (hresolved : p.1 = .slave → pc'.Resolved → (s.pc p).Resolved) : Updating port t :=
  h.quiet hupdate hpcs (iff_of_false hpc'.1 hpc) (fun hup => absurd hup hpc'.2) hresolved

/-- A slave in `update_initializer` knows the port. -/
theorem Updating.port_of_exchanged (h : Updating port s) (hpc : (s.pc p).Exchanged)
    (hp : p.1 = .slave) : s.updatePort = some port := by
  obtain ⟨r, c⟩ := p
  obtain rfl : r = .slave := hp
  refine h.resolved c ?_
  cases hpc' : s.pc (.slave, c) <;> rw [hpc'] at hpc <;> trivial

/-- **Nobody fails**: whoever opens `update_fd` finds the other side ready. -/
theorem Updating.not_missing (h : Updating port s) (hpc : s.pc p = .initUpdate)
    (hshut : s.updateFd p.1 = false)
    (hcause : s.updateSock = false ∨ p.1 = .slave ∧ s.updatePort ≠ some port) : False := by
  obtain ⟨r, th⟩ := p
  rcases hcause with hsock | ⟨rfl, hport⟩
  · have hmaster : s.updateFd .master = true := by
      by_contra hne
      rw [h.listening.mpr (by simpa using hne)] at hsock
      cases hsock
    cases r with
    | master =>
        rw [hmaster] at hshut
        cases hshut
    | slave =>
        rw [h.queued.mpr (Or.inr hmaster)] at hshut
        cases hshut
  · exact hport (h.port_of_exchanged (by rw [hpc]; trivial) rfl)

theorem Updating.step (h : Updating port s) (hm : Matching port s) (hst : Move port s p t) :
    Updating port t := by
  cases hst with
  | accept m c hpc hconn hfree =>
      exact h.before ⟨rfl, rfl, rfl, rfl, rfl, rfl⟩ rfl (by simp [hpc, InitPc.Locks])
        (by simp [InitPc.Locks, InitPc.Updated]) (by simp)
  | connect c hpc =>
      exact h.before ⟨rfl, rfl, rfl, rfl, rfl, rfl⟩ rfl (by simp [hpc, InitPc.Locks])
        (by simp [InitPc.Locks, InitPc.Updated]) (fun _ => False.elim)
  | writePort m c rest rest' output hpc hfd hout hclosed hlen =>
      exact h.before ⟨rfl, rfl, rfl, rfl, rfl, rfl⟩ rfl (by simp [hpc, InitPc.Locks])
        (by simp [InitPc.Locks, InitPc.Updated]) (by simp)
  | portWritten m c hpc hfd =>
      exact h.before ⟨rfl, rfl, rfl, rfl, rfl, rfl⟩ rfl (by simp [hpc, InitPc.Locks])
        (by simp [InitPc.Locks, InitPc.Updated]) (by simp)
  | readPort c d buf buf' input hpc hfd hin hclosed hlen hle =>
      exact h.before ⟨rfl, rfl, rfl, rfl, rfl, rfl⟩ rfl (by simp [hpc, InitPc.Locks])
        (by simp [InitPc.Locks, InitPc.Updated]) (fun _ => False.elim)
  | portRead c d buf hpc hfd hlen =>
      exact h.before ⟨rfl, rfl, rfl, rfl, rfl, rfl⟩ rfl (by simp [hpc, InitPc.Locks])
        (by simp [InitPc.Locks, InitPc.Updated]) (fun _ => False.elim)
  | portMissing c d hclosed =>
      rw [hm.opened] at hclosed
      cases hclosed
  | resolve c updatePort hpc =>
      obtain rfl := hm.resolved hpc
      exact h.advance rfl rfl
        (h.locked_of_iff (p := (.slave, c)) (by simp [hpc, InitPc.Locks])) (fun _ _ => rfl)
        (fun _ hr => hr) False.elim h.listening h.queued (fun _ => rfl) fun _ _ => rfl
  | writeDownload p c hpc hfd =>
      exact h.before ⟨rfl, rfl, rfl, rfl, rfl, rfl⟩ rfl (by simp [hpc, InitPc.Locks])
        (by simp [InitPc.Locks, InitPc.Updated]) (fun _ _ => by rw [hpc]; trivial)
  | readDownload p c byte input hpc hfd hin hclosed =>
      exact h.before ⟨rfl, rfl, rfl, rfl, rfl, rfl⟩ rfl (by simp [hpc, InitPc.Locks])
        (by simp [InitPc.Locks, InitPc.Updated]) (fun _ _ => by rw [hpc]; trivial)
  | downloadMissing p c hclosed =>
      rw [hm.opened] at hclosed
      cases hclosed
  | lockUpdate p hpc hfree =>
      have hport := h.port_of_exchanged (p := p) (by rw [hpc]; trivial)
      refine h.advance rfl rfl (fun th => ?_) (fun r hr => Function.update_of_ne hr _ _)
        (fun _ hr => hr) False.elim h.listening h.queued (fun hp => hp) fun hp _ => hport hp
      have hlocked := h.locked p.1 th
      rw [hfree] at hlocked
      by_cases hth : th = p.2
      · simp [hth, InitPc.Locks]
      · simpa [hth, Ne.symm hth] using hlocked
  | updateOpen p hpc hopen =>
      exact h.quiet ⟨rfl, rfl, rfl, rfl, rfl, rfl⟩ rfl (by simp [hpc, InitPc.Locks])
        (fun _ => hopen) (fun _ _ => by rw [hpc]; trivial)
  | acceptUpdate m hpc hqueued =>
      have hslave : s.updateFd .slave = true := h.queued.mpr (Or.inl hqueued)
      exact h.advance rfl rfl (h.locked_of_iff (p := (.master, m)) (by simp [hpc, InitPc.Locks]))
        (fun _ _ => rfl) (fun r hr => by cases r <;> simp [hr]) (fun _ => by simp) (by simp)
        (by simp [hslave]) (fun hport => hport) (by simp)
  | connectUpdate c hpc =>
      have hport := h.port_of_exchanged (p := (.slave, c)) (by rw [hpc]; trivial) rfl
      have hlistening := h.listening
      exact h.advance rfl rfl (h.locked_of_iff (p := (.slave, c)) (by simp [hpc, InitPc.Locks]))
        (fun _ _ => rfl) (fun r hr => by cases r <;> simp [hr]) (fun _ => by simp)
        (by simpa [goto] using hlistening) (by simp) (fun hport => hport) fun _ _ => hport
  | updateMissing p failure hpc hshut hcause => exact (h.not_missing hpc hshut hcause).elim
  | unlockUpdate p hpc =>
      have hheld : s.initUpdateMutex p.1 = some p.2 :=
        (h.locked p.1 p.2).mpr (by rw [show s.pc (p.1, p.2) = .unlockUpdate from hpc]; trivial)
      have hopen : s.updateFd p.1 = true :=
        h.updated p.1 p.2 (by rw [show s.pc (p.1, p.2) = .unlockUpdate from hpc]; trivial)
      have hport := h.port_of_exchanged (p := p) (by rw [hpc]; trivial)
      refine h.advance rfl rfl (fun th => ?_) (fun r hr => Function.update_of_ne hr _ _)
        (fun _ hr => hr) (fun _ => hopen) h.listening h.queued (fun hp => hp) fun hp _ => hport hp
      have hlocked := h.locked p.1 th
      rw [hheld] at hlocked
      by_cases hth : th = p.2
      · subst hth
        rw [if_pos rfl]
        refine iff_of_false (by simp) ?_
        split <;> exact id
      · rw [if_neg hth, ← hlocked]
        simp [Ne.symm hth]
  | join p hpc hother =>
      exact h.quiet ⟨rfl, rfl, rfl, rfl, rfl, rfl⟩ rfl (by simp [hpc, InitPc.Locks])
        (fun _ => h.updated p.1 p.2 (by rw [show s.pc (p.1, p.2) = .join from hpc]; trivial))
        (fun _ _ => by rw [hpc]; trivial)
  | swap p hpc =>
      have hopen : s.updateFd p.1 = true :=
        h.updated p.1 p.2 (by rw [show s.pc (p.1, p.2) = .swap from hpc]; trivial)
      refine h.quiet ?_ (pc_swap s p) (by simp [hpc, InitPc.Locks]) (fun _ => hopen)
        (fun _ _ => by rw [hpc]; trivial)
      unfold swap
      split <;> exact ⟨rfl, rfl, rfl, rfl, rfl, rfl⟩

/-! ## Every step uses up work -/

/-- The most steps that are still to come. -/
def work (s : Handshake) : Nat :=
  (s.pc (.master, .main)).work + (s.pc (.master, .syncInitializer)).work +
    (s.pc (.slave, .main)).work + (s.pc (.slave, .syncInitializer)).work

theorem work_update {pc' : InitPc} (hpcs : t.pc = Function.update s.pc p pc')
    (hlt : pc'.work < (s.pc p).work) : work t < work s := by
  obtain ⟨r, th⟩ := p
  cases r <;> cases th <;> simp only [work, hpcs] <;>
    simp (disch := decide) only [Function.update_self, Function.update_of_ne] <;> omega

theorem work_move (hu : Updating port s) (hm : Matching port s) (hst : Move port s p t) :
    work t < work s := by
  cases hst with
  | accept m c hpc hconn hfree => exact work_update rfl (by simp [hpc, InitPc.work, sizeofPort])
  | connect c hpc => exact work_update rfl (by simp [hpc, InitPc.work, sizeofPort])
  | writePort m c rest rest' output hpc hfd hout hclosed hlen =>
      exact work_update rfl (by simpa [hpc, InitPc.work] using hlen)
  | portWritten m c hpc hfd => exact work_update rfl (by simp [hpc, InitPc.work])
  | readPort c d buf buf' input hpc hfd hin hclosed hlen hle =>
      refine work_update rfl ?_
      simp only [hpc, InitPc.work]
      omega
  | portRead c d buf hpc hfd hlen => exact work_update rfl (by simp [hpc, InitPc.work]; omega)
  | portMissing c d hclosed =>
      rw [hm.opened] at hclosed
      cases hclosed
  | resolve c updatePort hpc => exact work_update rfl (by simp [hpc, InitPc.work])
  | writeDownload p c hpc hfd => exact work_update rfl (by simp [hpc, InitPc.work])
  | readDownload p c byte input hpc hfd hin hclosed =>
      exact work_update rfl (by simp [hpc, InitPc.work])
  | downloadMissing p c hclosed =>
      rw [hm.opened] at hclosed
      cases hclosed
  | lockUpdate p hpc hfree => exact work_update rfl (by simp [hpc, InitPc.work])
  | updateOpen p hpc hopen => exact work_update rfl (by simp [hpc, InitPc.work])
  | acceptUpdate m hpc hqueued => exact work_update rfl (by simp [hpc, InitPc.work])
  | connectUpdate c hpc => exact work_update rfl (by simp [hpc, InitPc.work])
  | updateMissing p failure hpc hshut hcause => exact (hu.not_missing hpc hshut hcause).elim
  | unlockUpdate p hpc => exact work_update rfl (by rw [hpc]; split <;> decide)
  | join p hpc hother => exact work_update rfl (by simp [hpc, InitPc.work])
  | swap p hpc => exact work_update (pc_swap s p) (by simp [hpc, InitPc.work])

/-! ## Nobody waits for ever -/

/-- No thread has a step. -/
def Stuck (port : UInt16) (s : Handshake) : Prop := ∀ p k, (system port).step s (p, k) = none

section Stuck

variable (hstuck : Stuck port s) (hu : Updating port s) (hm : Matching port s)
include hstuck hu hm

theorem Stuck.connected : s.connected c = true := by
  have hpc : s.pc (.slave, c) ≠ initialPc .slave := by
    intro hpc
    have hnone := hstuck (.slave, c) 0
    simp only [initialPc] at hpc
    simp [system, step, hu.running, hpc] at hnone
  obtain ⟨d, hd⟩ := hm.exists_owner hpc
  have hends : s.connected d = true ∧ d = c := by simpa [owner] using hd
  exact hends.2 ▸ hends.1

/-- A thread that waits for a connection gets one. -/
theorem Stuck.accepted : s.pc (.master, m) ≠ .accept := by
  intro hpc
  have hnone : s.heldFd (.master, m) = none := (hm.begun .master m).mpr hpc
  -- the other thread has accepted at most one of the two
  obtain ⟨c, hc⟩ : ∃ c, s.acceptor c = none := by
    by_contra hall
    have hother : ∀ c, s.acceptor c = some m.other := by
      intro c
      obtain ⟨m', hm'⟩ := Option.ne_none_iff_exists'.mp fun heq => hall ⟨c, heq⟩
      have hne : m' ≠ m := by
        rintro rfl
        rw [(hm.held .master m' c).mpr hm'] at hnone
        cases hnone
      rw [hm', Thread.eq_other hne]
    have hsame : Thread.main = Thread.syncInitializer :=
      hm.conn_inj (r := .master) (hother .main) (hother .syncInitializer)
    cases hsame
  have hconn : s.connected c = true := hstuck.connected hu hm
  have hstep := hstuck (.master, m) (if c = .main then 0 else 1)
  simp only [system, step, hu.running, hpc] at hstep
  cases c <;> simp [accept, hconn, hc] at hstep

/-- A thread is not about to write. -/
theorem Stuck.not_writeDownload : s.pc p ≠ .writeDownload := by
  intro hpc
  obtain ⟨c, _, hfd⟩ := hm.exists_fd (p := p) (by rw [hpc]; cases p.1 <;> simp [initialPc])
    (by simp [hpc])
  have hstep := hstuck p 0
  simp [system, step, hu.running, hpc, hfd] at hstep

/-- Nor does it wait for the byte of a peer that has written everything. -/
theorem Stuck.not_readDownload (hpeer : ∀ peer, unsent peer (s.pc (p.1.other, peer)) = []) :
    s.pc p ≠ .readDownload := by
  intro hpc
  obtain ⟨c, hc, hfd⟩ := hm.exists_fd (p := p) (by rw [hpc]; cases p.1 <;> simp [initialPc])
    (by simp [hpc])
  obtain ⟨peer, howner⟩ := hm.exists_peer hc (Or.inl (by simp [hpc]))
  have hmessage := hm.carries p.1 c p.2 peer hc howner
  rw [show s.pc (p.1, p.2) = .readDownload from hpc, hpeer, List.append_nil] at hmessage
  have hpending : (s.stream (p.1.other, c)).pending = [peer.downloadByte] :=
    List.append_cancel_left hmessage
  have hread := readByte_isSome (Or.inr (show (s.stream (p.1.other, c)).pending ≠ [] by
    simp [hpending]))
  have hstep := hstuck p 0
  simp only [system, step, hu.running, hpc, hfd, readDownload, Option.isSome_none,
    Bool.false_eq_true, if_false, Option.bind_some, Option.map_eq_none_iff] at hstep
  rw [hstep] at hread
  cases hread

theorem Stuck.not_writePort {rest : Bytes} : s.pc (.master, m) ≠ .writePort rest := by
  intro hpc
  obtain ⟨c, _, hfd⟩ := hm.exists_fd (p := (.master, m)) (by simp [hpc, initialPc]) (by simp [hpc])
  have hwrite : (writeExactly (s.stream (.master, c)) rest 1).isSome := writeExactly_isSome
  have hstep := hstuck (.master, m) 1
  simp only [system, step, hu.running, hpc, hfd, writePort, Option.isSome_none,
    Bool.false_eq_true, if_false, Option.bind_some, Option.map_eq_none_iff] at hstep
  rw [hstep] at hwrite
  cases hwrite

/-- **The master has written everything.** -/
theorem Stuck.master_sent (m : Thread) : unsent m (s.pc (.master, m)) = [] := by
  have hplace := hm.places (.master, m)
  cases hpc : s.pc (.master, m) with
  | accept => exact absurd hpc (hstuck.accepted hu hm)
  | writePort rest => exact absurd hpc (hstuck.not_writePort hu hm)
  | writeDownload => exact absurd hpc (hstuck.not_writeDownload hu hm)
  | connect | resolve _ =>
      rw [hpc] at hplace
      cases hplace
  | readPort _ =>
      rw [hpc] at hplace
      cases hplace.1
  | _ => rfl

/-- The slave does not wait for the port. -/
theorem Stuck.not_readPort {buf : Bytes} : s.pc (.slave, c) ≠ .readPort buf := by
  intro hpc
  have hle : buf.length ≤ sizeofPort := by
    have hplace := hm.places (.slave, c)
    rw [hpc] at hplace
    exact hplace.2
  obtain ⟨d, hd, hfd⟩ := hm.exists_fd (p := (.slave, c)) (by simp [hpc, initialPc]) (by simp [hpc])
  obtain ⟨m, hacc⟩ := hm.exists_acceptor (fun m => hstuck.accepted hu hm) d
  have hmessage := hm.carries .slave d c m hd hacc
  simp only [Role.other] at hmessage
  rw [hpc, hstuck.master_sent hu hm m, List.append_nil] at hmessage
  have hpending : (s.stream (.master, d)).pending ≠ [] := by
    intro hnone
    have hlen := congrArg List.length hmessage
    simp [consumed, greeting, hnone] at hlen
    omega
  have hread := readExactly_isSome hle (Or.inr fun _ => hpending)
  have hstep := hstuck (.slave, c) 1
  simp only [system, step, hu.running, hpc, hfd, readPort, Option.isSome_none,
    Bool.false_eq_true, if_false, Option.bind_some, Option.map_eq_none_iff, Role.other] at hstep
  rw [hstep] at hread
  cases hread

/-- **The slave has exchanged everything.** -/
theorem Stuck.slave_exchanged (c : Thread) : (s.pc (.slave, c)).Exchanged := by
  have hplace := hm.places (.slave, c)
  cases hpc : s.pc (.slave, c) with
  | connect =>
      have hstep := hstuck (.slave, c) 0
      simp [system, step, hu.running, hpc] at hstep
  | readPort buf => exact absurd hpc (hstuck.not_readPort hu hm)
  | resolve updatePort =>
      have hstep := hstuck (.slave, c) 0
      simp [system, step, hu.running, hpc] at hstep
  | writeDownload => exact absurd hpc (hstuck.not_writeDownload hu hm)
  | readDownload =>
      exact absurd hpc (hstuck.not_readDownload hu hm (hstuck.master_sent hu hm))
  | accept | writePort _ =>
      rw [hpc] at hplace
      cases hplace
  | _ => trivial

theorem Stuck.master_exchanged (m : Thread) : (s.pc (.master, m)).Exchanged := by
  have hsent := hstuck.master_sent hu hm m
  cases hpc : s.pc (.master, m) with
  | accept => exact absurd hpc (hstuck.accepted hu hm)
  | readDownload =>
      exact absurd hpc (hstuck.not_readDownload hu hm fun peer =>
        unsent_of_exchanged (hstuck.slave_exchanged hu hm peer))
  | writePort _ | writeDownload | connect | readPort _ | resolve _ =>
      rw [hpc] at hsent
      simp [unsent] at hsent
  | _ => trivial

/-- A side whose connections are set up has finished, unless a thread of it
waits for the update connection. -/
theorem Stuck.finished (hex : ∀ th, (s.pc (r, th)).Exchanged)
    (hinit : ∀ th, s.pc (r, th) ≠ .initUpdate) (th : Thread) : s.pc (r, th) = .finished := by
  have hunlock : ∀ th, s.pc (r, th) ≠ .unlockUpdate := by
    intro th hpc
    have hstep := hstuck (r, th) 0
    cases r <;> simp [system, step, hu.running, hpc] at hstep
  have hfree : s.initUpdateMutex r = none := by
    cases hheld : s.initUpdateMutex r with
    | none => rfl
    | some th =>
        have hlocks := (hu.locked r th).mp hheld
        cases hpc : s.pc (r, th) <;> rw [hpc] at hlocks <;>
          first | exact absurd hpc (hinit th) | exact absurd hpc (hunlock th) | exact hlocks.elim
  have hlock : ∀ th, s.pc (r, th) ≠ .lockUpdate := by
    intro th hpc
    have hstep := hstuck (r, th) 0
    cases r <;> simp [system, step, hu.running, hpc, hfree] at hstep
  have hlate : ∀ th, s.pc (r, th) = .join ∨ s.pc (r, th) = .swap ∨ s.pc (r, th) = .finished := by
    intro th
    have hexchanged := hex th
    cases hpc : s.pc (r, th) <;> rw [hpc] at hexchanged <;>
      first
      | exact absurd hpc (hlock th)
      | exact absurd hpc (hinit th)
      | exact absurd hpc (hunlock th)
      | exact hexchanged.elim
      | simp
  have hswap : ∀ th, s.pc (r, th) ≠ .swap := by
    intro th hpc
    have hstep := hstuck (r, th) 0
    cases r <;> simp [system, step, hu.running, hpc] at hstep
  have hother : s.pc (r, .syncInitializer) = .finished := by
    have hplace := hm.places (r, .syncInitializer)
    rcases hlate .syncInitializer with hpc | hpc | hpc
    · rw [hpc] at hplace
      cases hplace
    · exact absurd hpc (hswap _)
    · exact hpc
  cases th with
  | syncInitializer => exact hother
  | main =>
      rcases hlate .main with hpc | hpc | hpc
      · have hstep := hstuck (r, .main) 0
        cases r <;> simp [system, step, hu.running, hpc, hother] at hstep
      · exact absurd hpc (hswap _)
      · exact hpc

/-- **A state without a step is the end**: both sides are initialised. -/
theorem Stuck.initialised : s.Initialised .slave ∧ s.Initialised .master := by
  have hslave : ∀ c, s.pc (.slave, c) = .finished := by
    refine hstuck.finished hu hm (hstuck.slave_exchanged hu hm) fun c hpc => ?_
    have hstep := hstuck (.slave, c) 0
    have hport := hu.port_of_exchanged (p := (.slave, c)) (by rw [hpc]; trivial) rfl
    by_cases hopen : s.updateFd .slave = true
    · simp [system, step, hu.running, hpc, hopen] at hstep
    · by_cases hsock : s.updateSock = true <;>
        simp [system, step, hu.running, hpc, hopen, initUpdateConnection, hport, hsock] at hstep
  have hmaster : ∀ m, s.pc (.master, m) = .finished := by
    refine hstuck.finished hu hm (hstuck.master_exchanged hu hm) fun m hpc => ?_
    have hstep := hstuck (.master, m) 0
    by_cases hopen : s.updateFd .master = true
    · simp [system, step, hu.running, hpc, hopen] at hstep
    · have hslaveFd : s.updateFd .slave = true :=
        hu.updated .slave .main (by rw [hslave]; trivial)
      have hqueued : s.updateQueued = true := (hu.queued.mp hslaveFd).resolve_right hopen
      have hsock : s.updateSock = true := hu.listening.mpr (by simpa using hopen)
      simp [system, step, hu.running, hpc, hopen, initUpdateConnection, hqueued, hsock] at hstep
  exact ⟨hslave .main, hmaster .main⟩

end Stuck

/-! ## Every run of the four threads -/

/-- **One step** keeps the invariants and uses up work. -/
theorem updating_step {a : Party × Nat} (h : Matching port s ∧ Updating port s)
    (hst : (system port).step s a = some t) :
    (Matching port t ∧ Updating port t) ∧ work t < work s := by
  obtain ⟨p, k⟩ := a
  have hmove := move_of_step hst
  exact ⟨⟨h.1.step hmove, h.2.step h.1 hmove⟩, work_move h.2 h.1 hmove⟩

theorem updating_of_reachable (h : (system port).Reachable start s) :
    Matching port s ∧ Updating port s :=
  h.invariant (fun _ _ _ hI hst => (updating_step hI hst).1) ⟨matching_start, updating_start⟩

/-- **Every run can be completed**: from every state the four threads can
reach, both sides get initialised, and no process has ended. -/
theorem initialised_reachable (h : (system port).Reachable start s) :
    (∀ r, s.failure r = none) ∧
      ∃ t, (system port).Reachable s t ∧ t.Initialised .master ∧ t.Initialised .slave := by
  have hinv := updating_of_reachable h
  obtain ⟨t, hst, ⟨hm, hu⟩, hstuck⟩ :=
    StepSystem.exists_stuck (fun _ _ _ hI hst => updating_step hI hst) hinv
  have hdone := Stuck.initialised (fun p k => hstuck (p, k)) hu hm
  exact ⟨hinv.2.running, t, hst, hdone.2, hdone.1⟩

/-- **No run goes on for ever.** -/
theorem length_le_work {as : List (Party × Nat)} (h : (system port).exec start as = some s) :
    as.length ≤ work start :=
  StepSystem.exec_length_le work (fun _ _ _ hI hst => updating_step hI hst)
    ⟨matching_start, updating_start⟩ h

/-- Where both sides are initialised the update connection is set up, and
nobody listens for another one. -/
theorem Updating.connected (h : Updating port s) (hdone : ∀ r, s.Initialised r) :
    (∀ r, s.updateFd r = true) ∧ s.updateSock = false ∧ s.updatePort = some port := by
  have hopen : ∀ r, s.updateFd r = true := fun r =>
    h.updated r .main (by rw [show s.pc (r, .main) = .finished from hdone r]; trivial)
  refine ⟨hopen, ?_, h.resolved .main (by
    rw [show s.pc (.slave, .main) = .finished from hdone .slave]
    trivial)⟩
  by_contra hne
  have hmaster := h.listening.mp (by simpa using hne)
  rw [hopen .master] at hmaster
  cases hmaster

/-- **The handshake always succeeds.** For every port, and however the four
threads interleave and their reads and writes are cut: no run is longer
than a fixed number of steps, no process ends, and where no thread can move
both sides are initialised and share one update connection, for which the
master listens no more. -/
theorem always_initialises (port : UInt16) :
    (∀ as s, (system port).exec start as = some s → as.length ≤ work start) ∧
      ∀ s, (system port).Reachable start s → (∀ r, s.failure r = none) ∧
        ((∀ a, (system port).step s a = none) → (∀ r, s.Initialised r) ∧
          (∀ r, s.updateFd r = true) ∧ s.updateSock = false ∧ s.updatePort = some port) := by
  refine ⟨fun as s h => length_le_work h, fun s h => ?_⟩
  obtain ⟨hm, hu⟩ := updating_of_reachable h
  refine ⟨hu.running, fun hstuck => ?_⟩
  have hends := Stuck.initialised (fun p k => hstuck (p, k)) hu hm
  have hdone : ∀ r, s.Initialised r
    | .master => hends.2
    | .slave => hends.1
  exact ⟨hdone, hu.connected hdone⟩

end Handshake

end Jpgsync
