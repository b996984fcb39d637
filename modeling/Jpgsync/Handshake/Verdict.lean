import Jpgsync.Handshake.Matching

/-!
# Verdict — when the master swaps

The byte the master's main thread reads last is that of the thread it is
connected to, so `matched` says whether the two labels of that connection
agree, and the swap repairs both connections at once. When both sides are
initialised nothing of the handshake is left on the way.
-/

namespace Jpgsync

namespace Handshake

variable {port : UInt16} {s t : Handshake} {p : Party} {r : Role} {th : Thread}

/-- What the main thread of each side knows of the threads it is connected
to. -/
structure Verdict (s : Handshake) : Prop where
  slave : s.matched .slave ≠ some false
  master : ∀ b, s.matched .master = some b → ∃ c, s.acceptor c = some .main ∧ b = c.download
  known : ∀ r, (s.pc (r, .main)).Exchanged → s.matched r ≠ none
  swapped : ∀ r, s.pc (r, .main) = .finished → (s.swapped r = true ↔ s.matched r = some false)

theorem verdict_start : Verdict start where
  slave := by simp [start]
  master b h := by simp [start] at h
  known r h := by cases r <;> exact h.elim
  swapped r h := by cases r <;> simp [start, initialPc] at h

/-- A step that reads no `download` byte and is not the swap. -/
theorem Verdict.quiet {pc' : InitPc} (h : Verdict s) (hmatched : t.matched = s.matched)
    (hacceptor : ∀ c m, s.acceptor c = some m → t.acceptor c = some m)
    (hswapped : t.swapped = s.swapped) (hpcs : t.pc = Function.update s.pc p pc')
    (hexchanged : p.2 = .main → pc'.Exchanged → (s.pc p).Exchanged)
    (hlast : p.2 = .main → pc' ≠ .finished) :
    Verdict t := by
  refine ⟨?_, fun b hb => ?_, fun r hr => ?_, fun r hr => ?_⟩
  · rw [hmatched]
    exact h.slave
  · rw [hmatched] at hb
    obtain ⟨c, hc, rfl⟩ := h.master b hb
    exact ⟨c, hacceptor c _ hc, rfl⟩
  · rw [hmatched]
    rw [hpcs] at hr
    by_cases hp : (r, Thread.main) = p
    · subst hp
      rw [Function.update_self] at hr
      exact h.known r (hexchanged rfl hr)
    · rw [Function.update_of_ne hp] at hr
      exact h.known r hr
  · rw [hmatched, hswapped]
    rw [hpcs] at hr
    by_cases hp : (r, Thread.main) = p
    · subst hp
      rw [Function.update_self] at hr
      exact absurd hr (hlast rfl)
    · rw [Function.update_of_ne hp] at hr
      exact h.swapped r hr

theorem Thread.decide_downloadByte (t : Thread) : decide (t.downloadByte ≠ 0) = t.download := by
  cases t <;> rfl

/-- The `download` byte of the thread the main thread is connected to. -/
theorem Verdict.readDownload {c : Thread} {byte : UInt8} {input : Fifo UInt8} (h : Verdict s)
    (hm : Matching port s) (hpc : s.pc p = .readDownload) (hfd : s.fd p = some c)
    (hin : (s.stream (p.1.other, c)).pending = byte :: input.pending) :
    Verdict { (s.goto p .lockUpdate).setStream (p.1.other, c) input with
      matched :=
        if p.2 = .main then
          Function.update s.matched p.1
            (some (initSyncConnection p.1 p.2.download (decide (byte ≠ 0))))
        else s.matched } := by
  obtain ⟨peer, hpeer, rfl⟩ := hm.peer_download hpc hfd hin
  have hown := hm.owner_of_fd (by simp [hpc]) hfd
  obtain ⟨r, th⟩ := p
  rw [Thread.decide_downloadByte]
  cases th with
  | syncInitializer =>
      exact h.quiet rfl (fun _ _ hd => hd) rfl rfl (fun hmain => by cases hmain) (by simp)
  | main =>
      have hold : ∀ r', r' ≠ r →
          Function.update s.pc (r, Thread.main) .lockUpdate (r', .main) = s.pc (r', .main) :=
        fun r' hr => Function.update_of_ne (by simpa using hr) _ _
      simp only [if_true]
      refine ⟨?_, fun b hb => ?_, fun r' hr' => ?_, fun r' hr' => ?_⟩
      · cases r with
        | master => exact h.slave
        | slave => simp [initSyncConnection]
      · cases r with
        | master =>
            have hends : s.connected c = true ∧ c = peer := by
              simpa [Handshake.owner, Role.other] using hpeer
            have hvalue : initSyncConnection .master false peer.download = b := by
              simpa [Thread.download] using hb
            refine ⟨c, hown, ?_⟩
            rw [← hvalue, hends.2]
            cases peer <;> rfl
        | slave => exact h.master b hb
      · by_cases hr : r' = r
        · simp [hr]
        · have hex : (s.pc (r', .main)).Exchanged := (hold r' hr) ▸ hr'
          simpa [hr] using h.known r' hex
      · by_cases hr : r' = r
        · subst hr
          simp [setStream, goto] at hr'
        · simpa [setStream, goto, hr] using h.swapped r' ((hold r' hr).symm.trans hr')

/-- The verdict is carried out. -/
theorem Verdict.swap (h : Verdict s) (hm : Matching port s) (hpc : s.pc p = .swap) :
    Verdict (s.swap p) := by
  have hplace : p.2 = .main := by
    have hplace := hm.places p
    rwa [hpc] at hplace
  obtain ⟨r, th⟩ := p
  obtain rfl : th = .main := hplace
  have hnot : s.swapped r = false :=
    hm.not_swapped (show s.pc (r, .main) ≠ .finished by simp [hpc])
  have hold : ∀ r', r' ≠ r → Function.update s.pc (r, Thread.main) .finished (r', .main) =
      s.pc (r', .main) := fun r' hr => Function.update_of_ne (by simpa using hr) _ _
  have hexchanged : ∀ r', (Function.update s.pc (r, Thread.main) .finished (r', .main)).Exchanged →
      (s.pc (r', .main)).Exchanged := by
    intro r' hr'
    by_cases hr : r' = r
    · rw [hr, hpc]
      trivial
    · rwa [hold r' hr] at hr'
  unfold Handshake.swap
  split
  · rename_i hfalse
    refine ⟨h.slave, h.master, fun r' hr' => h.known r' (hexchanged r' hr'), fun r' hr' => ?_⟩
    by_cases hr : r' = r
    · subst hr
      simpa [goto] using hfalse
    · simpa [goto, hr] using h.swapped r' ((hold r' hr).symm.trans hr')
  · rename_i htrue
    refine ⟨h.slave, h.master, fun r' hr' => h.known r' (hexchanged r' hr'), fun r' hr' => ?_⟩
    by_cases hr : r' = r
    · subst hr
      exact iff_of_false (by simp [goto, hnot]) htrue
    · exact h.swapped r' ((hold r' hr).symm.trans hr')

theorem Verdict.step (h : Verdict s) (hm : Matching port s) (hst : Move port s p t) :
    Verdict t := by
  cases hst with
  | accept m c hpc hconn hfree =>
      refine h.quiet rfl (fun d m' hd => ?_) rfl rfl (fun _ => False.elim) (by simp)
      have hne : d ≠ c := by
        rintro rfl
        rw [hfree] at hd
        cases hd
      simpa [hne] using hd
  | connect c hpc => exact h.quiet rfl (fun _ _ hd => hd) rfl rfl (fun _ => False.elim) (by simp)
  | writePort m c rest rest' output hpc hfd hout hclosed hlen =>
      exact h.quiet rfl (fun _ _ hd => hd) rfl rfl (fun _ => False.elim) (by simp)
  | portWritten m c hpc hfd =>
      exact h.quiet rfl (fun _ _ hd => hd) rfl rfl (fun _ => False.elim) (by simp)
  | readPort c d buf buf' input hpc hfd hin hclosed hlen hle =>
      exact h.quiet rfl (fun _ _ hd => hd) rfl rfl (fun _ => False.elim) (by simp)
  | portRead c d buf hpc hfd hlen =>
      exact h.quiet rfl (fun _ _ hd => hd) rfl rfl (fun _ => False.elim) (by simp)
  | portMissing c d hclosed => exact ⟨h.slave, h.master, h.known, h.swapped⟩
  | resolve c updatePort hpc =>
      exact h.quiet rfl (fun _ _ hd => hd) rfl rfl (fun _ => False.elim) (by simp)
  | writeDownload p c hpc hfd =>
      exact h.quiet rfl (fun _ _ hd => hd) rfl rfl (fun _ => False.elim) (by simp)
  | readDownload p c byte input hpc hfd hin hclosed => exact h.readDownload hm hpc hfd hin
  | downloadMissing p c hclosed => exact ⟨h.slave, h.master, h.known, h.swapped⟩
  | lockUpdate p hpc hfree =>
      exact h.quiet rfl (fun _ _ hd => hd) rfl rfl (fun _ _ => by rw [hpc]; trivial) (by simp)
  | updateOpen p hpc hopen =>
      exact h.quiet rfl (fun _ _ hd => hd) rfl rfl (fun _ _ => by rw [hpc]; trivial) (by simp)
  | acceptUpdate m hpc hqueued =>
      exact h.quiet rfl (fun _ _ hd => hd) rfl rfl (fun _ _ => by rw [hpc]; trivial) (by simp)
  | connectUpdate c hpc =>
      exact h.quiet rfl (fun _ _ hd => hd) rfl rfl (fun _ _ => by rw [hpc]; trivial) (by simp)
  | updateMissing p failure hpc hshut hcause => exact ⟨h.slave, h.master, h.known, h.swapped⟩
  | unlockUpdate p hpc =>
      refine h.quiet rfl (fun _ _ hd => hd) rfl rfl (fun _ _ => by rw [hpc]; trivial)
        fun hmain => ?_
      simp [hmain]
  | join p hpc hother =>
      exact h.quiet rfl (fun _ _ hd => hd) rfl rfl (fun _ _ => by rw [hpc]; trivial) (by simp)
  | swap p hpc => exact h.swap hm hpc

/-! ## Both sides are initialised -/

/-- What holds in every state the four threads can reach. -/
theorem invariants_of_reachable (h : (system port).Reachable start s) :
    Matching port s ∧ Verdict s := by
  refine h.invariant (I := fun s => Matching port s ∧ Verdict s) ?_ ⟨matching_start, verdict_start⟩
  rintro s ⟨p, k⟩ t ⟨hm, hv⟩ hst
  exact ⟨hm.step (move_of_step hst), hv.step hm (move_of_step hst)⟩

/-- An initialised side has joined its other thread. -/
theorem Matching.finished (h : Matching port s) (hr : s.Initialised r) (th : Thread) :
    s.pc (r, th) = .finished := by
  cases th with
  | main => exact hr
  | syncInitializer => exact h.joined r (Or.inr hr)

/-- **Nothing is left to read** on a connection whose two ends are done. -/
theorem Matching.drained (h : Matching port s) {c peer : Thread}
    (hread : s.pc (r, th) = .finished) (hwrite : s.pc (r.other, peer) = .finished)
    (hown : s.owner r c = some th) (hpeer : s.owner r.other c = some peer) :
    (s.stream (r.other, c)).pending = [] := by
  have hmessage := h.carries r c th peer hown hpeer
  rw [hread, hwrite] at hmessage
  simpa [consumed, unsent] using hmessage

/-- The two threads of a master have one connection each. -/
theorem Matching.both_accepted (h : Matching port s) (hbegun : ∀ m, s.pc (.master, m) ≠ .accept) :
    ∃ a, s.acceptor a = some .main ∧ s.acceptor a.other = some .syncInitializer := by
  obtain ⟨a, ha⟩ := h.exists_owner (hbegun .main)
  obtain ⟨b, hb⟩ := h.exists_owner (hbegun .syncInitializer)
  have hne : b ≠ a := by
    rintro rfl
    cases ha.symm.trans hb
  exact ⟨a, ha, Thread.eq_other hne ▸ hb⟩

theorem Matching.exists_acceptor (h : Matching port s)
    (hbegun : ∀ m, s.pc (.master, m) ≠ .accept) (c : Thread) : ∃ m, s.acceptor c = some m := by
  obtain ⟨a, ha, hb⟩ := h.both_accepted hbegun
  by_cases hc : c = a
  · exact ⟨.main, hc ▸ ha⟩
  · exact ⟨.syncInitializer, Thread.eq_other hc ▸ hb⟩

/-- The fds of an initialised slave, which never swaps. -/
theorem Verdict.slave_fd (hv : Verdict s) (h : Matching port s) (hs : s.Initialised .slave) :
    s.swapped .slave = false ∧ ∀ th, s.fd (.slave, th) = some th := by
  have hnot : s.swapped .slave = false :=
    Bool.eq_false_iff.mpr fun hswapped => hv.slave ((hv.swapped _ hs).mp hswapped)
  refine ⟨hnot, fun th => ?_⟩
  obtain ⟨c, hc⟩ := h.exists_owner (show s.pc (.slave, th) ≠ initialPc .slave by
    simp [h.finished hs th, initialPc])
  have hth : s.connected c = true ∧ c = th := by simpa [owner] using hc
  have hheld := (h.held .slave th c).mpr hc
  rwa [heldFd, hnot, hth.2] at hheld

/-- An initialised master has swapped when its main thread met the slave's. -/
theorem Verdict.master_swapped {a : Thread} (hv : Verdict s) (h : Matching port s)
    (hm : s.Initialised .master) (ha : s.acceptor a = some .main) :
    s.swapped .master = true ↔ a = .main := by
  have hknown : s.matched .master ≠ none := hv.known .master (by rw [h.finished hm]; trivial)
  obtain ⟨matched, hmatched⟩ := Option.ne_none_iff_exists'.mp hknown
  obtain ⟨c, hc, rfl⟩ := hv.master matched hmatched
  obtain rfl : c = a := h.conn_inj (r := .master) hc ha
  rw [hv.swapped _ hm, hmatched]
  cases c <;> simp [Thread.download]

/-- **Connections match.** -/
theorem connections_match (h : (system port).Reachable start s) (hm : s.Initialised .master)
    (hs : s.Initialised .slave) :
    (∃ c d, c ≠ d ∧ s.uploadFd .master = some c ∧ s.downloadFd .slave = some c ∧
      s.downloadFd .master = some d ∧ s.uploadFd .slave = some d) ∧
    s.swapped .slave = false ∧ (s.swapped .master = true ↔ s.SwapNeeded) ∧
    ∀ p, (s.stream p).pending = [] := by
  obtain ⟨hends, hverdict⟩ := invariants_of_reachable h
  have hbegun : ∀ m, s.pc (.master, m) ≠ .accept := fun m => by simp [hends.finished hm m]
  obtain ⟨a, ha, hb⟩ := hends.both_accepted hbegun
  obtain ⟨hnotSwapped, hslaveFd⟩ := hverdict.slave_fd hends hs
  have hswapped := hverdict.master_swapped hends hm ha
  refine ⟨?_, hnotSwapped, ?_, ?_⟩
  · have hheldA := (hends.held .master .main a).mpr ha
    have hheldB := (hends.held .master .syncInitializer a.other).mpr hb
    refine ⟨.syncInitializer, .main, by simp, ?_⟩
    cases a with
    | main =>
        rw [heldFd, hswapped.mpr rfl] at hheldA hheldB
        exact ⟨hheldB, hslaveFd _, hheldA, hslaveFd _⟩
    | syncInitializer =>
        have hnot : s.swapped .master = false := by simpa using hswapped
        rw [heldFd, hnot] at hheldA hheldB
        exact ⟨hheldA, hslaveFd _, hheldB, hslaveFd _⟩
  · rw [hswapped]
    constructor
    · rintro rfl
      exact ⟨.main, ha⟩
    · rintro ⟨th, hth⟩
      cases th with
      | main => exact hends.conn_inj (r := .master) ha hth
      | syncInitializer =>
          have hother : a.other = .syncInitializer := hends.conn_inj (r := .master) hb hth
          rw [← Thread.other_other a, hother]
          rfl
  · rintro ⟨r, c⟩
    obtain ⟨m, hacc⟩ := hends.exists_acceptor hbegun c
    have hconn := hends.owner_slave hacc
    cases r with
    | master =>
        exact hends.drained (r := .slave) (hends.finished hs c) (hends.finished hm m) hconn hacc
    | slave =>
        exact hends.drained (r := .master) (hends.finished hm m) (hends.finished hs c) hacc hconn

/-- A run in which the main threads meet. -/
def mainsMeet : List (Party × Nat) :=
  let m := (Role.master, Thread.main)
  let m' := (Role.master, Thread.syncInitializer)
  let s := (Role.slave, Thread.main)
  let s' := (Role.slave, Thread.syncInitializer)
  -- the slave connects, the master accepts, and the port goes out byte by byte
  [(s, 0), (s', 0), (m, 0), (m', 1), (m, 1), (m, 1), (m, 0), (m', 2), (m', 0),
    (s, 2), (s', 1), (s', 1), (s, 0), (s, 0), (s', 0), (s', 0),
    -- the `download` bytes
    (m, 0), (s, 0), (s', 0), (m', 0), (m, 0), (m', 0), (s, 0), (s', 0),
    -- the update connection
    (m', 0), (s, 0), (s, 0), (s, 0), (s', 0), (s', 0), (s', 0), (m', 0), (m', 0), (m, 0), (m, 0),
    (m, 0), (s, 0), (m, 0), (m, 0), (s, 0)]

def mainsMet : Handshake := ((system 9).exec start mainsMeet).get (by decide +kernel)

theorem connections_match_mainsMet :
    mainsMet.uploadFd .master = mainsMet.downloadFd .slave ∧
      mainsMet.downloadFd .master = mainsMet.uploadFd .slave ∧ mainsMet.swapped .master = true := by
  have hreach : (system 9).Reachable start mainsMet :=
    ⟨mainsMeet, (Option.some_get _).symm⟩
  obtain ⟨⟨c, d, _, hmu, hsd, hmd, hsu⟩, _, hswapped, _⟩ :=
    connections_match hreach (show mainsMet.pc (.master, .main) = .finished by decide +kernel)
      (show mainsMet.pc (.slave, .main) = .finished by decide +kernel)
  exact ⟨hmu.trans hsd.symm, hmd.trans hsu.symm, hswapped.mpr ⟨.main, by decide +kernel⟩⟩

end Handshake

end Jpgsync
