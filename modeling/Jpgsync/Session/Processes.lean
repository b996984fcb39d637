import Jpgsync.Lib.Crash
import Jpgsync.Session.Deadlock

/-!
# Session — Processes

Two peers whose socket calls may fail. A process whose connection is gone
ends as it writes to it, or reads what was not delivered; its own ends are
closed then, and the other one finds its connections closed. Whoever is
killed, and whenever, nobody waits for it: as long as one of the peers is
neither gone nor done, some thread can take a step of its own
(`never_stuck`).
-/

namespace Jpgsync
namespace Session

open DownloadPc

variable {A B SY : Site} {Y : Peer} {L M : Link} {t : Mortal Session Side}

/-- What a peer that is killed leaves behind: its ends of both links are
closed. -/
def leave : Side → Session → Session
  | .a, s =>
    let r := Peer.hangUp (s.a, s.ab, s.ba)
    { s with ab := r.2.1, ba := r.2.2 }
  | .b, s =>
    let r := Peer.hangUp (s.b, s.ba, s.ab)
    { s with ba := r.2.1, ab := r.2.2 }

/-- The two peers as processes. -/
def processes (A B : Site) : ProcessSystem Session (Side × Peer.Act) Side where
  toStepSystem := system A B
  owner act := some act.1
  leave := leave

/-- A peer is gone: it was killed, or has ended by itself. -/
def Gone (s : Mortal Session Side) (side : Side) : Prop :=
  s.killed side = true ∨ (s.state.peer side).Ended

/-- What holds in every state of the processes, whatever is answered. -/
structure StandingProcesses (A B : Site) (s : Mortal Session Side) : Prop where
  sound : s.state.a.Sound A.cfg A.scans ∧ s.state.b.Sound B.cfg B.scans
  locks : s.state.a.pipe.hasher.Locks ∧ s.state.b.pipe.hasher.Locks
  hungUp : HungUp (s.killed .a) s.state.b s.state.ab s.state.ba ∧
    HungUp (s.killed .b) s.state.a s.state.ba s.state.ab

theorem standingProcesses_of_reaches {ok : Session → Side × Peer.Act → Prop}
    (hs : (processes A B).mortal.Reaches (Mortal.promised ok) (.alive (start A B)) t) :
    StandingProcesses A B t := by
  refine ProcessSystem.mortal_invariant (I := StandingProcesses A B) ?_ ?_
    ⟨⟨Peer.sound_start _ _ _, Peer.sound_start _ _ _⟩,
      ⟨ExifHasher.locks_start _, ExifHasher.locks_start _⟩, .of_not rfl, .of_not rfl⟩ hs
  · rintro ⟨s, killed⟩ ⟨side, act⟩ t ⟨⟨ha, hb⟩, ⟨hla, hlb⟩, hab, hba⟩ - hlive hst
    have halive : killed side = false := hlive side rfl
    cases side with
    | a =>
        obtain ⟨⟨p, up, down⟩, hp, rfl⟩ := Option.map_eq_some_iff.mp hst
        exact ⟨⟨ha.step hp, hb⟩, ⟨ha.locks_step hla hp, hlb⟩,
          .of_not halive, hba.step ha hp⟩
    | b =>
        obtain ⟨⟨p, up, down⟩, hp, rfl⟩ := Option.map_eq_some_iff.mp hst
        exact ⟨⟨ha, hb.step hp⟩, ⟨hla, hb.locks_step hlb hp⟩, hab.step hb hp,
          .of_not halive⟩
  · rintro ⟨s, killed⟩ side ⟨hsound, hlocks, hab, hba⟩
    cases side with
    | a => exact ⟨hsound, hlocks, fun _ => Or.inr ⟨rfl, rfl⟩, hba⟩
    | b => exact ⟨hsound, hlocks, hab, fun _ => Or.inr ⟨rfl, rfl⟩⟩

/-- A peer moves when the other one was killed. -/
theorem canMove_of_killed {dead : Bool} (hsound : Y.Sound SY.cfg SY.scans)
    (hL : Y.pipe.hasher.Locks) (hlive : ¬ Y.Ended) (hdead : dead = true)
    (hungUp : HungUp dead Y L M) : Y.CanMove SY.cfg M L := by
  obtain ⟨ho, hr⟩ := (hungUp hdead).resolve_left fun hY => hlive (Or.inl hY)
  exact hsound.canMove_of_closed hL hlive hr ho

/-- What a peer that was not killed can do, the processes can do. -/
theorem exists_act_of_alive {side : Side} (hlive : t.killed side = false)
    (h : (t.state.peer side).CanMove (site A B side).cfg (t.state.uplink side)
      (t.state.uplink (other side))) :
    ∃ side act, (t.state.peer side).Own act ∧ (t.state.peer side).Whole act ∧
      ((processes A B).mortal.step t (.act (side, act))).isSome := by
  obtain ⟨act, hown, hwhole, hsome⟩ := h
  refine ⟨side, act, hown, hwhole, ProcessSystem.step_isSome rfl hlive ?_⟩
  cases side with
  | a => simpa [processes, system, step, site, peer, uplink, other] using hsome
  | b => simpa [processes, system, step, site, peer, uplink, other] using hsome

/-- **Two peers never get stuck.** In every state that is reached by steps
which answer offers exactly and open files that fit their size, in any
interleaving of all threads, with updates lost or not, calls on files cut as
they may be, and peers killed by socket calls that fail: as long as one of
the peers has neither returned nor called `Fatal` nor been killed, some
thread can take a step of its own, and one that does not fail a file. No
spurious wake-up is needed for it, and no further update. -/
theorem never_stuck
    (hs : (processes A B).mortal.Reaches (Mortal.promised (each Peer.Exact))
      (.alive (start A B)) t)
    (hrun : ¬ ∀ side, Gone t side) :
    ∃ side act, (t.state.peer side).Own act ∧ (t.state.peer side).Whole act ∧
      ((processes A B).mortal.step t (.act (side, act))).isSome := by
  obtain ⟨⟨ha, hb⟩, ⟨hla, hlb⟩, hab, hba⟩ := standingProcesses_of_reaches hs
  obtain ⟨side, hside⟩ := not_forall.mp hrun
  obtain ⟨hlive, hended⟩ := not_or.mp hside
  rw [Bool.not_eq_true] at hlive
  by_cases hother : t.killed (other side) = true
  · refine exists_act_of_alive hlive ?_
    cases side with
    | a => exact canMove_of_killed ha hla hended hother hba
    | b => exact canMove_of_killed hb hlb hended hother hab
  · rw [Bool.not_eq_true] at hother
    -- nobody was killed, so this is a run of the two peers
    have hall : ∀ i, t.killed i = false := by
      intro i
      cases side <;> cases i <;> assumption
    have hmove := canMove_of_exact (ProcessSystem.reaches_of_alive hs hall) fun hboth => by
      cases side with
      | a => exact hended hboth.1
      | b => exact hended hboth.2
    rcases hmove with hmove | hmove
    · exact exists_act_of_alive (hall .a) hmove
    · exact exists_act_of_alive (hall .b) hmove

/-- The offer is answered and one downloader waits for the file, when the
other peer is killed. -/
theorem never_stuck_killed :
    ∃ t, (processes emptySite imageSite).mortal.exec (.alive (start emptySite imageSite))
        (((transferRun 3).take 45).map .act ++ [.kill .b]) = some t ∧
      Short t.state.a.download ∧
      ∃ side act, (t.state.peer side).Own act ∧ (t.state.peer side).Whole act ∧
        ((processes emptySite imageSite).mortal.step t (.act (side, act))).isSome := by
  have hrun : ((processes emptySite imageSite).mortal.exec (.alive (start emptySite imageSite))
      (((transferRun 3).take 45).map .act ++ [.kill .b])).map
        (fun t => (t.state.a.download, t.killed .a, t.state.a.terminated, t.state.a.returned)) =
        some (.file [⟨1, 0, 0, 0, 0⟩], false, false, false) := by
    decide +kernel
  obtain ⟨t, hs, hout⟩ := Option.map_eq_some_iff.mp hrun
  simp only [Prod.mk.injEq] at hout
  obtain ⟨hdown, hkilled, hterm, hret⟩ := hout
  refine ⟨t, hs, by simp [hdown, Short], never_stuck ⟨_, hs, by decide +kernel⟩ fun hgone => ?_⟩
  rcases hgone .a with hdead | hended
  · rw [hkilled] at hdead
    cases hdead
  · simp [Peer.Ended, peer, hterm, hret] at hended

end Session
end Jpgsync
