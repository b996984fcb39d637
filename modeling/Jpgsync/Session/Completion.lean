import Jpgsync.Session.Deadlock
import Jpgsync.Session.Heard
import Jpgsync.Session.Termination

/-!
# Session — Completion

Nobody gets stuck, no thread runs for ever, and what a finished session
leaves is right; together a session that hits no defect completes. From
every state of it the threads come to rest by steps of their own, and one
that is at rest has returned on both sides, with the images exchanged
(`completes`).
-/

namespace Jpgsync
namespace Session

variable {A B : Site} {s : Session}

/-- **At rest**: no thread can take a step of its own, when calls on files
move all they are asked to. -/
def AtRest (A B : Site) (s : Session) : Prop :=
  ∀ act, each (fun p a => p.Own a ∧ p.Whole a) s act → (system A B).step s act = none

/-- A rest is in reach, by steps of the threads themselves. -/
theorem exists_atRest (hs : (system A B).Reachable (start A B) s) :
    ∃ t, (system A B).Reaches (each fun p a => p.Own a ∧ p.Whole a) s t ∧ AtRest A B t := by
  have hstep : ∀ s act t, (system A B).Reachable (start A B) s →
      each (fun p a => p.Own a ∧ p.Whole a) s act →
      each (fun p a => p.Own a ∧ p.Whole a) s act → (system A B).step s act = some t →
      (system A B).Reachable (start A B) t ∧ t.rank < s.rank := by
    rintro s ⟨side, act⟩ t hs hok - hst
    refine ⟨hs.trans ⟨[(side, act)], by simp [StepSystem.exec, hst]⟩, rank_step hs ?_ hst⟩
    cases side with
    | a => exact hok.1
    | b => exact hok.1
  obtain ⟨t, hst, -, hrest⟩ := StepSystem.exists_blocked hstep hs
  exact ⟨t, hst, fun act hok => hrest act hok hok⟩

/-- A smooth run is one that the account follows. -/
theorem exact_of_smooth (hA : A.Directory) (hB : B.Directory) (hp : Packets A B)
    (hfree : NamesFree A B ∧ NamesFree B A)
    (hs : (system A B).Reaches (each (Peer.Smooth (A.common B))) (start A B) s) :
    (system A B).Reaches (each Peer.Exact) (start A B) s := by
  refine hs.strengthen (I := Hearing A B) (fun _ _ _ h hok hst => h.step hok hst) ?_
    (.start hA hB hp hfree)
  rintro s ⟨side, act⟩ h -
  cases side with
  | a =>
      cases act with
      | download k => exact h.answersExactly.1
      | upload k => exact h.delivering.1.sizeFits
      | _ => trivial
  | b =>
      cases act with
      | download k => exact h.answersExactly.2
      | upload k => exact h.delivering.2.sizeFits
      | _ => trivial

/-- **Sessions complete.** In every state of a run in which files work, the
images both sides hold are heard of before the main loops begin and
`hashing` is cleared fresh: the threads come to rest by steps of their own;
and if they are at rest, both peers have returned, with exit status 0, and
each directory has what it had and what it lacked of the other. -/
theorem completes (hA : A.Directory) (hB : B.Directory) (hp : Packets A B)
    (hfree : NamesFree A B ∧ NamesFree B A)
    (hs : (system A B).Reaches (each (Peer.Smooth (A.common B))) (start A B) s) :
    (∃ t, (system A B).Reaches (each fun p a => p.Own a ∧ p.Whole a) s t ∧ AtRest A B t) ∧
      (AtRest A B s →
        (s.a.returned = true ∧ s.b.returned = true) ∧
          (s.a.host.logger.exitStatus = 0 ∧ s.b.host.logger.exitStatus = 0) ∧
          s.b.host.disk.files = B.disk.files ++ imagesFor A B ∧
          s.a.host.disk.files = A.disk.files ++ imagesFor B A) := by
  refine ⟨exists_atRest hs.reachable, fun hrest => ?_⟩
  have h := Hearing.of_smooth hA hB hp hfree hs
  have hlogA := h.delivering.2.collected.logger
  have hlogB := h.delivering.1.collected.logger
  have hended : s.a.Ended ∧ s.b.Ended := by
    by_contra hrun
    obtain ⟨side, act, hown, hwhole, hsome⟩ :=
      exists_act_of_canMove (canMove_of_exact (exact_of_smooth hA hB hp hfree hs) hrun)
    have hnone : (system A B).step s (side, act) = none := hrest (side, act) (by
      cases side with
      | a => exact ⟨hown, hwhole⟩
      | b => exact ⟨hown, hwhole⟩)
    rw [hnone] at hsome
    cases hsome
  -- nobody has called `Fatal`, so both have returned
  have hret : s.a.returned = true ∧ s.b.returned = true :=
    ⟨hended.1.resolve_left (by simp [Peer.terminated, hlogA, Logger.start]),
      hended.2.resolve_left (by simp [Peer.terminated, hlogB, Logger.start])⟩
  exact ⟨hret, ⟨by rw [hlogA]; rfl, by rw [hlogB]; rfl⟩, h.delivered hs.reachable hret⟩

/-- The image is sent, and nobody can move any more. -/
theorem completes_transferRun :
    ∃ s, (system emptySite imageSite).exec (start emptySite imageSite) (transferRun 3) = some s ∧
      ∃ t, (system emptySite imageSite).Reaches (each fun p a => p.Own a ∧ p.Whole a) s t ∧
        AtRest emptySite imageSite t := by
  have hrun : ((system emptySite imageSite).exec (start emptySite imageSite)
      (transferRun 3)).isSome := by
    decide +kernel
  obtain ⟨s, hs⟩ := Option.isSome_iff_exists.mp hrun
  exact ⟨s, hs, (completes emptySite_directory imageSite_directory ⟨rfl, rfl⟩
    emptySite_free ⟨transferRun 3, hs, by decide +kernel⟩).1⟩

end Session
end Jpgsync
