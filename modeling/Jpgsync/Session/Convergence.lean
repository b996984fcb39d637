import Jpgsync.Session.Delivering

/-!
# Session — Convergence

Two directories are synchronised. In a run that hits neither the stale
total nor an offer that is answered inexactly, both directions deliver, so
`Fatal` is never called and each peer ends with the files it had and
exactly the images it lacked (`converges`).

A run that hits one of them need not (`not_always_converges`).
-/

namespace Jpgsync
namespace Session

/-- **End-to-end convergence** of two directories, in a run that hits no
defect: nothing is ever reported, in particular `Fatal` is not called, and
when both peers have returned each has the files it started with and
exactly the images it lacked, once each, under their senders' names and
with their senders' bytes. -/
theorem converges {A B : Site} {s : Session} (hA : A.Directory) (hB : B.Directory)
    (hp : Packets A B) (hapart : NamesApart A B)
    (hs : (system A B).Reaches (each fun p a => p.FilesWork a ∧ p.Regular a) (start A B) s) :
    (s.a.host.logger = .start ∧ s.b.host.logger = .start) ∧
      (s.a.returned = true → s.b.returned = true →
        s.b.host.disk.files = B.disk.files ++ imagesFor A B ∧
          s.a.host.disk.files = A.disk.files ++ imagesFor B A) := by
  have hapart' : NamesApart B A := fun f hf g hg => (hapart g hg f hf).symm
  have hinv := hs.invariant
    (I := fun s => Delivering A s.a B s.b s.ab ∧ Delivering B s.b A s.a s.ba) ?_
    ⟨.start hA hB hp (hapart.free hA), .start hB hA ⟨hp.2, hp.1⟩ (hapart'.free hB)⟩
  · obtain ⟨hab, hba⟩ := hinv
    refine ⟨⟨hba.collected.logger, hab.collected.logger⟩, fun ha hb => ?_⟩
    obtain ⟨hra, hrb⟩ := returned_of_reachable hs.reachable
    obtain ⟨haup, hadown, _⟩ := hra ha
    obtain ⟨hbup, hbdown, _⟩ := hrb hb
    exact ⟨hab.delivered haup hadown hbdown, hba.delivered hbup hbdown hadown⟩
  · rintro s ⟨side, act⟩ t ⟨hab, hba⟩ hok hst
    cases side with
    | a =>
        obtain ⟨⟨p, up, down⟩, hpst, rfl⟩ := Option.map_eq_some_iff.mp hst
        exact hab.step hba hok hpst
    | b =>
        obtain ⟨⟨p, up, down⟩, hpst, rfl⟩ := Option.map_eq_some_iff.mp hst
        exact (hba.step hab hok hpst).symm

/-! ## The small session -/

theorem emptySite_directory : emptySite.Directory where
  named := fun _ hf => absurd hf List.not_mem_nil
  listed := fun _ hscan => absurd hscan List.not_mem_nil
  once := List.nodup_nil
  sizes := fun _ hf => absurd hf List.not_mem_nil
  opens := ⟨rfl, rfl⟩

theorem imageSite_directory : imageSite.Directory where
  named := fun f hf => by
    rw [List.mem_singleton.mp hf]
    exact ⟨[120], rfl, by decide, by decide, by decide⟩
  listed := fun scan hscan => by
    rw [List.mem_singleton.mp hscan]
    exact List.mem_singleton.mpr rfl
  once := List.nodup_singleton _
  sizes := fun f hf => by
    rw [List.mem_singleton.mp hf]
    exact ⟨by decide, by decide⟩
  opens := ⟨rfl, rfl⟩

theorem emptySite_apart (B : Site) : NamesApart emptySite B :=
  fun _ hf => absurd hf List.not_mem_nil

/-- The image is sent, and the empty side ends with it. -/
theorem converges_transferRun :
    ∃ s, (system emptySite imageSite).exec (start emptySite imageSite) (transferRun 3) = some s ∧
      s.a.host.disk.files = imagesFor imageSite emptySite := by
  have hrun : ((system emptySite imageSite).exec (start emptySite imageSite)
      (transferRun 3)).map (fun s => (s.a.returned, s.b.returned)) = some (true, true) := by
    decide +kernel
  obtain ⟨s, hs, hret⟩ := Option.map_eq_some_iff.mp hrun
  rw [Prod.mk.injEq] at hret
  exact ⟨s, hs, ((converges emptySite_directory imageSite_directory ⟨rfl, rfl⟩
    (emptySite_apart _)
    ⟨transferRun 3, hs, by decide +kernel⟩).2 hret.1 hret.2).2⟩

/-- `b` receives the end of `a`'s update and loads a count of zero; its
image is then hashed, announced, and the flag cleared, before its uploader
locks, tests and leaves. -/
def lostRun : List (Side × Peer.Act) :=
  runs .a 3 ++ downloads .a (List.replicate 9 0) ++ uploads .b (List.replicate 4 0) ++
  runs .b 4 ++ downloads .b (List.replicate 17 0) ++ uploads .b (List.replicate 3 0) ++
  downloads .a [0] ++ uploads .a (List.replicate 7 0) ++ downloads .b [0] ++
  [(.a, .return), (.b, .return)]

/-- **Sessions do not always converge**: the image is lost, although every
file operation works. -/
theorem not_always_converges :
    ¬ ∀ (A B : Site) (s : Session), A.Directory → B.Directory → Packets A B → NamesApart A B →
        (system A B).Reaches (each Peer.FilesWork) (start A B) s →
        (s.a.terminated = false ∧ s.b.terminated = false) ∧
          (s.a.returned = true → s.b.returned = true →
            s.b.host.disk.files = B.disk.files ++ imagesFor A B ∧
              s.a.host.disk.files = A.disk.files ++ imagesFor B A) := by
  intro h
  have hrun : ((system emptySite imageSite).exec (start emptySite imageSite) lostRun).map
      outcome = some ⟨(true, true), (0, 0), [], ([], imageSite.disk.files)⟩ := by
    decide +kernel
  obtain ⟨s, hs, hout⟩ := Option.map_eq_some_iff.mp hrun
  simp only [outcome, Outcome.mk.injEq, Prod.mk.injEq] at hout
  obtain ⟨hret, _, _, hfiles, _⟩ := hout
  have hlost := ((h emptySite imageSite s emptySite_directory imageSite_directory ⟨rfl, rfl⟩
    (emptySite_apart _)
    ⟨lostRun, hs, by decide +kernel⟩).2 hret.1 hret.2).2
  rw [hfiles] at hlost
  exact absurd hlost (by decide)

end Session
end Jpgsync
