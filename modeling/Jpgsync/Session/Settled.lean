import Jpgsync.Session.Heard

/-!
# Session — Settled

Two sides that hold the same images have nothing to say. If each uploader
has heard of the images before its main loop begins, it skips them all: no
offer is built, no byte is written on either connection by an uploader, no
file is opened and nothing is reported (`nothing_to_do`).
-/

namespace Jpgsync

open DownloadPc

namespace Session

variable {A B SX SY : Site} {X Y X' Y' : Peer} {L M L' M' : Link} {a : Peer.Act} {s : Session}

/-- **A direction in which nothing is sent**, because all of it has been
heard of. -/
structure Quiet (SX : Site) (X : Peer) (SY : Site) (Y : Peer) (L : Link) : Prop where
  same : ∀ hash, hash ∈ SX.hashes ↔ hash ∈ SY.hashes
  aligned : Aligned SX X SY Y L
  ends : Ends X Y L
  informed : X.Informed SX.hashes
  idle : ¬ X.upload.InRound
  silent : L.offers.sent = []
  host : Y.host = ⟨SY.disk, .start⟩

namespace Quiet

theorem start (hsame : ∀ hash, hash ∈ SX.hashes ↔ hash ∈ SY.hashes) :
    Quiet SX (.start SX.scans SX.disk) SY (.start SY.scans SY.disk) .start where
  same := hsame
  aligned := .start SX SY
  ends := .start SX SY
  informed := Peer.informed_start _ _
  idle := id
  silent := rfl
  host := rfl

/-- An uploader that has heard of its whole side offers nothing. -/
theorem offered_nil (hsound : X.Sound SX.cfg SX.scans) (hinf : X.Informed SX.hashes) :
    X.pipe.offered = [] := by
  have hflat : X.pipe.offered.flatten = [] := List.eq_nil_iff_forall_not_mem.mpr fun e he =>
    hinf.offered hsound he
      (List.mem_map_of_mem (hsound.entries_index (hsound.offered_sublist.subset he)))
  cases hupd : X.receiving.updated with
  | true =>
      -- an offer is never empty
      refine List.eq_nil_iff_forall_not_mem.mpr fun missing hmissing => ?_
      have hpos := ((hsound.offers hupd).sizes missing hmissing).1
      rw [List.flatten_eq_nil_iff.mp hflat missing hmissing] at hpos
      exact absurd hpos (Nat.lt_irrefl 0)
  | false =>
      have hbefore : X.upload.BeforeUpdate := by
        by_contra hne
        rw [hsound.updated.mpr hne] at hupd
        cases hupd
      exact (hsound.waiting hbefore).2.2.1

/-- The downloader of a quiet direction is between items, and awaits
nothing. -/
theorem downloader (h : Quiet SX X SY Y L) :
    consumed Y.download = [] ∧ X.uploads = [] ∧ Y.accepted = [] := by
  obtain ⟨received, inflight, todo, opening, answered, hA⟩ := h.aligned.account
  have hoffered := hA.offered
  rw [offered_nil h.aligned.sound.1 h.informed, List.flatten_nil] at hoffered
  obtain ⟨rfl, -⟩ := List.append_eq_nil_iff.mp hoffered.symm
  obtain ⟨huploads, -⟩ := List.append_eq_nil_iff.mp hA.sent
  have hnone := hA.uploads
  rw [List.map_eq_nil_iff.mp huploads] at hnone
  obtain ⟨rfl, rfl⟩ := List.append_eq_nil_iff.mp hnone.symm
  refine ⟨?_, List.map_eq_nil_iff.mp huploads, hA.accepted⟩
  have hstarted : UploadPc.started X.upload = [] ∧ UploadPc.asking X.upload = [] := by
    cases hpc : X.upload <;> first
      | exact ⟨rfl, rfl⟩
      | exact absurd (show X.upload.InRound by rw [hpc]; trivial) h.idle
  cases hA.flow with
  | waiting _ hy =>
      cases hpc : Y.download <;> first | rfl | (rw [hpc] at hy; exact absurd trivial hy)
  | notified _ _ _ hc => exact hc
  | flowing _ _ _ _ _ _ _ _ hbytes =>
      rw [hstarted.1, List.append_nil, filesBytes_nil, List.append_eq_nil_iff,
        List.append_eq_nil_iff] at hbytes
      exact hbytes.1.1
  | answered _ hask => exact absurd hstarted.2 hask

/-- **A step of one peer keeps both directions quiet.** -/
theorem step (hXY : Quiet SX X SY Y L) (hYX : Quiet SY Y SX X M)
    (hok : X.HearsFirst SX.hashes a) (hst : X.step SX.cfg L M a = some (X', L', M')) :
    Quiet SX X' SY Y L' ∧ Quiet SY Y SX X' M' := by
  have hsound := hXY.aligned.sound.1
  -- none of the ways to call `Fatal` is open
  have hlive : X'.terminated = false := by
    by_contra hdead
    rw [Bool.not_eq_false] at hdead
    rcases (hsound.broken_of_step hst hdead).2 with ⟨hpc, hc⟩ | hbroken | hbroken
    · rw [hXY.ends.order (hXY.ends.closed.mp hc)] at hpc
      cases hpc
    · rcases hbroken with ⟨buf, missing, hpc, _⟩ | ⟨l, hpc, _⟩ <;>
        exact hXY.idle (by rw [show X.upload = _ from hpc]; trivial)
    · exact hYX.aligned.not_broken hbroken
  have hfits : ∀ k, a = .upload k → X.upload.SizeFits X.host.disk := fun k _ => by
    cases hpc : X.upload with
    | openFile l => exact absurd (by rw [hpc]; trivial) hXY.idle
    | _ => trivial
  have hanswers := hYX.aligned.answersExactly hYX.informed
    fun hash hY _ => hY
  obtain ⟨hup, hdown⟩ := hsound.ends_of_step hst hlive
  have hinf := hXY.informed.step hsound hok hst
  have hnone : X'.pipe.offered = [] := offered_nil (hsound.step hst) hinf
  obtain ⟨hidle, hsilent⟩ : ¬ X'.upload.InRound ∧ L'.offers.sent = [] := by
    cases hup with
    | other hupload _ _ hoffers => rw [hupload, hoffers]; exact ⟨hXY.idle, hXY.silent⟩
    | noUpdate _ _ _ hdead => rw [hlive] at hdead; cases hdead
    | waited byte _ hupload _ _ hoffers => rw [hupload, hoffers]; exact ⟨id, hXY.silent⟩
    | idle _ hupload _ _ _ hoffers => rw [hoffers]; exact ⟨hupload.2, hXY.silent⟩
    | leave _ hupload _ _ hoffers => rw [hupload, hoffers]; exact ⟨id, hXY.silent⟩
    | beginRound missing _ _ _ hoffered =>
        rw [hnone] at hoffered
        exact absurd hoffered.symm (by simp)
    | emission k r ha hround => exact absurd hround hXY.idle
  have hhost : X'.host = ⟨SX.disk, .start⟩ := by
    have hconsumed := hYX.downloader.1
    cases hdown.fileMove hlive with
    | same hhost => exact hhost.trans hYX.host
    | create hash filename fileSize missing hpc => rw [hpc] at hconsumed; cases hconsumed
    | store k hash filename target file missing ha hpc => rw [hpc] at hconsumed; cases hconsumed
  exact ⟨⟨hXY.same, hXY.aligned.up hfits hst hlive, hXY.ends.up hsound hst hlive, hinf, hidle,
      hsilent, hXY.host⟩,
    ⟨hYX.same, hYX.aligned.down (fun _ _ => hanswers) hst, hYX.ends.down hYX.aligned hst hlive,
      hYX.informed, hYX.idle, by rw [hdown.sent]; exact hYX.silent, hhost⟩⟩

end Quiet

/-- Both directions of two sides with the same images. -/
theorem quiet_of_heard (hsame : ∀ hash, hash ∈ A.hashes ↔ hash ∈ B.hashes)
    (hs : (system A B).Reaches (each (Peer.HearsFirst A.hashes)) (start A B) s) :
    Quiet A s.a B s.b s.ab ∧ Quiet B s.b A s.a s.ba := by
  refine hs.invariant (I := fun s => Quiet A s.a B s.b s.ab ∧ Quiet B s.b A s.a s.ba) ?_
    ⟨.start hsame, .start fun hash => (hsame hash).symm⟩
  rintro s ⟨side, act⟩ t ⟨hab, hba⟩ hok hst
  cases side with
  | a =>
      obtain ⟨⟨p, up, down⟩, hpst, rfl⟩ := Option.map_eq_some_iff.mp hst
      exact hab.step hba hok hpst
  | b =>
      obtain ⟨⟨p, up, down⟩, hpst, rfl⟩ := Option.map_eq_some_iff.mp hst
      have hok' : s.b.HearsFirst B.hashes act := by
        cases act with
        | upload k => exact fun hpc hash hmem => hok hpc hash ((hsame hash).mpr hmem)
        | _ => trivial
      exact (hba.step hab hok' hpst).symm

/-- **Nothing to do.** Where both sides hold the same images and each
uploader has heard of them before its main loop begins, no schedule of the
threads builds an offer, sends a byte of one, touches a file or reports
anything. -/
theorem nothing_to_do (hsame : ∀ hash, hash ∈ A.hashes ↔ hash ∈ B.hashes)
    (hs : (system A B).Reaches (each (Peer.HearsFirst A.hashes)) (start A B) s) :
    (s.a.host = ⟨A.disk, .start⟩ ∧ s.b.host = ⟨B.disk, .start⟩) ∧
      (s.a.pipe.offered = [] ∧ s.b.pipe.offered = []) ∧
      s.ab.offers.sent = [] ∧ s.ba.offers.sent = [] := by
  obtain ⟨hab, hba⟩ := quiet_of_heard hsame hs
  exact ⟨⟨hba.host, hab.host⟩,
    ⟨Quiet.offered_nil hab.aligned.sound.1 hab.informed,
      Quiet.offered_nil hba.aligned.sound.1 hba.informed⟩, hab.silent, hba.silent⟩

/-- `emptySite` with the image of `imageSite`, as `A/x`. -/
def twinSite : Site := ⟨⟨.dccp, [65]⟩,
  [⟨[65, slash, 120], some ⟨1, 0, 0, 0, 0⟩, List.cons_ne_nil _ _⟩],
  ⟨[([65, slash, 120], [1, 2, 3])], [], []⟩⟩

/-- Both sides hear of the image they share, skip it and return. -/
def settledRun : List (Side × Peer.Act) :=
  runs .a 4 ++ runs .b 4 ++ downloads .a (List.replicate 17 0) ++
  downloads .b (List.replicate 17 0) ++ List.replicate 3 (.a, .receive 0) ++
  List.replicate 3 (.b, .receive 0) ++ uploads .a (List.replicate 9 0) ++
  uploads .b (List.replicate 9 0) ++ downloads .a [0] ++ downloads .b [0] ++
  [(.a, .return), (.b, .return)]

theorem nothing_to_do_settledRun :
    ∃ s, (system twinSite imageSite).exec (start twinSite imageSite) settledRun = some s ∧
      (s.a.returned = true ∧ s.b.returned = true) ∧ s.ab.offers.sent = [] := by
  have hrun : ((system twinSite imageSite).exec (start twinSite imageSite) settledRun).map
      (fun s => (s.a.returned, s.b.returned)) = some (true, true) := by
    decide +kernel
  obtain ⟨s, hs, hret⟩ := Option.map_eq_some_iff.mp hrun
  rw [Prod.mk.injEq] at hret
  have hsame : ∀ hash, hash ∈ twinSite.hashes ↔ hash ∈ imageSite.hashes := fun _ => Iff.rfl
  exact ⟨s, hs, hret, (nothing_to_do hsame ⟨settledRun, hs, by decide +kernel⟩).2.2.1⟩

end Session
end Jpgsync
