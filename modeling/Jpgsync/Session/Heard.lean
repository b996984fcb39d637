import Jpgsync.Session.Convergence

/-!
# Session — Heard

When the update does its work. An offer that is answered inexactly has a
hash in it that the receiver holds, so its sender has not heard of that
hash: an uploader that has heard of everything the two sides have in
common, before its main loop begins, offers only what the other side lacks
(`Informed`, `answersExactly`), and the answers do not matter. Then the two
directories converge without any promise about answers
(`converges_heard`); and where both sides hold the same images, nothing is
sent at all (`nothing_to_do`).
-/

namespace Jpgsync

open DownloadPc

/-- The hashes that both sides hold. -/
def Site.common (A B : Site) : List ExifHash :=
  A.hashes.filter fun h => decide (h ∈ B.hashes)

theorem Site.mem_common {A B : Site} {h : ExifHash} :
    h ∈ A.common B ↔ h ∈ A.hashes ∧ h ∈ B.hashes := by
  simp [common, List.mem_filter]

namespace Peer

/-- The main loop does not begin before all of `hs` has been heard. -/
def HearsFirst (hs : List ExifHash) (p : Peer) : Act → Prop
  | .upload _ => p.upload = .setUpdated → ∀ h ∈ hs, h ∈ p.receiving.receivedHashes
  | .run | .getWakes | .uploaderWakes | .receive _ | .endOfUpdate | .download _ | .return => True

/-- `hashing` is not cleared behind a stale total. -/
def ClearsFresh (p : Peer) : Act → Prop
  | .download _ => p.download = .update → p.pipe.ClearsFresh .downloader
  | .run | .getWakes | .uploaderWakes | .receive _ | .endOfUpdate | .upload _ | .return => True

instance (hs : List ExifHash) (p : Peer) : DecidablePred (HearsFirst hs p)
  | .upload _ => inferInstanceAs (Decidable (_ → _))
  | .run | .getWakes | .uploaderWakes | .receive _ | .endOfUpdate | .download _ | .return =>
    isTrue trivial

instance (p : Peer) : DecidablePred (ClearsFresh p)
  | .download _ => inferInstanceAs (Decidable (_ → _))
  | .run | .getWakes | .uploaderWakes | .receive _ | .endOfUpdate | .upload _ | .return =>
    isTrue trivial

/-- **A step without a defect**, but for the answers: files are read and
written, the update is complete and `hashing` is cleared fresh. -/
structure Smooth (hs : List ExifHash) (p : Peer) (a : Act) : Prop where
  files : p.FilesWork a
  hears : p.HearsFirst hs a
  fresh : p.ClearsFresh a

instance (hs : List ExifHash) (p : Peer) : DecidablePred (Smooth hs p) := fun a =>
  decidable_of_iff (p.FilesWork a ∧ p.HearsFirst hs a ∧ p.ClearsFresh a)
    ⟨fun ⟨hfiles, hhears, hfresh⟩ => ⟨hfiles, hhears, hfresh⟩,
      fun h => ⟨h.files, h.hears, h.fresh⟩⟩

/-- **The update was complete**, once it is over. -/
def Informed (hs : List ExifHash) (p : Peer) : Prop :=
  p.receiving.updated = true → ∀ h ∈ hs, h ∈ p.receiving.receivedHashes

variable {cfg : Config} {scans : List Scan} {hs : List ExifHash} {p q : Peer}
  {up down up' down' : Link} {a : Act}

theorem informed_start (scans : List Scan) (disk : Disk) : Informed hs (.start scans disk) :=
  fun hupd => by cases hupd

/-- Only the uploader sets `updated`. -/
theorem Sound.setUpdated_of_step (h : Sound cfg scans p)
    (hst : p.step cfg up down a = some (q, up', down')) (hupd : p.receiving.updated = false)
    (hupd' : q.receiving.updated = true) :
    p.upload = .setUpdated ∧ (∃ k, a = .upload k) ∧
      q.receiving.receivedHashes = p.receiving.receivedHashes := by
  have hkeep : q.receiving.updated = p.receiving.updated → False := fun heq => by
    rw [heq, hupd] at hupd'
    cases hupd'
  obtain ⟨_, _, _, _, hmove, _⟩ := h.move_of_step hst
  cases hmove with
  | setUpdated k hpc => exact ⟨hpc, ⟨k, rfl⟩, rfl⟩
  | receive k r hr => exact absurd (Receiving.step_shared h.receiveBounds hr).1 hkeep
  | endOfUpdate r hr =>
      refine absurd ?_ hkeep
      unfold Receiving.endOfUpdate at hr
      split at hr
      · split at hr <;> cases hr
        rfl
      · cases hr
  | _ => exact absurd rfl hkeep

theorem Informed.step (hinf : Informed hs p) (h : Sound cfg scans p) (hok : HearsFirst hs p a)
    (hst : p.step cfg up down a = some (q, up', down')) : Informed hs q := by
  intro hupd'
  cases hupd : p.receiving.updated with
  | true =>
      rw [(h.received_step hupd hst).2]
      exact hinf hupd
  | false =>
      obtain ⟨hpc, ⟨k, rfl⟩, hreceived⟩ := h.setUpdated_of_step hst hupd hupd'
      rw [hreceived]
      exact hok hpc

/-- **An informed uploader offers only news.** -/
theorem Informed.offered (hinf : Informed hs p) (h : Sound cfg scans p) {e : Entry}
    (he : e ∈ p.pipe.offered.flatten) : e.hash ∉ hs := by
  cases hupd : p.receiving.updated with
  | true =>
      rw [(h.offers hupd).offered] at he
      exact fun hmem => of_decide_eq_true (List.mem_filter.mp he).2 (hinf hupd _ hmem)
  | false =>
      have hbefore : p.upload.BeforeUpdate := by
        by_contra hne
        rw [h.updated.mpr hne] at hupd
        cases hupd
      rw [(h.waiting hbefore).2.2.1] at he
      exact absurd he List.not_mem_nil

end Peer

/-- **The offers of an informed uploader are answered exactly**: the other
side holds nothing of them. -/
theorem Aligned.answersExactly {SX SY : Site} {X Y : Peer} {L : Link} {hs : List ExifHash}
    (h : Aligned SX X SY Y L) (hinf : X.Informed hs)
    (hcommon : ∀ hash ∈ SX.hashes, hash ∈ SY.hashes → hash ∈ hs) :
    Y.download.AnswersExactly Y.contains := by
  cases hpc : Y.download with
  | answer hashCount buf =>
      obtain ⟨received, inflight, todo, opening, answered, hA⟩ := h.account
      have hbounds := h.sound.2.downloadBounds
      have hflow := hA.flow
      have hawait := hA.awaited
      rw [hpc] at hbounds hflow hawait
      obtain ⟨-, rfl, rfl, rfl, -, hcount, rfl, -, -⟩ :=
        hflow.asked hbounds (h.sound.1.upstream h.announced) hawait
      have hhashes : ExifHash.ofDigests hashCount.toNat
          (ExifHash.digests (X.upload.asking.map Entry.hash)) = X.upload.asking.map Entry.hash := by
        rw [hcount, ← List.length_map (f := Entry.hash), ExifHash.ofDigests_digests]
      have hnone : ∀ hash ∈ X.upload.asking.map Entry.hash, Y.contains hash = false := by
        intro hash hmem
        obtain ⟨e, he, rfl⟩ := List.mem_map.mp hmem
        have hoffered : e ∈ X.pipe.offered.flatten := by
          rw [hA.offered]
          exact List.mem_append_right _ he
        have hindex := h.sound.1.entries_index (h.sound.1.offered_sublist.subset hoffered)
        by_contra hheld
        rw [Bool.not_eq_false, Peer.contains, decide_eq_true_eq, h.sound.2.handOver.mem] at hheld
        obtain ⟨e', he', heq⟩ := List.mem_map.mp hheld
        refine hinf.offered h.sound.1 hoffered (hcommon _ (List.mem_map_of_mem hindex) ?_)
        rw [← heq]
        exact List.mem_map_of_mem (h.sound.2.entries_index he')
      rw [AnswersExactly, hhashes]
      have hzero : (X.upload.asking.map Entry.hash).countP Y.contains = 0 :=
        List.countP_eq_zero.mpr fun hash hmem => by simp [hnone hash hmem]
      exact ⟨by rw [hzero]; exact Nat.zero_le _,
        fun hash hmem => hnone hash (List.mem_of_mem_drop hmem)⟩
  | _ => trivial

namespace Session

variable {A B : Site} {s t : Session}

/-! ## Convergence -/

/-- Both directions deliver, and both uploaders are informed. -/
structure Hearing (A B : Site) (s : Session) : Prop where
  delivering : Delivering A s.a B s.b s.ab ∧ Delivering B s.b A s.a s.ba
  informed : s.a.Informed (A.common B) ∧ s.b.Informed (A.common B)

namespace Hearing

theorem start (hA : A.Directory) (hB : B.Directory) (hp : Packets A B)
    (hfree : NamesFree A B ∧ NamesFree B A) : Hearing A B (start A B) where
  delivering := ⟨.start hA hB hp hfree.1, .start hB hA ⟨hp.2, hp.1⟩ hfree.2⟩
  informed := ⟨Peer.informed_start _ _, Peer.informed_start _ _⟩

/-- Both sides answer exactly. -/
theorem answersExactly (h : Hearing A B s) :
    s.a.download.AnswersExactly s.a.contains ∧ s.b.download.AnswersExactly s.b.contains :=
  ⟨h.delivering.2.intact.aligned.answersExactly h.informed.2 fun _ hb ha =>
      Site.mem_common.mpr ⟨ha, hb⟩,
    h.delivering.1.intact.aligned.answersExactly h.informed.1 fun _ ha hb =>
      Site.mem_common.mpr ⟨ha, hb⟩⟩

theorem step (h : Hearing A B s) {act : Side × Peer.Act}
    (hok : each (Peer.Smooth (A.common B)) s act) (hst : (system A B).step s act = some t) :
    Hearing A B t := by
  obtain ⟨side, act⟩ := act
  obtain ⟨hab, hba⟩ := h.delivering
  obtain ⟨hanswersA, hanswersB⟩ := h.answersExactly
  cases side with
  | a =>
      obtain ⟨⟨p, up, down⟩, hpst, rfl⟩ := Option.map_eq_some_iff.mp hst
      have hregular : s.a.Regular act := by
        cases act with
        | download k => exact ⟨hanswersA, hok.fresh⟩
        | _ => trivial
      obtain ⟨hab', hba'⟩ := hab.step hba ⟨hok.files, hregular⟩ hpst
      exact ⟨⟨hab', hba'⟩, h.informed.1.step hab.intact.aligned.sound.1 hok.hears hpst,
        h.informed.2⟩
  | b =>
      obtain ⟨⟨p, up, down⟩, hpst, rfl⟩ := Option.map_eq_some_iff.mp hst
      have hregular : s.b.Regular act := by
        cases act with
        | download k => exact ⟨hanswersB, hok.fresh⟩
        | _ => trivial
      obtain ⟨hba', hab'⟩ := hba.step hab ⟨hok.files, hregular⟩ hpst
      exact ⟨⟨hab', hba'⟩, h.informed.1,
        h.informed.2.step hba.intact.aligned.sound.1 hok.hears hpst⟩

theorem of_smooth (hA : A.Directory) (hB : B.Directory) (hp : Packets A B)
    (hfree : NamesFree A B ∧ NamesFree B A)
    (hs : (system A B).Reaches (each (Peer.Smooth (A.common B))) (Session.start A B) s) :
    Hearing A B s :=
  hs.invariant (fun _ _ _ h hok hst => h.step hok hst) (.start hA hB hp hfree)

/-- What two peers that have returned end with. -/
theorem delivered (h : Hearing A B s) (hs : (system A B).Reachable (Session.start A B) s)
    (hret : s.a.returned = true ∧ s.b.returned = true) :
    s.b.host.disk.files = B.disk.files ++ imagesFor A B ∧
      s.a.host.disk.files = A.disk.files ++ imagesFor B A := by
  obtain ⟨hra, hrb⟩ := returned_of_reachable hs
  obtain ⟨haup, hadown, -⟩ := hra hret.1
  obtain ⟨hbup, hbdown, -⟩ := hrb hret.2
  exact ⟨h.delivering.1.delivered haup hadown hbdown,
    h.delivering.2.delivered hbup hbdown hadown⟩

end Hearing

/-- **Convergence through a complete update**: if each uploader has heard of
the images both sides hold before its main loop begins, the directories
converge, and how offers are answered does not matter. In particular two
sides that have nothing in common converge whatever becomes of the
updates. -/
theorem converges_heard (hA : A.Directory) (hB : B.Directory) (hp : Packets A B)
    (hfree : NamesFree A B ∧ NamesFree B A)
    (hs : (system A B).Reaches (each (Peer.Smooth (A.common B))) (start A B) s) :
    (s.a.host.logger = .start ∧ s.b.host.logger = .start) ∧
      (s.a.returned = true → s.b.returned = true →
        s.b.host.disk.files = B.disk.files ++ imagesFor A B ∧
          s.a.host.disk.files = A.disk.files ++ imagesFor B A) := by
  have h := Hearing.of_smooth hA hB hp hfree hs
  exact ⟨⟨h.delivering.2.collected.logger, h.delivering.1.collected.logger⟩,
    fun ha hb => h.delivered hs.reachable ⟨ha, hb⟩⟩

theorem emptySite_free : NamesFree emptySite imageSite ∧ NamesFree imageSite emptySite :=
  ⟨(emptySite_apart _).free emptySite_directory,
    fun _ _ _ _ _ _ hg => absurd hg List.not_mem_nil⟩

/-- Two sides without a common image need not hear of each other. -/
theorem converges_heard_transferRun :
    ∃ s, (system emptySite imageSite).exec (start emptySite imageSite) (transferRun 3) = some s ∧
      s.a.host.disk.files = imagesFor imageSite emptySite := by
  have hrun : ((system emptySite imageSite).exec (start emptySite imageSite)
      (transferRun 3)).map (fun s => (s.a.returned, s.b.returned)) = some (true, true) := by
    decide +kernel
  obtain ⟨s, hs, hret⟩ := Option.map_eq_some_iff.mp hrun
  rw [Prod.mk.injEq] at hret
  exact ⟨s, hs, ((converges_heard emptySite_directory imageSite_directory ⟨rfl, rfl⟩
    emptySite_free ⟨transferRun 3, hs, by decide +kernel⟩).2 hret.1 hret.2).2⟩

end Session
end Jpgsync
