import Jpgsync.Session.Completion
import Jpgsync.Session.Rounds
import Mathlib.Algebra.BigOperators.Group.List.Basic

/-!
# Session — Traffic

What a session costs. An uploader that has heard of everything the two
sides have in common offers exactly the images the other side lacks
(`Hearing.offered`), and what it offers it sends. So the bytes on a sync
connection are a count for each offer and, for each missing image, its
hash, its name behind a length byte, its size and its contents (`traffic`):
no image is sent twice, and none that the other side has.
-/

namespace Jpgsync

open UploadPc

/-- The bytes that one image costs: in an offer, and as a file. -/
def Site.wireCost (S : Site) (e : Entry) : Nat :=
  sizeofExifHash + (1 + (sentName e.path).length + sizeofFileSize +
    ((S.disk.contents e.path).getD []).length)

theorem length_offerBytes (missing : List Entry) :
    (offerBytes missing).length = 1 + missing.length * sizeofExifHash := by
  rw [offerBytes, List.length_cons, ExifHash.length_digests, List.length_map, Nat.add_comm]

theorem length_fileBytes (f : SentFile) :
    (fileBytes f).length = 1 + (sentName f.1.path).length + sizeofFileSize + f.2.length := by
  rw [fileBytes_eq, List.length_cons, List.length_append, List.length_append,
    length_writeFileSize]
  simp only [sizeofFileSize]
  omega

theorem length_filesBytes (files : List SentFile) :
    (filesBytes files).length = (files.map fun f => (fileBytes f).length).sum := by
  rw [filesBytes, List.length_flatMap]

/-- The length of a stream: its offers, then its files. -/
theorem length_stream (rounds : List Round) : (stream rounds).length =
    rounds.length + (rounds.map Round.offer).flatten.length * sizeofExifHash +
      ((rounds.flatMap Round.files).map fun f => (fileBytes f).length).sum := by
  induction rounds with
  | nil => rfl
  | cons r rounds ih =>
      rw [stream_cons, List.length_append, ih, Round.bytes, List.length_append,
        length_offerBytes, length_filesBytes, List.flatMap_cons, List.map_append,
        List.sum_append, List.map_cons, List.flatten_cons, List.length_append, List.length_cons,
        Nat.add_mul]
      omega

@[simp] theorem offers_roundsOf (holds : ExifHash → Bool) (offered : List (List Entry))
    (uploads : List SentFile) : (roundsOf holds offered uploads).map Round.offer = offered := by
  induction offered generalizing uploads with
  | nil => rfl
  | cons missing offered ih => rw [roundsOf, List.map_cons, ih]

/-- The files of the rounds are the first ones that were sent. -/
theorem files_roundsOf (holds : ExifHash → Bool) (offered : List (List Entry))
    (uploads : List SentFile) :
    (roundsOf holds offered uploads).flatMap Round.files <+: uploads := by
  induction offered generalizing uploads with
  | nil => exact List.nil_prefix
  | cons missing offered ih =>
      rw [roundsOf, List.flatMap_cons]
      conv_rhs => rw [← List.take_append_drop (missingOf holds missing).length uploads]
      exact List.prefix_append_right_inj _ |>.mpr (ih _)

namespace Session

variable {A B SX SY : Site} {X Y : Peer} {L : Link} {s : Session}

/-- **Exactly the missing images are offered**, when the uploader has heard
of all that both sides hold. -/
theorem Delivering.offered_missing (h : Delivering SX X SY Y L) {hs : List ExifHash}
    (hinf : X.Informed hs) (hcommon : ∀ hash ∈ SX.hashes, hash ∈ SY.hashes → hash ∈ hs)
    (hx : X.upload = .closed) (hxd : X.download = .closed) (hy : Y.download = .closed) :
    X.pipe.offered.flatten = SX.missing SY := by
  have hupd : X.receiving.updated = true :=
    h.intact.aligned.sound.1.updated.mpr (by rw [hx]; exact id)
  have hdrained := h.intact.aligned.sound.2.drained
    (h.intact.aligned.sound.2.downloading (by rw [hy]; simp))
  rw [h.offered_all hx hxd, Site.missing]
  refine List.filter_congr fun e he => decide_eq_decide.mpr (not_congr ⟨fun hheard => ?_, ?_⟩)
  · exact (hdrained.hashes e.hash).mp (h.heard.hears.received _ hheard)
  · exact fun hheld => hinf hupd _ (hcommon _ (List.mem_map_of_mem he) hheld)

/-- Offers are not empty, so there are no more of them than entries. -/
theorem length_offered_le (h : X.Sound SX.cfg SX.scans) :
    X.pipe.offered.length ≤ X.pipe.offered.flatten.length := by
  have hpos : ∀ o ∈ X.pipe.offered, 0 < o.length := by
    cases hupd : X.receiving.updated with
    | true => exact fun o ho => ((h.offers hupd).sizes o ho).1
    | false =>
        have hbefore : X.upload.BeforeUpdate := by
          by_contra hne
          rw [h.updated.mpr hne] at hupd
          cases hupd
        rw [(h.waiting hbefore).2.2.1]
        exact fun o ho => absurd ho List.not_mem_nil
  rw [List.length_flatten, ← List.length_map (f := List.length)]
  exact List.length_le_sum_of_one_le _ fun n hn => by
    obtain ⟨o, ho, rfl⟩ := List.mem_map.mp hn
    exact hpos o ho

/-- The bytes of a closed direction. -/
theorem Delivering.length_sent (h : Delivering SX X SY Y L) {hs : List ExifHash}
    (hinf : X.Informed hs) (hcommon : ∀ hash ∈ SX.hashes, hash ∈ SY.hashes → hash ∈ hs)
    (hx : X.upload = .closed) (hxd : X.download = .closed) (hy : Y.download = .closed)
    (hsent : L.offers.sent = stream (roundsOf SY.holds X.pipe.offered X.uploads))
    (hcomplete : ∀ r ∈ roundsOf SY.holds X.pipe.offered X.uploads, r.Complete SY.holds) :
    L.offers.sent.length =
        X.pipe.offered.length + ((SX.missing SY).map SX.wireCost).sum ∧
      X.pipe.offered.length ≤ (SX.missing SY).length := by
  have hoffered := h.offered_missing hinf hcommon hx hxd hy
  have huploads := h.uploads_of_closed hx hxd hy
  refine ⟨?_, by rw [← hoffered]; exact length_offered_le h.intact.aligned.sound.1⟩
  -- the rounds have all the files: they are as many as are missing
  have hfiles : (roundsOf SY.holds X.pipe.offered X.uploads).flatMap Round.files = X.uploads := by
    refine (files_roundsOf _ _ _).eq_of_length ?_
    have hmap := congrArg List.length (files_of_complete hcomplete)
    have hcontains := h.intact.aligned.sound.2.contains_eq (by rw [hy]; simp)
    have haccount := congrArg List.length (closed_account h.intact.aligned hx hy).1
    rw [offers_roundsOf, List.length_map, ← hcontains, ← haccount, List.length_map] at hmap
    rw [← hcontains]
    exact hmap
  have hlength : (roundsOf SY.holds X.pipe.offered X.uploads).length = X.pipe.offered.length := by
    rw [← List.length_map (f := Round.offer), offers_roundsOf]
  rw [hsent, length_stream, hfiles, offers_roundsOf, hlength, hoffered, huploads, List.map_map,
    Nat.add_assoc]
  congr 1
  -- one hash and one file for each missing image
  induction SX.missing SY with
  | nil => rfl
  | cons e missing ih =>
      simp only [List.length_cons, List.map_cons, List.sum_cons, Nat.add_mul, Function.comp_apply,
        length_fileBytes, Site.wireCost] at ih ⊢
      omega

/-- **What a session costs.** When both peers have returned after a run in
which files work, the images both sides hold were heard of and `hashing`
was cleared fresh, the bytes an uploader has written are one for each offer,
and for each image that the other side lacks its hash, its name and size,
and its contents; and there are no more offers than such images. -/
theorem traffic (hA : A.Directory) (hB : B.Directory) (hp : Packets A B)
    (hfree : NamesFree A B ∧ NamesFree B A)
    (hs : (system A B).Reaches (each (Peer.Smooth (A.common B))) (start A B) s)
    (hret : s.a.returned = true ∧ s.b.returned = true) :
    (s.ab.offers.sent.length =
          s.a.pipe.offered.length + ((A.missing B).map A.wireCost).sum ∧
        s.a.pipe.offered.length ≤ (A.missing B).length) ∧
      s.ba.offers.sent.length =
          s.b.pipe.offered.length + ((B.missing A).map B.wireCost).sum ∧
        s.b.pipe.offered.length ≤ (B.missing A).length := by
  have h := Hearing.of_smooth hA hB hp hfree hs
  have hexact := exact_of_smooth hA hB hp hfree hs
  have hfor : ∀ side, (system A B).Reaches (ExactFor side) (start A B) s := fun side =>
    hexact.mono fun s act hok => by
      obtain ⟨mover, act⟩ := act
      cases mover <;> cases act <;> first
        | exact fun _ => hok
        | trivial
  obtain ⟨hra, hrb⟩ := returned_of_reachable hs.reachable
  obtain ⟨haup, hadown, -⟩ := hra hret.1
  obtain ⟨hbup, hbdown, -⟩ := hrb hret.2
  obtain ⟨hsentA, hcompleteA⟩ := stream_of_closed (hfor .a) haup
  obtain ⟨hsentB, hcompleteB⟩ := stream_of_closed (hfor .b) hbup
  exact ⟨h.delivering.1.length_sent h.informed.1 (fun _ ha hb => Site.mem_common.mpr ⟨ha, hb⟩)
      haup hadown hbdown hsentA hcompleteA,
    h.delivering.2.length_sent h.informed.2 (fun _ hb ha => Site.mem_common.mpr ⟨ha, hb⟩)
      hbup hbdown hadown hsentB hcompleteB⟩

/-- One offer of one hash, a name of one byte and a file of three: 30
bytes. -/
theorem traffic_transferRun :
    ∃ s, (system emptySite imageSite).exec (start emptySite imageSite) (transferRun 3) = some s ∧
      s.ba.offers.sent.length = s.b.pipe.offered.length + 29 := by
  have hrun : ((system emptySite imageSite).exec (start emptySite imageSite)
      (transferRun 3)).map (fun s => (s.a.returned, s.b.returned)) = some (true, true) := by
    decide +kernel
  obtain ⟨s, hs, hret⟩ := Option.map_eq_some_iff.mp hrun
  rw [Prod.mk.injEq] at hret
  exact ⟨s, hs, (traffic emptySite_directory imageSite_directory ⟨rfl, rfl⟩ emptySite_free
    ⟨transferRun 3, hs, by decide +kernel⟩ hret).2.1⟩

end Session
end Jpgsync
