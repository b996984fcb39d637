import Jpgsync.Peer.Files
import Jpgsync.Session.Account

/-!
# Session — Damage

When is an image that was accepted really there? `Peer::Upload` does not
look at what `ifs->read` delivered, `Peer::Download` does not look at what
`ofs->write` and the closing flush stored, so a session can end with status
0 on both sides and a damaged file (`damage_is_silent`). In a run in which
both calls do their work, every offer is answered exactly and sizes fit, it
cannot (`no_silent_damage`).
-/

namespace Jpgsync

open DownloadPc

namespace Peer

/-- **A step without an unchecked failure.** -/
def Faultless (p : Peer) : Act → Prop
  | .download k => p.download.AnswersExactly p.contains ∧ p.download.StoresAll k
  | .upload k => p.upload.SizeFits p.host.disk ∧ p.upload.ReadsAll p.host.disk k
  | .run | .getWakes | .uploaderWakes | .receive _ | .endOfUpdate | .return => True

instance (p : Peer) : DecidablePred (Faultless p)
  | .download _ => inferInstanceAs (Decidable (_ ∧ _))
  | .upload _ => inferInstanceAs (Decidable (_ ∧ _))
  | .run | .getWakes | .uploaderWakes | .receive _ | .endOfUpdate | .return => isTrue trivial

/-- **Every accepted image is stored**: under its sender's name, or the
name for a conflict, with the bytes of the sender's file. -/
def Received (dir : Bytes) (X Y : Peer) : Prop :=
  ∀ hash ∈ Y.accepted, ∃ e ∈ X.pipe.hasher.entries, e.hash = hash ∧
    ∃ path bytes, Candidate dir hash (sentName e.path) path ∧
      X.host.disk.contents e.path = some bytes ∧ Y.host.disk.contents path = some bytes

end Peer

namespace Session

/-- What holds of a direction in a run without unchecked failures. -/
structure Intact (SX : Site) (X : Peer) (SY : Site) (Y : Peer) (L : Link) : Prop where
  aligned : Aligned SX X SY Y L
  stored : X.Stored SX.cfg.downloadDir ∧ Y.Stored SY.cfg.downloadDir
  faithful : X.Faithful

theorem intact_start (SX SY : Site) : Intact SX (.start SX.scans SX.disk) SY
    (.start SY.scans SY.disk) .start where
  aligned := .start SX SY
  stored := ⟨Peer.stored_start _ _ _, Peer.stored_start _ _ _⟩
  faithful := fun _ hf => absurd hf List.not_mem_nil

variable {SX SY A B : Site} {X Y X' Y' : Peer} {L M L' M' : Link} {a : Peer.Act} {s : Session}

theorem Intact.up (h : Intact SX X SY Y L) (hok : X.Faultless a)
    (hst : X.step SX.cfg L M a = some (X', L', M')) (hlive : X'.terminated = false) :
    Intact SX X' SY Y L' := by
  obtain ⟨hup, hdown⟩ := h.aligned.sound.1.ends_of_step hst hlive
  obtain ⟨hstored, hkeep⟩ := h.stored.1.step (fun k ha => by subst ha; exact hok.2)
    (hdown.fileMove hlive)
  exact ⟨h.aligned.up (fun k ha => by subst ha; exact hok.1) hst hlive, ⟨hstored, h.stored.2⟩,
    h.faithful.step (fun k ha => by subst ha; exact hok.2) hup hkeep hlive⟩

theorem Intact.down (h : Intact SX X SY Y L) (hok : Y.Faultless a)
    (hst : Y.step SY.cfg M L a = some (Y', M', L')) (hlive : Y'.terminated = false) :
    Intact SX X SY Y' L' := by
  obtain ⟨_, hdown⟩ := h.aligned.sound.2.ends_of_step hst hlive
  obtain ⟨hstored, _⟩ := h.stored.2.step (fun k ha => by subst ha; exact hok.2)
    (hdown.fileMove hlive)
  exact ⟨h.aligned.down (fun k ha => by subst ha; exact hok.1) hst,
    ⟨h.stored.1, hstored⟩, h.faithful⟩

/-- The account of a direction that is closed: everything accepted was sent
and received. -/
theorem closed_account (h : Aligned SX X SY Y L) (hx : X.upload = .closed)
    (hy : Y.download = .closed) :
    X.uploads.map Prod.fst = missingOf Y.contains X.pipe.offered.flatten ∧
      Y.accepted = X.uploads.map (fun f => f.1.hash) ∧
      Y.downloads.map (fun d => (d.hash, d.filename, d.file)) =
        X.uploads.map fun f => (f.1.hash, sentName f.1.path, f.2) := by
  obtain ⟨received, inflight, todo, opening, answered, hA⟩ := h.account
  have hawait := hA.awaited
  rw [hy] at hawait
  obtain ⟨hin, htodo⟩ := List.append_eq_nil_iff.mp (List.map_eq_nil_iff.mp hawait.symm)
  obtain rfl := List.map_eq_nil_iff.mp hin
  obtain ⟨_, _, hopening⟩ := (hx ▸ hA.flow).closed_bytes
  have hsent := hA.sent
  have huploads := hA.uploads
  have hoffered := hA.offered
  rw [htodo, List.append_nil] at hsent
  rw [List.append_nil] at huploads
  rw [hopening, List.append_nil] at hoffered
  refine ⟨by rw [hsent, hoffered], ?_, by rw [huploads]; exact hA.downloads⟩
  rw [hA.accepted, ← hsent, List.map_map]
  rfl

/-- A closed direction has delivered what was accepted. -/
theorem Intact.received (h : Intact SX X SY Y L) (hx : X.upload = .closed)
    (hy : Y.download = .closed) (hexit : Y.host.logger.exitStatus = 0) :
    Peer.Received SY.cfg.downloadDir X Y := by
  obtain ⟨hsent, haccepted, hdownloads⟩ := closed_account h.aligned hx hy
  intro hash hhash
  rw [haccepted] at hhash
  obtain ⟨f, hf, rfl⟩ := List.mem_map.mp hhash
  have hsize := h.aligned.sizes f hf
  have hentry : f.1 ∈ X.pipe.hasher.entries := by
    have hmem : f.1 ∈ missingOf Y.contains X.pipe.offered.flatten :=
      hsent ▸ List.mem_map_of_mem hf
    exact h.aligned.sound.1.offered_sublist.subset (List.mem_filter.mp hmem).1
  -- the download that belongs to this upload
  have hd : (f.1.hash, sentName f.1.path, f.2) ∈
      Y.downloads.map (fun d => (d.hash, d.filename, d.file)) :=
    hdownloads ▸ List.mem_map_of_mem hf
  obtain ⟨d, hd, heq⟩ := List.mem_map.mp hd
  simp only [Prod.mk.injEq] at heq
  obtain ⟨hdhash, hdname, hdfile⟩ := heq
  have hplace := h.stored.2.stored d hd (by rw [hdfile]; exact hsize.1)
  refine ⟨f.1, hentry, rfl, ?_⟩
  cases htarget : d.target with
  | none =>
      rw [htarget] at hplace
      exact absurd hexit hplace
  | some path =>
      rw [htarget] at hplace
      obtain ⟨hcand, bytes, hbytes, rfl⟩ := hplace
      rw [hdhash, hdname] at hcand
      rw [hdfile] at hbytes
      exact ⟨path, f.2, hcand, h.faithful f hf hsize.1, hbytes⟩

/-- **No image is damaged silently** in a run in which no stream fails
unnoticed, offers are answered exactly and sizes fit: when both peers have
returned with status 0, every accepted image is stored as it was sent. -/
theorem no_silent_damage (hs : (system A B).Reaches (each Peer.Faultless) (start A B) s)
    (hret : s.a.returned = true ∧ s.b.returned = true)
    (hexit : s.a.host.logger.exitStatus = 0 ∧ s.b.host.logger.exitStatus = 0) :
    Peer.Received B.cfg.downloadDir s.a s.b ∧ Peer.Received A.cfg.downloadDir s.b s.a := by
  obtain ⟨ha, hb⟩ := returned_of_reachable hs.reachable
  obtain ⟨haup, hadown, hlivea⟩ := ha hret.1
  obtain ⟨hbup, hbdown, hliveb⟩ := hb hret.2
  rcases live_directions (D := Intact) Intact.up Intact.down ⟨intact_start A B, intact_start B A⟩
    hs with hdead | hdead | ⟨hab, hba⟩
  · rw [hlivea] at hdead
    cases hdead
  · rw [hliveb] at hdead
    cases hdead
  · exact ⟨hab.received haup hbdown hexit.2, hba.received hbup hadown hexit.1⟩

/-! ## A transfer -/

/-- The image of `b` is sent to `a`; of its three bytes, `ofs->write` and
the closing flush of `a` store the first `stored`. -/
def transferRun (stored : Nat) : List (Side × Peer.Act) :=
  -- both sides hash, send their updates and end them
  runs .b 4 ++ runs .a 3 ++ downloads .b (List.replicate 17 0) ++
  downloads .a (List.replicate 9 0) ++
  -- the offer and its answer
  uploads .b [0, 0, 0, 0, 0, 21] ++ downloads .a [0, 20, 0, 0, 1, 0] ++
  -- the name, the size and the contents
  uploads .b [0, 1, 0, 0, 2] ++ downloads .a [0, 1, 0] ++ uploads .b [0, 0, 4] ++
  downloads .a [4, 0, 0] ++ uploads .b [0, 3, 3] ++ downloads .a [3, 0, stored, 0] ++
  -- both uploaders leave, both downloaders see the end of their streams
  uploads .b (List.replicate 6 0) ++ downloads .a [0] ++ uploads .a (List.replicate 7 0) ++
  downloads .b [0] ++ [(.a, .return), (.b, .return)]

/-- What a run from `b` to `a` ends with. -/
structure Outcome where
  returned : Bool × Bool
  exitStatus : Nat × Nat
  accepted : List ExifHash
  files : List (Bytes × Bytes) × List (Bytes × Bytes)
deriving DecidableEq

def outcome (s : Session) : Outcome where
  returned := (s.a.returned, s.b.returned)
  exitStatus := (s.a.host.logger.exitStatus, s.b.host.logger.exitStatus)
  accepted := s.a.accepted
  files := (s.a.host.disk.files, s.b.host.disk.files)

theorem transferRun_damages :
    ((system emptySite imageSite).exec (start emptySite imageSite) (transferRun 0)).map outcome =
      some ⟨(true, true), (0, 0), [⟨1, 0, 0, 0, 0⟩],
        ([([65, slash, 120], [])], imageSite.disk.files)⟩ := by
  decide +kernel

/-- **Damage can be silent**: the write stores nothing, nobody looks. -/
theorem damage_is_silent :
    ¬ ∀ (A B : Site) (s : Session), (system A B).Reachable (start A B) s →
        s.a.returned = true ∧ s.b.returned = true →
        s.a.host.logger.exitStatus = 0 ∧ s.b.host.logger.exitStatus = 0 →
        Peer.Received B.cfg.downloadDir s.a s.b ∧ Peer.Received A.cfg.downloadDir s.b s.a := by
  intro h
  obtain ⟨s, hs, hout⟩ := Option.map_eq_some_iff.mp transferRun_damages
  simp only [outcome, Outcome.mk.injEq, Prod.mk.injEq] at hout
  obtain ⟨hret, hexit, hacc, hfiles, hsender⟩ := hout
  obtain ⟨_, hreceived⟩ := h emptySite imageSite s ⟨_, hs⟩ hret hexit
  obtain ⟨e, he, _, path, bytes, _, hsent, hstored⟩ := hreceived ⟨1, 0, 0, 0, 0⟩ (by simp [hacc])
  have hempty : bytes = [] := by
    rw [Disk.contents, hfiles, List.lookup_cons] at hstored
    split at hstored
    · exact (Option.some.inj hstored).symm
    · cases hstored
  rw [Disk.contents, hsender, hempty, imageSite, List.lookup_cons] at hsent
  split at hsent <;> cases hsent

theorem no_silent_damage_transferRun :
    ∃ s, (system emptySite imageSite).exec (start emptySite imageSite) (transferRun 3) = some s ∧
      Peer.Received emptySite.cfg.downloadDir s.b s.a ∧ s.a.accepted = [⟨1, 0, 0, 0, 0⟩] := by
  have hrun : ((system emptySite imageSite).exec (start emptySite imageSite)
      (transferRun 3)).map outcome =
      some ⟨(true, true), (0, 0), [⟨1, 0, 0, 0, 0⟩],
        ([([65, slash, 120], [1, 2, 3])], imageSite.disk.files)⟩ := by
    decide +kernel
  obtain ⟨s, hs, hout⟩ := Option.map_eq_some_iff.mp hrun
  simp only [outcome, Outcome.mk.injEq, Prod.mk.injEq] at hout
  obtain ⟨hret, hexit, hacc, _⟩ := hout
  exact ⟨s, hs, (no_silent_damage ⟨transferRun 3, hs, by decide +kernel⟩ hret hexit).2, hacc⟩

end Session
end Jpgsync
