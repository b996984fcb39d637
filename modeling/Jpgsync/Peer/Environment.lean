import Jpgsync.Lib.Crash
import Jpgsync.Peer.Index

/-!
# Peer — Environment

A peer whose other side may do anything: between two steps the environment
replaces what the links hold, so every byte stream on the sync connections
and every sequence of update packets is among the runs. In such runs the
downloader answers offers and creates files only against the final index
(`answers_final_index`), and no access leaves its buffer
(`accesses_in_range`).

The calls on sockets move bytes or wait. One that fails ends the process:
`sys_call_rv` throws, in a thread that catches nothing or goes on to
`Fatal`, if `SIGPIPE` has not been there first. `process` is the peer with
this end, which may come at any moment.
-/

namespace Jpgsync
namespace Peer

/-- A step of the peer, or of whatever is at the other end. -/
inductive OpenAct where
  | own (a : Act)
  | remote (up down : Link)

/-- A peer and its links in an arbitrary environment. -/
def openSystem (cfg : Config) : StepSystem (Peer × Link × Link) OpenAct where
  step
    | (p, up, down), .own a => p.step cfg up down a
    | (p, _, _), .remote up down => some (p, up, down)

variable {cfg : Config} {scans : List Scan} {disk : Disk} {p q : Peer}
  {up down up' down' up₀ down₀ : Link}

/-- The state in which a peer's threads start. -/
def opened (scans : List Scan) (disk : Disk) (up down : Link) : Peer × Link × Link :=
  (start scans disk, up, down)

theorem sound_of_reachable
    (hs : (openSystem cfg).Reachable (opened scans disk up₀ down₀) (p, up, down)) :
    Sound cfg scans p := by
  refine hs.invariant (I := fun s => Sound cfg scans s.1) ?_ (sound_start cfg scans disk)
  rintro ⟨p, up, down⟩ a ⟨q, up', down'⟩ hp hst
  cases a with
  | own a => exact Sound.step hp hst
  | remote up'' down'' =>
      cases hst
      exact hp

/-- The peer as a process. When it is killed, its ends of both links are
closed. -/
def process (cfg : Config) : ProcessSystem (Peer × Link × Link) OpenAct Unit where
  toStepSystem := openSystem cfg
  owner
    | .own _ => some ()
    | .remote _ _ => none
  leave _ := hangUp

/-- Ends that are closed are among the things an environment may do. -/
theorem reachable_of_process {s : Mortal (Peer × Link × Link) Unit}
    (hs : (process cfg).mortal.Reachable (.alive (opened scans disk up₀ down₀)) s) :
    (openSystem cfg).Reachable (opened scans disk up₀ down₀) s.state :=
  ProcessSystem.state_reachable
    (fun _ s => ⟨[.remote (hangUp s).2.1 (hangUp s).2.2], rfl⟩) hs

/-! ## The final index -/

/-- The downloader is about to look a hash up or to open a file. -/
def UsesIndex (p : Peer) : Prop :=
  (∃ hashCount buf, p.download = .answer hashCount buf) ∨
    ∃ hash filename fileSize missing, p.download = .create hash filename fileSize missing

/-- **Only the final index is used.** Whenever the downloader looks a hash
up or opens a file: hashing is done, the end of the paths has been
returned, the set of hashes is that of the complete list, and every entry
has been handed out and counted. From then on the hasher never changes, so
every entry that is ever offered was on the list before. -/
theorem answers_final_index
    (hp : (openSystem cfg).Reachable (opened scans disk up₀ down₀) (p, up, down))
    (huse : p.UsesIndex) :
    Drained scans p ∧
      (∀ h, p.contains h = true ↔ ∃ scan ∈ scans, scan.exif = some h) ∧
      ∀ q up' down', (openSystem cfg).Reachable (p, up, down) (q, up', down') →
        q.pipe.hasher = p.pipe.hasher ∧
          ∀ o ∈ q.pipe.offered, ∀ e ∈ o, e ∈ p.pipe.hasher.entries := by
  have h := sound_of_reachable hp
  have hfin : p.pipe.downloader = .finished := by
    refine h.downloading ?_
    rcases huse with ⟨_, _, heq⟩ | ⟨_, _, _, _, heq⟩ <;> simp [heq]
  have hdrained := h.drained hfin
  refine ⟨hdrained, fun hash => ?_, fun q up' down' hq => ?_⟩
  · rw [contains, decide_eq_true_eq, hdrained.hashes, ExifHasher.mem_hashes_firstOfEach]
    simp
  · have hlater := hq.invariant
      (I := fun s => Sound cfg scans s.1 ∧ s.1.pipe.hasher = p.pipe.hasher ∧
        s.1.pipe.downloader = .finished) ?_ ⟨h, rfl, hfin⟩
    · obtain ⟨hq, hsame, _⟩ := hlater
      refine ⟨hsame, fun o ho e he => ?_⟩
      dsimp only at hq hsame
      rw [← hsame]
      by_cases hupd : q.receiving.updated = true
      · have hmem : e ∈ q.pipe.offered.flatten := List.mem_flatten.mpr ⟨o, ho, he⟩
        rw [(hq.offers hupd).offered] at hmem
        exact List.mem_of_mem_take (List.mem_filter.mp hmem).1
      · have hbefore : q.upload.BeforeUpdate := by
          by_contra hne
          exact hupd (hq.updated.mpr hne)
        rw [(hq.waiting hbefore).2.2.1] at ho
        simp at ho
    · rintro ⟨r, up, down⟩ a ⟨r', up', down'⟩ ⟨hr, hsame, hfin⟩ hst
      cases a with
      | own a =>
          obtain ⟨hh, hd⟩ := hr.hasher_frozen hfin hst
          exact ⟨Sound.step hr hst, hh.trans hsame, hd⟩
      | remote up'' down'' =>
          cases hst
          exact ⟨hr, hsame, hfin⟩

/-- An offer of sixty bytes of seven as three hashes. -/
def strangeOffer : Bytes := 3 :: List.replicate 60 7

/-- One image. -/
def oneImage : List Scan := [⟨[105], some ⟨1, 0, 0, 0, 0⟩, List.cons_ne_nil _ _⟩]

def emptyDisk : Disk := ⟨[], [], []⟩

/-- Hashing, the update of one hash and the end of the update, then the
strange offer up to its answer. -/
def strangeRun : List OpenAct :=
  List.replicate 4 (.own .run) ++ List.replicate 17 (.own (.download 1)) ++
    [.remote .start { Link.start with offers := .closedOf strangeOffer }, .own (.download 1),
      .own (.download 60), .own (.download 1)]

theorem strangeRun_answers :
    ∃ p up down, (openSystem ⟨.dccp, []⟩).exec (opened oneImage emptyDisk .start .start)
        strangeRun = some (p, up, down) ∧
      p.download = .answer 3 (List.replicate 60 7) := by
  have hpc : ((openSystem ⟨.dccp, []⟩).exec (opened oneImage emptyDisk .start .start)
      strangeRun).map (fun s => s.1.download) = some (.answer 3 (List.replicate 60 7)) := by
    decide +kernel
  obtain ⟨⟨p, up, down⟩, hrun, hp⟩ := Option.map_eq_some_iff.mp hpc
  exact ⟨p, up, down, hrun, hp⟩

theorem answers_final_index_strangeOffer :
    ∃ p up down, (openSystem ⟨.dccp, []⟩).exec (opened oneImage emptyDisk .start .start)
        strangeRun = some (p, up, down) ∧ Drained oneImage p := by
  obtain ⟨p, up, down, hrun, hpc⟩ := strangeRun_answers
  exact ⟨p, up, down, hrun, (answers_final_index ⟨_, hrun⟩ (Or.inl ⟨_, _, hpc⟩)).1⟩

/-! ## Memory -/

/-- **Every access is inside its buffer.** -/
structure AccessesInRange (cfg : Config) (p : Peer) : Prop where
  noOverrun : p.download ≠ .overrun ∧ p.upload ≠ .overrun ∧ p.receiving.pc ≠ .overrun ∧
    p.pipe.uploader ≠ .overrun
  offer : ∀ hashCount buf, p.download = .offer hashCount buf →
    hashCount.toNat * sizeofExifHash ≤ sizeofOffer ∧
      buf.length ≤ hashCount.toNat * sizeofExifHash
  -- a bitmask of `ceil(hash_count / 8)` bytes would do
  setBit : ∀ hashCount buf, p.download = .answer hashCount buf →
    foundBitmaskSize hashCount.toNat ≤ sizeofFoundBitmask ∧
      (answerOffer p.contains (foundBitmaskSize hashCount.toNat) buf).isSome
  filename : ∀ hash filenameLen filename missing,
    p.download = .name hash filenameLen filename missing →
      filename.length ≤ filenameLen.toNat ∧ filenameLen.toNat < sizeofFilename
  mask : ∀ buf missing, p.upload = .mask buf missing →
    buf.length ≤ foundBitmaskSize missing.length ∧
      foundBitmaskSize missing.length ≤ sizeofFoundBitmask
  testBit : ∀ cursor e rest, p.upload = .entry cursor (e :: rest) →
    ∃ missing, p.pipe.uploader = .offer missing ∧
      cursor.foundBitmask.length = foundBitmaskSize missing.length ∧
      cursor.found < foundBitmaskSize missing.length
  update : ∀ buf, p.receiving.pc = .insert buf →
    buf.length ≤ updateSize cfg ∧
      (insertUpdate buf buf.length p.receiving.receivedHashes).isSome
  packet : ∀ segment, p.pipe.downloader = .send segment →
    (updatePacket (updateSize cfg) segment).isSome

/-- **Memory bounds against an arbitrary peer.** -/
theorem accesses_in_range
    (hp : (openSystem cfg).Reachable (opened scans disk up₀ down₀) (p, up, down)) :
    AccessesInRange cfg p := by
  have h := sound_of_reachable hp
  have hsize : ∀ n, n ≤ syncHashesPerPacket → foundBitmaskSize n ≤ sizeofFoundBitmask :=
    fun n hn => foundBitmaskSize_mono hn
  have hdown := h.downloadBounds
  have hrecv := h.receiveBounds
  refine ⟨⟨?_, h.notOverrun, ?_, ?_⟩, ?_, ?_, ?_, ?_, ?_, ?_, ?_⟩
  · intro ho
    rw [ho] at hdown
    exact hdown
  · intro ho
    unfold Receiving.InBounds at hrecv
    rw [ho] at hrecv
    exact hrecv
  · intro ho
    have hfacts := h.inv.facts
    simp [Pipeline.UploaderFacts, ho] at hfacts
  · intro hashCount buf heq
    rw [heq] at hdown
    exact ⟨Nat.mul_le_mul_right _ hdown.1, hdown.2⟩
  · intro hashCount buf heq
    rw [heq] at hdown
    obtain ⟨a, ha, _⟩ := Reception.answerOffer_isSome p.contains hdown (Nat.le_refl _)
    exact ⟨hsize _ hdown.1, by rw [ha]; rfl⟩
  · intro hash filenameLen filename missing heq
    rw [heq] at hdown
    have hlt := filenameLen.toNat_lt
    exact ⟨hdown, by simp only [sizeofFilename]; omega⟩
  · intro buf missing heq
    obtain ⟨m, _, hb, _⟩ := h.round (by simp [heq, UploadPc.InRound])
    rw [heq] at hb
    obtain ⟨hlen, hle, hbuf⟩ := hb
    rw [hlen]
    exact ⟨hbuf, hsize _ hle⟩
  · intro cursor e rest heq
    obtain ⟨m, hoff, hb, _⟩ := h.round (by simp [heq, UploadPc.InRound])
    rw [heq] at hb
    obtain ⟨hfound, hlen, _⟩ := MaskCursor.AtEntry.inMask hb
    exact ⟨m, hoff, hlen, hfound⟩
  · intro buf heq
    unfold Receiving.InBounds at hrecv
    rw [heq] at hrecv
    obtain ⟨n, hn, hlen, hle⟩ := hrecv
    obtain ⟨r, hr, _⟩ := insertUpdate_spec buf n p.receiving.receivedHashes hn
      (Nat.le_of_eq hlen.symm)
    refine ⟨hle, ?_⟩
    rw [hlen, hr]
    rfl
  · intro segment heq
    rw [(h.packet heq).2.2.2]
    rfl

theorem accesses_in_range_strangeOffer :
    ∃ p up down, (openSystem ⟨.dccp, []⟩).exec (opened oneImage emptyDisk .start .start)
        strangeRun = some (p, up, down) ∧ AccessesInRange ⟨.dccp, []⟩ p := by
  obtain ⟨p, up, down, hrun, _⟩ := strangeRun_answers
  exact ⟨p, up, down, hrun, accesses_in_range ⟨_, hrun⟩⟩

end Peer
end Jpgsync
