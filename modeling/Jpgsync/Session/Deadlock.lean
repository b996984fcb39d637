import Jpgsync.Download.Progress
import Jpgsync.Peer.Files
import Jpgsync.Pipeline.Progress
import Jpgsync.Session.Damage

/-!
# Session — Deadlock

Two peers never wait for each other. Inside a peer a thread that cannot
move waits for a thread that can, or for its connection: the downloader for
bytes of an offer or a file, the uploader for the end of the update or for
an answer (`canMove_or_stalled`). The two ends of one direction do not both
wait, because the bytes one of them needs are on their way or are still to
be written by the other (`closed_of_stalled`); and the ends of a peer that
is gone are closed, which wakes the other side. So as long as a peer has
neither returned nor called `Fatal`, somebody can take a step of its own
(`canMove_of_exact`), and one at which reading and writing files works.
-/

namespace Jpgsync

open DownloadPc

/-- **When an upload round moves**: unless it needs bytes of the answer that
are not there. -/
theorem Emission.step_enabled {total : Nat} {s : Emission} (h : s.pc.InBounds total)
    (hin : s.pc.InRound) (hentry : ∀ cursor, s.pc ≠ .entry cursor [])
    (hready : ∀ buf missing, s.pc = .mask buf missing →
      buf.length ≠ foundBitmaskSize missing.length →
        s.input.closed = true ∨ s.input.pending ≠ []) :
    ∃ k, (∀ fileSize l, s.pc = .read fileSize l → fileSize ≤ k) ∧ (s.step k).isSome := by
  have hwrite : ∀ {rest next more}, (s.write rest 1 next more).isSome := by
    intro rest next more
    obtain ⟨r, hr⟩ := Option.isSome_iff_exists.mp (@writeExactly_isSome s.output rest)
    cases r <;> simp [write, hr]
  cases hpc : s.pc with
  | offer rest missing => exact ⟨1, by simp, by rw [step, hpc]; exact hwrite⟩
  | name rest l => exact ⟨1, by simp, by rw [step, hpc]; exact hwrite⟩
  | size rest fileSize l => exact ⟨1, by simp, by rw [step, hpc]; exact hwrite⟩
  | payload rest l => exact ⟨1, by simp, by rw [step, hpc]; exact hwrite⟩
  | mask buf missing =>
      rw [hpc] at h
      have hle : buf.length ≤ foundBitmaskSize missing.length := by
        rw [h.1]
        exact h.2.2
      have hbytes : s.input.closed = true ∨
          (buf.length ≠ foundBitmaskSize missing.length → s.input.pending ≠ []) := by
        by_cases hlen : buf.length = foundBitmaskSize missing.length
        · exact Or.inr fun hne => absurd hlen hne
        · exact (hready buf missing hpc hlen).imp_right fun hp _ => hp
      obtain ⟨r, hr⟩ := Option.isSome_iff_exists.mp (readExactly_isSome hle hbytes)
      refine ⟨1, by simp, ?_⟩
      rw [step, hpc]
      dsimp only
      split
      · rfl
      · cases r <;> simp [hr]
  | entry cursor missing =>
      cases missing with
      | nil => exact absurd hpc (hentry cursor)
      | cons e rest =>
          refine ⟨1, by simp, ?_⟩
          rw [step, hpc]
          dsimp only
          split <;> rfl
  | openFile l =>
      refine ⟨1, by simp, ?_⟩
      rw [step, hpc]
      dsimp only
      split <;> rfl
  | read fileSize l =>
      exact ⟨fileSize, fun n l' heq => by cases heq; exact Nat.le_refl _, by rw [step, hpc]; rfl⟩
  | wait | lockUpdated | setUpdated | main | closed | overrun => rw [hpc] at hin; exact hin.elim

namespace Peer

/-- A step a thread takes by itself: no spurious wake-up, and of the update
receiver only the end of its update and its critical section. -/
def Own (p : Peer) : Act → Prop
  | .getWakes | .uploaderWakes => False
  | .receive _ => p.receiving.updatedMutex = some .receiver
  | .run | .endOfUpdate | .upload _ | .download _ | .return => True

instance (p : Peer) : DecidablePred (Own p)
  | .getWakes | .uploaderWakes => isFalse id
  | .receive _ => inferInstanceAs (Decidable (_ = _))
  | .run | .endOfUpdate | .upload _ | .download _ | .return => isTrue trivial

/-- The calls on files move all they are asked to. -/
def Whole (p : Peer) : Act → Prop
  | .download k => p.download.StoresAll k
  | .upload k => ∀ fileSize l, p.upload = .read fileSize l → fileSize ≤ k
  | .run | .getWakes | .uploaderWakes | .receive _ | .endOfUpdate | .return => True

/-- Some thread can take a step of its own, which does not fail a file. -/
def CanMove (cfg : Config) (p : Peer) (up down : Link) : Prop :=
  ∃ a, Own p a ∧ Whole p a ∧ (p.step cfg up down a).isSome

/-- The peer has ended by itself, by returning from `Sync` or by `Fatal`; a
process that a failing call ends is killed (`Mortal.killed`). -/
def Ended (p : Peer) : Prop := p.terminated = true ∨ p.returned = true

/-- The uploader waits for bytes of a connection that is open, or is done. -/
inductive UpStalled (p : Peer) (up : Link) : Prop
  | closed (hpc : p.upload = .closed)
  | wait (hpc : p.upload = .wait) (hopen : up.replies.closed = false)
      (hpending : up.replies.pending = [])
  | mask (buf : Bytes) (missing : List Entry) (hpc : p.upload = .mask buf missing)
      (hshort : buf.length ≠ foundBitmaskSize missing.length)
      (hopen : up.replies.closed = false) (hpending : up.replies.pending = [])

/-- The downloader waits for bytes of a connection that is open, or is
done. -/
inductive DownStalled (p : Peer) (down : Link) : Prop
  | closed (hpc : p.download = .closed)
  | read (hpc : p.download = .count ∨ Short p.download) (hopen : down.offers.closed = false)
      (hpending : down.offers.pending = [])

variable {cfg : Config} {scans : List Scan} {p : Peer} {up down : Link}

theorem step_isSome {a : Act} (hlive : ¬ p.Ended) (h : (p.stepOpen cfg up down a).isSome) :
    (p.step cfg up down a).isSome := by
  rw [step, if_neg (show ¬ (_ ∨ _) from hlive), Option.isSome_map]
  exact h

theorem CanMove.run (hlive : ¬ p.Ended) (h : (p.pipe.hasher.runStep (runArgs cfg)).isSome) :
    CanMove cfg p up down :=
  ⟨.run, trivial, trivial, step_isSome hlive (by
    simpa [stepOpen, Pipeline.step] using h)⟩

theorem CanMove.download {k : Nat} (hlive : ¬ p.Ended) (hstores : p.download.StoresAll k)
    (h : (p.downloadStep cfg k down).isSome) : CanMove cfg p up down :=
  ⟨.download k, trivial, hstores, step_isSome hlive (by simpa [stepOpen] using h)⟩

theorem CanMove.upload {k : Nat} (hlive : ¬ p.Ended)
    (hreads : ∀ fileSize l, p.upload = .read fileSize l → fileSize ≤ k)
    (h : (p.uploadStep cfg k up).isSome) : CanMove cfg p up down :=
  ⟨.upload k, trivial, hreads, step_isSome hlive (by simpa [stepOpen] using h)⟩

/-- A peer both of whose threads are done returns. -/
theorem CanMove.returns (hlive : ¬ p.Ended) (hup : p.upload = .closed)
    (hdown : p.download = .closed) : CanMove cfg p up down :=
  ⟨.return, trivial, trivial, step_isSome hlive (by simp [stepOpen, hup, hdown])⟩

namespace Sound

/-! ## Inside a peer -/

/-- An uploader that has begun to look for entries is in its main loop. -/
theorem main_of_uploader (h : p.Sound cfg scans) (hload : p.pipe.uploader ≠ .load)
    (hoffer : ∀ missing, p.pipe.uploader ≠ .offer missing)
    (hfin : p.pipe.uploader ≠ .finished) : p.upload = .main := by
  have hbefore : ¬ p.upload.BeforeUpdate := fun hb => hload (h.waiting hb).1
  have hround : ¬ p.upload.InRound := fun hr => by
    obtain ⟨missing, hm, _⟩ := h.round hr
    exact hoffer missing hm
  cases hpc : p.upload with
  | main => rfl
  | closed => exact absurd (h.closed hpc) hfin
  | overrun => exact absurd hpc h.notOverrun
  | wait | lockUpdated | setUpdated => exact absurd (by rw [hpc]; trivial) hbefore
  | _ => exact absurd (by rw [hpc]; trivial) hround

/-- The hashing thread moves, or the caller of `Get` leaves its critical
section first. -/
theorem run_canMove (h : p.Sound cfg scans) (hL : p.pipe.hasher.Locks) (hlive : ¬ p.Ended)
    (hrun : p.pipe.hasher.run ≠ .exited) : CanMove cfg p up down := by
  by_cases hget : p.pipe.hasher.mutex = some .get
  · obtain ⟨count, htest⟩ := hL.get.mp hget
    have hd : p.pipe.downloader = .get := by
      by_contra hne
      simp [h.inv.inGet hne] at htest
    have hpc : p.download = .update := by
      by_contra hne
      simp [h.downloading hne] at hd
    refine .download (k := 0) hlive (by rw [hpc]; trivial) ?_
    have hstep : p.pipe.hasher.getStep.isSome := by
      rw [ExifHasher.getStep, htest]
      dsimp only
      split <;> rfl
    simp only [downloadStep, hpc, updateStep, hd, htest, reduceCtorEq, if_false, Option.isSome_map]
    exact Pipeline.downloaderStep_isSome_of_get hd hstep
  · exact .run hlive (hL.runStep_isSome hrun hget)

/-- **The update loop moves**, or another thread does that has a lock it
needs. -/
theorem update_canMove (h : p.Sound cfg scans) (hL : p.pipe.hasher.Locks) (hlive : ¬ p.Ended)
    (hpc : p.download = .update) : CanMove cfg p up down := by
  by_cases hrun : p.pipe.hasher.run = .exited
  case neg => exact h.run_canMove hL hlive hrun
  have hdone := h.handOver.done.mpr hrun
  have hdown : (p.updateStep cfg down).isSome → CanMove cfg p up down := fun hsome =>
    .download (k := 0) hlive (by rw [hpc]; trivial) (by rw [downloadStep, hpc]; exact hsome)
  cases hd : p.pipe.downloader with
  | get =>
      refine hdown ?_
      simp only [updateStep, hd, Option.isSome_map]
      by_cases hidle : p.pipe.hasher.get = .idle
      · simp [hidle, Pipeline.step, hd, cfg.protocol.hashesPerPacket_pos]
      · rw [if_neg hidle, Pipeline.step, Pipeline.downloaderStep, hd]
        dsimp only
        split
        · rfl
        · rename_i hout
          rw [Option.isSome_map]
          refine hL.getStep_isSome h.handOver ?_ ?_ hidle hout
          · intro hm
            have := hL.run.mp hm
            simp [hrun] at this
          · intro count hasleep
            have hfacts := h.handOver.facts
            simp [ExifHasher.GetFacts, hasleep, hdone] at hfacts
  | send segment =>
      refine hdown ?_
      simp only [updateStep, hd]
      split
      · rfl
      · simp [Pipeline.step, Pipeline.downloaderStep, hd]
  -- the uploader may have the mutex, and then it moves
  | doneLock =>
      cases hm : p.pipe.progressMutex with
      | none =>
          exact hdown (by simp [updateStep, hd, Pipeline.step, Pipeline.downloaderStep, hm])
      | some thread =>
          cases thread with
          | downloader => simp [h.inv.lockedDown.mp hm] at hd
          | uploader =>
              have hup := h.inv.lockedUp.mp hm
              have hmain : p.upload = .main := h.main_of_uploader
                (by rcases hup with ⟨total, hup⟩ | hup <;> simp [hup])
                (by rcases hup with ⟨total, hup⟩ | hup <;> simp [hup])
                (by rcases hup with ⟨total, hup⟩ | hup <;> simp [hup])
              refine .upload (k := 0) hlive (by simp [hmain]) ?_
              rcases hup with ⟨total, hup⟩ | hup <;>
                simp [uploadStep, hmain, hup, Pipeline.step, Pipeline.uploaderStep]
  | fetchAdd segment | notify segment | done | finished =>
      exact hdown (by simp [updateStep, hd, Pipeline.step, Pipeline.downloaderStep])

/-- **Past the update loop** the downloader moves or waits for its
connection. -/
theorem download_canMove (h : p.Sound cfg scans) (hlive : ¬ p.Ended)
    (hpc : p.download ≠ .update) : CanMove cfg p up down ∨ DownStalled p down := by
  have hloop : ∀ k, p.download ≠ .notify →
      ((p.reception down).step p.contains cfg.downloadDir k).isSome →
      (p.downloadStep cfg k down).isSome := by
    intro k hn hsome
    rw [downloadStep]
    split
    · rename_i heq; exact absurd heq hpc
    · rename_i heq; exact absurd heq hn
    · rw [Option.isSome_map]; exact hsome
  by_cases hn : p.download = .notify
  · exact Or.inl (.download (k := 0) hlive (by rw [hn]; trivial) (by simp [downloadStep, hn]))
  by_cases hc : p.download = .closed
  · exact Or.inr (.closed hc)
  -- a file may be stored whole
  by_cases hs : ∃ hash filename target file missing,
      p.download = .store hash filename target file missing
  · obtain ⟨hash, filename, target, file, missing, hs⟩ := hs
    refine Or.inl (.download (k := file.length) hlive ?_ (hloop _ hn ?_))
    · rw [hs]
      exact fun _ => Nat.le_refl _
    · rw [Reception.step, show (p.reception down).pc = _ from hs]
      rfl
  have hstores : p.download.StoresAll 1 := by
    cases hd : p.download with
    | store hash filename target file missing =>
        exact absurd ⟨hash, filename, target, file, missing, hd⟩ hs
    | _ => trivial
  have hin : InLoop p.download := by
    cases hd : p.download <;> trivial
  by_cases hready : down.offers.closed = true ∨
      p.download ≠ .count ∧ (Short p.download → down.offers.pending ≠ [])
  · exact Or.inl (.download hlive hstores (hloop 1 hn
      (Reception.step_enabled (s := p.reception down) h.downloadBounds hin hc hready)))
  · simp only [not_or, not_and, not_forall, Bool.not_eq_true, ne_eq, not_not] at hready
    obtain ⟨hopen, hwaits⟩ := hready
    by_cases hcount : p.download = .count
    · by_cases hpending : down.offers.pending = []
      · exact Or.inr (.read (Or.inl hcount) hopen hpending)
      · refine Or.inl (.download hlive hstores (hloop 1 hn ?_))
        obtain ⟨⟨byte, input⟩, hbyte⟩ := Option.isSome_iff_exists.mp
          (readByte_isSome (Or.inr hpending))
        rw [Reception.step, show (p.reception down).pc = _ from hcount]
        simp only [show (p.reception down).input = down.offers from rfl, hbyte]
        cases byte with
        | none => rfl
        | some hashCount =>
            dsimp only
            split <;> rfl
    · obtain ⟨hshort, hpending⟩ := hwaits hcount
      exact Or.inr (.read (Or.inr hshort) hopen hpending)

/-- **Past the update loop of its own side** the uploader moves, or it waits
for its connection. -/
theorem upload_canMove (h : p.Sound cfg scans) (hlive : ¬ p.Ended)
    (hd : p.download ≠ .update) : CanMove cfg p up down ∨ UpStalled p up := by
  have hround : ∀ k, p.upload.InRound → (∀ cursor, p.upload ≠ .entry cursor []) →
      ((p.emission up).step k).isSome → (p.uploadStep cfg k up).isSome := by
    intro k hin hne hsome
    rw [uploadStep]
    dsimp only
    split
    all_goals first
      | (rename_i heq; rw [heq] at hin; exact hin.elim)
      | (rename_i heq; exact absurd heq (hne _))
      | (rw [Option.isSome_map]; exact hsome)
  have hgo : p.upload.InRound → (∀ cursor, p.upload ≠ .entry cursor []) →
      (∀ buf missing, p.upload = .mask buf missing →
        buf.length ≠ foundBitmaskSize missing.length →
          up.replies.closed = true ∨ up.replies.pending ≠ []) → CanMove cfg p up down := by
    intro hin hne hready
    obtain ⟨missing, _, hbounds, _⟩ := h.round hin
    obtain ⟨k, hreads, hsome⟩ := Emission.step_enabled (s := p.emission up) hbounds hin hne hready
    exact .upload hlive hreads (hround k hin hne hsome)
  cases hpc : p.upload with
  | wait =>
      by_cases hready : up.replies.closed = true ∨ up.replies.pending ≠ []
      · refine Or.inl (.upload (k := 0) hlive (by simp [hpc]) ?_)
        obtain ⟨⟨byte, replies⟩, hbyte⟩ := Option.isSome_iff_exists.mp (readByte_isSome hready)
        cases byte <;> simp [uploadStep, hpc, hbyte]
      · simp only [not_or, Bool.not_eq_true, ne_eq, not_not] at hready
        exact Or.inr (.wait hpc hready.1 hready.2)
  -- the update receiver may have the mutex, and then it leaves its critical section
  | lockUpdated =>
      cases hm : p.receiving.updatedMutex with
      | none =>
          exact Or.inl (.upload (k := 0) hlive (by simp [hpc]) (by simp [uploadStep, hpc, hm]))
      | some thread =>
          cases thread with
          | uploader => simp [h.lockedUp.mp hm] at hpc
          | receiver =>
              obtain ⟨buf, hbuf⟩ := h.lockedReceiver.mp hm
              refine Or.inl ⟨.receive 0, hm, trivial, step_isSome hlive ?_⟩
              rw [Peer.stepOpen, Option.isSome_map, Receiving.step, hbuf]
              dsimp only
              split
              · rfl
              · split <;> rfl
  | setUpdated => exact Or.inl (.upload (k := 0) hlive (by simp [hpc]) (by simp [uploadStep, hpc]))
  | main =>
      refine Or.inl (.upload (k := 0) hlive (by simp [hpc]) ?_)
      by_cases hfin : p.pipe.uploader = .finished
      · simp [uploadStep, hpc, hfin]
      · have hsome := @Pipeline.uploaderStep_isSome p.receiving.receivedHashes p.pipe h.inv
          (h.downloading hd) hfin
        rw [uploadStep, hpc]
        dsimp only
        split
        · rename_i heq
          exact absurd heq hfin
        · rw [Option.isSome_map]
          exact hsome
  | closed => exact Or.inr (.closed hpc)
  | overrun => exact absurd hpc h.notOverrun
  | entry cursor missing =>
      cases missing with
      | nil =>
          obtain ⟨missing, hoffer, _⟩ := h.round (by rw [hpc]; trivial)
          refine Or.inl (.upload (k := 0) hlive (by simp [hpc]) ?_)
          simp [uploadStep, hpc, Pipeline.step, Pipeline.uploaderStep, hoffer]
      | cons e rest => exact Or.inl (hgo (by rw [hpc]; trivial) (by simp [hpc]) (by simp [hpc]))
  | mask buf missing =>
      by_cases hready : buf.length ≠ foundBitmaskSize missing.length →
          up.replies.closed = true ∨ up.replies.pending ≠ []
      · exact Or.inl (hgo (by rw [hpc]; trivial) (by simp [hpc])
          (fun buf' missing' heq => by rw [hpc] at heq; cases heq; exact hready))
      · simp only [Classical.not_imp, not_or, Bool.not_eq_true, ne_eq, not_not] at hready
        exact Or.inr (.mask buf missing hpc hready.1 hready.2.1 hready.2.2)
  | _ => exact Or.inl (hgo (by rw [hpc]; trivial) (by simp [hpc]) (by simp [hpc]))

/-- **Inside a peer nobody waits for ever**: a thread can move, or both
threads on the connections wait for them. -/
theorem canMove_or_stalled (h : p.Sound cfg scans) (hL : p.pipe.hasher.Locks)
    (hlive : ¬ p.Ended) : CanMove cfg p up down ∨ UpStalled p up ∧ DownStalled p down := by
  by_cases hd : p.download = .update
  · exact Or.inl (h.update_canMove hL hlive hd)
  · rcases h.upload_canMove hlive hd with hmove | hup
    · exact Or.inl hmove
    · exact (h.download_canMove hlive hd).imp_right fun hdown => ⟨hup, hdown⟩

end Sound
end Peer

/-! ## Between the peers -/

namespace Session

variable {A B SX SY : Site} {X Y : Peer} {L M : Link} {s : Session}

/-- A downloader whose connection is open and empty needs more bytes than
the files in flight and an offer that has been sent have left. -/
theorem not_stalled {buf : Bytes} {missing : List Entry} {received inflight : List SentFile}
    {todo opening answered : List Entry} (h : Aligned SX X SY Y L)
    (hA : Account Y.contains X Y L received inflight todo opening answered)
    (hup : X.upload = .mask buf missing)
    (hshort : buf.length ≠ foundBitmaskSize missing.length) (hreplies : L.replies.pending = [])
    (hoffers : L.offers.pending = []) (hdown : Y.download = .count ∨ Short Y.download) : False := by
  have hx := h.sound.1.upstream h.announced
  have hbounds := h.sound.2.downloadBounds
  have hflow := hA.flow
  rw [hup] at hflow hx
  cases hflow with
  | waiting hwait => cases hwait
  | notified byte hwait => cases hwait
  -- the offer is out and not answered: its count, or the rest of it, would be pending
  | flowing _ _ hne hy hxa hya hr htodo hbytes =>
      obtain rfl : [] = todo := Option.some.inj htodo
      have hawait := hA.awaited
      rw [hoffers, List.append_nil, show UploadPc.unsent (.mask buf missing) = [] from rfl,
        List.append_nil, show UploadPc.started (.mask buf missing) = offerBytes missing from rfl]
        at hbytes
      rw [List.append_nil] at hawait
      cases inflight with
      | cons f fs =>
          have hsize := h.sizes f (by rw [hA.uploads]; simp)
          have hne' : awaited Y.download ≠ [] := by
            rw [hawait]
            simp
          rcases hdown with hcount | hshort'
          · rw [hcount] at hne'
            exact hne' rfl
          · exact short_ne_files hbounds hshort' hne' hsize.2 hbytes
      | nil =>
          rw [filesBytes_nil, List.nil_append, offerBytes] at hbytes
          rcases hdown with hcount | hshort'
          · rw [hcount] at hbytes
            cases hbytes
          · cases hpc : Y.download with
            | offer hashCount rest =>
                rw [hpc, consumed, List.cons.injEq] at hbytes
                rw [hpc, Short] at hshort'
                have hcount : missing.length ≤ syncHashesPerPacket := hx.count
                rw [hbytes.1, toNat_offerCount hcount, hbytes.2, ExifHash.length_digests,
                  List.length_map] at hshort'
                exact hshort' rfl
            | file missing' =>
                rw [hpc] at hbytes
                cases hbytes
            | name | size | payload => rw [hpc] at hawait; cases hawait
            | _ => rw [hpc] at hshort'; exact hshort'
  -- the answer is out, so the uploader has all of it
  | answered mask hask hxu hy hc ho hmask hlen hupl =>
      have hya : unanswered Y.download = [] := by
        rcases hdown with hcount | hshort'
        · rw [hcount]; rfl
        · cases hpc : Y.download with
          | mask rest missing' => rw [hpc] at hshort'; exact hshort'.elim
          | _ => rfl
      rw [hreplies, hya, List.append_nil, List.append_nil] at hmask
      rw [← hmask] at hlen
      exact hshort hlen

/-- **The two ends of a direction do not both wait**: where neither moves,
both are done. -/
theorem closed_of_stalled (h : Aligned SX X SY Y L) (he : Ends X Y L) (hup : X.UpStalled L)
    (hdown : Y.DownStalled L) : X.upload = .closed ∧ Y.download = .closed := by
  cases hdown with
  | closed hpc => exact ⟨he.order hpc, hpc⟩
  | read hpc hopen hpending =>
      exfalso
      obtain ⟨received, inflight, todo, opening, answered, hA⟩ := h.account
      cases hup with
      | closed hx =>
          rw [h.closed.mpr hx] at hopen
          cases hopen
      | wait hx hropen hrpending =>
          have hflow := hA.flow
          rw [hx] at hflow
          cases hflow with
          | waiting _ hy =>
              refine hy ?_
              cases hpc' : Y.download <;> rw [hpc'] at hpc <;> first
                | trivial
                | exact absurd hpc (by simp [Short])
          | notified byte _ hy hc hu ho hr => rw [hr] at hrpending; cases hrpending
          | flowing _ _ hne => exact hne rfl
          | answered mask hask => exact hask rfl
      | mask buf missing hx hshort hropen hrpending =>
          exact not_stalled h hA hx hshort hrpending hpending hpc

end Session

namespace Peer

/-- The steps that the account of a session follows: an offer that is
answered is answered exactly, a file that is opened fits its four bytes. -/
def Exact (p : Peer) : Act → Prop
  | .download _ => p.download.AnswersExactly p.contains
  | .upload _ => p.upload.SizeFits p.host.disk
  | .run | .getWakes | .uploaderWakes | .receive _ | .endOfUpdate | .return => True

instance (p : Peer) : DecidablePred (Exact p)
  | .download _ => inferInstanceAs (Decidable (DownloadPc.AnswersExactly _ _))
  | .upload _ => inferInstanceAs (Decidable (UploadPc.SizeFits _ _))
  | .run | .getWakes | .uploaderWakes | .receive _ | .endOfUpdate | .return => isTrue trivial

variable {cfg : Config} {scans : List Scan} {p q : Peer} {up down up' down' : Link} {a : Act}

/-- The owner of `mutex_` stays the thread in its critical section. -/
theorem Sound.locks_step (h : Sound cfg scans p) (hL : p.pipe.hasher.Locks)
    (hst : p.step cfg up down a = some (q, up', down')) : q.pipe.hasher.Locks := by
  rcases h.pipe_of_step hst with hsame | ⟨b, hpipe⟩
  · rwa [hsame]
  · exact Pipeline.locks_step hL hpipe

/-- Only the other side closes what an uploader reads. -/
theorem UpMove.live (h : UpMove p up a q up') (hlive : q.terminated = false) :
    up'.replies.closed = up.replies.closed := by
  cases h with
  | noUpdate hpc hclosed hpending hdead _ _ _ _ =>
      rw [hlive] at hdead
      cases hdead
  | waited byte hpc hupload huploads hoffered hoffers hpending hclosed => exact hclosed
  | emission k r ha hround hr hupload huploads hhost hoffered hoffers hreplies =>
      rw [hreplies]
      exact (Aligned.emission_closed hr hround).2.1
  | other _ _ _ _ hreplies | idle _ _ _ _ _ _ hreplies | leave _ _ _ _ _ hreplies
  | beginRound _ _ _ _ _ _ hreplies => rw [hreplies]

/-- What a peer that has called `Fatal` leaves behind. -/
theorem Sound.hungUp_of_step (h : Sound cfg scans p)
    (hst : p.step cfg up down a = some (q, up', down')) (hdead : q.terminated = true) :
    up'.offers.closed = true ∧ down'.replies.closed = true := by
  obtain ⟨_, _, up₁, down₁, _, _, hhung⟩ := h.move_of_step hst
  obtain ⟨rfl, rfl⟩ : up' = _ ∧ down' = _ := by simpa [hangUp] using hhung hdead
  exact ⟨rfl, rfl⟩

/-- A peer whose connections are closed can move. -/
theorem Sound.canMove_of_closed (h : Sound cfg scans p) (hL : p.pipe.hasher.Locks)
    (hlive : ¬ p.Ended) (hreplies : up.replies.closed = true)
    (hoffers : down.offers.closed = true) : CanMove cfg p up down := by
  rcases h.canMove_or_stalled hL hlive with hmove | ⟨hup, hdown⟩
  · exact hmove
  · refine .returns hlive ?_ ?_
    · cases hup with
      | closed hpc => exact hpc
      | wait _ hopen | mask _ _ _ _ hopen => rw [hreplies] at hopen; cases hopen
    · cases hdown with
      | closed hpc => exact hpc
      | read _ hopen => rw [hoffers] at hopen; cases hopen

end Peer

namespace Session

variable {A B SX SY : Site} {X Y : Peer} {L M : Link} {s : Session}

/-- **What a peer that is `gone` leaves behind**: its ends are closed, unless
the other one has called `Fatal`. -/
def HungUp (gone : Bool) (Y : Peer) (L M : Link) : Prop :=
  gone = true → Y.terminated = true ∨ L.offers.closed = true ∧ M.replies.closed = true

theorem HungUp.of_not {gone : Bool} (h : gone = false) : HungUp gone Y L M := fun hgone => by
  rw [h] at hgone
  cases hgone

/-- The other peer reads closed ends as closed. -/
theorem HungUp.step {gone : Bool} {Y' : Peer} {L' M' : Link} {act : Peer.Act}
    (h : HungUp gone Y L M) (hsound : Y.Sound SY.cfg SY.scans)
    (hst : Y.step SY.cfg M L act = some (Y', M', L')) : HungUp gone Y' L' M' := by
  intro hdead
  cases hlive : Y'.terminated with
  | true => exact Or.inl rfl
  | false =>
      rcases h hdead with hY | ⟨ho, hr⟩
      · simp [Peer.step, hY] at hst
      · obtain ⟨hup, hdown⟩ := hsound.ends_of_step hst hlive
        exact Or.inr ⟨(hdown.live hlive).1.trans ho, (hup.live hlive).trans hr⟩

/-- What holds in every reachable state, whatever is answered. -/
structure Standing (A B : Site) (s : Session) : Prop where
  sound : s.a.Sound A.cfg A.scans ∧ s.b.Sound B.cfg B.scans
  locks : s.a.pipe.hasher.Locks ∧ s.b.pipe.hasher.Locks
  hungUp : HungUp s.a.terminated s.b s.ab s.ba ∧ HungUp s.b.terminated s.a s.ba s.ab

theorem standing_of_reachable (hs : (system A B).Reachable (start A B) s) : Standing A B s := by
  refine hs.invariant (I := Standing A B) ?_ ⟨⟨Peer.sound_start _ _ _, Peer.sound_start _ _ _⟩,
    ⟨ExifHasher.locks_start _, ExifHasher.locks_start _⟩, .of_not rfl, .of_not rfl⟩
  rintro s ⟨side, act⟩ t ⟨⟨ha, hb⟩, ⟨hla, hlb⟩, hab, hba⟩ hst
  cases side with
  | a =>
      obtain ⟨⟨p, up, down⟩, hp, rfl⟩ := Option.map_eq_some_iff.mp hst
      exact ⟨⟨ha.step hp, hb⟩, ⟨ha.locks_step hla hp, hlb⟩,
        fun hdead => Or.inr (ha.hungUp_of_step hp hdead), hba.step ha hp⟩
  | b =>
      obtain ⟨⟨p, up, down⟩, hp, rfl⟩ := Option.map_eq_some_iff.mp hst
      exact ⟨⟨ha, hb.step hp⟩, ⟨hla, hb.locks_step hlb hp⟩, hab.step hb hp,
        fun hdead => Or.inr (hb.hungUp_of_step hp hdead)⟩

/-- The directions of two peers that are both still there. -/
def BothWays (A B : Site) (s : Session) : Prop :=
  (Aligned A s.a B s.b s.ab ∧ Ends s.a s.b s.ab) ∧ Aligned B s.b A s.a s.ba ∧ Ends s.b s.a s.ba

/-- While nobody has called `Fatal`, both directions are aligned. -/
theorem bothWays_of_exact (hs : (system A B).Reaches (each Peer.Exact) (start A B) s)
    (ha : s.a.terminated = false) (hb : s.b.terminated = false) : BothWays A B s := by
  rcases live_directions (D := fun SX X SY Y L => Aligned SX X SY Y L ∧ Ends X Y L)
    (fun ⟨h, he⟩ hok hst hlive => ⟨h.up (fun k hk => by subst hk; exact hok) hst hlive,
      he.up h.sound.1 hst hlive⟩)
    (fun ⟨h, he⟩ hok hst hlive => ⟨h.down (fun k hk => by subst hk; exact hok) hst,
      he.down h hst hlive⟩)
    ⟨⟨.start A B, .start A B⟩, .start B A, .start B A⟩ hs with hdead | hdead | hboth
  · rw [ha] at hdead
    cases hdead
  · rw [hb] at hdead
    cases hdead
  · exact hboth

/-- A peer moves when the other one is gone. -/
theorem canMove_of_ended (hsound : Y.Sound SY.cfg SY.scans) (hL : Y.pipe.hasher.Locks)
    (hlive : ¬ Y.Ended) (hX : X.Ended) (hungUp : HungUp X.terminated Y L M)
    (hreturned : X.ReturnedClosed)
    (hways : X.terminated = false → (Aligned SX X SY Y L ∧ Ends X Y L) ∧ Ends Y X M) :
    Y.CanMove SY.cfg M L := by
  have hY : Y.terminated ≠ true := fun hdead => hlive (Or.inl hdead)
  cases hdead : X.terminated with
  | true =>
      obtain ⟨ho, hr⟩ := (hungUp hdead).resolve_left hY
      exact hsound.canMove_of_closed hL hlive hr ho
  | false =>
      obtain ⟨hup, hdown, _⟩ := hreturned (hX.resolve_left (by simp [hdead]))
      obtain ⟨⟨haligned, _⟩, hends⟩ := hways hdead
      exact hsound.canMove_of_closed hL hlive (hends.closed.mpr hdown) (haligned.closed.mpr hup)

/-- One of the peers moves, unless both have ended. -/
theorem canMove_of_exact (hs : (system A B).Reaches (each Peer.Exact) (start A B) s)
    (hrun : ¬ (s.a.Ended ∧ s.b.Ended)) :
    s.a.CanMove A.cfg s.ab s.ba ∨ s.b.CanMove B.cfg s.ba s.ab := by
  obtain ⟨⟨ha, hb⟩, ⟨hla, hlb⟩, hab, hba⟩ := standing_of_reachable hs.reachable
  obtain ⟨hra, hrb⟩ := returned_of_reachable hs.reachable
  have hways := bothWays_of_exact hs
  by_cases hendA : s.a.Ended
  · have hliveB : ¬ s.b.Ended := fun hendB => hrun ⟨hendA, hendB⟩
    have hb' : s.b.terminated = false := Bool.not_eq_true _ ▸ fun h => hliveB (Or.inl h)
    have hwaysA : s.a.terminated = false →
        (Aligned A s.a B s.b s.ab ∧ Ends s.a s.b s.ab) ∧ Ends s.b s.a s.ba :=
      fun ha' => ⟨(hways ha' hb').1, (hways ha' hb').2.2⟩
    exact Or.inr (canMove_of_ended hb hlb hliveB hendA hab hra hwaysA)
  · have ha' : s.a.terminated = false := Bool.not_eq_true _ ▸ fun h => hendA (Or.inl h)
    by_cases hendB : s.b.Ended
    · have hwaysB : s.b.terminated = false →
          (Aligned B s.b A s.a s.ba ∧ Ends s.b s.a s.ba) ∧ Ends s.a s.b s.ab :=
        fun hb' => ⟨(hways ha' hb').2, (hways ha' hb').1.2⟩
      exact Or.inl (canMove_of_ended ha hla hendA hendB hba hrb hwaysB)
    · have hb' : s.b.terminated = false := Bool.not_eq_true _ ▸ fun h => hendB (Or.inl h)
      obtain ⟨⟨halignAB, hendsAB⟩, halignBA, hendsBA⟩ := hways ha' hb'
      rcases ha.canMove_or_stalled hla hendA with hmove | ⟨hupA, hdownA⟩
      · exact Or.inl hmove
      rcases hb.canMove_or_stalled hlb hendB with hmove | ⟨hupB, hdownB⟩
      · exact Or.inr hmove
      -- all four threads wait, so both directions are over and `Sync` returns
      exact Or.inl (.returns hendA (closed_of_stalled halignAB hendsAB hupA hdownB).1
        (closed_of_stalled halignBA hendsBA hupB hdownA).2)

/-- What a peer can do, the session can do. -/
theorem exists_act_of_canMove (h : s.a.CanMove A.cfg s.ab s.ba ∨ s.b.CanMove B.cfg s.ba s.ab) :
    ∃ side act, (s.peer side).Own act ∧ (s.peer side).Whole act ∧
      ((system A B).step s (side, act)).isSome := by
  rcases h with ⟨act, hown, hwhole, hsome⟩ | ⟨act, hown, hwhole, hsome⟩
  · exact ⟨.a, act, hown, hwhole, by simpa [system, step] using hsome⟩
  · exact ⟨.b, act, hown, hwhole, by simpa [system, step] using hsome⟩

end Session
end Jpgsync
