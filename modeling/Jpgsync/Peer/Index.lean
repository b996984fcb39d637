import Jpgsync.Peer.Moves

/-!
# Peer — Index

The downloader starts its receive loop with a complete index: its last
call of `Get` returned nothing, which means that hashing is done and every
entry was handed out. From then on the hasher does not move.
-/

namespace Jpgsync
namespace Peer

variable {cfg : Config} {scans : List Scan} {p q : Peer} {up down up' down' : Link} {a : Act}

/-- Hashing is over and everything has been handed out and counted. -/
structure Drained (scans : List Scan) (p : Peer) : Prop where
  done : p.pipe.hasher.done = true
  exited : p.pipe.hasher.run = .exited
  ended : p.pipe.hasher.gen = []
  entries : p.pipe.hasher.entries = ExifHasher.firstOfEach [] scans
  hashes : ∀ h, h ∈ p.pipe.hasher.hashes ↔
    h ∈ (ExifHasher.firstOfEach [] scans).map Entry.hash
  handedOut : p.pipe.hasher.segments.flatten = ExifHasher.firstOfEach [] scans
  counted : p.pipe.hasherEntryCount = (ExifHasher.firstOfEach [] scans).length

/-- Once the update loop is over, the index is final. -/
theorem Sound.drained (h : Sound cfg scans p) (hfin : p.pipe.downloader = .finished) :
    Drained scans p := by
  have hH : p.pipe.hasher.HandOver (runArgs cfg).progressThreshold scans := h.handOver
  obtain ⟨hdone, hall, hcount⟩ := h.inv.drained_counts hH (Or.inr (Or.inr hfin))
  have hexit := h.handOver.done.mp hdone
  have hgen := h.handOver.ended (Or.inr (Or.inr hexit))
  have hent : p.pipe.hasher.entries = ExifHasher.firstOfEach [] scans := by
    have hrest := h.handOver.rest
    rwa [hgen, ExifHasher.firstOfEach, List.append_nil] at hrest
  refine ⟨hdone, hexit, hgen, hent, fun hash => ?_, ?_, ?_⟩
  · rw [h.handOver.mem, hent]
  · rw [h.handOver.handed, hall, hent, List.take_length]
  · rw [hcount, hent]

/-- A step of the pipeline after the update loop leaves the hasher alone. -/
theorem Sound.pipe_frozen (h : Sound cfg scans p) (hfin : p.pipe.downloader = .finished)
    {b : Pipeline.Act} {pipe : Pipeline}
    (hst : p.pipe.step (runArgs cfg) p.receiving.receivedHashes b = some pipe) :
    pipe.hasher = p.pipe.hasher ∧ pipe.downloader = .finished := by
  have hexit := (h.drained hfin).exited
  have hidle := h.inv.inGet (by simp [hfin])
  cases b with
  | downloader => simp [Pipeline.step, Pipeline.downloaderStep, hfin] at hst
  | run => simp [Pipeline.step, ExifHasher.runStep, hexit] at hst
  | call count => simp [Pipeline.step, hfin] at hst
  | getWakes => simp [Pipeline.step, ExifHasher.step, hidle] at hst
  | uploader =>
      refine ⟨?_, (Pipeline.downloader_frame (by simp) hst).trans hfin⟩
      simp only [Pipeline.step, Pipeline.uploaderStep] at hst
      (repeat' split at hst) <;> cases hst <;> rfl
  | uploaderWakes =>
      simp only [Pipeline.step] at hst
      split at hst <;> cases hst
      exact ⟨rfl, hfin⟩

/-- **After the update loop the hasher does not move any more.** -/
theorem Sound.hasher_frozen (h : Sound cfg scans p) (hfin : p.pipe.downloader = .finished)
    (hst : p.step cfg up down a = some (q, up', down')) :
    q.pipe.hasher = p.pipe.hasher ∧ q.pipe.downloader = .finished := by
  rcases h.pipe_of_step hst with hsame | ⟨b, hpipe⟩
  · rw [hsame]
    exact ⟨rfl, hfin⟩
  · exact h.pipe_frozen hfin hpipe

end Peer
end Jpgsync
