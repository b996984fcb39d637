import Jpgsync.Update
import Jpgsync.Upload

/-!
# Peer — one peer in `Peer::Sync`

The threads of one peer after the connections are set up: the hashing
thread, the downloader, the uploader and its update receiver. The peer has
two links: on `up` it is the uploading side, on `down` the downloading
one. A link has the two directions of one sync connection and the update
packets that go the same way as the replies.

A step is one step of one thread. `Logger::Fatal` ends the process, which
closes its ends of both links.
-/

namespace Jpgsync

/-- One direction of a session: its uploading side and its downloading
side. -/
structure Link where
  offers : Fifo UInt8      -- uploader to downloader
  replies : Fifo UInt8     -- downloader to uploader
  updates : List Bytes     -- downloader to update receiver, every packet ever sent
  updatesClosed : Bool

namespace Link

def start : Link := ⟨.empty, .empty, [], false⟩

end Link

/-- What is fixed for a peer: how it was built and its `download_dir`. -/
structure Config where
  protocol : UpdateProtocol
  downloadDir : Bytes

structure Peer where
  pipe : Pipeline
  receiving : Receiving
  upload : UploadPc
  download : DownloadPc
  host : Host
  accepted : List ExifHash
  downloads : List Download
  uploads : List SentFile
  returned : Bool          -- `Sync` has returned

namespace Peer

/-- The arguments `Sync` gives to `ExifHasher::Run`. -/
def runArgs (cfg : Config) : RunArgs := ⟨cfg.protocol.hashesPerPacket, true⟩

/-- The peer when its threads start. -/
def start (scans : List Scan) (disk : Disk) : Peer where
  pipe := .start scans
  receiving := .start
  upload := .wait
  download := .update
  host := ⟨disk, .start⟩
  accepted := []
  downloads := []
  uploads := []
  returned := false

/-- `Logger::Fatal` was called. -/
def terminated (p : Peer) : Bool := p.host.logger.terminated

/-- `ExifHasher::Contains`. -/
def contains (p : Peer) (hash : ExifHash) : Bool := decide (hash ∈ p.pipe.hasher.hashes)

/-- The receive loop on a link. -/
def reception (p : Peer) (down : Link) : Reception where
  pc := p.download
  host := p.host
  accepted := p.accepted
  downloads := p.downloads
  input := down.offers
  output := down.replies

/-- The upload round on a link. -/
def emission (p : Peer) (up : Link) : Emission where
  pc := p.upload
  host := p.host
  uploads := p.uploads
  input := up.replies
  output := up.offers

/-! ## The downloader -/

/-- The next step of the update loop: `Get` is called for a full packet,
and a batch that was counted and announced is packed and sent. -/
def updateStep (cfg : Config) (p : Peer) (down : Link) : Option (Peer × Link) :=
  let pipeStep := fun a => p.pipe.step (runArgs cfg) p.receiving.receivedHashes a
  match p.pipe.downloader with
  | .get =>
    let a := if p.pipe.hasher.get = .idle then .call cfg.protocol.hashesPerPacket
      else .downloader
    (pipeStep a).map fun pipe => ({ p with pipe := pipe }, down)
  | .send segment =>
    match updatePacket (cfg.protocol.hashesPerPacket * sizeofExifHash) segment with
    | none => some ({ p with download := .overrun }, down)
    | some packet =>
      (pipeStep .downloader).map fun pipe =>
        ({ p with pipe := pipe }, { down with updates := down.updates ++ [packet] })
  | .finished => some ({ p with download := .notify }, down)
  | _ => (pipeStep .downloader).map fun pipe => ({ p with pipe := pipe }, down)

/-- The downloader's next step. The byte that ends the update is not
initialised; `k` is its value. -/
def downloadStep (cfg : Config) (k : Nat) (p : Peer) (down : Link) : Option (Peer × Link) :=
  match p.download with
  | .update => p.updateStep cfg down
  | .notify =>
    some ({ p with download := .count },
      { down with replies := down.replies.push [UInt8.ofNat k] })
  -- the receive loop is `Reception.step` on the download link
  | _ =>
    ((p.reception down).step p.contains cfg.downloadDir k).map fun r =>
      ({ p with download := r.pc, host := r.host, accepted := r.accepted,
                downloads := r.downloads },
        { down with offers := r.input, replies := r.output })

/-! ## The uploader -/

/-- The uploader's next step. -/
def uploadStep (cfg : Config) (k : Nat) (p : Peer) (up : Link) : Option (Peer × Link) :=
  let pipeStep := p.pipe.step (runArgs cfg) p.receiving.receivedHashes .uploader
  match p.upload with
  | .wait =>
    match readByte up.replies with
    | none => none
    | some (none, _) =>
      some ({ p with host := { p.host with logger := p.host.logger.fatal .noUpdateResponse } }, up)
    | some (some _, replies) =>
      some ({ p with upload := .lockUpdated }, { up with replies := replies })
  | .lockUpdated =>
    if p.receiving.updatedMutex = none then
      some ({ p with
        receiving := { p.receiving with updatedMutex := some .uploader }
        upload := .setUpdated }, up)
    else none
  | .setUpdated =>
    some ({ p with
      receiving := { p.receiving with updated := true, updatedMutex := none }
      upload := .main }, up)
  | .main =>
    match p.pipe.uploader with
    | .finished => some ({ p with upload := .closed }, { up with offers := up.offers.close })
    | _ =>
      pipeStep.map fun pipe =>
        ({ p with
          pipe := pipe
          upload :=
            match pipe.uploader with
            | .offer missing => .offer (offerBytes missing) missing
            | _ => .main }, up)
  -- the whole offer was gone through, back to the head of the main loop
  | .entry _ [] => pipeStep.map fun pipe => ({ p with pipe := pipe, upload := .main }, up)
  | _ =>
    ((p.emission up).step k).map fun r =>
      ({ p with upload := r.pc, host := r.host, uploads := r.uploads },
        { up with replies := r.input, offers := r.output })

/-! ## All threads -/

inductive Act where
  | run                  -- the hashing thread
  | getWakes             -- spurious wake-up of the downloader in `Get`
  | uploaderWakes        -- spurious wake-up of the uploader
  | receive (k : Nat)    -- the update receiver
  | endOfUpdate          -- the update receiver reads the end of the update
  | upload (k : Nat)
  | download (k : Nat)
  | return               -- both threads are joined, `Sync` returns
deriving DecidableEq, Repr

/-- A step that does not close anything. -/
def stepOpen (cfg : Config) (p : Peer) (up down : Link) : Act → Option (Peer × Link × Link)
  | .run =>
    (p.pipe.step (runArgs cfg) p.receiving.receivedHashes .run).map fun pipe =>
      ({ p with pipe := pipe }, up, down)
  | .getWakes =>
    (p.pipe.step (runArgs cfg) p.receiving.receivedHashes .getWakes).map fun pipe =>
      ({ p with pipe := pipe }, up, down)
  | .uploaderWakes =>
    (p.pipe.step (runArgs cfg) p.receiving.receivedHashes .uploaderWakes).map fun pipe =>
      ({ p with pipe := pipe }, up, down)
  | .receive k =>
    (p.receiving.step cfg.protocol up.updates up.updatesClosed k).map fun r =>
      ({ p with receiving := r }, up, down)
  | .endOfUpdate =>
    (p.receiving.endOfUpdate cfg.protocol up.updatesClosed).map fun r =>
      ({ p with receiving := r }, up, down)
  | .upload k => (p.uploadStep cfg k up).map fun r => (r.1, r.2, down)
  | .download k => (p.downloadStep cfg k down).map fun r => (r.1, up, r.2)
  | .return =>
    if p.upload = .closed ∧ p.download = .closed then
      some ({ p with returned := true }, up, { down with updatesClosed := true })
    else none

/-- The peer's ends of its links are closed. -/
def hangUp (r : Peer × Link × Link) : Peer × Link × Link :=
  (r.1, { r.2.1 with offers := r.2.1.offers.close },
    { r.2.2 with replies := r.2.2.replies.close, updatesClosed := true })

/-- A step of the peer; none after `Fatal` or once `Sync` has returned. -/
def step (cfg : Config) (p : Peer) (up down : Link) (a : Act) : Option (Peer × Link × Link) :=
  if p.terminated ∨ p.returned then none
  else (p.stepOpen cfg up down a).map fun r => if r.1.terminated then hangUp r else r

end Peer
end Jpgsync
