import Jpgsync.Offer
import Jpgsync.Protocol
import Jpgsync.Storage

/-!
# Download — the downloader's receive loop

What the downloader of `Peer::Sync` does once its update loop is over: it
reads offers from its sync connection, answers each with a bitmask, and
reads and stores the files it asked for. A step is one call on the
connection, one `open`, or one `write` with its closing flush; buffers have
the sizes of the source and an access outside of one leads to `overrun`.

The step takes a number `k`: how many bytes the call moves, and for the
write how many bytes really end up in the file, which the code does not
check.
-/

namespace Jpgsync

/-- What the threads of a peer share besides the hasher. -/
structure Host where
  disk : Disk
  logger : Logger
deriving DecidableEq, Repr

/-- One image that was received: what the sender announced, where it was
stored (`none` is `/dev/null`) and the bytes that arrived. -/
structure Download where
  hash : ExifHash
  filename : Bytes
  target : Option Bytes
  file : Bytes
deriving DecidableEq, Repr

/-- Control of the downloader. The lists `missing` are the elements of
`missing_hashes` still to be downloaded. -/
inductive DownloadPc where
  | update                    -- in the update loop
  | notify                    -- about to send the byte that ends the update
  | count                     -- in `ReadByte(&hash_count)`
  | offer (hashCount : UInt8) (buf : Bytes)
  | answer (hashCount : UInt8) (buf : Bytes)
  | mask (rest : Bytes) (missing : List ExifHash)   -- sending `found_bitmask`
  | file (missing : List ExifHash)                  -- at the head of the file loop
  | name (hash : ExifHash) (filenameLen : UInt8) (filename : Bytes) (missing : List ExifHash)
  | size (hash : ExifHash) (filename : Bytes) (buf : Bytes) (missing : List ExifHash)
  | create (hash : ExifHash) (filename : Bytes) (fileSize : Nat) (missing : List ExifHash)
  | payload (hash : ExifHash) (filename : Bytes) (fileSize : Nat) (target : Option Bytes)
      (file : Bytes) (missing : List ExifHash)
  | store (hash : ExifHash) (filename : Bytes) (target : Option Bytes) (file : Bytes)
      (missing : List ExifHash)
  | closed
  | overrun                   -- outside one of the buffers
deriving DecidableEq, Repr

/-- The receive loop with the two directions of its connection. -/
structure Reception where
  pc : DownloadPc
  host : Host
  accepted : List ExifHash        -- everything ever in `missing_hashes`
  downloads : List Download       -- what was received, oldest first
  input : Fifo UInt8
  output : Fifo UInt8

/-- `sizeof(filename)`. -/
def sizeofFilename : Nat := 0xFF + 1

/-- `sizeof(buf)` in the downloader. -/
def sizeofOffer : Nat := syncHashesPerPacket * sizeofExifHash

/-- `sizeof(found_bitmask)`. -/
def sizeofFoundBitmask : Nat := foundBitmaskSize syncHashesPerPacket

namespace Reception

def fatal (s : Reception) (report : Report) : Reception :=
  { s with host := { s.host with logger := s.host.logger.fatal report } }

/-- The file loop's `FstreamCloseGuard` and the two `ReopenEnd`s: the file
is open, or the conflict is reported and `/dev/null` is. -/
def create (downloadDir : Bytes) (s : Reception) (hash : ExifHash) (filename : Bytes)
    (fileSize : Nat) (missing : List ExifHash) : Reception :=
  let r := s.host.disk.createFile (toPath downloadDir (cString filename)) hash
  { s with
    host :=
      { disk := r.2
        logger := if r.1.isNone then s.host.logger.error (.conflict hash (cString filename))
          else s.host.logger }
    pc := .payload hash filename fileSize r.1 [] missing }

/-- The next step of the receive loop. -/
def step (contains : ExifHash → Bool) (downloadDir : Bytes) (k : Nat) (s : Reception) :
    Option Reception :=
  match s.pc with
  | .count =>
    match readByte s.input with
    | none => none
    | some (none, _) => some { s with pc := .closed, output := s.output.close }
    | some (some hashCount, input) =>
      let s := { s with input := input }
      if syncHashesPerPacket < hashCount.toNat then
        some (s.fatal (.invalidHashCount hashCount.toNat))
      else some { s with pc := .offer hashCount [] }
  | .offer hashCount buf =>
    let readCount := hashCount.toNat * sizeofExifHash
    if sizeofOffer < readCount then some { s with pc := .overrun }
    else
      match readExactly s.input readCount buf k with
      | none => none
      | some .short => some (s.fatal (.invalidOfferLength readCount))
      | some (.more buf input) => some { s with pc := .offer hashCount buf, input := input }
      | some .complete => some { s with pc := .answer hashCount buf }
  | .answer hashCount buf =>
    match answerOffer contains sizeofFoundBitmask buf with
    | none => some { s with pc := .overrun }
    | some a =>
      if sizeofFoundBitmask < foundBitmaskSize hashCount.toNat then some { s with pc := .overrun }
      else
        some { s with
          accepted := s.accepted ++ a.missingHashes
          pc := .mask (a.foundBitmask.take (foundBitmaskSize hashCount.toNat)) a.missingHashes }
  | .mask rest missing =>
    match writeExactly s.output rest k with
    | none => none
    | some .complete => some { s with pc := .file missing }
    | some (.more rest output) => some { s with pc := .mask rest missing, output := output }
  | .file [] => some { s with pc := .count }
  | .file (hash :: missing) =>
    match readByte s.input with
    | none => none
    | some (none, _) => some (s.fatal (.noFilename hash))
    | some (some filenameLen, input) =>
      some { s with pc := .name hash filenameLen [] missing, input := input }
  | .name hash filenameLen filename missing =>
    -- the terminator is written behind the name
    if sizeofFilename < filenameLen.toNat + 1 then some { s with pc := .overrun }
    else
      match readExactly s.input filenameLen.toNat filename k with
      | none => none
      | some .short => some (s.fatal (.noFilename hash))
      | some (.more filename input) =>
        some { s with pc := .name hash filenameLen filename missing, input := input }
      | some .complete => some { s with pc := .size hash filename [] missing }
  | .size hash filename buf missing =>
    match readExactly s.input sizeofFileSize buf k with
    | none => none
    | some .short => some (s.fatal (.noSize hash (cString filename)))
    | some (.more buf input) =>
      some { s with pc := .size hash filename buf missing, input := input }
    | some .complete => some { s with pc := .create hash filename (readFileSize buf) missing }
  | .create hash filename fileSize missing =>
    some (s.create downloadDir hash filename fileSize missing)
  | .payload hash filename fileSize target file missing =>
    match readExactly s.input fileSize file k with
    | none => none
    | some .short => some (s.fatal (.notDownloaded hash (cString filename)))
    | some (.more file input) =>
      some { s with pc := .payload hash filename fileSize target file missing, input := input }
    | some .complete => some { s with pc := .store hash filename target file missing }
  -- `ofs->write` and the flush may fail, nothing checks them
  | .store hash filename target file missing =>
    some { s with
      host := { s.host with disk := s.host.disk.store target (file.take k) }
      downloads := s.downloads ++ [⟨hash, filename, target, file⟩]
      pc := .file missing }
  | .update => none
  | .notify => none
  | .closed => none
  | .overrun => none

end Reception
end Jpgsync
