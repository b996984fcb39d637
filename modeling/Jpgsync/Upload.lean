import Jpgsync.Download

/-!
# Upload — one round of the uploader

What the uploader of `Peer::Sync` does with an offer it has built: it sends
the offer, reads the bitmask, and sends name, size and contents of every
entry whose bit is clear. The step takes a number `k`: how many bytes the
call moves, and for `ifs->read` how many bytes of the file it delivers,
which the code does not check.
-/

namespace Jpgsync

/-- Where the uploader's file loop is: its cursor into `found_bitmask` and
the entries from the current one on. -/
structure FileLoop where
  cursor : MaskCursor
  entry : Entry
  rest : List Entry
deriving DecidableEq, Repr

/-- Control of the uploader. -/
inductive UploadPc where
  | wait                              -- in `ReadByte(&byte)`, for the end of the update
  | lockUpdated                       -- about to lock `updated_mutex`
  | setUpdated                        -- holds it
  | main                              -- in the main loop
  | offer (rest : Bytes) (missing : List Entry)    -- sending the offer
  | mask (buf : Bytes) (missing : List Entry)      -- reading `found_bitmask`
  | entry (cursor : MaskCursor) (missing : List Entry)   -- at the head of the file loop
  | name (rest : Bytes) (loop : FileLoop)
  | openFile (loop : FileLoop)
  | size (rest : Bytes) (fileSize : Nat) (loop : FileLoop)
  | read (fileSize : Nat) (loop : FileLoop)
  | payload (rest : Bytes) (loop : FileLoop)
  | closed
  | overrun                           -- outside `found_bitmask`
deriving DecidableEq, Repr

/-- A file as it is sent: the entry, and the bytes that are sent for its
contents. -/
abbrev SentFile := Entry × Bytes

/-- The uploader's round with the two directions of its connection. -/
structure Emission where
  pc : UploadPc
  host : Host
  uploads : List SentFile             -- the files read for sending, oldest first
  input : Fifo UInt8
  output : Fifo UInt8

/-- `WriteByte(hash_count)` and `WriteExactly(buf, …)`: the bytes of an
offer. -/
def offerBytes (missing : List Entry) : Bytes :=
  UInt8.ofNat missing.length :: ExifHash.digests (missing.map Entry.hash)

/-- `WriteByte(filename_len)` and `WriteExactly(filename, filename_len)`,
where `filename_len` is `strlen` cast to `unsigned char`. -/
def nameBytes (path : Bytes) : Bytes :=
  let filename := toFilename path
  let filenameLen := UInt8.ofNat filename.length
  filenameLen :: filename.take filenameLen.toNat

/-- The buffer after `ifs->read(file.data(), file_size)` delivered `k`
bytes: the vector was zero-initialised. -/
def readBuffer (contents : Bytes) (fileSize k : Nat) : Bytes :=
  let got := contents.take (min k fileSize)
  got ++ List.replicate (fileSize - got.length) 0

/-- … and has the announced size whatever was delivered. -/
theorem length_readBuffer (contents : Bytes) (fileSize k : Nat) :
    (readBuffer contents fileSize k).length = fileSize := by
  have hgot : (contents.take (min k fileSize)).length ≤ fileSize :=
    Nat.le_trans (List.length_take_le _ _) (Nat.min_le_right _ _)
  rw [readBuffer, List.length_append, List.length_replicate]
  omega

namespace Emission

def fatal (s : Emission) (report : Report) : Emission :=
  { s with host := { s.host with logger := s.host.logger.fatal report } }

/-- One call inside `WriteExactly`: on to `next` when everything is
written, else at `more` with what is left. -/
def write (s : Emission) (rest : Bytes) (k : Nat) (next : UploadPc) (more : Bytes → UploadPc) :
    Option Emission :=
  match writeExactly s.output rest k with
  | none => none
  | some .complete => some { s with pc := next }
  | some (.more rest output) => some { s with pc := more rest, output := output }

/-- The next step of the round. -/
def step (k : Nat) (s : Emission) : Option Emission :=
  match s.pc with
  | .offer rest missing => s.write rest k (.mask [] missing) (.offer · missing)
  | .mask buf missing =>
    let size := foundBitmaskSize missing.length
    if sizeofFoundBitmask < size then some { s with pc := .overrun }
    else
      match readExactly s.input size buf k with
      | none => none
      | some .short => some (s.fatal .noConfirmation)
      | some (.more buf input) => some { s with pc := .mask buf missing, input := input }
      | some .complete => some { s with pc := .entry (.start buf) missing }
  | .entry _ [] => none
  -- `cursor.next` also after a file was sent, see `payload`
  | .entry cursor (e :: rest) =>
    match cursor.wants with
    | none => some { s with pc := .overrun }
    | some true => some { s with pc := .name (nameBytes e.path) ⟨cursor, e, rest⟩ }
    | some false => some { s with pc := .entry cursor.next rest }
  | .name rest loop => s.write rest k (.openFile loop) (.name · loop)
  | .openFile loop =>
    match s.host.disk.reopenEndIn loop.entry.path with
    | none => some (s.fatal (.notOpened loop.entry.hash loop.entry.path))
    | some contents =>
      some { s with pc := .size (writeFileSize contents.length) contents.length loop }
  | .size rest fileSize loop => s.write rest k (.read fileSize loop) (.size · fileSize loop)
  | .read fileSize loop =>
    -- `file_size` is what `tellg` announced; what `ifs->read` delivers is not looked at
    let contents := (s.host.disk.contents loop.entry.path).getD []
    let bytes := readBuffer contents fileSize k
    some { s with
      uploads := s.uploads ++ [(loop.entry, bytes)]
      pc := .payload bytes loop }
  | .payload rest loop =>
    s.write rest k (.entry loop.cursor.next loop.rest) (.payload · loop)
  | .wait => none
  | .lockUpdated => none
  | .setUpdated => none
  | .main => none
  | .closed => none
  | .overrun => none

end Emission
end Jpgsync
