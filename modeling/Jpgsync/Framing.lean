import Jpgsync.Download.Moves
import Jpgsync.Lib.Delimited
import Jpgsync.Upload.Moves

/-!
# Framing — what the bytes of a round mean

A file travels as its name behind a length byte, four bytes of size, and
the contents; an offer as a count and its digests. Both are
self-delimiting: bytes that begin with one file and with another begin
with the same one. So what the downloader has consumed tells which file it
is reading, and a proper prefix of a file is never taken for a whole one.
-/

namespace Jpgsync

/-- The name that is sent for a path. -/
def sentName (path : Bytes) : Bytes :=
  (toFilename path).take (UInt8.ofNat (toFilename path).length).toNat

def fileBytes (f : SentFile) : Bytes :=
  nameBytes f.1.path ++ (writeFileSize f.2.length ++ f.2)

def filesBytes (fs : List SentFile) : Bytes := fs.flatMap fileBytes

/-- The contents are not empty and their size fits its four bytes. -/
def SentFile.SizeOk (f : SentFile) : Prop := f.2 ≠ [] ∧ f.2.length < 2 ^ 32

@[simp] theorem filesBytes_nil : filesBytes [] = [] := rfl

@[simp] theorem filesBytes_cons (f : SentFile) (fs : List SentFile) :
    filesBytes (f :: fs) = fileBytes f ++ filesBytes fs := rfl

@[simp] theorem filesBytes_append (fs gs : List SentFile) :
    filesBytes (fs ++ gs) = filesBytes fs ++ filesBytes gs := List.flatMap_append

/-! ## Names -/

theorem length_sentName (path : Bytes) : (sentName path).length < sizeofFilename ∧
    UInt8.ofNat (sentName path).length = UInt8.ofNat (toFilename path).length := by
  have hmod : (UInt8.ofNat (toFilename path).length).toNat = (toFilename path).length % 256 :=
    UInt8.toNat_ofNat'
  have hlen : (sentName path).length = (toFilename path).length % 256 := by
    rw [sentName, List.length_take, hmod]
    exact Nat.min_eq_left (Nat.mod_le _ _)
  refine ⟨?_, ?_⟩
  · rw [hlen]
    exact Nat.mod_lt _ (by decide)
  · rw [hlen, ← hmod, UInt8.ofNat_toNat]

theorem nameBytes_eq (path : Bytes) :
    nameBytes path = UInt8.ofNat (sentName path).length :: sentName path := by
  rw [(length_sentName path).2]
  rfl

/-- A name that fits its length byte is sent whole. -/
theorem sentName_eq {path : Bytes} (h : (toFilename path).length < sizeofFilename) :
    sentName path = toFilename path := by
  have hmod : (UInt8.ofNat (toFilename path).length).toNat = (toFilename path).length := by
    rw [UInt8.toNat_ofNat']
    exact Nat.mod_eq_of_lt h
  rw [sentName, hmod, List.take_length]

theorem fileBytes_eq (f : SentFile) : fileBytes f =
    UInt8.ofNat (sentName f.1.path).length ::
      (sentName f.1.path ++ (writeFileSize f.2.length ++ f.2)) := by
  rw [fileBytes, nameBytes_eq, List.cons_append]

/-! ## What delimits itself -/

theorem lengthByte_delimited :
    SelfDelimiting (· < sizeofFilename) fun n => [UInt8.ofNat n] := by
  refine .of_length (fun _ _ => rfl) fun n m hn hm heq => ?_
  have hbyte := congrArg UInt8.toNat (List.cons.inj heq).1
  rwa [UInt8.toNat_ofNat', UInt8.toNat_ofNat', Nat.mod_eq_of_lt (show n < 2 ^ 8 from hn),
    Nat.mod_eq_of_lt (show m < 2 ^ 8 from hm)] at hbyte

/-- A name behind its length byte. -/
theorem name_delimited : SelfDelimiting (fun name : Bytes => name.length < sizeofFilename)
    fun name => UInt8.ofNat name.length :: name :=
  lengthByte_delimited.sized

/-- Four bytes of size. -/
theorem size_delimited : SelfDelimiting (· < 2 ^ 32) writeFileSize := by
  refine .of_length (fun n _ => length_writeFileSize n) fun n m hn hm heq => ?_
  have hsize := congrArg readFileSize heq
  rwa [readFileSize_writeFileSize hn, readFileSize_writeFileSize hm] at hsize

/-- **A name and contents** behind their lengths. -/
theorem file_delimited :
    SelfDelimiting (fun f : Bytes × Bytes => f.1.length < sizeofFilename ∧ f.2.length < 2 ^ 32)
      fun f => (UInt8.ofNat f.1.length :: f.1) ++ (writeFileSize f.2.length ++ f.2) :=
  name_delimited.prod size_delimited.sized

/-! ## What the downloader is reading -/

open DownloadPc

/-- **A complete file** at the front of what was sent is that file. -/
theorem store_eq_file {hash : ExifHash} {filename : Bytes} {target : Option Bytes}
    {bytes : Bytes} {missing : List ExifHash}
    (h : InBounds (.store hash filename target bytes missing)) {f : SentFile}
    (hf : f.2.length < 2 ^ 32) {rest rest' : Bytes}
    (heq : consumed (.store hash filename target bytes missing) ++ rest = fileBytes f ++ rest') :
    filename = sentName f.1.path ∧ bytes = f.2 ∧ rest = rest' := by
  rw [fileBytes_eq] at heq
  obtain ⟨hfile, hrest⟩ := @file_delimited (filename, bytes) (sentName f.1.path, f.2) rest rest'
    h ⟨(length_sentName _).1, hf⟩ heq
  exact ⟨congrArg Prod.fst hfile, congrArg Prod.snd hfile, hrest⟩

/-- A complete file is more than a name. -/
theorem store_ne_name {hash : ExifHash} {filename : Bytes} {target : Option Bytes}
    {bytes : Bytes} {missing : List ExifHash}
    (h : InBounds (.store hash filename target bytes missing)) {path rest : Bytes}
    (heq : consumed (.store hash filename target bytes missing) ++ rest = nameBytes path) :
    False := by
  rw [nameBytes_eq, consumed, List.append_assoc] at heq
  obtain ⟨_, hrest⟩ := name_delimited.head_eq h.1 (length_sentName path).1 heq
  simpa using congrArg List.length hrest

/-- A complete file is more than a name and a size. -/
theorem store_ne_size {hash : ExifHash} {filename : Bytes} {target : Option Bytes}
    {bytes : Bytes} {missing : List ExifHash}
    (h : InBounds (.store hash filename target bytes missing)) {path rest : Bytes} {n : Nat}
    (hn : n ≠ 0 ∧ n < 2 ^ 32)
    (heq : consumed (.store hash filename target bytes missing) ++ rest =
      nameBytes path ++ writeFileSize n) : False := by
  rw [nameBytes_eq, consumed, List.append_assoc, List.append_assoc] at heq
  obtain ⟨_, htail⟩ := name_delimited h.1 (length_sentName path).1 heq
  obtain ⟨hlen, hrest⟩ := size_delimited.head_eq h.2 hn.2 htail
  -- the size is that of the contents, and there are none
  rw [(List.append_eq_nil_iff.mp hrest).1] at hlen
  exact hn.1 hlen.symm

/-- **A read that still needs bytes** stands in front of the end of a
file, never at it. -/
theorem short_ne_files {pc : DownloadPc} (h : InBounds pc) (hshort : Short pc)
    (hawait : awaited pc ≠ []) {f : SentFile} (hf : f.2.length < 2 ^ 32) {fs : List SentFile}
    {rest : Bytes} : consumed pc ≠ filesBytes (f :: fs) ++ rest := by
  rw [filesBytes_cons, fileBytes_eq]
  cases pc with
  | file missing => simp [consumed]
  | offer hashCount buf => simp [awaited] at hawait
  -- a length byte and a part of the name: the next file starts with all of it
  | name hash filenameLen filename missing =>
      intro heq
      simp only [consumed, List.cons_append, List.cons.injEq] at heq
      obtain ⟨hlen, hname⟩ := heq
      have hlt := (length_sentName f.1.path).1
      have hlen' : filenameLen.toNat = (sentName f.1.path).length := by
        rw [hlen, UInt8.toNat_ofNat']
        exact Nat.mod_eq_of_lt hlt
      have hle : (sentName f.1.path).length ≤ filename.length := by
        rw [hname]
        simp
      have : filename.length ≤ filenameLen.toNat := h
      exact hshort (by omega)
  -- the name is complete, so what follows would be four bytes of size
  | size hash filename buf missing =>
      intro heq
      simp only [consumed, List.cons_append, List.append_assoc] at heq
      obtain ⟨_, htail⟩ := name_delimited h.1 (length_sentName _).1 heq
      have hlen := congrArg List.length htail
      have hle : buf.length ≤ sizeofFileSize := h.2
      simp only [List.length_append, length_writeFileSize] at hlen
      exact hshort (by omega)
  -- name and size agree, so the contents would be complete
  | payload hash filename fileSize target bytes missing =>
      intro heq
      simp only [consumed, List.cons_append, List.append_assoc] at heq
      obtain ⟨_, htail⟩ := name_delimited h.1 (length_sentName _).1 heq
      obtain ⟨hsize, hbytes⟩ := size_delimited h.2.2 hf htail
      have hlen := congrArg List.length hbytes
      have hle : bytes.length ≤ fileSize := h.2.1
      simp only [List.length_append] at hlen
      exact hshort (by omega)
  | _ => exact fun _ => hshort.elim

/-! ## Offers -/

/-- The first byte of an offer is its count. -/
theorem toNat_offerCount {missing : List Entry} (h : missing.length ≤ syncHashesPerPacket) :
    (UInt8.ofNat missing.length).toNat = missing.length := by
  rw [UInt8.toNat_ofNat']
  exact Nat.mod_eq_of_lt (Nat.lt_of_le_of_lt h (by decide))

/-- **A complete offer** at the front of what was sent is that offer. -/
theorem answer_eq_offer {hashCount : UInt8} {buf : Bytes}
    (h : InBounds (.answer hashCount buf)) {missing : List Entry}
    (hlen : missing.length ≤ syncHashesPerPacket) {rest rest' : Bytes}
    (heq : consumed (.answer hashCount buf) ++ rest = offerBytes missing ++ rest') :
    hashCount.toNat = missing.length ∧ buf = ExifHash.digests (missing.map Entry.hash) ∧
      rest = rest' := by
  simp only [consumed, offerBytes, List.cons_append, List.cons.injEq] at heq
  obtain ⟨hcount, hbuf⟩ := heq
  have hn : hashCount.toNat = missing.length := by rw [hcount, toNat_offerCount hlen]
  have hsize : buf.length = (ExifHash.digests (missing.map Entry.hash)).length := by
    rw [h.2, hn]
    simp
  obtain ⟨hb, hr⟩ := List.append_inj hbuf hsize
  exact ⟨hn, hb, hr⟩

end Jpgsync
