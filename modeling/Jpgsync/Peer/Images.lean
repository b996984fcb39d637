import Jpgsync.Peer.Files
import Jpgsync.Lib.StepSystem

/-!
# Peer — Images

One image after the other in the directory of a downloader, on any stream.
The file is chosen and opened between the size and the contents, and of
what is there only an empty file is ever written to. So an image that is
received becomes the whole contents of one file or is refused
(`downloads_never_clobber`), and one that is given up leaves what it
found, and at most an empty file more (`failed_download_leaves`).
-/

namespace Jpgsync

/-- The bytes of an image on the stream. -/
def Download.bytes (d : Download) : Bytes :=
  UInt8.ofNat d.filename.length ::
    (d.filename ++ (writeFileSize d.file.length ++ d.file))

/-- **What becomes of an image**: it is the contents of a new or empty file
with its name; or of one with its name and hash, if its name is taken or
cannot be opened; or, if that is so for both, it is refused and reported. -/
inductive Outcome (downloadDir : Bytes) (before after : Host) (d : Download) : Prop
  | named (path : Bytes) (hpath : path = toPath downloadDir (cString d.filename))
      (husable : before.disk.Usable path) (hfile : after.disk.contents path = some d.file)
      (hothers : ∀ q, q ≠ path → after.disk.contents q = before.disk.contents q)
      (hlogger : after.logger = before.logger)
  | conflict (path path' : Bytes) (hpath : path = toPath downloadDir (cString d.filename))
      (hpath' : path' = Disk.conflictPath path d.hash) (htaken : ¬ before.disk.Usable path)
      (husable : before.disk.Usable path') (hfile : after.disk.contents path' = some d.file)
      (hothers : ∀ q, q ≠ path' → after.disk.contents q = before.disk.contents q)
      (hlogger : after.logger = before.logger)
  | refused (path : Bytes) (hpath : path = toPath downloadDir (cString d.filename))
      (htaken : ¬ before.disk.Usable path)
      (htaken' : ¬ before.disk.Usable (Disk.conflictPath path d.hash))
      (hdisk : after.disk = before.disk)
      (hlogger : after.logger = before.logger.error (.conflict d.hash (cString d.filename)))

namespace Reception

open DownloadPc

/-- The downloader, for as long as its process lives. -/
def live (contains : ExifHash → Bool) (downloadDir : Bytes) : StepSystem Reception Nat :=
  ⟨fun s k => if s.host.logger.terminated then none else s.step contains downloadDir k⟩

/-- The file is open and empty. -/
def created (downloadDir : Bytes) (host : Host) (hash : ExifHash) (filename : Bytes) : Host :=
  let r := host.disk.createFile (toPath downloadDir (cString filename)) hash
  ⟨r.2, if r.1.isNone then host.logger.error (.conflict hash (cString filename))
    else host.logger⟩

variable {contains : ExifHash → Bool} {downloadDir : Bytes} {k : Nat} {u s t : Reception}
  {hash : ExifHash} {missing : List ExifHash}

/-- Where the reception of one image is, since `host`. -/
def AtImage (downloadDir : Bytes) (hash : ExifHash) (missing : List ExifHash) (before host : Host) :
    DownloadPc → Prop
  | .file missing' => missing' = hash :: missing ∧ host = before
  | .name hash' _ _ missing' | .size hash' _ _ missing' | .create hash' _ _ missing' =>
    hash' = hash ∧ missing' = missing ∧ host = before
  | .payload hash' filename _ target _ missing' | .store hash' filename target _ missing' =>
    hash' = hash ∧ missing' = missing ∧ host = created downloadDir before hash filename ∧
      target = (before.disk.createFile (toPath downloadDir (cString filename)) hash).1
  | .update | .notify | .count | .offer _ _ | .answer _ _ | .mask _ _ | .closed | .overrun => False

/-- **An image is being received**, since `u`. -/
structure InImage (downloadDir : Bytes) (hash : ExifHash) (missing : List ExifHash)
    (u s : Reception) : Prop where
  downloads : s.downloads = u.downloads
  bounds : InBounds s.pc
  running : s.host.logger.terminated = false
  conserved : consumed s.pc ++ s.input.pending = u.input.pending
  here : AtImage downloadDir hash missing u.host s.host s.pc

theorem terminated_created (host : Host) (filename : Bytes) :
    (created downloadDir host hash filename).logger.terminated = host.logger.terminated := by
  simp only [created]
  split <;> rfl

theorem Filling.atImage {before host : Host} {pc next : DownloadPc} {count : Nat} {buf : Bytes}
    {more : Bytes → DownloadPc} (hf : Filling pc count buf more next)
    (h : AtImage downloadDir hash missing before host pc) :
    (∀ buf', AtImage downloadDir hash missing before host (more buf')) ∧
      AtImage downloadDir hash missing before host next := by
  cases hf <;> exact ⟨fun _ => h, h⟩

/-- **A step within an image**: it goes on, or is given up at a read, or is
stored. -/
theorem InImage.step (h : InImage downloadDir hash missing u s)
    (hst : s.step contains downloadDir k = some t) :
    InImage downloadDir hash missing u t ∨
      (Short s.pc ∧ ∃ report, t = s.fatal report) ∨
      ∃ filename target file, s.pc = .store hash filename target file missing ∧
        t = { s with
          host := { s.host with disk := s.host.disk.store target (file.take k) }
          downloads := s.downloads ++ [⟨hash, filename, target, file⟩]
          pc := .file missing } := by
  have hbounds := inBounds_step h.bounds hst
  have hhere := h.here
  have hcons := h.conserved
  cases branch_of_step h.bounds hst with
  | close hpc | invalidCount _ hpc | count _ hpc | answer _ _ _ hpc | reply _ _ _ hpc
  | replied _ hpc =>
      rw [hpc] at hhere
      exact hhere.elim
  | done hpc =>
      rw [hpc] at hhere
      cases hhere.1
  | short hf hread report ht =>
      exact Or.inr (Or.inl ⟨hf.short (readExactly_short hread).1, report, ht⟩)
  | more buf' hf hread ht =>
      subst ht
      exact Or.inl ⟨h.downloads, hbounds, h.running,
        (hf.consumed_more (readExactly_more hread).1).trans hcons, (hf.atImage hhere).1 buf'⟩
  | complete hf hread ht =>
      have hsame := hf.consumed_next (readExactly_complete hread)
      subst ht
      exact Or.inl ⟨h.downloads, hbounds, h.running, by rw [← hcons, ← hsame],
        (hf.atImage hhere).2⟩
  | noName hash' missing' hpc hread ht =>
      exact Or.inr (Or.inl ⟨by simp [hpc, Short], _, ht⟩)
  | name hash' missing' filenameLen hpc hread ht =>
      obtain ⟨hpending, _⟩ := readByte_some hread
      rw [hpc] at hhere hcons
      obtain ⟨hmissing, hhost⟩ := hhere
      cases hmissing
      subst ht
      exact Or.inl ⟨h.downloads, hbounds, h.running, by rw [← hcons, hpending]; rfl, rfl, rfl,
        hhost⟩
  | create hash' filename fileSize missing' hpc ht =>
      rw [hpc] at hhere hcons
      obtain ⟨rfl, rfl, hhost⟩ := hhere
      subst ht
      refine Or.inl ⟨h.downloads, hbounds, ?_, ?_, rfl, rfl, ?_, ?_⟩
      · rw [show (s.create downloadDir hash' filename fileSize missing').host =
          created downloadDir s.host hash' filename from rfl, terminated_created]
        exact h.running
      · simp [← hcons, Reception.create, consumed]
      · rw [← hhost]
        rfl
      · rw [← hhost]
  | store hash' filename target file missing' hpc ht =>
      rw [hpc] at hhere
      obtain ⟨rfl, rfl, _⟩ := hhere
      exact Or.inr (Or.inr ⟨filename, target, file, hpc, ht⟩)

/-- What is stored in the file that was opened. -/
theorem outcome_of_created {before : Host} {filename file : Bytes} {target : Option Bytes}
    (htarget : target =
      (before.disk.createFile (toPath downloadDir (cString filename)) hash).1)
    (hall : target.isSome → file.length ≤ k) :
    Outcome downloadDir before
      { created downloadDir before hash filename with
        disk := (created downloadDir before hash filename).disk.store target (file.take k) }
      ⟨hash, filename, target, file⟩ := by
  have hfile := before.disk.createFile_eq (toPath downloadDir (cString filename)) hash
  -- the file that is opened is empty, so all of it is what is stored
  have hstored : ∀ path, before.disk.Usable path → file.length ≤ k →
      ((before.disk.opened path).store (some path) (file.take k)).contents path = some file := by
    intro path husable hk
    rw [List.take_of_length_le hk]
    refine Disk.contents_store ?_
    rw [Disk.contents_opened, if_pos rfl, husable.2]
  have hothers : ∀ path q, q ≠ path →
      ((before.disk.opened path).store (some path) (file.take k)).contents q =
        before.disk.contents q := by
    intro path q hq
    rw [Disk.store, Disk.contents_append, if_neg hq, Disk.contents_opened, if_neg hq]
  by_cases husable : before.disk.Usable (toPath downloadDir (cString filename))
  · rw [if_pos husable] at hfile
    rw [hfile] at htarget
    subst htarget
    simp only [created, hfile]
    exact .named _ rfl husable (hstored _ husable (hall rfl)) (hothers _) rfl
  · rw [if_neg husable] at hfile
    by_cases husable' : before.disk.Usable
        (Disk.conflictPath (toPath downloadDir (cString filename)) hash)
    · rw [if_pos husable'] at hfile
      rw [hfile] at htarget
      subst htarget
      simp only [created, hfile]
      exact .conflict _ _ rfl rfl husable husable' (hstored _ husable' (hall rfl)) (hothers _) rfl
    · rw [if_neg husable'] at hfile
      rw [hfile] at htarget
      subst htarget
      simp only [created, hfile]
      exact .refused _ rfl husable husable' rfl rfl

/-- **What becomes of the reception of an image**, since `u`, in a run with
steps that meet `ok`: it is going on, or was given up, or is over. -/
inductive ImageRun (ok : Reception → Nat → Prop) (downloadDir : Bytes) (hash : ExifHash)
    (missing : List ExifHash) (u t : Reception) : Prop
  | going (h : InImage downloadDir hash missing u t)
  | gaveUp (s : Reception) (report : Report) (h : InImage downloadDir hash missing u s)
      (hshort : Short s.pc) (ht : t = s.fatal report)
  | complete (s : Reception) (filename : Bytes) (target : Option Bytes) (file : Bytes) (k : Nat)
      (h : InImage downloadDir hash missing u s) (hk : ok s k)
      (hpc : s.pc = .store hash filename target file missing)
      (ht : t = { s with
        host := { s.host with disk := s.host.disk.store target (file.take k) }
        downloads := s.downloads ++ [⟨hash, filename, target, file⟩]
        pc := .file missing })

/-- **The run of one image**, for as long as nothing more is downloaded. -/
theorem imageRun_of_reaches {ok : Reception → Nat → Prop} (hpc : u.pc = .file (hash :: missing))
    (hrunning : u.host.logger.terminated = false)
    (hok : ∀ s k, ok s k → s.downloads = u.downloads)
    (hrun : (live contains downloadDir).Reaches ok u t) :
    ImageRun ok downloadDir hash missing u t := by
  refine hrun.invariant (I := ImageRun ok downloadDir hash missing u) ?_
    (.going ⟨rfl, by rw [hpc]; trivial, hrunning, by rw [hpc]; rfl, by rw [hpc]; exact ⟨rfl, rfl⟩⟩)
  intro s k t hs hk hst
  simp only [live] at hst
  split at hst
  · cases hst
  · rename_i hlive
    cases hs with
    | going h =>
        rcases h.step hst with hgo | ⟨hshort, report, ht⟩ | ⟨filename, target, file, hstore, ht⟩
        · exact .going hgo
        · exact .gaveUp s report h hshort ht
        · exact .complete s filename target file k h hk hstore ht
    -- the process has ended
    | gaveUp v report h hshort ht =>
        rw [ht] at hlive
        exact absurd rfl hlive
    -- the download is complete
    | complete v filename target file k' h hk' hstore ht =>
        have hlen := congrArg List.length (hok s k hk)
        rw [ht, h.downloads] at hlen
        simp at hlen

/-! ## The directory -/

/-- The file that is open for a download is empty. -/
structure Safe (s : Reception) : Prop where
  bounds : InBounds s.pc
  opened : ∀ hash filename path, s.pc.opened = some (hash, filename, some path) →
    s.host.disk.contents path = some []

/-- **A step keeps every file that is not empty.** -/
theorem Safe.step (h : Safe s) (hst : s.step contains downloadDir k = some t) :
    Disk.Keeps s.host.disk t.host.disk ∧ (t.host.logger.terminated = false → Safe t) := by
  have hbounds := inBounds_step h.bounds hst
  have hsame : t.host = s.host → t.pc.opened = s.pc.opened →
      Disk.Keeps s.host.disk t.host.disk ∧ (t.host.logger.terminated = false → Safe t) := by
    intro hhost hopened
    rw [hhost]
    exact ⟨.refl _, fun _ => ⟨hbounds, by rw [hhost, hopened]; exact h.opened⟩⟩
  cases move_of_step h.bounds hst with
  | read hr => exact hsame hr.host hr.opened
  | reply rest rest' missing hpc hrest ht =>
      exact hsame (by rw [ht]) (by rw [ht, hpc]; rfl)
  | answer hashCount buf a hpc ha ht => exact hsame (by rw [ht]) (by rw [ht, hpc]; rfl)
  | close hpc hclosed hpending ht => exact hsame (by rw [ht]) (by rw [ht, hpc]; rfl)
  | create hash filename fileSize missing hpc ht =>
      obtain ⟨hkeep, hopen⟩ := Disk.createFile_spec
        (show s.host.disk.createFile (toPath downloadDir (cString filename)) hash = (_, _) from rfl)
      subst ht
      refine ⟨hkeep, fun _ => ⟨hbounds, fun hash' filename' path hpath => ?_⟩⟩
      simp only [Reception.create, DownloadPc.opened, Option.some.injEq, Prod.mk.injEq] at hpath
      exact (hopen path hpath.2.2).2
  | store hash filename target file missing hpc ht =>
      subst ht
      refine ⟨Disk.keeps_store fun path hpath => ?_,
        fun _ => ⟨hbounds, by simp [DownloadPc.opened]⟩⟩
      exact h.opened hash filename path (by rw [hpc, hpath]; rfl)
  | fail report hbroken ht hsent =>
      rw [ht]
      exact ⟨.refl _, fun hlive => by cases hlive⟩

/-- **Every file that is not empty is kept** by the whole run. -/
theorem keeps_of_reaches {ok : Reception → Nat → Prop}
    (h : s.host.logger.terminated = false → Safe s)
    (hrun : (live contains downloadDir).Reaches ok s t) :
    Disk.Keeps s.host.disk t.host.disk ∧ (t.host.logger.terminated = false → Safe t) := by
  refine hrun.invariant (I := fun t => Disk.Keeps s.host.disk t.host.disk ∧
    (t.host.logger.terminated = false → Safe t)) ?_ ⟨.refl _, h⟩
  rintro u k v ⟨hkeep, hsafe⟩ _ hst
  simp only [live] at hst
  split at hst
  · cases hst
  · rename_i hlive
    obtain ⟨hkeep', hsafe'⟩ := (hsafe (by simpa using hlive)).step hst
    exact ⟨hkeep.trans hkeep', hsafe'⟩

end Reception

/-! ## The properties themselves -/

/-- **Downloads never clobber.** For every directory and every stream, from
the head of the receive loop on, as long as every write stores all of its
bytes: a file that is not empty at any moment keeps its bytes for ever
after; and an image that is received, whatever its name, hash and bytes,
has one of the three outcomes and takes exactly its bytes off the
stream. -/
theorem downloads_never_clobber {contains : ExifHash → Bool} {downloadDir : Bytes}
    {s₀ u v : Reception} (hstart : s₀.pc = .count)
    (hu : (Reception.live contains downloadDir).Reaches (fun s k => s.pc.StoresAll k) s₀ u)
    (hv : (Reception.live contains downloadDir).Reaches (fun s k => s.pc.StoresAll k) u v) :
    (∀ path bytes, bytes ≠ [] → u.host.disk.contents path = some bytes →
        v.host.disk.contents path = some bytes) ∧
      ∀ hash missing d, u.pc = .file (hash :: missing) → u.host.logger.terminated = false →
        (Reception.live contains downloadDir).Reaches
          (fun s k => s.downloads = u.downloads ∧ s.pc.StoresAll k) u v →
        v.downloads = u.downloads ++ [d] →
          v.pc = .file missing ∧ d.hash = hash ∧ u.input.pending = d.bytes ++ v.input.pending ∧
            Outcome downloadDir u.host v.host d := by
  refine ⟨fun path bytes hne hbytes => ?_, fun hash missing d hpc hrunning hrun hd => ?_⟩
  · have hsafe₀ : Reception.Safe s₀ :=
      ⟨by rw [hstart]; trivial, by simp [hstart, DownloadPc.opened]⟩
    have hsafe := (Reception.keeps_of_reaches (fun _ => hsafe₀) hu).2
    exact (Reception.keeps_of_reaches hsafe hv).1.kept path bytes hne hbytes
  · cases Reception.imageRun_of_reaches hpc hrunning (fun s k hk => hk.1) hrun with
    | going h => simp [h.downloads] at hd
    | gaveUp s report h hshort ht => simp [ht, Reception.fatal, h.downloads] at hd
    | complete s filename target file k h hk hstore ht =>
        have hhere := h.here
        have hcons := h.conserved
        rw [hstore] at hhere hcons
        obtain ⟨_, _, hhost, htarget⟩ := hhere
        have hall := hk.2
        rw [hstore] at hall
        rw [ht, h.downloads] at hd
        obtain rfl : (⟨hash, filename, target, file⟩ : Download) = d := by simpa using hd
        refine ⟨by rw [ht], rfl, ?_, ?_⟩
        · rw [← hcons, ht]
          simp [DownloadPc.consumed, Download.bytes]
        · rw [ht]
          have houtcome := Reception.outcome_of_created htarget hall
          rw [← hhost] at houtcome
          exact houtcome

/-- An image that is offered and sent, and whose name is taken. -/
def takenNameBytes : Bytes :=
  1 :: ExifHash.toDigest ⟨1, 0, 0, 0, 0⟩ ++ [1, 97, 0, 0, 0, 2, 7, 8]

def takenName : Reception :=
  ⟨.count, ⟨⟨[([47, 97], [5])], [], []⟩, .start⟩, [], [], .closedOf takenNameBytes, .empty⟩

/-- … after the offer has been answered. -/
def takenNameAnswered : Reception :=
  ⟨.file [⟨1, 0, 0, 0, 0⟩], ⟨⟨[([47, 97], [5])], [], []⟩, .start⟩, [⟨1, 0, 0, 0, 0⟩], [],
    ⟨takenNameBytes, 21, true, by decide⟩, Fifo.empty.push [0]⟩

/-- … and after it is stored under its name and hash. -/
def takenNameStored : Reception :=
  ⟨.file [], ⟨⟨[([47, 97], [5]), (Disk.conflictPath [47, 97] ⟨1, 0, 0, 0, 0⟩, [7, 8])], [], []⟩,
    .start⟩, [⟨1, 0, 0, 0, 0⟩],
    [⟨⟨1, 0, 0, 0, 0⟩, [97], some (Disk.conflictPath [47, 97] ⟨1, 0, 0, 0, 0⟩), [7, 8]⟩],
    ⟨takenNameBytes, 29, true, by decide⟩, Fifo.empty.push [0]⟩

deriving instance DecidableEq for Reception

/-- The run gets from one to the next, and the file that was there stays. -/
theorem downloads_never_clobber_takenName :
    (Reception.live (fun _ => false) []).Reaches (fun s k => s.pc.StoresAll k)
        takenName takenNameAnswered ∧
      (Reception.live (fun _ => false) []).Reaches
        (fun s k => s.downloads = takenNameAnswered.downloads ∧ s.pc.StoresAll k)
        takenNameAnswered takenNameStored ∧
      takenNameStored.host.disk.contents [47, 97] = some [5] ∧
      takenNameAnswered.input.pending =
        [1, 97, 0, 0, 0, 2, 7, 8] ++ takenNameStored.input.pending := by
  have hu : (Reception.live (fun _ => false) []).Reaches (fun s k => s.pc.StoresAll k)
      takenName takenNameAnswered :=
    ⟨[0, 20, 0, 0, 1, 0], by decide +kernel, by decide +kernel⟩
  have hv : (Reception.live (fun _ => false) []).Reaches (fun s k => s.pc.StoresAll k)
      takenNameAnswered takenNameStored :=
    ⟨[0, 1, 0, 4, 0, 0, 2, 0, 2], by decide +kernel, by decide +kernel⟩
  have hrun : (Reception.live (fun _ => false) []).Reaches
      (fun s k => s.downloads = takenNameAnswered.downloads ∧ s.pc.StoresAll k)
      takenNameAnswered takenNameStored :=
    ⟨[0, 1, 0, 4, 0, 0, 2, 0, 2], by decide +kernel, by decide +kernel⟩
  obtain ⟨hkept, himage⟩ := downloads_never_clobber rfl hu hv
  exact ⟨hu, hrun, hkept [47, 97] [5] (by decide) rfl,
    (himage ⟨1, 0, 0, 0, 0⟩ [] _ rfl rfl hrun rfl).2.2.1⟩

/-- **What a failed download leaves.** For every directory and every stream
that ends inside an image: given up in the name or the size, the directory
is what it was; given up in the contents, no file has changed, and at most
one is new: the empty one that was opened for the image, under its name,
or under its name and hash if the name is not usable. -/
theorem failed_download_leaves {contains : ExifHash → Bool} {downloadDir : Bytes}
    {u t : Reception} {hash : ExifHash} {missing : List ExifHash}
    (hpc : u.pc = .file (hash :: missing)) (hrunning : u.host.logger.terminated = false)
    (hrun : (Reception.live contains downloadDir).Reaches
      (fun s _ => s.downloads = u.downloads) u t)
    (hfail : t.host.logger.terminated = true) :
    ((t.pc = .file (hash :: missing) ∨
          (∃ filenameLen filename, t.pc = .name hash filenameLen filename missing) ∨
          ∃ filename buf, t.pc = .size hash filename buf missing) ∧
        t.host.disk = u.host.disk) ∨
      ∃ filename fileSize target file path,
        t.pc = .payload hash filename fileSize target file missing ∧ file.length < fileSize ∧
          path = toPath downloadDir (cString filename) ∧
          ∀ q, t.host.disk.contents q = u.host.disk.contents q ∨
            u.host.disk.contents q = none ∧ t.host.disk.contents q = some [] ∧
              (u.host.disk.Usable path ∧ q = path ∨
                ¬ u.host.disk.Usable path ∧ u.host.disk.Usable (Disk.conflictPath path hash) ∧
                  q = Disk.conflictPath path hash) := by
  cases Reception.imageRun_of_reaches hpc hrunning (fun s k hk => hk) hrun with
  | going h =>
      rw [h.running] at hfail
      cases hfail
  | complete s filename target file k h hk hstore ht =>
      rw [ht, show _ = s.host.logger.terminated from rfl, h.running] at hfail
      cases hfail
  | gaveUp s report h hshort ht =>
      have hhere := h.here
      have hbounds := h.bounds
      have hsame : t.pc = s.pc ∧ t.host.disk = s.host.disk := by rw [ht]; exact ⟨rfl, rfl⟩
      rw [hsame.1, hsame.2]
      cases hspc : s.pc with
      | file missing' =>
          rw [hspc] at hhere
          exact Or.inl ⟨Or.inl (by rw [hhere.1]), by rw [hhere.2]⟩
      | name hash' filenameLen filename missing' =>
          rw [hspc] at hhere
          obtain ⟨rfl, rfl, hhost⟩ := hhere
          exact Or.inl ⟨Or.inr (Or.inl ⟨_, _, rfl⟩), by rw [hhost]⟩
      | size hash' filename buf missing' =>
          rw [hspc] at hhere
          obtain ⟨rfl, rfl, hhost⟩ := hhere
          exact Or.inl ⟨Or.inr (Or.inr ⟨_, _, rfl⟩), by rw [hhost]⟩
      | payload hash' filename fileSize target file missing' =>
          rw [hspc] at hhere hshort hbounds
          obtain ⟨rfl, rfl, hhost, _⟩ := hhere
          refine Or.inr ⟨filename, fileSize, target, file, _, rfl,
            Nat.lt_of_le_of_ne hbounds.2.1 hshort, rfl, fun q => ?_⟩
          rw [hhost]
          exact u.host.disk.contents_createFile _ hash' q
      | create | store | update | notify | count | offer | answer | mask | closed | overrun =>
          rw [hspc] at hshort
          first | exact hshort.elim | (rw [hspc] at hhere; exact hhere.elim)

/-- A stream that ends before the contents of the image. -/
def cutPayload : Reception :=
  ⟨.file [⟨1, 0, 0, 0, 0⟩], ⟨⟨[], [], []⟩, .start⟩, [], [], .closedOf [1, 97, 0, 0, 0, 1], .empty⟩

/-- **A failed download leaves a trace**: the empty file that was opened for
it. -/
theorem not_always_without_trace :
    ¬ ∀ (contains : ExifHash → Bool) (downloadDir : Bytes) (u t : Reception) (hash : ExifHash)
        (missing : List ExifHash), u.pc = .file (hash :: missing) →
        u.host.logger.terminated = false →
        (Reception.live contains downloadDir).Reaches
          (fun s _ => s.downloads = u.downloads) u t →
        t.host.logger.terminated = true →
        ∀ q, t.host.disk.contents q = u.host.disk.contents q := by
  intro hall
  have htrace := hall (fun _ => false) [] cutPayload _ ⟨1, 0, 0, 0, 0⟩ [] rfl rfl
    ⟨[0, 1, 0, 4, 0, 0, 0], rfl, by decide +kernel⟩ rfl [47, 97]
  exact absurd htrace (by decide)

theorem failed_download_leaves_cutPayload :
    ∃ t, (Reception.live (fun _ => false) []).exec cutPayload [0, 1, 0, 4, 0, 0, 0] = some t ∧
      (t.host.disk = cutPayload.host.disk ∨ ∃ filename, ∀ q,
        t.host.disk.contents q = cutPayload.host.disk.contents q ∨
          q = toPath [] (cString filename) ∨
          q = Disk.conflictPath (toPath [] (cString filename)) ⟨1, 0, 0, 0, 0⟩) := by
  refine ⟨_, rfl, ?_⟩
  have hpc : cutPayload.pc = .file [⟨1, 0, 0, 0, 0⟩] := rfl
  have hrun : (Reception.live (fun _ => false) []).Reaches
      (fun s _ => s.downloads = cutPayload.downloads) cutPayload _ :=
    ⟨[0, 1, 0, 4, 0, 0, 0], rfl, by decide +kernel⟩
  rcases failed_download_leaves hpc rfl hrun rfl with
    ⟨_, hdisk⟩ | ⟨filename, _, _, _, _, _, _, rfl, hfiles⟩
  · exact Or.inl hdisk
  · refine Or.inr ⟨filename, fun q => (hfiles q).imp_right ?_⟩
    rintro ⟨_, _, ⟨_, rfl⟩ | ⟨_, _, rfl⟩⟩
    · exact Or.inl rfl
    · exact Or.inr rfl

end Jpgsync
