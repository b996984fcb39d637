import Jpgsync.Framing
import Jpgsync.Peer.Sides

/-!
# Session — Flow

The invariant of one direction of a session. The uploader is in one of
four relations to the remote downloader: it waits for the end of the
update (`waiting`), which may already be on its way (`notified`); bytes
flow and no answer is due (`flowing`); or its offer has been answered and
it has not decoded the answer (`answered`). While bytes flow, what the
downloader has consumed of the current item, what is pending, and what
the uploader has still to write of it are together the files the
downloader is waiting for, followed by what the uploader has begun.

The relation says what each side believes about the files in flight, so
the two loops stay aligned. Everything is said of one step of the sending
loop (`Flow.emission`) and of one step of the receiving loop
(`Flow.reception`), for any state of the other side.
-/

namespace Jpgsync

open UploadPc DownloadPc

/-- The entries of an offer that the remote peer does not hold. -/
def missingOf (contains : ExifHash → Bool) (offered : List Entry) : List Entry :=
  offered.filter fun e => !contains e.hash

theorem missingOf_append (contains : ExifHash → Bool) (es es' : List Entry) :
    missingOf contains (es ++ es') = missingOf contains es ++ missingOf contains es' :=
  List.filter_append es es'

/-- **Where a direction is**: the files in flight, the entries of the
current round whose contents are still to be read, and the entries of an
offer that is not answered. -/
inductive Flow (contains : ExifHash → Bool) (x : UploadPc) (y : DownloadPc)
    (offers replies : Fifo UInt8) : List SentFile → List Entry → List Entry → Prop
  | waiting (hx : x = .wait) (hy : ¬ InLoop y) (ho : offers.pending = [])
      (hr : replies.pending = []) : Flow contains x y offers replies [] [] []
  | notified (byte : UInt8) (hx : x = .wait) (hy : InLoop y) (hc : consumed y = [])
      (hu : unanswered y = []) (ho : offers.pending = []) (hr : replies.pending = [byte]) :
      Flow contains x y offers replies [] [] []
  | flowing (inflight : List SentFile) (todo : List Entry) (hx : x ≠ .wait) (hy : InLoop y)
      (hxa : answered x = []) (hya : unanswered y = []) (hr : replies.pending = [])
      (htodo : UploadPc.todo x = some todo)
      (hbytes : consumed y ++ offers.pending ++ unsent x = filesBytes inflight ++ started x) :
      Flow contains x y offers replies inflight todo (asking x)
  | answered (mask : Bytes) (hx : asking x ≠ []) (hxu : unsent x = []) (hy : InLoop y)
      (hc : consumed y = []) (ho : offers.pending = [])
      (hmask : UploadPc.answered x ++ replies.pending ++ unanswered y = mask)
      (hlen : mask.length = foundBitmaskSize (asking x).length)
      (hup : uploadLoop (.start mask) (asking x) = some (missingOf contains (asking x))) :
      Flow contains x y offers replies [] (missingOf contains (asking x)) []

/-- What is known of an uploading peer by itself: its offers are neither
empty nor too large, and the sizes it announces fit their four bytes. -/
structure Upstream (x : UploadPc) : Prop where
  count : (asking x).length ≤ syncHashesPerPacket
  offer : ∀ bytes missing, x = .offer bytes missing ∨ x = .mask bytes missing → missing ≠ []
  size : ∀ fileSize, announced x = some fileSize → fileSize ≠ 0 ∧ fileSize < 2 ^ 32

/-- Between rounds nothing is under way. -/
theorem UploadPc.Idle.quiet {x : UploadPc} (hx : x.Idle) :
    x ≠ .wait ∧ unsent x = [] ∧ started x = [] ∧ UploadPc.todo x = some [] ∧
      asking x = [] ∧ UploadPc.answered x = [] := by
  cases x with
  | entry cursor missing =>
      cases missing with
      | nil => exact ⟨by simp, rfl, rfl, rfl, rfl, rfl⟩
      | cons e rest => exact hx.elim
  | lockUpdated | setUpdated | main | closed => exact ⟨by simp, rfl, rfl, rfl, rfl, rfl⟩
  | _ => exact hx.elim

/-- What an uploader without files to send has begun: nothing, or an
offer. -/
theorem started_of_todo_nil {x : UploadPc} (h : UploadPc.todo x = some []) (hx : Upstream x) :
    (started x = [] ∧ asking x = []) ∨ (started x = offerBytes (asking x) ∧ asking x ≠ []) := by
  cases x with
  | offer bytes missing => exact Or.inr ⟨rfl, hx.offer bytes missing (Or.inl rfl)⟩
  | mask bytes missing => exact Or.inr ⟨rfl, hx.offer bytes missing (Or.inr rfl)⟩
  | name rest l =>
      obtain ⟨_, _, h⟩ := Option.map_eq_some_iff.mp h
      cases h
  | openFile l =>
      obtain ⟨_, _, h⟩ := Option.map_eq_some_iff.mp h
      cases h
  | size rest fileSize l =>
      obtain ⟨_, _, h⟩ := Option.map_eq_some_iff.mp h
      cases h
  | read fileSize l =>
      obtain ⟨_, _, h⟩ := Option.map_eq_some_iff.mp h
      cases h
  | _ => exact Or.inl ⟨rfl, rfl⟩

/-- A complete file is not what an uploader has begun and not finished. -/
theorem store_ne_started {x : UploadPc} (hx : Upstream x) (hask : asking x = [])
    {hash : ExifHash} {filename : Bytes} {target : Option Bytes} {bytes : Bytes}
    {missing : List ExifHash} (h : InBounds (.store hash filename target bytes missing))
    {rest : Bytes} :
    consumed (.store hash filename target bytes missing) ++ rest ≠ started x := by
  intro heq
  cases x with
  | offer rest missing => exact hx.offer rest missing (Or.inl rfl) hask
  | mask rest missing => exact hx.offer rest missing (Or.inr rfl) hask
  | name rest l => exact store_ne_name h heq
  | openFile l => exact store_ne_name h heq
  | size rest fileSize l => exact store_ne_size h (hx.size fileSize rfl) heq
  | read fileSize l => exact store_ne_size h (hx.size fileSize rfl) heq
  | _ => simp [consumed, started] at heq

/-- Sizes that are announced stay within their bounds. -/
theorem announced_step {k : Nat} {s t : Emission} (hmove : Emission.Move k s t)
    (h : ∀ n, announced s.pc = some n → n ≠ 0 ∧ n < 2 ^ 32)
    (hfits : s.pc.SizeFits s.host.disk) :
    ∀ n, announced t.pc = some n → n ≠ 0 ∧ n < 2 ^ 32 := by
  intro n hn
  cases hmove with
  | write hw => exact h n (hw.announced ▸ hn)
  | openFile l contents hpc hopen' ht =>
      rw [ht] at hn
      rw [hpc] at hfits
      obtain rfl : contents.length = n := Option.some.inj hn
      refine ⟨fun hzero => ?_, hfits contents hopen'⟩
      have hne := (Option.filter_eq_some_iff.mp hopen').2
      simp [hzero] at hne
  | fail report hbroken ht =>
      rw [ht] at hn
      exact h n hn
  | readMask buf buf' missing hpc ht => rw [ht] at hn; cases hn
  | decode buf missing hpc hlen ht => rw [ht] at hn; cases hn
  | begin cursor e rest hpc hwants ht => rw [ht] at hn; cases hn
  | skip cursor e rest hpc hwants ht => rw [ht] at hn; cases hn
  | read fileSize l hpc contents hcontents ht => rw [ht] at hn; cases hn

/-- **While bytes flow**, and no answer is due. -/
structure Flowing (x : UploadPc) (y : DownloadPc) (offers replies : Fifo UInt8)
    (inflight : List SentFile) (todo : List Entry) : Prop where
  inLoop : InLoop y
  answered : UploadPc.answered x = []
  unanswered : unanswered y = []
  replies : replies.pending = []
  todo : UploadPc.todo x = some todo
  bytes : consumed y ++ offers.pending ++ unsent x = filesBytes inflight ++ started x

namespace Flow

variable {contains : ExifHash → Bool} {x : UploadPc} {y : DownloadPc} {offers replies : Fifo UInt8}
  {inflight : List SentFile} {todo opening : List Entry} {k : Nat}

theorem of_flowing (h : Flowing x y offers replies inflight todo) (hx : x ≠ .wait) :
    Flow contains x y offers replies inflight todo (asking x) :=
  .flowing inflight todo hx h.inLoop h.answered h.unanswered h.replies h.todo h.bytes

/-- An uploader that neither waits nor has an offer out is sending files, -/
theorem flowing_of_files (h : Flow contains x y offers replies inflight todo opening)
    (hx : x ≠ .wait) (hask : asking x = []) :
    Flowing x y offers replies inflight todo ∧ opening = [] := by
  cases h with
  | waiting hwait => exact absurd hwait hx
  | notified byte hwait => exact absurd hwait hx
  | flowing inflight todo _ hy hxa hya hr htodo hbytes =>
      exact ⟨⟨hy, hxa, hya, hr, htodo, hbytes⟩, hask⟩
  | answered mask hne => exact absurd hask hne

/-- and so is one whose downloader is inside an item. -/
theorem flowing_of_consumed (h : Flow contains x y offers replies inflight todo opening)
    (hy : InLoop y) (hc : consumed y ≠ []) :
    Flowing x y offers replies inflight todo ∧ opening = asking x ∧ x ≠ .wait := by
  cases h with
  | waiting hwait hupdate => exact absurd hy hupdate
  | notified byte hwait _ hnil => exact absurd hnil hc
  | flowing inflight todo hx hy hxa hya hr htodo hbytes =>
      exact ⟨⟨hy, hxa, hya, hr, htodo, hbytes⟩, rfl, hx⟩
  | answered mask hask hxu _ hnil => exact absurd hnil hc

/-! ## The sending side -/

/-- A write: the bytes that leave `unsent` are pending now. -/
theorem write {s t : Emission} (hw : Emission.Writes s t)
    (h : Flow contains s.pc y s.output s.input inflight todo opening) :
    Flow contains t.pc y t.output t.input inflight todo opening := by
  have hne : t.pc ≠ .wait := fun heq => by
    have hin := hw.inRound
    rw [heq] at hin
    exact hin
  cases h with
  | waiting hx' => exact absurd hw.before (by rw [hx']; exact id)
  | notified byte hx' => exact absurd hw.before (by rw [hx']; exact id)
  | flowing inflight todo hx' hy hxa hya hr htodo hbytes =>
      rw [← hw.asking]
      refine .flowing inflight todo hne hy (hw.answered.trans hxa) hya
        (by rw [hw.input]; exact hr) (hw.todo.trans htodo) ?_
      rw [List.append_assoc, hw.pending, hw.started, ← List.append_assoc]
      exact hbytes
  | answered mask hask hxu hy hc ho hmask hlen hup =>
      have hnil := hw.pending
      rw [ho, hxu, List.append_nil] at hnil
      obtain ⟨hp, hu⟩ := List.append_eq_nil_iff.mp hnil
      rw [← hw.asking]
      refine .answered mask (by rw [hw.asking]; exact hask) hu hy hc hp ?_ ?_ ?_
      · rw [hw.answered, hw.input]
        exact hmask
      · rw [hw.asking]
        exact hlen
      · rw [hw.asking]
        exact hup

/-- A part of the answer is read. -/
theorem readMask {buf buf' : Bytes} {missing : List Entry} {replies' : Fifo UInt8}
    (hcons : buf' ++ replies'.pending = buf ++ replies.pending)
    (h : Flow contains (.mask buf missing) y offers replies inflight todo opening) :
    Flow contains (.mask buf' missing) y offers replies' inflight todo opening := by
  cases h with
  | waiting hx' => cases hx'
  | notified byte hx' => cases hx'
  | flowing inflight todo hx' hy hxa hya hr htodo hbytes =>
      have hbuf : buf = [] := hxa
      rw [hbuf, hr] at hcons
      obtain ⟨hbuf', hr'⟩ := List.append_eq_nil_iff.mp hcons
      exact .flowing (x := .mask buf' missing) inflight todo (by simp) hy hbuf' hya hr' htodo
        hbytes
  | answered mask hask hxu hy hc ho hmask hlen hup =>
      refine .answered (x := .mask buf' missing) mask hask rfl hy hc ho ?_ hlen hup
      rw [show UploadPc.answered (.mask buf' missing) = buf' from rfl, hcons]
      exact hmask

/-- The answer is complete: nothing of it is left on either side. -/
theorem decode {buf : Bytes} {missing : List Entry} (hmissing : missing ≠ [])
    (hlen' : buf.length = foundBitmaskSize missing.length)
    (h : Flow contains (.mask buf missing) y offers replies inflight todo opening) :
    Flow contains (.entry (.start buf) missing) y offers replies inflight todo opening := by
  cases h with
  | waiting hx' => cases hx'
  | notified byte hx' => cases hx'
  | flowing inflight todo hx' hy hxa hya hr htodo hbytes =>
      -- an offer of at least one hash has at least one byte of answer
      have hbuf : buf = [] := hxa
      have hpos : 0 < missing.length := List.length_pos_iff.mpr hmissing
      rw [hbuf, List.length_nil] at hlen'
      simp only [foundBitmaskSize, charBit] at hlen'
      omega
  | answered mask hask hxu hy hc ho hmask hlen hup =>
      have hmask' : buf ++ (replies.pending ++ unanswered y) = mask := by
        rw [← List.append_assoc]
        exact hmask
      have hsize : foundBitmaskSize (asking (.mask buf missing)).length =
          foundBitmaskSize missing.length := rfl
      have hrest : replies.pending ++ unanswered y = [] := by
        have hl := congrArg List.length hmask'
        rw [hlen, List.length_append, hlen'] at hl
        exact List.length_eq_zero_iff.mp (by omega)
      obtain ⟨hr, hya⟩ := List.append_eq_nil_iff.mp hrest
      rw [hrest, List.append_nil] at hmask'
      rw [← hmask'] at hup
      refine .flowing (x := .entry (.start buf) missing) [] _ (by simp) hy rfl hya hr hup ?_
      rw [hc, ho]
      rfl

/-- An entry that the other side lacks is begun, -/
theorem begin {cursor : MaskCursor} {e : Entry} {rest : List Entry}
    (hwants : cursor.wants = some true)
    (h : Flow contains (.entry cursor (e :: rest)) y offers replies inflight todo opening) :
    Flow contains (.name (nameBytes e.path) ⟨cursor, e, rest⟩) y offers replies inflight todo
      opening := by
  obtain ⟨hf, rfl⟩ := h.flowing_of_files (by simp) rfl
  have htodo : (uploadLoop cursor.next rest).map (e :: ·) = some todo := by
    rw [← hf.todo, UploadPc.todo, uploadLoop, hwants]
  refine of_flowing (x := .name (nameBytes e.path) ⟨cursor, e, rest⟩)
    ⟨hf.inLoop, rfl, hf.unanswered, hf.replies, htodo, ?_⟩ (by simp)
  rw [show started (.name (nameBytes e.path) ⟨cursor, e, rest⟩) = nameBytes e.path from rfl,
    show unsent (.name (nameBytes e.path) ⟨cursor, e, rest⟩) = nameBytes e.path from rfl]
  have hbytes : consumed y ++ offers.pending = filesBytes inflight := by
    simpa [unsent, started] using hf.bytes
  rw [hbytes]

/-- and one that it has is passed over. -/
theorem skip {cursor : MaskCursor} {e : Entry} {rest : List Entry}
    (hwants : cursor.wants = some false)
    (h : Flow contains (.entry cursor (e :: rest)) y offers replies inflight todo opening) :
    Flow contains (.entry cursor.next rest) y offers replies inflight todo opening := by
  obtain ⟨hf, rfl⟩ := h.flowing_of_files (by simp) rfl
  have htodo : uploadLoop cursor.next rest = some todo := by
    rw [← hf.todo, UploadPc.todo, uploadLoop, hwants]
  exact of_flowing (x := .entry cursor.next rest)
    ⟨hf.inLoop, rfl, hf.unanswered, hf.replies, htodo, hf.bytes⟩ (by simp)

/-- The file is opened, and its size is to be sent. -/
theorem openFile {l : FileLoop} {size : Nat}
    (h : Flow contains (.openFile l) y offers replies inflight todo opening) :
    Flow contains (.size (writeFileSize size) size l) y offers replies inflight todo opening := by
  obtain ⟨hf, rfl⟩ := h.flowing_of_files (by simp) rfl
  refine of_flowing (x := .size (writeFileSize size) size l)
    ⟨hf.inLoop, rfl, hf.unanswered, hf.replies, hf.todo, ?_⟩ (by simp)
  have hbytes : consumed y ++ offers.pending = filesBytes inflight ++ nameBytes l.entry.path := by
    simpa [unsent, started] using hf.bytes
  show consumed y ++ offers.pending ++ writeFileSize size =
    filesBytes inflight ++ (nameBytes l.entry.path ++ writeFileSize size)
  rw [hbytes, List.append_assoc]

/-- The contents are read: one more file is in flight. -/
theorem readFile {l : FileLoop} {file : Bytes}
    (h : Flow contains (.read file.length l) y offers replies inflight todo opening) :
    ∃ todo', todo = l.entry :: todo' ∧
      Flow contains (.payload file l) y offers replies (inflight ++ [(l.entry, file)]) todo'
        opening := by
  obtain ⟨hf, rfl⟩ := h.flowing_of_files (by simp) rfl
  obtain ⟨todo', htodo', rfl⟩ := Option.map_eq_some_iff.mp hf.todo
  refine ⟨todo', rfl, of_flowing (x := .payload file l)
    ⟨hf.inLoop, rfl, hf.unanswered, hf.replies, htodo', ?_⟩ (by simp)⟩
  have hbytes : consumed y ++ offers.pending = filesBytes inflight ++
      (nameBytes l.entry.path ++ writeFileSize file.length) := by
    simpa [unsent, started] using hf.bytes
  show consumed y ++ offers.pending ++ file = _ ++ []
  rw [hbytes, filesBytes_append]
  simp [fileBytes]

/-- **A step of the sending loop.** Either `Fatal` is called, or the
direction goes on: the files in flight grow by what was read, which was
the next entry to be sent. -/
theorem emission {s t : Emission} (hmove : Emission.Move k s t) (hx : Upstream s.pc)
    (h : Flow contains s.pc y s.output s.input inflight todo opening) :
    (∃ report, t = s.fatal report ∧ Emission.Broken s) ∨
      ∃ new todo', Flow contains t.pc y t.output t.input (inflight ++ new) todo' opening ∧
        t.uploads = s.uploads ++ new ∧ new.map Prod.fst ++ todo' = todo ∧
        ∀ f ∈ new, announced s.pc = some f.2.length := by
  have hkeep : t.uploads = s.uploads →
      Flow contains t.pc y t.output t.input inflight todo opening →
      ∃ new todo', Flow contains t.pc y t.output t.input (inflight ++ new) todo' opening ∧
        t.uploads = s.uploads ++ new ∧ new.map Prod.fst ++ todo' = todo ∧
        ∀ f ∈ new, announced s.pc = some f.2.length := fun huploads hflow =>
    ⟨[], todo, by rwa [List.append_nil], by rwa [List.append_nil], rfl, by simp⟩
  cases hmove with
  | fail report hbroken ht => exact Or.inl ⟨report, ht, hbroken⟩
  | write hw => exact Or.inr (hkeep hw.uploads (h.write hw))
  | readMask buf buf' missing hpc ht hcons hclosed =>
      rw [hpc] at h
      refine Or.inr (hkeep (by rw [ht]) ?_)
      rw [ht]
      exact h.readMask hcons
  | decode buf missing hpc hlen ht =>
      rw [hpc] at h hx
      refine Or.inr (hkeep (by rw [ht]) ?_)
      rw [ht]
      exact h.decode (hx.offer buf missing (Or.inr rfl)) hlen
  | begin cursor e rest hpc hwants ht =>
      rw [hpc] at h
      refine Or.inr (hkeep (by rw [ht]) ?_)
      rw [ht]
      exact h.begin hwants
  | skip cursor e rest hpc hwants ht =>
      rw [hpc] at h
      refine Or.inr (hkeep (by rw [ht]) ?_)
      rw [ht]
      exact h.skip hwants
  | openFile l contents hpc hopen ht =>
      rw [hpc] at h
      refine Or.inr (hkeep (by rw [ht]) ?_)
      rw [ht]
      exact h.openFile
  | read fileSize l hpc contents hcontents ht =>
      have hlen := length_readBuffer contents fileSize k
      rw [hpc, ← hlen] at h
      obtain ⟨todo', rfl, hflow⟩ := h.readFile
      refine Or.inr ⟨[(l.entry, readBuffer contents fileSize k)], todo', by rw [ht]; exact hflow,
        by rw [ht], rfl, fun f hf => ?_⟩
      rw [List.mem_singleton.mp hf, hlen, hpc]
      rfl

/-- The byte that ends the update is read. -/
theorem waited {byte : UInt8} {replies' : Fifo UInt8}
    (h : Flow contains .wait y offers replies inflight todo opening)
    (hpending : replies.pending = byte :: replies'.pending) :
    Flow contains .lockUpdated y offers replies' inflight todo opening := by
  cases h with
  | waiting hx hy ho hr => rw [hr] at hpending; cases hpending
  | notified byte' hx hy hc hu ho hr =>
      rw [hr, List.cons.injEq] at hpending
      exact .flowing (x := .lockUpdated) [] [] (by simp) hy rfl hu hpending.2.symm rfl
        (by rw [hc, ho]; rfl)
  | flowing inflight todo hx => exact absurd rfl hx
  | answered mask hask => exact absurd rfl hask

/-- Between rounds the uploader's own business does not touch the
direction. -/
theorem idle {x' : UploadPc} (h : Flow contains x y offers replies inflight todo opening)
    (hx : x.Idle) (hx' : x'.Idle) :
    Flow contains x' y offers replies inflight todo opening := by
  obtain ⟨hw, hu, hs, ht, ha, hr'⟩ := hx.quiet
  obtain ⟨hw', hu', hs', ht', ha', hr''⟩ := hx'.quiet
  obtain ⟨hf, rfl⟩ := h.flowing_of_files hw ha
  rw [← ha']
  refine of_flowing ⟨hf.inLoop, hr'', hf.unanswered, hf.replies, ?_, ?_⟩ hw'
  · rw [ht', ← ht, hf.todo]
  · rw [hu'.trans hu.symm, hs'.trans hs.symm]
    exact hf.bytes

/-- Between rounds no file is left to be read and no answer is due. -/
theorem idle_done (h : Flow contains x y offers replies inflight todo opening) (hx : x.Idle) :
    todo = [] ∧ opening = [] ∧ InLoop y := by
  obtain ⟨hw, _, _, ht, ha, _⟩ := hx.quiet
  obtain ⟨hf, rfl⟩ := h.flowing_of_files hw ha
  exact ⟨(Option.some.inj (ht.symm.trans hf.todo)).symm, rfl, hf.inLoop⟩

/-- An offer is built. -/
theorem beginRound (missing : List Entry)
    (h : Flow contains .main y offers replies inflight todo opening) :
    opening = [] ∧
      Flow contains (.offer (offerBytes missing) missing) y offers replies inflight todo
        missing := by
  obtain ⟨hf, rfl⟩ := h.flowing_of_files (by simp) rfl
  refine ⟨rfl, of_flowing (x := .offer (offerBytes missing) missing)
    ⟨hf.inLoop, rfl, hf.unanswered, hf.replies, hf.todo, ?_⟩ (by simp)⟩
  have hbytes : consumed y ++ offers.pending = filesBytes inflight := by
    simpa [unsent, started] using hf.bytes
  show consumed y ++ offers.pending ++ offerBytes missing =
    filesBytes inflight ++ offerBytes missing
  rw [hbytes]

/-! ## The receiving side -/

/-- The relation is about bytes, not about the ends of their streams. -/
theorem closeReplies (h : Flow contains x y offers replies inflight todo opening) :
    Flow contains x y offers replies.close inflight todo opening := by
  cases h with
  | waiting hx hy ho hr => exact .waiting hx hy ho hr
  | notified byte hx hy hc hu ho hr => exact .notified byte hx hy hc hu ho hr
  | flowing inflight todo hx hy hxa hya hr htodo hbytes =>
      exact .flowing inflight todo hx hy hxa hya hr htodo hbytes
  | answered mask hx hxu hy hc ho hmask hlen hup =>
      exact .answered mask hx hxu hy hc ho hmask hlen hup

/-- While the downloader is in its update loop nothing has been said. -/
theorem before (h : Flow contains x y offers replies inflight todo opening) (hy : ¬ InLoop y) :
    x = .wait ∧ offers.pending = [] ∧ replies.pending = [] ∧ inflight = [] ∧ todo = [] ∧
      opening = [] := by
  cases h with
  | waiting hx _ ho hr => exact ⟨hx, ho, hr, rfl, rfl, rfl⟩
  | notified byte hx hy' => exact absurd hy' hy
  | flowing inflight todo hx hy' => exact absurd hy' hy
  | answered mask hx hxu hy' => exact absurd hy' hy

/-- What a closed uploader still has on its way. -/
theorem closed_bytes (h : Flow contains .closed y offers replies inflight todo opening) :
    consumed y ++ offers.pending = filesBytes inflight ∧ todo = [] ∧ opening = [] := by
  obtain ⟨hf, rfl⟩ := h.flowing_of_files (by simp) rfl
  have htodo : some [] = some todo := hf.todo
  refine ⟨?_, (Option.some.inj htodo).symm, rfl⟩
  simpa [unsent, started] using hf.bytes

/-- **The receiving loop does not call `Fatal`**: as long as the two sides
are aligned, a count is that of an offer, and the stream only ends after a
complete item. -/
theorem not_broken {s : Reception} (hbounds : InBounds s.pc) (hx : Upstream x)
    (h : Flow contains x s.pc s.input s.output inflight todo opening)
    (hawait : awaited s.pc = (inflight.map Prod.fst ++ todo).map Entry.hash)
    (hsize : ∀ f ∈ inflight, f.SizeOk) (hclosed : s.input.closed = true → x = .closed) :
    ¬ Reception.Broken s := by
  rintro (⟨hashCount, rest, hpc, hpending, hlarge⟩ | ⟨hend, hpending, hshort⟩)
  · rw [hpc] at h hawait
    cases h with
    | waiting hx' hy => exact hy trivial
    | notified byte hx' hy hc hu ho => rw [ho] at hpending; cases hpending
    | answered mask hask hxu hy hc ho => rw [ho] at hpending; cases hpending
    | flowing inflight todo hx' hy hxa hya hr htodo hbytes =>
        obtain ⟨hin, htd⟩ := List.append_eq_nil_iff.mp (List.map_eq_nil_iff.mp hawait.symm)
        rw [List.map_eq_nil_iff.mp hin, hpending] at hbytes
        rw [htd] at htodo
        have hbytes' : hashCount :: (rest ++ unsent x) = started x := hbytes
        rcases started_of_todo_nil htodo hx with ⟨hs, _⟩ | ⟨hs, _⟩
        · rw [hs] at hbytes'
          cases hbytes'
        · rw [hs, offerBytes, List.cons.injEq] at hbytes'
          rw [hbytes'.1, toNat_offerCount hx.count] at hlarge
          exact Nat.not_lt.mpr hx.count hlarge
  · rw [hclosed hend] at h
    obtain ⟨hbytes, htodo, _⟩ := closed_bytes h
    rw [hpending, List.append_nil] at hbytes
    cases inflight with
    | nil =>
        rw [htodo] at hawait
        cases hpc : s.pc <;> rw [hpc] at hbytes hawait hshort <;>
          simp_all [consumed, awaited, Short]
    | cons f fs =>
        refine short_ne_files hbounds hshort ?_ (hsize f List.mem_cons_self).2
          (hbytes.trans (List.append_nil _).symm)
        rw [hawait]
        simp

/-- **Which file is being received**: the first of those that are still to
come. -/
theorem receiving {hash : ExifHash} {filename rest : Bytes} {missing : List ExifHash}
    (h : Flow contains x y offers replies inflight todo opening)
    (hcons : consumed y = UInt8.ofNat filename.length :: (filename ++ rest))
    (hlen : filename.length < sizeofFilename)
    (hawait : hash :: missing = (inflight.map Prod.fst ++ todo).map Entry.hash) :
    ∃ e es, inflight.map Prod.fst ++ todo = e :: es ∧ e.hash = hash ∧
      filename = sentName e.path := by
  obtain ⟨e, es, hes⟩ : ∃ e es, inflight.map Prod.fst ++ todo = e :: es := by
    cases hlist : inflight.map Prod.fst ++ todo with
    | nil => rw [hlist] at hawait; cases hawait
    | cons e es => exact ⟨e, es, rfl⟩
  refine ⟨e, es, hes, ?_, ?_⟩
  · rw [hes] at hawait
    exact (List.cons.inj hawait).1.symm
  · cases h with
    | waiting hx hy ho hr =>
        cases hes
    | notified byte hx hy hc => rw [hc] at hcons; cases hcons
    | answered mask hask hxu hy hc => rw [hc] at hcons; cases hcons
    | flowing inflight todo hx hy hxa hya hr htodo hbytes =>
        have hname : ∀ path tail : Bytes,
            consumed y ++ offers.pending ++ unsent x = nameBytes path ++ tail →
            filename = sentName path := by
          intro path tail heq
          rw [hcons, nameBytes_eq] at heq
          simp only [List.cons_append, List.append_assoc] at heq
          exact (name_delimited hlen (length_sentName path).1 heq).1
        cases inflight with
        | cons f fs =>
            obtain rfl : f.1 = e := (List.cons.inj hes).1
            refine hname _ (writeFileSize f.2.length ++ f.2 ++ (filesBytes fs ++ started x)) ?_
            rw [hbytes, filesBytes_cons, fileBytes]
            simp only [List.append_assoc]
        | nil =>
            -- it is not complete, so the uploader is still sending it
            rw [show todo = e :: es from hes] at htodo
            cases x with
            | entry cursor missing => rw [hcons] at hbytes; cases hbytes
            | payload rest l => rw [hcons] at hbytes; cases hbytes
            | name rest l =>
                obtain ⟨_, _, hcut⟩ := Option.map_eq_some_iff.mp htodo
                rw [← (List.cons.inj hcut).1]
                exact hname _ [] (by rw [hbytes]; simp [started])
            | openFile l =>
                obtain ⟨_, _, hcut⟩ := Option.map_eq_some_iff.mp htodo
                rw [← (List.cons.inj hcut).1]
                exact hname _ [] (by rw [hbytes]; simp [started])
            | size rest fileSize l =>
                obtain ⟨_, _, hcut⟩ := Option.map_eq_some_iff.mp htodo
                rw [← (List.cons.inj hcut).1]
                exact hname _ (writeFileSize fileSize) (by rw [hbytes]; rfl)
            | read fileSize l =>
                obtain ⟨_, _, hcut⟩ := Option.map_eq_some_iff.mp htodo
                rw [← (List.cons.inj hcut).1]
                exact hname _ (writeFileSize fileSize) (by rw [hbytes]; rfl)
            | _ => cases htodo

/-- A step that only reads. -/
theorem reads {s t : Reception} (hr : Reception.Reads s t)
    (h : Flow contains x s.pc s.input s.output inflight todo opening) :
    Flow contains x t.pc t.input t.output inflight todo opening := by
  cases h with
  | waiting hx' hy =>
      obtain ⟨_, hnu, hnn⟩ := hr.before
      cases hpc : s.pc <;> simp_all [InLoop]
  | notified byte hx' hy hc hu ho hp =>
      have hcons := hr.conserved
      rw [hc, ho, List.append_nil, List.append_eq_nil_iff] at hcons
      exact .notified byte hx' hr.inLoop hcons.1 (hr.unanswered.trans hu) hcons.2
        (by rw [hr.output]; exact hp)
  | flowing inflight todo hx' hy hxa hya hp htodo hbytes =>
      exact .flowing inflight todo hx' hr.inLoop hxa (hr.unanswered.trans hya)
        (by rw [hr.output]; exact hp) htodo (by rw [hr.conserved]; exact hbytes)
  | answered mask hask hxu hy hc ho hmask hlen hup =>
      have hcons := hr.conserved
      rw [hc, ho, List.append_nil, List.append_eq_nil_iff] at hcons
      exact .answered mask hask hxu hr.inLoop hcons.1 hcons.2
        (by rw [hr.output, hr.unanswered]; exact hmask) hlen hup

/-- A part of the answer is sent. -/
theorem reply {rest rest' : Bytes} {missing : List ExifHash} {replies' : Fifo UInt8}
    (hrest : rest ≠ []) (hpending : replies'.pending ++ rest' = replies.pending ++ rest)
    (h : Flow contains x (.mask rest missing) offers replies inflight todo opening) :
    Flow contains x (.mask rest' missing) offers replies' inflight todo opening := by
  cases h with
  | waiting hx' hy => exact absurd trivial hy
  | notified byte hx' hy hc hu => exact absurd hu hrest
  | flowing inflight todo hx' hy hxa hya => exact absurd hya hrest
  | answered mask hask hxu hy hc ho hmask hlen hup =>
      refine .answered mask hask hxu trivial rfl ho ?_ hlen hup
      rw [List.append_assoc, show unanswered (.mask rest' missing) = rest' from rfl, hpending,
        ← List.append_assoc]
      exact hmask

/-- **A complete offer** is the one the uploader asks about, and nothing
else is under way. -/
theorem asked {hashCount : UInt8} {buf : Bytes} (hbounds : InBounds (.answer hashCount buf))
    (hx : Upstream x)
    (h : Flow contains x (.answer hashCount buf) offers replies inflight todo opening)
    (hawait : [] = (inflight.map Prod.fst ++ todo).map Entry.hash) :
    Flowing x (.answer hashCount buf) offers replies [] [] ∧ inflight = [] ∧ todo = [] ∧
      opening = asking x ∧ asking x ≠ [] ∧ hashCount.toNat = (asking x).length ∧
      buf = ExifHash.digests ((asking x).map Entry.hash) ∧ offers.pending = [] ∧
      unsent x = [] := by
  obtain ⟨hf, rfl, -⟩ := h.flowing_of_consumed trivial (by simp [consumed])
  obtain ⟨hin, rfl⟩ := List.append_eq_nil_iff.mp (List.map_eq_nil_iff.mp hawait.symm)
  obtain rfl := List.map_eq_nil_iff.mp hin
  have hbytes := hf.bytes
  rcases started_of_todo_nil hf.todo hx with ⟨hs, _⟩ | ⟨hs, hask⟩
  · rw [hs] at hbytes
    cases hbytes
  rw [hs, List.append_assoc, ← List.append_nil (offerBytes (asking x))] at hbytes
  obtain ⟨hcount, hbuf, hnil⟩ := answer_eq_offer hbounds hx.count hbytes
  obtain ⟨hp, hu⟩ := List.append_eq_nil_iff.mp hnil
  exact ⟨hf, rfl, rfl, rfl, hask, hcount, hbuf, hp, hu⟩

/-- **An offer is answered**: it is complete, and it is the one the uploader
asks about. -/
theorem answer {hashCount : UInt8} {buf : Bytes} {a : Answer}
    (hbounds : InBounds (.answer hashCount buf)) (hx : Upstream x)
    (h : Flow contains x (.answer hashCount buf) offers replies inflight todo opening)
    (hawait : [] = (inflight.map Prod.fst ++ todo).map Entry.hash)
    (hfound : FoundOnceEarly contains (ExifHash.ofDigests hashCount.toNat buf))
    (ha : answerOffer contains sizeofFoundBitmask buf = some a) :
    inflight = [] ∧ todo = [] ∧ opening = asking x ∧
      a.missingHashes = (missingOf contains (asking x)).map Entry.hash ∧
      Flow contains x
        (.mask (a.foundBitmask.take (foundBitmaskSize hashCount.toNat)) a.missingHashes)
        offers replies [] (missingOf contains (asking x)) [] := by
  obtain ⟨hf, rfl, rfl, rfl, hask, hcount, hbuf, hp, hu⟩ := h.asked hbounds hx hawait
  have hhashes : ExifHash.ofDigests hashCount.toNat buf = (asking x).map Entry.hash := by
    have hdigests := ExifHash.ofDigests_digests ((asking x).map Entry.hash)
    rwa [List.length_map, ← hcount, ← hbuf] at hdigests
  rw [hhashes] at hfound
  obtain ⟨a', ha', hsize', hmiss, hup⟩ := upload_agrees hx.count hfound
  rw [← hbuf] at ha'
  rw [show sizeofFoundBitmask = foundBitmaskSize syncHashesPerPacket from rfl, ha'] at ha
  cases ha
  have hmono := foundBitmaskSize_mono hx.count
  refine ⟨rfl, rfl, rfl, hmiss, ?_⟩
  rw [hcount]
  refine .answered _ hask hu trivial rfl hp rfl ?_ ?_
  · rw [hf.answered, hf.replies]
    simp only [unanswered, List.nil_append, List.length_take, hsize']
    exact Nat.min_eq_left hmono
  · rw [hf.answered, hf.replies]
    exact hup

/-- The file is created, which the other side does not see. -/
theorem create {hash : ExifHash} {filename : Bytes} {fileSize : Nat} {target : Option Bytes}
    {missing : List ExifHash}
    (h : Flow contains x (.create hash filename fileSize missing) offers replies inflight todo
      opening) :
    Flow contains x (.payload hash filename fileSize target [] missing) offers replies inflight
      todo opening := by
  obtain ⟨hf, rfl, hx⟩ := h.flowing_of_consumed trivial (by simp [consumed])
  exact of_flowing ⟨trivial, hf.answered, rfl, hf.replies, hf.todo,
    by simpa [consumed] using hf.bytes⟩ hx

/-- **A file is stored**: it is the first one in flight. -/
theorem store {hash : ExifHash} {filename : Bytes} {target : Option Bytes} {file : Bytes}
    {missing : List ExifHash} (hbounds : InBounds (.store hash filename target file missing))
    (hx : Upstream x)
    (h : Flow contains x (.store hash filename target file missing) offers replies inflight todo
      opening)
    (hawait : hash :: missing = (inflight.map Prod.fst ++ todo).map Entry.hash)
    (hsize : ∀ f ∈ inflight, f.SizeOk) :
    ∃ f fs, inflight = f :: fs ∧ hash = f.1.hash ∧ filename = sentName f.1.path ∧ file = f.2 ∧
      missing = (fs.map Prod.fst ++ todo).map Entry.hash ∧
      Flow contains x (.file missing) offers replies fs todo opening := by
  obtain ⟨hf, rfl, hwait⟩ := h.flowing_of_consumed trivial (by simp [consumed])
  have hbytes := hf.bytes
  rw [List.append_assoc] at hbytes
  cases inflight with
  | nil =>
      -- a hash is awaited, so the uploader still has a file to send
      have hask : asking x = [] := by
        by_contra hne
        have htodo : UploadPc.todo x = some [] := by
          cases x <;> first | rfl | exact absurd rfl hne
        rw [← Option.some.inj (htodo.symm.trans hf.todo)] at hawait
        cases hawait
      exact absurd hbytes (store_ne_started hx hask hbounds)
  | cons f fs =>
      rw [filesBytes_cons, List.append_assoc] at hbytes
      obtain ⟨hname, hfile, hrest⟩ := store_eq_file hbounds (hsize f List.mem_cons_self).2 hbytes
      obtain ⟨hhash, hmissing⟩ := List.cons.inj hawait
      exact ⟨f, fs, rfl, hhash, hname, hfile, hmissing,
        of_flowing ⟨trivial, hf.answered, rfl, hf.replies, hf.todo, hrest⟩ hwait⟩

/-- **A step of the receiving loop.** The direction goes on: what is stored
is the first file in flight, under the hash that was awaited for it, and
what is answered is the offer, whose missing entries are to be sent next. -/
theorem reception {s t : Reception} {downloadDir : Bytes}
    (hmove : Reception.Move contains downloadDir k s t) (hbounds : InBounds s.pc)
    (hx : Upstream x) (h : Flow contains x s.pc s.input s.output inflight todo opening)
    (hawait : awaited s.pc = (inflight.map Prod.fst ++ todo).map Entry.hash)
    (hsize : ∀ f ∈ inflight, f.SizeOk) (hclosed : s.input.closed = true → x = .closed)
    (hok : s.pc.AnswersExactly contains) :
    ∃ got inflight' answered opening', inflight = got ++ inflight' ∧
      opening = answered ++ opening' ∧
      Flow contains x t.pc t.input t.output inflight' (todo ++ missingOf contains answered)
        opening' ∧
      awaited t.pc = (inflight'.map Prod.fst ++ (todo ++ missingOf contains answered)).map
        Entry.hash ∧
      t.accepted = s.accepted ++ (missingOf contains answered).map Entry.hash ∧
      t.downloads.map (fun d => (d.hash, d.filename, d.file)) =
        s.downloads.map (fun d => (d.hash, d.filename, d.file)) ++
          got.map fun f => (f.1.hash, sentName f.1.path, f.2) := by
  have hkeep : t.accepted = s.accepted → t.downloads = s.downloads →
      awaited t.pc = awaited s.pc →
      Flow contains x t.pc t.input t.output inflight todo opening →
      ∃ got inflight' answered opening', inflight = got ++ inflight' ∧
      opening = answered ++ opening' ∧
      Flow contains x t.pc t.input t.output inflight' (todo ++ missingOf contains answered)
        opening' ∧
      awaited t.pc = (inflight'.map Prod.fst ++ (todo ++ missingOf contains answered)).map
        Entry.hash ∧
      t.accepted = s.accepted ++ (missingOf contains answered).map Entry.hash ∧
      t.downloads.map (fun d => (d.hash, d.filename, d.file)) =
        s.downloads.map (fun d => (d.hash, d.filename, d.file)) ++
          got.map fun f => (f.1.hash, sentName f.1.path, f.2) := by
    intro ha hd haw hf
    exact ⟨[], inflight, [], opening, rfl, rfl, by simpa [missingOf] using hf,
      by simpa [missingOf, haw] using hawait, by simpa [missingOf] using ha, by simp [hd]⟩
  cases hmove with
  | fail report hbroken => exact absurd hbroken (not_broken hbounds hx h hawait hsize hclosed)
  | read hr => exact hkeep hr.accepted hr.downloads hr.awaited (h.reads hr)
  | reply rest rest' missing hpc hrest ht hpending hcl =>
      refine hkeep (by rw [ht]) (by rw [ht]) (by rw [ht, hpc]; rfl) ?_
      rw [hpc] at h
      rw [ht]
      exact h.reply hrest hpending
  | answer hashCount buf a hpc ha ht =>
      rw [hpc] at h hawait hbounds hok
      obtain ⟨rfl, rfl, rfl, hmiss, hflow⟩ := h.answer hbounds hx hawait hok ha
      refine ⟨[], [], asking x, [], rfl, (List.append_nil _).symm, ?_, ?_, ?_, ?_⟩
      · rw [ht]
        exact hflow
      · rw [ht]
        exact hmiss
      · rw [ht, hmiss]
      · rw [ht]
        exact (List.append_nil _).symm
  | create hash filename fileSize missing hpc ht =>
      refine hkeep (by rw [ht]; rfl) (by rw [ht]; rfl) (by rw [ht, hpc]; rfl) ?_
      rw [hpc] at h
      rw [ht]
      exact h.create
  | store hash filename target file missing hpc ht =>
      rw [hpc] at h hawait hbounds
      obtain ⟨f, fs, rfl, rfl, rfl, rfl, hmissing, hflow⟩ := h.store hbounds hx hawait hsize
      refine ⟨[f], fs, [], opening, rfl, rfl, ?_, ?_, ?_, ?_⟩
      · rw [ht]
        simpa [missingOf] using hflow
      · rw [ht]
        simpa [missingOf, awaited] using hmissing
      · rw [ht]
        simp [missingOf]
      · rw [ht]
        simp
  | close hpc hend hpending ht =>
      refine hkeep (by rw [ht]) (by rw [ht]) (by rw [ht, hpc]; rfl) ?_
      rw [hpc, hclosed hend] at h
      rw [ht, hclosed hend]
      obtain ⟨hf, rfl⟩ := h.flowing_of_files (by simp) rfl
      exact of_flowing (x := .closed)
        ⟨trivial, hf.answered, rfl, hf.replies, hf.todo, hf.bytes⟩ (by simp)

end Flow
end Jpgsync
