import Jpgsync.Lib.Termination
import Jpgsync.Pipeline.Work
import Jpgsync.Session.Deadlock
import Mathlib.Data.Prod.Lex

/-!
# Session — Termination

A session cannot go on for ever by itself. A peer has finitely many items
left: paths to hash, entries to announce and to process, the calls of an
upload round (`Peer.work`). A step of its own either brings one of them
forward, or moves bytes of the item it is at, of which there are finitely
many between the two ends of a direction (`inFlight`). So only spurious
wake-ups and update packets, of which the same one may arrive again and
again, keep a session going (`own_steps_end`).
-/

namespace Jpgsync

open DownloadPc

/-- The calls of the upload round that are left, at most. -/
def UploadPc.roundWork : UploadPc → Nat
  | .wait => 5
  | .lockUpdated => 4
  | .setUpdated => 3
  | .main => 1
  | .offer _ missing => 6 * missing.length + 4
  | .mask _ missing => 6 * missing.length + 3
  | .entry _ missing => 6 * missing.length + 2
  | .name _ l => 6 * l.rest.length + 7
  | .openFile l => 6 * l.rest.length + 6
  | .size _ _ l => 6 * l.rest.length + 5
  | .read _ l => 6 * l.rest.length + 4
  | .payload _ l => 6 * l.rest.length + 3
  | .closed | .overrun => 0

def DownloadPc.updateWork : DownloadPc → Nat
  | .update => 2
  | .notify => 1
  | _ => 0

def ReceivePc.work : ReceivePc → Nat
  | .insert _ => 2
  | .read _ | .lock _ => 1
  | .stopped | .overrun => 0

theorem DownloadPc.updateWork_of_inLoop {pc : DownloadPc} (h : InLoop pc) : pc.updateWork = 0 := by
  cases pc <;> first | rfl | exact h.elim

/-! ## Bytes -/

namespace Emission

variable {total k : Nat} {s t : Emission}

theorem Writing.roundWork {pc next : UploadPc} {rest : Bytes} {more : Bytes → UploadPc}
    (hw : Writing pc rest more next) : next.roundWork < pc.roundWork ∧
      ∀ bytes, (more bytes).roundWork = pc.roundWork := by
  cases hw <;> exact ⟨Nat.lt_succ_self _, fun _ => rfl⟩

/-- **An upload round** goes on by a call or by bytes. -/
theorem roundWork_step (h : s.pc.InBounds total) (hst : s.step k = some t) :
    (∃ report, t = s.fatal report) ∨ t.host = s.host ∧ (t.pc.roundWork < s.pc.roundWork ∨
      t.pc.roundWork = s.pc.roundWork ∧
        t.output.pending.length + t.pc.unsent.length =
          s.output.pending.length + s.pc.unsent.length ∧
        t.pc.unsent.length + t.input.pending.length <
          s.pc.unsent.length + s.input.pending.length) := by
  cases branch_of_step h hst with
  | @write rest more next hw hwrite =>
      obtain ⟨hnext, hmore⟩ := hw.roundWork
      obtain ⟨hunsent, _⟩ := hw.unsent_eq
      have hwrites := writes_of_write hw hwrite
      refine Or.inr ⟨hwrites.host, ?_⟩
      unfold write at hwrite
      split at hwrite
      next => cases hwrite
      next =>
        cases hwrite
        exact Or.inl hnext
      next rest' output hmove =>
        have hless := length_writeExactly hmove
        have hpending := congrArg List.length hwrites.pending
        cases hwrite
        simp only [List.length_append] at hpending
        refine Or.inr ⟨hmore rest', hpending, ?_⟩
        rw [hw.eq_more, hunsent, hunsent]
        exact Nat.add_lt_add_right hless _
  | short buf missing hpc hread ht => exact Or.inl ⟨_, ht⟩
  | notOpened l hpc hopen ht => exact Or.inl ⟨_, ht⟩
  | readMask buf buf' missing hpc hread ht =>
      have hgrow := length_readExactly hread
      have hcons := congrArg List.length (readExactly_more hread).1
      subst ht
      simp only [List.length_append] at hcons
      refine Or.inr ⟨rfl, Or.inr ⟨by rw [hpc]; rfl, by rw [hpc]; rfl, ?_⟩⟩
      rw [hpc]
      simp only [UploadPc.unsent]
      omega
  | decode buf missing hpc hlen ht =>
      subst ht
      exact Or.inr ⟨rfl, Or.inl (by rw [hpc]; exact Nat.lt_succ_self _)⟩
  | begin cursor e rest hpc hwants ht | skip cursor e rest hpc hwants ht =>
      subst ht
      refine Or.inr ⟨rfl, Or.inl ?_⟩
      rw [hpc]
      simp only [UploadPc.roundWork, List.length_cons]
      omega
  | openFile l contents hpc hopen ht | read fileSize l hpc contents hcontents ht =>
      subst ht
      exact Or.inr ⟨rfl, Or.inl (by rw [hpc]; exact Nat.lt_succ_self _)⟩

end Emission

namespace Reception

variable {contains : ExifHash → Bool} {downloadDir : Bytes} {k : Nat} {s t : Reception}

/-- The receive loop is not left for the update loop. -/
theorem inLoop_step (h : InBounds s.pc) (hin : InLoop s.pc)
    (hst : s.step contains downloadDir k = some t) : InLoop t.pc := by
  cases branch_of_step h hst with
  | short hf hread report ht | invalidCount hashCount hpc hread hlarge ht
  | noName hash missing hpc hread ht => subst ht; exact hin
  | more buf' hf hread ht => subst ht; exact (hf.frame_more buf').2.2.2.1
  | complete hf hread ht => subst ht; exact hf.frame_next.2.2.2.1
  | close hpc hread ht | count hashCount hpc hread hle ht | answer hashCount buf a hpc ha hsize ht
  | reply rest rest' missing hpc hwrite ht | replied missing hpc ht
  | name hash missing filenameLen hpc hread ht | done hpc ht
  | create hash filename fileSize missing hpc ht
  | store hash filename target file missing hpc ht => subst ht; trivial

/-- **The receive loop** uses up what it reads, and what it answers is
paid for. -/
theorem work_answer_step (h : InBounds s.pc) (hst : s.step contains downloadDir k = some t)
    (more : Nat) : t.host.logger.terminated = true ∨
      2 * work (t.input.pending.length + more) t.pc + t.output.pending.length <
        2 * work (s.input.pending.length + more) s.pc + s.output.pending.length := by
  refine (work_step h hst more).imp_right fun hlt => ?_
  -- only a reply puts bytes on the other stream
  have hquiet : t.output.pending = s.output.pending →
      2 * work (t.input.pending.length + more) t.pc + t.output.pending.length <
        2 * work (s.input.pending.length + more) s.pc + s.output.pending.length := by
    intro hout
    rw [hout]
    omega
  cases branch_of_step h hst with
  | reply rest rest' missing hpc hwrite ht =>
      have hless := length_writeExactly hwrite
      have hout := congrArg List.length (writeExactly_more hwrite).1
      subst ht
      simp only [List.length_append] at hout
      rw [hpc]
      simp only [work, weight]
      omega
  | short hf hread report ht | invalidCount hashCount hpc hread hlarge ht
  | noName hash missing hpc hread ht | more buf' hf hread ht | complete hf hread ht
  | close hpc hread ht | count hashCount hpc hread hle ht | answer hashCount buf a hpc ha hsize ht
  | replied missing hpc ht | name hash missing filenameLen hpc hread ht | done hpc ht
  | create hash filename fileSize missing hpc ht
  | store hash filename target file missing hpc ht => subst ht; exact hquiet rfl

end Reception

/-! ## One peer -/

namespace Peer

instance (p : Peer) : Decidable p.Ended := inferInstanceAs (Decidable (_ ∨ _))

/-- The items left to the threads of a peer, at most. -/
def items (p : Peer) : Nat :=
  p.pipe.work + p.upload.roundWork + p.download.updateWork + p.receiving.pc.work

/-- **The items left**, and the end of the peer. -/
def work (p : Peer) : Nat := p.items + if p.Ended then 0 else 1

/-- **What a step of its own brings**: an item, bytes that are written or
read by the uploader, or a part of what the downloader has to read. -/
inductive Brings (p : Peer) (up down : Link) (q : Peer) (up' down' : Link) : Prop
  | item (hless : q.work < p.work)
  | upload (hlive : ¬ q.Ended) (hwork : q.work = p.work)
      (hdownload : q.download = p.download) (hdown : down' = down)
      (hsent : up'.offers.pending.length + q.upload.unsent.length =
        up.offers.pending.length + p.upload.unsent.length)
      (hless : q.upload.unsent.length + up'.replies.pending.length <
        p.upload.unsent.length + up.replies.pending.length)
  | download (hlive : ¬ q.Ended) (hwork : q.work = p.work) (hupload : q.upload = p.upload)
      (hup : up' = up)
      (hless : ∀ more,
        2 * q.download.work (down'.offers.pending.length + more) + down'.replies.pending.length <
          2 * p.download.work (down.offers.pending.length + more) + down.replies.pending.length)

variable {cfg : Config} {scans : List Scan} {p q : Peer} {up down up' down' : Link} {k : Nat}

namespace Brings

theorem of_items (hlive : ¬ p.Ended) (hless : q.items < p.items) :
    Brings p up down q up' down' := by
  refine .item ?_
  simp only [work, if_neg hlive]
  split <;> omega

theorem of_ended (hlive : ¬ p.Ended) (hended : q.Ended) (hle : q.items ≤ p.items) :
    Brings p up down q up' down' := by
  refine .item ?_
  simp only [work, if_neg hlive, if_pos hended]
  omega

end Brings

theorem work_eq (hlive : ¬ p.Ended) (hlive' : ¬ q.Ended) (heq : q.items = p.items) :
    q.work = p.work := by
  simp only [work, if_neg hlive, if_neg hlive', heq]

namespace Sound

/-- The uploader's step. -/
theorem brings_upload (h : p.Sound cfg scans) (hlive : ¬ p.Ended)
    (hst : p.uploadStep cfg k up = some (q, up')) : Brings p up down q up' down := by
  have hH : p.pipe.hasher.HandOver (runArgs cfg).progressThreshold scans := h.handOver
  unfold uploadStep at hst
  dsimp only at hst
  split at hst
  next hwait =>
    split at hst
    next => cases hst
    next => cases hst; exact .of_ended hlive (Or.inl rfl) le_rfl
    next =>
      cases hst
      exact .of_items hlive (by simp [items, hwait, UploadPc.roundWork])
  next hlock =>
    split at hst <;> cases hst
    exact .of_items hlive (by simp [items, hlock, UploadPc.roundWork])
  next hset =>
    cases hst
    exact .of_items hlive (by simp [items, hset, UploadPc.roundWork])
  next hmain =>
    split at hst
    next =>
      cases hst
      exact .of_items hlive (by simp [items, hmain, UploadPc.roundWork])
    next =>
      obtain ⟨pipe, hpipe, heq⟩ := Option.map_eq_some_iff.mp hst
      cases heq
      obtain ⟨hless, hoffer⟩ := Pipeline.work_uploader h.inv hH hpipe
      refine .of_items hlive ?_
      simp only [items, hmain]
      split
      · rename_i missing hm
        have := hoffer missing hm
        simp only [UploadPc.roundWork]
        omega
      · simp only [UploadPc.roundWork]
        omega
  next cursor hentry =>
    obtain ⟨pipe, hpipe, heq⟩ := Option.map_eq_some_iff.mp hst
    cases heq
    obtain ⟨hless, _⟩ := Pipeline.work_uploader h.inv hH hpipe
    refine .of_items hlive ?_
    simp only [items, hentry, UploadPc.roundWork]
    omega
  next hwait hlock hset hmain hentry =>
    obtain ⟨r, hr, heq⟩ := Option.map_eq_some_iff.mp hst
    cases heq
    have hround := h.inRound_of_step hwait hlock hset hmain hr
    obtain ⟨missing, _, hbounds, _⟩ := h.round hround
    rcases Emission.roundWork_step (s := p.emission up) hbounds hr with
      ⟨report, rfl⟩ | ⟨hhost, hless | ⟨heq, hsent, hless⟩⟩
    · exact .of_ended hlive (Or.inl rfl) le_rfl
    · refine .of_items hlive ?_
      have hless' : r.pc.roundWork < p.upload.roundWork := hless
      simp only [items]
      omega
    · have heq' : r.pc.roundWork = p.upload.roundWork := heq
      have hlive' : ¬ Ended { p with upload := r.pc, host := r.host, uploads := r.uploads } := by
        rw [show r.host = p.host from hhost]
        exact hlive
      exact .upload hlive' (work_eq hlive hlive' (by simp only [items, heq'])) rfl rfl hsent hless

/-- The downloader's step. -/
theorem brings_download (h : p.Sound cfg scans) (hlive : ¬ p.Ended)
    (hst : p.downloadStep cfg k down = some (q, down')) : Brings p up down q up down' := by
  have hH : p.pipe.hasher.HandOver (runArgs cfg).progressThreshold scans := h.handOver
  have hpipe : ∀ {pipe}, pipe.work < p.pipe.work →
      Brings p up down { p with pipe := pipe } up down' := by
    intro pipe hless
    refine .of_items hlive ?_
    simp only [items]
    omega
  unfold downloadStep at hst
  split at hst
  next hupdate =>
    unfold updateStep at hst
    dsimp only at hst
    split at hst
    next =>
      obtain ⟨pipe, hst', heq⟩ := Option.map_eq_some_iff.mp hst
      cases heq
      split at hst'
      · exact hpipe (Pipeline.work_call hst')
      · exact hpipe (Pipeline.work_downloader h.inv hH hst')
    next =>
      split at hst
      next =>
        cases hst
        exact .of_items hlive (by simp [items, hupdate, DownloadPc.updateWork])
      next =>
        obtain ⟨pipe, hst', heq⟩ := Option.map_eq_some_iff.mp hst
        cases heq
        exact hpipe (Pipeline.work_downloader h.inv hH hst')
    next =>
      cases hst
      exact .of_items hlive (by simp [items, hupdate, DownloadPc.updateWork])
    next =>
      obtain ⟨pipe, hst', heq⟩ := Option.map_eq_some_iff.mp hst
      cases heq
      exact hpipe (Pipeline.work_downloader h.inv hH hst')
  next hnotify =>
    cases hst
    exact .of_items hlive (by simp [items, hnotify, DownloadPc.updateWork])
  next hupdate hnotify =>
    obtain ⟨r, hr, heq⟩ := Option.map_eq_some_iff.mp hst
    cases heq
    have hin : InLoop p.download := by
      cases hpc : p.download <;> trivial
    have hin' : InLoop r.pc :=
      Reception.inLoop_step (s := p.reception down) h.downloadBounds hin hr
    have hitems : r.pc.updateWork = p.download.updateWork := by
      rw [updateWork_of_inLoop hin, updateWork_of_inLoop hin']
    by_cases hended : Ended { p with download := r.pc, host := r.host, accepted := r.accepted,
                                     downloads := r.downloads }
    · exact .of_ended hlive hended (by simp only [items, hitems]; exact le_rfl)
    · refine .download hended (work_eq hlive hended (by simp only [items, hitems])) rfl rfl
        fun more => ?_
      exact (Reception.work_answer_step (s := p.reception down) h.downloadBounds hr
        more).resolve_left fun hdead => hended (Or.inl hdead)

/-- **A step of its own** brings a peer forward. -/
theorem brings_of_step (h : p.Sound cfg scans) {a : Act}
    (hst : p.step cfg up down a = some (q, up', down')) (hown : p.Own a) :
    Brings p up down q up' down' := by
  unfold Peer.step at hst
  split at hst
  · cases hst
  rename_i hlive
  obtain ⟨⟨q', up₁, down₁⟩, hr, heq⟩ := Option.map_eq_some_iff.mp hst
  have hopen : Brings p up down q' up₁ down₁ := by
    cases a with
    | run =>
        obtain ⟨pipe, hpipe, heq'⟩ := Option.map_eq_some_iff.mp hr
        cases heq'
        refine .of_items hlive ?_
        have := Pipeline.work_run hpipe
        simp only [items]
        omega
    | getWakes => exact hown.elim
    | uploaderWakes => exact hown.elim
    | receive k =>
        obtain ⟨r, hr', heq'⟩ := Option.map_eq_some_iff.mp hr
        cases heq'
        obtain ⟨buf, hbuf⟩ := h.lockedReceiver.mp hown
        refine .of_items hlive ?_
        have hless : r.pc.work < p.receiving.pc.work := by
          rw [hbuf]
          simp only [Receiving.step, hbuf] at hr'
          split at hr'
          · cases hr'; simp [ReceivePc.work]
          · split at hr' <;> (cases hr'; simp [ReceivePc.work])
        simp only [items]
        omega
    | endOfUpdate =>
        obtain ⟨r, hr', heq'⟩ := Option.map_eq_some_iff.mp hr
        cases heq'
        refine .of_items hlive ?_
        have hless : r.pc.work < p.receiving.pc.work := by
          unfold Receiving.endOfUpdate at hr'
          split at hr'
          · rename_i buf hbuf
            split at hr' <;> cases hr'
            simp [Receiving.received, hbuf, ReceivePc.work]
          · cases hr'
        simp only [items]
        omega
    | upload k =>
        obtain ⟨⟨p', up'⟩, hr', heq'⟩ := Option.map_eq_some_iff.mp hr
        cases heq'
        exact h.brings_upload hlive hr'
    | download k =>
        obtain ⟨⟨p', down'⟩, hr', heq'⟩ := Option.map_eq_some_iff.mp hr
        cases heq'
        exact h.brings_download hlive hr'
    | «return» =>
        simp only [Peer.stepOpen] at hr
        split at hr <;> cases hr
        exact .of_ended hlive (Or.inr rfl) le_rfl
  dsimp only at heq
  split at heq <;> cases heq
  -- what a `Fatal` closes does not matter any more
  · rename_i hdead
    cases hopen with
    | item hless => exact .item hless
    | upload hlive' | download hlive' => exact absurd (Or.inl hdead) hlive'
  · exact hopen

end Sound
end Peer

/-! ## Two peers -/

namespace Session

variable {A B : Site} {s t : Session}

/-- **What is under way** in a direction: the bytes its downloader has
still to read, those its uploader has to write, and the answers that are
not read. -/
def inFlight (X Y : Peer) (L : Link) : Nat :=
  2 * Y.download.work (L.offers.pending.length + X.upload.unsent.length) +
    X.upload.unsent.length + L.replies.pending.length

/-- The rank of a session: its items, then the bytes of those it is at. -/
def rank (s : Session) : Nat ×ₗ Nat :=
  toLex (s.a.work + s.b.work, inFlight s.a s.b s.ab + inFlight s.b s.a s.ba)

/-- What one peer brings, the session does. -/
theorem rank_of_brings {X X' Y : Peer} {L M L' M' : Link} (h : X.Brings L M X' L' M') :
    toLex (X'.work + Y.work, inFlight X' Y L' + inFlight Y X' M') <
      toLex (X.work + Y.work, inFlight X Y L + inFlight Y X M) := by
  rw [Prod.Lex.toLex_lt_toLex]
  cases h with
  | item hless => exact Or.inl (Nat.add_lt_add_right hless _)
  | upload hlive hwork hdownload hdown hsent hless =>
      refine Or.inr ⟨by rw [hwork], ?_⟩
      simp only [inFlight, hdownload, hdown, hsent]
      omega
  | download hlive hwork hupload hup hless =>
      refine Or.inr ⟨by rw [hwork], ?_⟩
      have := hless Y.upload.unsent.length
      simp only [inFlight, hupload, hup]
      omega

theorem rank_step (hs : (system A B).Reachable (start A B) s) {act : Side × Peer.Act}
    (hown : (s.peer act.1).Own act.2) (hst : (system A B).step s act = some t) :
    t.rank < s.rank := by
  obtain ⟨ha, hb⟩ := sound_of_reachable hs
  obtain ⟨side, act⟩ := act
  cases side with
  | a =>
      obtain ⟨⟨p, up, down⟩, hp, rfl⟩ := Option.map_eq_some_iff.mp hst
      exact rank_of_brings (ha.brings_of_step hp hown)
  | b =>
      obtain ⟨⟨p, up, down⟩, hp, rfl⟩ := Option.map_eq_some_iff.mp hst
      have hless := rank_of_brings (Y := s.a) (hb.brings_of_step hp hown)
      simp only [rank]
      rw [Nat.add_comm s.a.work, Nat.add_comm (inFlight s.a p down), Nat.add_comm s.a.work,
        Nat.add_comm (inFlight s.a s.b s.ab)]
      exact hless

/-- **Every session comes to rest.** Whatever the files and the
interleaving are, whoever calls `Fatal` and whatever is answered, the steps
the threads take by themselves cannot follow each other for ever from any
reachable state: only spurious wake-ups and the arrival of update packets
can. -/
theorem own_steps_end (A B : Site) :
    WellFounded fun t s : Session => (system A B).Reachable (start A B) s ∧
      ∃ act : Side × Peer.Act, (s.peer act.1).Own act.2 ∧ (system A B).step s act = some t :=
  StepSystem.wellFounded_of_rank fun _ _ _ hs hown hst => rank_step hs hown hst

end Session
end Jpgsync
