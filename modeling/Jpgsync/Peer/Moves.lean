import Jpgsync.Peer.Sound

/-!
# Peer — Moves

What one step of a sound peer can do, said once: which thread moved, from
where, and what it changed of the peer and of its two links. The
properties of sessions are case analyses over `Move`.
-/

namespace Jpgsync
namespace Peer

/-- **What one step can do**, before a `Fatal` closes anything. -/
inductive Move (cfg : Config) (p : Peer) (up down : Link) : Act → Peer → Link → Link → Prop
  /-- The pipeline moves, but not its uploader. -/
  | pipe (a : Act) (b : Pipeline.Act) (pipe : Pipeline) (hb : b ≠ .uploader)
      (ha : b = .downloader → p.download = .update ∧ ∃ k, a = .download k)
      (hpipe : p.pipe.step (runArgs cfg) p.receiving.receivedHashes b = some pipe) :
      Move cfg p up down a { p with pipe := pipe } up down
  /-- The downloader sends an update packet. -/
  | sendUpdate (k : Nat) (segment : List Entry) (pipe : Pipeline)
      (hsend : p.pipe.downloader = .send segment)
      (hpipe : p.pipe.step (runArgs cfg) p.receiving.receivedHashes .downloader = some pipe) :
      Move cfg p up down (.download k) { p with pipe := pipe } up
        { down with
          updates := down.updates ++ [ExifHash.digests (segment.map Entry.hash).reverse] }
  /-- The downloader leaves its update loop. -/
  | endUpdate (k : Nat) (hpc : p.download = .update) (hfin : p.pipe.downloader = .finished) :
      Move cfg p up down (.download k) { p with download := .notify } up down
  | notify (k : Nat) (hpc : p.download = .notify) :
      Move cfg p up down (.download k) { p with download := .count } up
        { down with replies := down.replies.push [UInt8.ofNat k] }
  | reception (k : Nat) (r : Reception) (hpc : p.download ≠ .update ∧ p.download ≠ .notify)
      (hr : Reception.Move p.contains cfg.downloadDir k (p.reception down) r) :
      Move cfg p up down (.download k)
        { p with download := r.pc, host := r.host, accepted := r.accepted,
                 downloads := r.downloads }
        up { down with offers := r.input, replies := r.output }
  | receive (k : Nat) (r : Receiving)
      (hr : p.receiving.step cfg.protocol up.updates up.updatesClosed k = some r) :
      Move cfg p up down (.receive k) { p with receiving := r } up down
  | endOfUpdate (r : Receiving)
      (hr : p.receiving.endOfUpdate cfg.protocol up.updatesClosed = some r) :
      Move cfg p up down .endOfUpdate { p with receiving := r } up down
  /-- The connection ended before the update did. -/
  | noUpdate (k : Nat) (hpc : p.upload = .wait) (hclosed : up.replies.closed = true)
      (hpending : up.replies.pending = []) :
      Move cfg p up down (.upload k)
        { p with host := { p.host with logger := p.host.logger.fatal .noUpdateResponse } } up down
  | waited (k : Nat) (byte : UInt8) (replies : Fifo UInt8) (hpc : p.upload = .wait)
      (hpending : up.replies.pending = byte :: replies.pending)
      (hclosed : replies.closed = up.replies.closed) :
      Move cfg p up down (.upload k) { p with upload := .lockUpdated }
        { up with replies := replies } down
  | lockUpdated (k : Nat) (hpc : p.upload = .lockUpdated) :
      Move cfg p up down (.upload k)
        { p with
          receiving := { p.receiving with updatedMutex := some .uploader }
          upload := .setUpdated } up down
  | setUpdated (k : Nat) (hpc : p.upload = .setUpdated) :
      Move cfg p up down (.upload k)
        { p with
          receiving := { p.receiving with updated := true, updatedMutex := none }
          upload := .main } up down
  /-- The uploader leaves its main loop. -/
  | leave (k : Nat) (hpc : p.upload = .main) (hfin : p.pipe.uploader = .finished) :
      Move cfg p up down (.upload k) { p with upload := .closed }
        { up with offers := up.offers.close } down
  /-- The uploader stays in its main loop, or comes back to it. -/
  | loop (k : Nat) (pipe : Pipeline)
      (hpc : p.upload = .main ∨ ∃ cursor, p.upload = .entry cursor [])
      (hpipe : p.pipe.step (runArgs cfg) p.receiving.receivedHashes .uploader = some pipe)
      (hnone : ∀ missing, pipe.uploader ≠ .offer missing) :
      Move cfg p up down (.upload k) { p with pipe := pipe, upload := .main } up down
  /-- The uploader has built an offer. -/
  | beginRound (k : Nat) (pipe : Pipeline) (missing : List Entry) (hpc : p.upload = .main)
      (hpipe : p.pipe.step (runArgs cfg) p.receiving.receivedHashes .uploader = some pipe)
      (hoffer : pipe.uploader = .offer missing) :
      Move cfg p up down (.upload k)
        { p with pipe := pipe, upload := .offer (offerBytes missing) missing } up down
  | emission (k : Nat) (r : Emission) (hround : p.upload.InRound)
      (hr : Emission.Move k (p.emission up) r) :
      Move cfg p up down (.upload k)
        { p with upload := r.pc, host := r.host, uploads := r.uploads }
        { up with replies := r.input, offers := r.output } down
  | return (hup : p.upload = .closed) (hdown : p.download = .closed) :
      Move cfg p up down .return { p with returned := true } up
        { down with updatesClosed := true }

variable {cfg : Config} {scans : List Scan} {p q : Peer} {up down up' down' : Link} {k : Nat}

theorem Sound.move_download (h : Sound cfg scans p)
    (hst : p.downloadStep cfg k down = some (q, down')) :
    Move cfg p up down (.download k) q up down' := by
  unfold downloadStep at hst
  split at hst
  next hupdate =>
    unfold updateStep at hst
    dsimp only at hst
    split at hst
    next =>
      obtain ⟨pipe, hpipe, heq⟩ := Option.map_eq_some_iff.mp hst
      cases heq
      split at hpipe
      · exact .pipe _ (.call cfg.protocol.hashesPerPacket) pipe (by simp) (by simp) hpipe
      · exact .pipe _ .downloader pipe (by simp) (fun _ => ⟨hupdate, k, rfl⟩) hpipe
    next segment hsend =>
      have hpacket := (h.packet hsend).2.2.2
      rw [updateSize] at hpacket
      rw [hpacket] at hst
      obtain ⟨pipe, hpipe, heq⟩ := Option.map_eq_some_iff.mp hst
      cases heq
      exact .sendUpdate k segment pipe hsend hpipe
    next hfin =>
      cases hst
      exact .endUpdate k hupdate hfin
    next =>
      obtain ⟨pipe, hpipe, heq⟩ := Option.map_eq_some_iff.mp hst
      cases heq
      exact .pipe _ .downloader pipe (by simp) (fun _ => ⟨hupdate, k, rfl⟩) hpipe
  next hnotify =>
    cases hst
    exact .notify k hnotify
  next hne hne' =>
    obtain ⟨r, hr, heq⟩ := Option.map_eq_some_iff.mp hst
    cases heq
    exact .reception k r ⟨hne, hne'⟩
      (Reception.move_of_step (s := p.reception down) h.downloadBounds hr)

theorem Sound.move_upload (h : Sound cfg scans p)
    (hst : p.uploadStep cfg k up = some (q, up')) :
    Move cfg p up down (.upload k) q up' down := by
  unfold uploadStep at hst
  dsimp only at hst
  split at hst
  next hwait =>
    split at hst
    next => cases hst
    next input hread =>
      obtain ⟨hclosed, hpending, _⟩ := readByte_none hread
      cases hst
      exact .noUpdate k hwait hclosed hpending
    next byte replies hread =>
      obtain ⟨hpending, _, hclosed⟩ := readByte_some hread
      cases hst
      exact .waited k byte replies hwait hpending hclosed
  next hlock =>
    split at hst <;> cases hst
    exact .lockUpdated k hlock
  next hset =>
    cases hst
    exact .setUpdated k hset
  next hmain =>
    split at hst
    next hfin =>
      cases hst
      exact .leave k hmain hfin
    next =>
      obtain ⟨pipe, hpipe, heq⟩ := Option.map_eq_some_iff.mp hst
      cases heq
      split
      · rename_i missing hoffer
        exact .beginRound k pipe missing hmain hpipe hoffer
      · rename_i hnone
        exact .loop k pipe (Or.inl hmain) hpipe hnone
  next cursor hentry =>
    obtain ⟨pipe, hpipe, heq⟩ := Option.map_eq_some_iff.mp hst
    cases heq
    obtain ⟨missing, hoffer, _⟩ := h.round (by simp [hentry, UploadPc.InRound])
    refine .loop k pipe (Or.inr ⟨cursor, hentry⟩) hpipe fun m hm => ?_
    simp only [Pipeline.step, Pipeline.uploaderStep, hoffer, Option.some.injEq] at hpipe
    rw [← hpipe] at hm
    cases hm
  next hwait hlock hset hmain hentry =>
    obtain ⟨r, hr, heq⟩ := Option.map_eq_some_iff.mp hst
    cases heq
    have hround := h.inRound_of_step hwait hlock hset hmain hr
    obtain ⟨missing, _, hbounds, _⟩ := h.round hround
    exact .emission k r hround (Emission.move_of_step (s := p.emission up) hbounds hr)

/-- **What one step can do**, for a sound peer that has neither terminated
nor returned; after a `Fatal` the peer's ends of its links are closed. -/
theorem Sound.move_of_step (h : Sound cfg scans p) {a : Act}
    (hst : p.step cfg up down a = some (q, up', down')) :
    p.terminated = false ∧ p.returned = false ∧
      ∃ up₁ down₁, Move cfg p up down a q up₁ down₁ ∧
        (q.terminated = false → up' = up₁ ∧ down' = down₁) ∧
        (q.terminated = true → (q, up', down') = hangUp (q, up₁, down₁)) := by
  unfold Peer.step at hst
  split at hst
  · cases hst
  · rename_i hgo
    simp only [not_or, Bool.not_eq_true] at hgo
    refine ⟨hgo.1, hgo.2, ?_⟩
    obtain ⟨⟨q', up₁, down₁⟩, hr, heq⟩ := Option.map_eq_some_iff.mp hst
    have hq : q' = q := by
      split at heq <;> (cases heq; rfl)
    subst hq
    refine ⟨up₁, down₁, ?_, ?_, ?_⟩
    · cases a with
      | run =>
          obtain ⟨pipe, hpipe, heq'⟩ := Option.map_eq_some_iff.mp hr
          cases heq'
          exact .pipe _ .run pipe (by simp) (by simp) hpipe
      | getWakes =>
          obtain ⟨pipe, hpipe, heq'⟩ := Option.map_eq_some_iff.mp hr
          cases heq'
          exact .pipe _ .getWakes pipe (by simp) (by simp) hpipe
      | uploaderWakes =>
          obtain ⟨pipe, hpipe, heq'⟩ := Option.map_eq_some_iff.mp hr
          cases heq'
          exact .pipe _ .uploaderWakes pipe (by simp) (by simp) hpipe
      | receive k =>
          obtain ⟨r, hr', heq'⟩ := Option.map_eq_some_iff.mp hr
          cases heq'
          exact .receive k r hr'
      | endOfUpdate =>
          obtain ⟨r, hr', heq'⟩ := Option.map_eq_some_iff.mp hr
          cases heq'
          exact .endOfUpdate r hr'
      | upload k =>
          obtain ⟨r, hr', heq'⟩ := Option.map_eq_some_iff.mp hr
          cases heq'
          exact h.move_upload hr'
      | download k =>
          obtain ⟨r, hr', heq'⟩ := Option.map_eq_some_iff.mp hr
          cases heq'
          exact h.move_download hr'
      | «return» =>
          simp only [Peer.stepOpen] at hr
          split at hr
          · rename_i hc
            cases hr
            exact .return hc.1 hc.2
          · cases hr
    · intro hterm
      have hterm' : ¬ q'.terminated = true := by simp [hterm]
      dsimp only at heq
      rw [if_neg hterm'] at heq
      cases heq
      exact ⟨rfl, rfl⟩
    · intro hterm
      dsimp only at heq
      rw [if_pos hterm] at heq
      exact heq.symm

/-- **A peer moves its pipeline only by a step of it.** -/
theorem Sound.pipe_of_step (h : Sound cfg scans p) {a : Act}
    (hst : p.step cfg up down a = some (q, up', down')) :
    q.pipe = p.pipe ∨
      ∃ b, p.pipe.step (runArgs cfg) p.receiving.receivedHashes b = some q.pipe := by
  obtain ⟨_, _, _, _, hmove, _⟩ := h.move_of_step hst
  cases hmove with
  | pipe _ b pipe hb ha hpipe => exact Or.inr ⟨b, hpipe⟩
  | sendUpdate k segment pipe hsend hpipe => exact Or.inr ⟨_, hpipe⟩
  | loop k pipe hpc hpipe hnone => exact Or.inr ⟨_, hpipe⟩
  | beginRound k pipe missing hpc hpipe hoffer => exact Or.inr ⟨_, hpipe⟩
  | _ => exact Or.inl rfl

/-- The links after a step, up to the ends that `Fatal` closes. -/
structure UpToEnds (up₁ down₁ up' down' : Link) : Prop where
  sent : up'.offers.sent = up₁.offers.sent
  heard : up'.updates = up₁.updates
  offers : down'.offers = down₁.offers
  replies : down'.replies = down₁.replies ∨ down'.replies = down₁.replies.close
  updates : down'.updates = down₁.updates

/-- What a step does to what was written and read, whether it calls `Fatal`
or not. -/
theorem Sound.upToEnds_of_step (h : Sound cfg scans p) {a : Act}
    (hst : p.step cfg up down a = some (q, up', down')) :
    ∃ up₁ down₁, Move cfg p up down a q up₁ down₁ ∧ UpToEnds up₁ down₁ up' down' := by
  obtain ⟨_, _, up₁, down₁, hmove, hgo, hdead⟩ := h.move_of_step hst
  refine ⟨up₁, down₁, hmove, ?_⟩
  cases hlive : q.terminated with
  | false =>
      obtain ⟨rfl, rfl⟩ := hgo hlive
      exact ⟨rfl, rfl, rfl, Or.inl rfl, rfl⟩
  | true =>
      obtain ⟨rfl, rfl⟩ : up' = _ ∧ down' = _ := by simpa [hangUp] using hdead hlive
      exact ⟨rfl, rfl, rfl, Or.inr rfl, rfl⟩

end Peer
end Jpgsync
