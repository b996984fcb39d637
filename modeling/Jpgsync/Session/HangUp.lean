import Jpgsync.Peer.Environment
import Jpgsync.Session.Termination

/-!
# Session — HangUp

A peer whose other side is gone. Whatever that side has sent, once both
connections are closed at its end the peer does not wait for anybody any
more: a thread that cannot move waits for a thread that can, until `Sync`
returns or `Fatal` is called, or a write to the closed connection fails
and ends the process. It is a property of one peer in an arbitrary
environment, so it also holds where the offers were not answered exactly.
-/

namespace Jpgsync
namespace Peer

variable {cfg : Config} {scans : List Scan} {disk : Disk} {p q : Peer} {a : Act}
  {up down up' down' up₀ down₀ : Link}

/-- A step of the peer that one of its threads takes by itself. -/
def OwnStep (s : Peer × Link × Link) : OpenAct → Prop
  | .own a => s.1.Own a
  | .remote _ _ => False

/-- The other side has closed its ends of both connections. -/
def HungUpOn (s : Peer × Link × Link) : Prop :=
  s.2.1.replies.closed = true ∧ s.2.2.offers.closed = true

/-- The items the peer has left, then the bytes of those it is at. -/
def rank (s : Peer × Link × Link) : Nat ×ₗ Nat :=
  toLex (s.1.work,
    2 * s.1.download.work s.2.2.offers.pending.length + s.2.2.replies.pending.length +
      (s.1.upload.unsent.length + s.2.1.replies.pending.length))

/-- What a step brings is less to do. -/
theorem Brings.rank_lt (h : Brings p up down q up' down') :
    rank (q, up', down') < rank (p, up, down) := by
  rw [rank, rank, Prod.Lex.toLex_lt_toLex]
  cases h with
  | item hless => exact Or.inl hless
  | upload hlive hwork hdownload hdown hsent hless =>
      refine Or.inr ⟨hwork, ?_⟩
      simp only [hdownload, hdown]
      omega
  | download hlive hwork hupload hup hless =>
      refine Or.inr ⟨hwork, ?_⟩
      have := hless 0
      simp only [Nat.add_zero] at this
      simp only [hupload, hup]
      omega

theorem locks_of_reachable
    (hp : (openSystem cfg).Reachable (opened scans disk up₀ down₀) (p, up, down)) :
    p.pipe.hasher.Locks := by
  have h : Sound cfg scans p ∧ p.pipe.hasher.Locks := by
    refine hp.invariant (I := fun s => Sound cfg scans s.1 ∧ s.1.pipe.hasher.Locks) ?_
      ⟨sound_start cfg scans disk, ExifHasher.locks_start scans⟩
    rintro ⟨p, up, down⟩ a ⟨q, up', down'⟩ ⟨hsound, hL⟩ hst
    cases a with
    | own a => exact ⟨hsound.step hst, hsound.locks_step hL hst⟩
    | remote up'' down'' =>
        cases hst
        exact ⟨hsound, hL⟩
  exact h.2

variable {r t : Mortal (Peer × Link × Link) Unit}

/-- A peer does not open again what the other side has closed. -/
theorem hungUpOn_of_reaches (hs : Sound cfg scans r.state.1) (hclosed : HungUpOn r.state)
    (ht : (process cfg).mortal.Reaches (Mortal.promised OwnStep) r t) :
    Sound cfg scans t.state.1 ∧ (t.state.1.terminated = true ∨ HungUpOn t.state) := by
  refine ProcessSystem.mortal_invariant (I := fun t => Sound cfg scans t.state.1 ∧
    (t.state.1.terminated = true ∨ HungUpOn t.state)) ?_ (fun _ _ h => h) ⟨hs, Or.inr hclosed⟩ ht
  rintro ⟨⟨p, up, down⟩, killed⟩ act ⟨q, up', down'⟩ ⟨hsound, hcase⟩ hown - hst
  cases act with
  | remote up'' down'' => exact hown.elim
  | own a =>
      refine ⟨hsound.step hst, ?_⟩
      cases hlive : q.terminated with
      | true => exact Or.inl rfl
      | false =>
          have hrunning := (hsound.move_of_step hst).1
          have hclosed := hcase.resolve_left (by simp [hrunning])
          obtain ⟨hup, hdown⟩ := hsound.ends_of_step hst hlive
          exact Or.inr ⟨(hup.live hlive).trans hclosed.1, (hdown.live hlive).1.trans hclosed.2⟩

/-- **A peer that is hung up on ends.** From no state that a peer reaches,
whatever the other side sends, can its own steps follow each other for
ever; and once the other side has closed both connections they bring it to
its end: it can move until it has returned, has called `Fatal` or is killed
by a call that fails. -/
theorem ends_when_hung_up (cfg : Config) (scans : List Scan) (disk : Disk) (up₀ down₀ : Link) :
    (WellFounded fun t s : Mortal (Peer × Link × Link) Unit =>
      (process cfg).mortal.Reachable (.alive (opened scans disk up₀ down₀)) s ∧
        ∃ act, OwnStep s.state act ∧ (process cfg).mortal.step s (.act act) = some t) ∧
    ∀ s, (process cfg).mortal.Reachable (.alive (opened scans disk up₀ down₀)) s →
      HungUpOn s.state → ∀ t, (process cfg).mortal.Reaches (Mortal.promised OwnStep) s t →
        t.killed () = true ∨ t.state.1.Ended ∨
          ∃ act, OwnStep t.state act ∧ ((process cfg).mortal.step t (.act act)).isSome := by
  constructor
  · refine Subrelation.wf ?_ (InvImage.wf (fun s => rank s.state) wellFounded_lt)
    rintro ⟨⟨q, up', down'⟩, killed'⟩ ⟨⟨p, up, down⟩, killed⟩ ⟨hs, act, hown, hst⟩
    obtain ⟨-, hst, -⟩ := ProcessSystem.step_act.mp hst
    cases act with
    | own a =>
        exact ((sound_of_reachable (reachable_of_process hs)).brings_of_step hst hown).rank_lt
    | remote up'' down'' => exact hown.elim
  · intro s hs hclosed t ht
    obtain ⟨⟨q, up', down'⟩, killed⟩ := t
    obtain ⟨hsound, hcase⟩ :=
      hungUpOn_of_reaches (sound_of_reachable (reachable_of_process hs)) hclosed ht
    cases hkilled : killed () with
    | true => exact Or.inl hkilled
    | false =>
        right
        by_cases hended : q.Ended
        · exact Or.inl hended
        · have hclosed' := hcase.resolve_left fun hdead => hended (Or.inl hdead)
          have hL := locks_of_reachable (reachable_of_process (hs.trans ht.reachable))
          obtain ⟨a, hown, -, hsome⟩ :=
            hsound.canMove_of_closed hL hended hclosed'.1 hclosed'.2
          exact Or.inr ⟨.own a, hown, ProcessSystem.step_isSome rfl hkilled hsome⟩

end Peer
end Jpgsync
