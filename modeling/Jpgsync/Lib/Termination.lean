import Jpgsync.Lib.StepSystem
import Mathlib.Order.WellFounded

/-!
# StepSystem — Termination

Some steps of a system are marked, and every marked step lowers a rank in a
well-founded order; the others may raise it. Then marked steps cannot
follow each other for ever, and from every state one is in reach at which
no marked step is left.
-/

namespace StepSystem

variable {σ α β : Type*} {S : StepSystem σ α} [LT β] [WellFoundedLT β]
  {I : σ → Prop} {ok marked : σ → α → Prop} {rank : σ → β}

/-- **Marked steps that use something up** come to an end. -/
theorem wellFounded_of_rank
    (hstep : ∀ s a t, I s → marked s a → S.step s a = some t → rank t < rank s) :
    WellFounded fun t s => I s ∧ ∃ a, marked s a ∧ S.step s a = some t :=
  Subrelation.wf (fun ⟨hI, a, hmarked, hst⟩ => hstep _ a _ hI hmarked hst)
    (InvImage.wf rank wellFounded_lt)

/-- **A state without a marked step** is in reach, along marked steps that
are allowed. -/
theorem exists_blocked
    (hstep : ∀ s a t, I s → ok s a → marked s a → S.step s a = some t → I t ∧ rank t < rank s)
    {s : σ} (hs : I s) :
    ∃ t, S.Reaches ok s t ∧ I t ∧ ∀ a, ok t a → marked t a → S.step t a = none := by
  induction hr : rank s using WellFoundedLT.induction generalizing s with
  | ind r ih =>
      by_cases hblocked : ∀ a, ok s a → marked s a → S.step s a = none
      · exact ⟨s, .refl s, hs, hblocked⟩
      · simp only [not_forall] at hblocked
        obtain ⟨a, hok, hmarked, ha⟩ := hblocked
        obtain ⟨u, hu⟩ := Option.ne_none_iff_exists'.mp ha
        obtain ⟨hIu, hlt⟩ := hstep s a u hs hok hmarked hu
        obtain ⟨t, hut, ht⟩ := ih (rank u) (hr ▸ hlt) hIu rfl
        exact ⟨t, ((Reaches.refl s).tail hok hu).trans hut, ht⟩

end StepSystem
