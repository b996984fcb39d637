import Jpgsync.Lib.StepSystem

/-!
# StepSystem — Crash

Processes that can be killed. A step of the system is taken by one of its
processes, or by none of them; at any moment a process can be killed, which
leaves something of it behind, and from then on it takes no step. While
nobody has been killed the runs are those of the system.
-/

/-- A system of processes: who takes a step, and what becomes of a state
when a process is killed in it. -/
structure ProcessSystem (σ α ι : Type*) extends StepSystem σ α where
  owner : α → Option ι
  leave : ι → σ → σ

/-- A state, and the processes that have been killed. -/
structure Mortal (σ ι : Type*) where
  state : σ
  killed : ι → Bool

/-- A step of the system, or the end of a process. -/
inductive MortalAct (α ι : Type*) where
  | act (a : α)
  | kill (i : ι)

namespace Mortal

variable {σ α ι : Type*}

/-- Nobody has been killed. -/
def alive (s : σ) : Mortal σ ι := ⟨s, fun _ => false⟩

/-- What a run promises about the steps; any process may be killed. -/
def promised (ok : σ → α → Prop) : Mortal σ ι → MortalAct α ι → Prop
  | s, .act a => ok s.state a
  | _, .kill _ => True

instance (ok : σ → α → Prop) [∀ s a, Decidable (ok s a)] (s : Mortal σ ι) :
    DecidablePred (promised ok s)
  | .act a => inferInstanceAs (Decidable (ok s.state a))
  | .kill _ => isTrue trivial

end Mortal

namespace ProcessSystem

open Mortal

variable {σ α ι : Type*} [DecidableEq ι] {P : ProcessSystem σ α ι} {ok : σ → α → Prop}
  {s t : Mortal σ ι} {s₀ : σ}

/-- The system, with processes that can be killed. -/
def mortal (P : ProcessSystem σ α ι) : StepSystem (Mortal σ ι) (MortalAct α ι) where
  step
    | s, .act a =>
      if (P.owner a).any s.killed then none
      else (P.step s.state a).map fun t => { s with state := t }
    | s, .kill i => some ⟨P.leave i s.state, Function.update s.killed i true⟩

/-- Only what is not killed takes steps, and they are those of the system. -/
theorem step_act {a : α} :
    P.mortal.step s (.act a) = some t ↔
      (∀ i, P.owner a = some i → s.killed i = false) ∧ P.step s.state a = some t.state ∧
        t.killed = s.killed := by
  have hcond : ((P.owner a).any s.killed = true) ↔
      ¬ ∀ i, P.owner a = some i → s.killed i = false := by
    cases P.owner a <;> simp
  have hstep : P.mortal.step s (.act a) = if (P.owner a).any s.killed then none
      else (P.step s.state a).map fun t => { s with state := t } := rfl
  rw [hstep]
  split
  next hkilled => simp [hcond.mp hkilled]
  next hlive =>
    rw [Option.map_eq_some_iff]
    constructor
    · rintro ⟨u, hu, rfl⟩
      exact ⟨not_not.mp (hlive ∘ hcond.mpr), hu, rfl⟩
    · rintro ⟨-, hu, hkilled⟩
      exact ⟨t.state, hu, by rw [← hkilled]⟩

/-- A process that is not killed can take the steps of the system. -/
theorem step_isSome {a : α} {i : ι} (howner : P.owner a = some i) (hlive : s.killed i = false)
    (h : (P.step s.state a).isSome) : (P.mortal.step s (.act a)).isSome := by
  obtain ⟨t, ht⟩ := Option.isSome_iff_exists.mp h
  refine Option.isSome_iff_exists.mpr ⟨⟨t, s.killed⟩, step_act.mpr ⟨?_, ht, rfl⟩⟩
  intro j hj
  rw [howner, Option.some.injEq] at hj
  rw [← hj, hlive]

/-- **The run rule**: what the steps of the others keep, and the end of any
of them, holds in every state. -/
theorem mortal_invariant {I : Mortal σ ι → Prop}
    (hact : ∀ s a t, I s → ok s.state a → (∀ i, P.owner a = some i → s.killed i = false) →
      P.step s.state a = some t → I ⟨t, s.killed⟩)
    (hkill : ∀ s i, I s → I ⟨P.leave i s.state, Function.update s.killed i true⟩)
    (hs : I s) (h : P.mortal.Reaches (promised ok) s t) : I t := by
  refine h.invariant ?_ hs
  rintro s (a | i) ⟨t, killed⟩ hI hok hst
  · obtain ⟨hlive, hst, rfl⟩ := step_act.mp hst
    exact hact s a t hI hok hlive hst
  · cases hst
    exact hkill s i hI

/-- **Nobody is killed**, so the run is one of the system. -/
theorem reaches_of_alive (h : P.mortal.Reaches (promised ok) (alive s₀) t)
    (hlive : ∀ i, t.killed i = false) : P.toStepSystem.Reaches ok s₀ t.state := by
  refine mortal_invariant (I := fun t => (∀ i, t.killed i = false) →
    P.toStepSystem.Reaches ok s₀ t.state) ?_ ?_ (fun _ => .refl s₀) h hlive
  · intro s a t hI hok _ hst hlive
    exact (hI hlive).tail hok hst
  · intro s i _ hlive
    exact absurd (hlive i) (by simp)

/-- Where the system could have done what a killed process leaves behind,
it reaches the same states. -/
theorem state_reachable (hleave : ∀ i s, P.toStepSystem.Reachable s (P.leave i s))
    (h : P.mortal.Reachable (alive s₀) t) : P.toStepSystem.Reachable s₀ t.state := by
  have hrun : P.mortal.Reaches (promised fun _ _ => True) (alive s₀) t :=
    h.reaches.mono fun s a _ => by cases a <;> trivial
  refine mortal_invariant (I := fun t => P.toStepSystem.Reachable s₀ t.state) ?_ ?_
    ⟨[], rfl⟩ hrun
  · intro s a t hI _ _ hst
    exact hI.trans ⟨[a], StepSystem.exec_cons.mpr ⟨t, hst, rfl⟩⟩
  · intro s i hI
    exact hI.trans (hleave i s.state)

end ProcessSystem
