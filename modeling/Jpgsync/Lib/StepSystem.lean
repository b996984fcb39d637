import Mathlib.Logic.Function.Basic

/-!
# StepSystem — executable labelled transition systems

A system is a partial step function: the label names who moves and fixes
whatever the environment chooses, `none` says the label is not enabled.
A schedule is a list of labels. This module packages the two inductions
every protocol proof repeats: a predicate kept by one step is kept by a
whole schedule, and a step-by-step abstraction maps schedules to
schedules.
-/

/-- A labelled transition system given by its step function. -/
structure StepSystem (σ α : Type*) where
  step : σ → α → Option σ

namespace StepSystem

variable {σ α τ β : Type*}

/-- Run a schedule from a state; `none` once a label is not enabled. -/
def exec (S : StepSystem σ α) : σ → List α → Option σ
  | s, [] => some s
  | s, a :: as => (S.step s a).bind fun t => S.exec t as

/-- Every step of the schedule is taken in a state where `ok` allows it. -/
def AllSteps (S : StepSystem σ α) (ok : σ → α → Prop) : σ → List α → Prop
  | _, [] => True
  | s, a :: as => ok s a ∧ ∀ t, S.step s a = some t → S.AllSteps ok t as

/-- `t` is reached from `s` by a schedule all of whose steps meet `ok`. -/
def Reaches (S : StepSystem σ α) (ok : σ → α → Prop) (s t : σ) : Prop :=
  ∃ as, S.exec s as = some t ∧ S.AllSteps ok s as

/-- `t` is reached from `s` by some schedule. -/
def Reachable (S : StepSystem σ α) (s t : σ) : Prop :=
  ∃ as, S.exec s as = some t

variable {S : StepSystem σ α} {T : StepSystem τ β} {ok ok' : σ → α → Prop}

@[simp] theorem exec_nil (s : σ) : S.exec s [] = some s := rfl

theorem exec_cons {s t : σ} {a : α} {as : List α} :
    S.exec s (a :: as) = some t ↔
      ∃ u, S.step s a = some u ∧ S.exec u as = some t := by
  simp [exec, Option.bind_eq_some_iff]

theorem exec_append {s t : σ} {as bs : List α} :
    S.exec s (as ++ bs) = some t ↔
      ∃ u, S.exec s as = some u ∧ S.exec u bs = some t := by
  induction as generalizing s with
  | nil => simp
  | cons a as ih =>
      simp only [List.cons_append, exec_cons, ih]
      constructor
      · rintro ⟨v, hv, u, hu, ht⟩
        exact ⟨u, ⟨v, hv, hu⟩, ht⟩
      · rintro ⟨u, ⟨v, hv, hu⟩, ht⟩
        exact ⟨v, hv, u, hu, ht⟩

theorem AllSteps.append {s u : σ} {as bs : List α} (hu : S.exec s as = some u) :
    S.AllSteps ok s (as ++ bs) ↔ S.AllSteps ok s as ∧ S.AllSteps ok u bs := by
  induction as generalizing s with
  | nil =>
      cases hu
      simp [AllSteps]
  | cons a as ih =>
      obtain ⟨v, hv, hvu⟩ := exec_cons.mp hu
      simp only [List.cons_append, AllSteps, hv, Option.some.injEq, forall_eq',
        ih hvu, and_assoc]

theorem AllSteps.trivial (s : σ) (as : List α) :
    S.AllSteps (fun _ _ => True) s as := by
  induction as generalizing s with
  | nil => exact True.intro
  | cons a as ih => exact ⟨True.intro, fun t _ => ih t⟩

theorem AllSteps.mono (h : ∀ s a, ok s a → ok' s a) {s : σ} {as : List α}
    (hs : S.AllSteps ok s as) : S.AllSteps ok' s as := by
  induction as generalizing s with
  | nil => exact True.intro
  | cons a as ih => exact ⟨h s a hs.1, fun t ht => ih (hs.2 t ht)⟩

instance AllSteps.decidable [∀ s a, Decidable (ok s a)] (s : σ) (as : List α) :
    Decidable (S.AllSteps ok s as) :=
  match as with
  | [] => isTrue True.intro
  | a :: as =>
    match hs : S.step s a with
    | none => decidable_of_iff (ok s a) (by simp [AllSteps, hs])
    | some t =>
      have := AllSteps.decidable t as
      decidable_of_iff (ok s a ∧ S.AllSteps ok t as) (by simp [AllSteps, hs])

/-- A schedule that is not allowed throughout has a first step that is
not. -/
theorem exists_of_not_allSteps {s t : σ} {as : List α} (ht : S.exec s as = some t)
    (hbad : ¬ S.AllSteps ok s as) :
    ∃ u a v, S.Reaches ok s u ∧ ¬ ok u a ∧ S.step u a = some v ∧ S.Reachable v t := by
  induction as generalizing s with
  | nil => exact absurd True.intro hbad
  | cons a as ih =>
      obtain ⟨v, hv, hvt⟩ := exec_cons.mp ht
      by_cases ha : ok s a
      · have hrest : ¬ S.AllSteps ok v as := fun hall =>
          hbad ⟨ha, fun w hw => by rw [hv] at hw; cases hw; exact hall⟩
        obtain ⟨u, b, w, ⟨bs, hbs, hall⟩, hb, hw, hwt⟩ := ih hvt hrest
        refine ⟨u, b, w, ⟨a :: bs, exec_cons.mpr ⟨v, hv, hbs⟩, ha, ?_⟩, hb, hw, hwt⟩
        intro x hx
        rw [hv] at hx
        cases hx
        exact hall
      · exact ⟨s, a, v, ⟨[], rfl, True.intro⟩, ha, hv, as, hvt⟩

/-! ## Reachability -/

theorem Reaches.refl (s : σ) : S.Reaches ok s s := ⟨[], rfl, True.intro⟩

theorem Reaches.tail {s t u : σ} {a : α} (h : S.Reaches ok s t) (ha : ok t a)
    (hu : S.step t a = some u) : S.Reaches ok s u := by
  obtain ⟨as, has, hall⟩ := h
  refine ⟨as ++ [a], exec_append.mpr ⟨t, has, by simp [exec, hu]⟩, ?_⟩
  exact (AllSteps.append has).mpr ⟨hall, ha, fun _ _ => True.intro⟩

theorem Reaches.trans {s t u : σ} (h : S.Reaches ok s t) (h' : S.Reaches ok t u) :
    S.Reaches ok s u := by
  obtain ⟨as, has, hall⟩ := h
  obtain ⟨bs, hbs, hall'⟩ := h'
  exact ⟨as ++ bs, exec_append.mpr ⟨t, has, hbs⟩, (AllSteps.append has).mpr ⟨hall, hall'⟩⟩

theorem Reaches.mono (h : ∀ s a, ok s a → ok' s a) {s t : σ}
    (hst : S.Reaches ok s t) : S.Reaches ok' s t := by
  obtain ⟨as, has, hall⟩ := hst
  exact ⟨as, has, hall.mono h⟩

theorem Reaches.reachable {s t : σ} (h : S.Reaches ok s t) : S.Reachable s t := by
  obtain ⟨as, has, _⟩ := h
  exact ⟨as, has⟩

theorem Reachable.reaches {s t : σ} (h : S.Reachable s t) :
    S.Reaches (fun _ _ => True) s t := by
  obtain ⟨as, has⟩ := h
  exact ⟨as, has, AllSteps.trivial s as⟩

theorem Reachable.trans {s t u : σ} (h : S.Reachable s t) (h' : S.Reachable t u) :
    S.Reachable s u := by
  obtain ⟨as, has⟩ := h
  obtain ⟨bs, hbs⟩ := h'
  exact ⟨as ++ bs, exec_append.mpr ⟨t, has, hbs⟩⟩

/-- **The run rule**: what every allowed step keeps, every allowed
schedule keeps. -/
theorem exec_invariant {I : σ → Prop}
    (hstep : ∀ s a t, I s → ok s a → S.step s a = some t → I t) {s t : σ} {as : List α}
    (hs : I s) (hall : S.AllSteps ok s as) (ht : S.exec s as = some t) : I t := by
  induction as generalizing s with
  | nil =>
      cases ht
      exact hs
  | cons a as ih =>
      obtain ⟨u, hu, hut⟩ := exec_cons.mp ht
      exact ih (hstep s a u hs hall.1 hu) (hall.2 u hu) hut

theorem Reaches.invariant {I : σ → Prop}
    (hstep : ∀ s a t, I s → ok s a → S.step s a = some t → I t) {s t : σ}
    (hs : I s) (h : S.Reaches ok s t) : I t := by
  obtain ⟨as, has, hall⟩ := h
  exact exec_invariant hstep hs hall has

/-- A promise that an invariant turns into another one. -/
theorem Reaches.strengthen {I : σ → Prop}
    (hstep : ∀ s a t, I s → ok s a → S.step s a = some t → I t)
    (hok : ∀ s a, I s → ok s a → ok' s a) {s t : σ} (hs : I s) (h : S.Reaches ok s t) :
    S.Reaches ok' s t := by
  refine (h.invariant (I := fun u => I u ∧ S.Reaches ok' s u) ?_ ⟨hs, Reaches.refl s⟩).2
  rintro u a v ⟨hI, hu⟩ ha hv
  exact ⟨hstep u a v hI ha hv, hu.tail (hok u a hI ha) hv⟩

theorem Reachable.invariant {I : σ → Prop}
    (hstep : ∀ s a t, I s → S.step s a = some t → I t) {s t : σ}
    (hs : I s) (h : S.Reachable s t) : I t :=
  h.reaches.invariant (fun s a t hI _ => hstep s a t hI) hs

/-! ## Bounded steps -/

/-- **Steps that use something up are bounded**: if every allowed step keeps
`I` and does not raise the rank, and every marked one lowers it, then a
schedule has no more marked steps than its start has rank. -/
theorem exec_countP_le {I : σ → Prop} {rank : σ → Nat} {marked : α → Bool}
    (hstep : ∀ s a t, I s → ok s a → S.step s a = some t →
      I t ∧ rank t ≤ rank s ∧ (marked a = true → rank t < rank s)) {s t : σ} {as : List α}
    (hs : I s) (hall : S.AllSteps ok s as) (ht : S.exec s as = some t) :
    as.countP marked ≤ rank s := by
  induction as generalizing s with
  | nil => exact Nat.zero_le _
  | cons a as ih =>
      obtain ⟨u, hu, hut⟩ := exec_cons.mp ht
      obtain ⟨hIu, hle, hlt⟩ := hstep s a u hs hall.1 hu
      have hrest := ih hIu (hall.2 u hu) hut
      rw [List.countP_cons]
      by_cases ha : marked a = true
      · have := hlt ha
        rw [if_pos ha]
        omega
      · rw [if_neg ha]
        omega

/-- Where every step lowers the rank, a schedule is no longer than that. -/
theorem exec_length_le (rank : σ → Nat) {I : σ → Prop}
    (hstep : ∀ s a t, I s → S.step s a = some t → I t ∧ rank t < rank s) {s t : σ}
    {as : List α} (hs : I s) (ht : S.exec s as = some t) : as.length ≤ rank s := by
  have hbound : ∀ s a t, I s → True → S.step s a = some t →
      I t ∧ rank t ≤ rank s ∧ ((fun _ : α => true) a = true → rank t < rank s) := by
    intro s a t hI _ hst
    obtain ⟨hI', hlt⟩ := hstep s a t hI hst
    exact ⟨hI', Nat.le_of_lt hlt, fun _ => hlt⟩
  have hcount := exec_countP_le hbound hs (AllSteps.trivial s as) ht
  rwa [List.countP_true] at hcount

/-- **Steps that all use something up come to an end**: where every step
keeps `I` and lowers the rank, a state with no step left is in reach. -/
theorem exists_stuck {I : σ → Prop} {rank : σ → Nat}
    (hstep : ∀ s a t, I s → S.step s a = some t → I t ∧ rank t < rank s) {s : σ} (hs : I s) :
    ∃ t, S.Reachable s t ∧ I t ∧ ∀ a, S.step t a = none := by
  induction hn : rank s using Nat.strongRecOn generalizing s with
  | ind n ih =>
      by_cases hstuck : ∀ a, S.step s a = none
      · exact ⟨s, ⟨[], rfl⟩, hs, hstuck⟩
      · obtain ⟨a, ha⟩ := not_forall.mp hstuck
        obtain ⟨u, hu⟩ := Option.ne_none_iff_exists'.mp ha
        obtain ⟨hIu, hlt⟩ := hstep s a u hs hu
        obtain ⟨t, hut, ht⟩ := ih (rank u) (hn ▸ hlt) hIu rfl
        exact ⟨t, .trans ⟨[a], exec_cons.mpr ⟨u, hu, rfl⟩⟩ hut, ht⟩

/-! ## Abstraction -/

/-- `abs` maps every allowed step of `S` to no step or to an allowed step
of `T`. -/
def Simulates (S : StepSystem σ α) (T : StepSystem τ β) (abs : σ → τ)
    (ok : σ → α → Prop) (okT : τ → β → Prop) : Prop :=
  ∀ s a t, ok s a → S.step s a = some t →
    abs t = abs s ∨ ∃ b, okT (abs s) b ∧ T.step (abs s) b = some (abs t)

/-- **Simulation lifts to runs.** -/
theorem Simulates.reaches {abs : σ → τ} {okT : τ → β → Prop}
    (h : Simulates S T abs ok okT) {s t : σ} (hst : S.Reaches ok s t) :
    T.Reaches okT (abs s) (abs t) := by
  refine hst.invariant (I := fun u => T.Reaches okT (abs s) (abs u)) ?_ (Reaches.refl _)
  intro u a v hu ha hv
  rcases h u a v ha hv with heq | ⟨b, hb, hstep⟩
  · rw [heq]
    exact hu
  · exact hu.tail hb hstep

end StepSystem
