import EchoServer.Lib.Machine
import Mathlib.Order.WellFounded

/-!
# Infinite runs

A run of a machine that goes on for ever takes a step or takes none at each of its
points. It is just to an action, a set of labels, when the action is not enabled for ever
without being taken: a party that can go on does so at some time.

What a party can do by itself and what somebody outside has to do first are told apart. A
step that waits for the outside (a reply, a peer that reads, a timer) is enabled in the
machine wherever it may come; that it does come is an assumption about the outside, and no
scheduler can make it true:

* `Run.Just` asks both of a run: whatever is enabled is taken at some time;
* `Run.JustUnless P` asks it of the scheduler only: nothing is asked where `P` holds, that
  is, where the party waits for the outside;
* `Run.Answers P` asks it of the outside: where the party waits, what it waits for comes,
  or it need not wait any more.

Main results:

* `Run.exec_labels` — up to each of its points the run is a finite one;
* `Run.JustUnless.just` — the scheduler and the outside together make a run just;
* `Ranking.eventually` — the rule of justice: a rank that no step makes larger, and at each
  rank an action that stays enabled until it makes the rank smaller; nothing is asked of
  the actions that do not help;
* `exists_run` — a finite run after which nothing happens any more.
-/

namespace EchoServer.Lib.Machine

universe u v

variable {σ : Type u} {ι : Type v} {M : Machine σ ι}

/-- A run that goes on for ever, with `none` where no step is taken. -/
structure Run (M : Machine σ ι) where
  state : ℕ → σ
  label : ℕ → Option ι
  idle : ∀ k, label k = none → state (k + 1) = state k
  step : ∀ k i, label k = some i → M.step (state k) i = some (state (k + 1))

namespace Run

/-- The steps that are taken before the point `k`. -/
def labels (r : M.Run) : ℕ → List ι
  | 0 => []
  | k + 1 => r.labels k ++ (r.label k).toList

variable (r : M.Run)

theorem exec_labels (k : ℕ) : M.exec (r.state 0) (r.labels k) = some (r.state k) := by
  induction k with
  | zero => rfl
  | succ k ih =>
    rw [labels, exec_append, ih, Option.bind_some]
    cases hlabel : r.label k with
    | none => rw [r.idle k hlabel]; rfl
    | some i => exact exec_cons_iff.mpr ⟨_, r.step k i hlabel, rfl⟩

theorem reachable (k : ℕ) : M.Reachable (r.state 0) (r.state k) := ⟨_, r.exec_labels k⟩

/-- The run of another machine that `f` sees: a step that it does not see is none. -/
def map {τ : Type*} {ι' : Type*} {N : Machine τ ι'} (f : σ → τ) (g : σ → ι → Option ι')
    (hg : ∀ s i t, M.step s i = some t →
      g s i = none ∧ f t = f s ∨ ∃ j, g s i = some j ∧ N.step (f s) j = some (f t)) : N.Run where
  state k := f (r.state k)
  label k := (r.label k).bind (g (r.state k))
  idle k h := by
    cases hlabel : r.label k with
    | none => rw [r.idle k hlabel]
    | some i =>
      rw [hlabel, Option.bind_some] at h
      rcases hg _ i _ (r.step k i hlabel) with ⟨-, hsame⟩ | ⟨j, hj, -⟩
      · exact hsame
      · rw [h] at hj
        cases hj
  step k j h := by
    obtain ⟨i, hlabel, hi⟩ := Option.bind_eq_some_iff.mp h
    rcases hg _ i _ (r.step k i hlabel) with ⟨hnone, -⟩ | ⟨j', hj', hstep⟩
    · rw [hi] at hnone
      cases hnone
    · rw [hi] at hj'
      cases hj'
      exact hstep

/-- What every step keeps is kept from each point on. -/
theorem preserves {P : σ → Prop} (h : M.Preserves P) {k j : ℕ} (hkj : k ≤ j)
    (hP : P (r.state k)) : P (r.state j) := by
  induction j, hkj using Nat.le_induction with
  | base => exact hP
  | succ j hkj ih =>
    cases hlabel : r.label j with
    | none =>
      rw [r.idle j hlabel]
      exact ih
    | some i => exact h ih (r.step j i hlabel)

/-- Every step of the run meets `C`. -/
def Always (C : σ → ι → Prop) : Prop := ∀ k i, r.label k = some i → C (r.state k) i

/-- What the steps of the run keep holds at each of its points. -/
theorem Always.invariant {r : M.Run} {C : σ → ι → Prop} {P : σ → Prop} (h : r.Always C)
    (h0 : P (r.state 0)) (hstep : ∀ s i t, P s → C s i → M.step s i = some t → P t) (k : ℕ) :
    P (r.state k) := by
  induction k with
  | zero => exact h0
  | succ k ih =>
    cases hlabel : r.label k with
    | none =>
      rw [r.idle k hlabel]
      exact ih
    | some i => exact hstep _ i _ ih (h k i hlabel) (r.step k i hlabel)

/-- What does not hold at first and holds later has begun to hold with a step. -/
theorem exists_step {P : σ → Prop} (h0 : ¬ P (r.state 0)) {k : ℕ} (hk : P (r.state k)) :
    ∃ j i, r.label j = some i ∧ ¬ P (r.state j) ∧ P (r.state (j + 1)) := by
  induction k with
  | zero => exact absurd hk h0
  | succ k ih =>
    by_cases hP : P (r.state k)
    · exact ih hP
    · cases hlabel : r.label k with
      | none => exact absurd (r.idle k hlabel ▸ hk) hP
      | some i => exact ⟨k, i, hlabel, hP, hk⟩

/-- From every point on, the action is taken or not enabled at some point. -/
def Just (A : ι → Prop) : Prop :=
  ∀ k, ∃ j, k ≤ j ∧ ((∀ i, A i → M.step (r.state j) i = none) ∨ ∃ i, A i ∧ r.label j = some i)

/-- The same where `P` does not hold: from every point on, `P` holds at some point, or the
action is taken or not enabled there. -/
def JustUnless (P : σ → Prop) (A : ι → Prop) : Prop :=
  ∀ k, ∃ j, k ≤ j ∧ (P (r.state j) ∨ (∀ i, A i → M.step (r.state j) i = none) ∨
    ∃ i, A i ∧ r.label j = some i)

/-- After every point at which `P` holds the action is taken or not enabled at some point:
who is waited for does its part. -/
def Answers (P : σ → Prop) (A : ι → Prop) : Prop :=
  ∀ k, P (r.state k) → ∃ j, k ≤ j ∧
    ((∀ i, A i → M.step (r.state j) i = none) ∨ ∃ i, A i ∧ r.label j = some i)

variable {r} {P P' Q : σ → Prop} {A : ι → Prop}

theorem Just.unless (h : r.Just A) (P : σ → Prop) : r.JustUnless P A := fun k =>
  let ⟨j, hkj, hact⟩ := h k
  ⟨j, hkj, Or.inr hact⟩

theorem Just.answers (h : r.Just A) (P : σ → Prop) : r.Answers P A := fun k _ => h k

/-- Where the party waits for somebody who does its part, or `Q` holds. -/
theorem JustUnless.of_answers (h : r.JustUnless P A) (hanswers : r.Answers P' A)
    (hP : ∀ s, P s → P' s ∨ Q s) : r.JustUnless Q A := by
  intro k
  obtain ⟨j, hkj, hwaits | hact⟩ := h k
  · rcases hP _ hwaits with hwaits | hQ
    · obtain ⟨m, hjm, hact⟩ := hanswers j hwaits
      exact ⟨m, hkj.trans hjm, Or.inr hact⟩
    · exact ⟨j, hkj, Or.inl hQ⟩
  · exact ⟨j, hkj, Or.inr hact⟩

/-- **The scheduler and the outside.** -/
theorem JustUnless.just (h : r.JustUnless P A) (hanswers : r.Answers P A) : r.Just A := by
  intro k
  obtain ⟨j, hkj, hwaits | hact⟩ := h k
  · obtain ⟨m, hjm, hact⟩ := hanswers j hwaits
    exact ⟨m, hkj.trans hjm, hact⟩
  · exact ⟨j, hkj, hact⟩

variable (r)

end Run

-- ---------------------------------------------------------------------------
-- The rule of justice
-- ---------------------------------------------------------------------------

/-- Why every just run whose steps meet `C` comes to `Q`: outside `Q` some action of the
family `A` helps. What helps is enabled, and helps until a step makes the rank smaller; its
own steps do. -/
structure Ranking {α ρ : Type*} [Preorder ρ] (M : Machine σ ι) (C : σ → ι → Prop) (Q : σ → Prop)
    (A : α → ι → Prop) (Inv : ρ → σ → Prop) (Helps : ρ → σ → α → Prop) : Prop where
  helps : ∀ x s, Inv x s → ¬ Q s → ∃ a, Helps x s a
  enabled : ∀ x s a, Inv x s → ¬ Q s → Helps x s a → ∃ i t, A a i ∧ M.step s i = some t
  step : ∀ x s i t, Inv x s → ¬ Q s → C s i → M.step s i = some t →
    Q t ∨ (∃ y < x, Inv y t) ∨ Inv x t ∧ ∀ a, Helps x s a → Helps x t a ∧ ¬ A a i

variable {α ρ : Type*} [Preorder ρ] {C : σ → ι → Prop} {Q : σ → Prop} {A : α → ι → Prop}
  {Inv : ρ → σ → Prop} {Helps : ρ → σ → α → Prop}

/-- It is enough to follow one action that helps at a time. -/
theorem Ranking.of_each
    (henabled : ∀ x s a, Helps x s a → ¬ Q s → ∃ i t, A a i ∧ M.step s i = some t)
    (hstep : ∀ x s a i t, Helps x s a → ¬ Q s → C s i → M.step s i = some t →
      Q t ∨ (∃ y < x, ∃ b, Helps y t b) ∨ Helps x t a ∧ ¬ A a i) :
    Ranking M C Q A (fun x s => ∃ a, Helps x s a) Helps where
  helps := fun _ _ h _ => h
  enabled := fun x s a _ hQ ha => henabled x s a ha hQ
  step := by
    rintro x s i t ⟨a, ha⟩ hQ hC hst
    by_cases hdone : Q t ∨ ∃ y < x, ∃ b, Helps y t b
    · exact hdone.imp_right Or.inl
    · have hstays : ∀ b, Helps x s b → Helps x t b ∧ ¬ A b i := by
        intro b hb
        rcases hstep x s b i t hb hQ hC hst with h | h | h
        · exact absurd (Or.inl h) hdone
        · exact absurd (Or.inr h) hdone
        · exact h
      exact Or.inr (Or.inr ⟨⟨a, (hstays a ha).1⟩, hstays⟩)

/-- An action that helps does so until the rank is smaller. -/
theorem Ranking.stays (h : Ranking M C Q A Inv Helps) {r : M.Run} (hC : r.Always C) {x : ρ} {k j : ℕ}
    {a : α} (hinv : Inv x (r.state k)) (ha : Helps x (r.state k) a) (hkj : k ≤ j) :
    (∃ m, k ≤ m ∧ (Q (r.state m) ∨ ∃ y < x, Inv y (r.state m))) ∨
      Inv x (r.state j) ∧ Helps x (r.state j) a := by
  induction j, hkj using Nat.le_induction with
  | base => exact Or.inr ⟨hinv, ha⟩
  | succ j hkj ih =>
    rcases ih with hdone | ⟨hinv, ha⟩
    · exact Or.inl hdone
    · by_cases hQ : Q (r.state j)
      · exact Or.inl ⟨j, hkj, Or.inl hQ⟩
      · cases hlabel : r.label j with
        | none =>
          rw [r.idle j hlabel]
          exact Or.inr ⟨hinv, ha⟩
        | some i =>
          rcases h.step x _ i _ hinv hQ (hC j i hlabel) (r.step j i hlabel) with hQ' | hlt | ⟨hinv', ha'⟩
          · exact Or.inl ⟨j + 1, Nat.le_succ_of_le hkj, Or.inl hQ'⟩
          · exact Or.inl ⟨j + 1, Nat.le_succ_of_le hkj, Or.inr hlt⟩
          · exact Or.inr ⟨hinv', (ha' a ha).1⟩

/-- **The rule of justice.** -/
theorem Ranking.eventually [WellFoundedLT ρ] (h : Ranking M C Q A Inv Helps) {r : M.Run}
    (hC : r.Always C) (hjust : ∀ a, r.JustUnless (fun s => Q s ∨ ∀ x, ¬ Helps x s a) (A a)) {x : ρ}
    {k : ℕ} (hinv : Inv x (r.state k)) : ∃ j, k ≤ j ∧ Q (r.state j) := by
  induction x using WellFoundedLT.induction generalizing k with
  | _ x ih =>
    have hsmaller : ∀ m, k ≤ m → (Q (r.state m) ∨ ∃ y < x, Inv y (r.state m)) →
        ∃ j, k ≤ j ∧ Q (r.state j) := by
      rintro m hkm (hQ | ⟨y, hlt, hy⟩)
      · exact ⟨m, hkm, hQ⟩
      · obtain ⟨j, hmj, hQ⟩ := ih y hlt hy
        exact ⟨j, hkm.trans hmj, hQ⟩
    by_cases hQ : Q (r.state k)
    · exact ⟨k, le_rfl, hQ⟩
    · obtain ⟨a, ha⟩ := h.helps x _ hinv hQ
      -- the point at which the action is not enabled or taken
      obtain ⟨j, hkj, hact⟩ := hjust a k
      rcases h.stays hC hinv ha hkj with ⟨m, hkm, hm⟩ | ⟨hinvj, haj⟩
      · exact hsmaller m hkm hm
      · by_cases hQj : Q (r.state j)
        · exact ⟨j, hkj, hQj⟩
        · rcases hact with (hQ' | hnot) | hnone | ⟨i, hi, hlabel⟩
          · exact absurd hQ' hQj
          · exact absurd haj (hnot x)
          · obtain ⟨i, t, hi, hstep⟩ := h.enabled x _ a hinvj hQj haj
            rw [hnone i hi] at hstep
            cases hstep
          · have hstep := h.step x _ i _ hinvj hQj (hC j i hlabel) (r.step j i hlabel)
            rcases hstep with hQ' | hlt | ⟨-, hkeeps⟩
            · exact ⟨j + 1, Nat.le_succ_of_le hkj, hQ'⟩
            · exact hsmaller (j + 1) (Nat.le_succ_of_le hkj) (Or.inr hlt)
            · exact absurd hi (hkeeps a haj).2

-- ---------------------------------------------------------------------------
-- Finite runs
-- ---------------------------------------------------------------------------

/-- A finite run, after which nothing happens. -/
theorem exists_run {s t : σ} {is : List ι} (h : M.exec s is = some t) :
    ∃ r : M.Run, r.state 0 = s ∧ (∀ k, is.length ≤ k → r.state k = t) ∧
      ∀ C, M.Along C s is → r.Always C := by
  induction is generalizing s with
  | nil =>
    obtain rfl : s = t := by simpa using h
    exact ⟨⟨fun _ => s, fun _ => none, fun _ _ => rfl, fun _ _ h => by cases h⟩, rfl,
      fun _ _ => rfl, fun _ _ _ _ h => by cases h⟩
  | cons i is ih =>
    obtain ⟨m, hm, hrest⟩ := exec_cons_iff.mp h
    obtain ⟨r, h0, hend, halways⟩ := ih hrest
    refine ⟨⟨fun | 0 => s | k + 1 => r.state k, fun | 0 => some i | k + 1 => r.label k, ?_, ?_⟩,
      rfl, ?_, ?_⟩
    · intro k hk
      cases k with
      | zero => cases hk
      | succ k => exact r.idle k hk
    · intro k j hk
      cases k with
      | zero =>
        cases hk
        show M.step s i = some (r.state 0)
        rw [h0, hm]
      | succ k => exact r.step k j hk
    · intro k hk
      cases k with
      | zero => exact absurd hk (Nat.not_succ_le_zero _)
      | succ k => exact hend k (Nat.le_of_succ_le_succ hk)
    · intro C halong k j hk
      rw [along_cons_iff hm] at halong
      cases k with
      | zero =>
        cases hk
        exact halong.1
      | succ k => exact halways C halong.2 k j hk

/-- Such a run is just to what is not enabled at its end. -/
theorem Run.just_of_disabled {r : M.Run} {A : ι → Prop} {t : σ} {n : ℕ}
    (hend : ∀ k, n ≤ k → r.state k = t) (h : ∀ i, A i → M.step t i = none) : r.Just A := by
  intro k
  refine ⟨max k n, le_max_left k n, Or.inl fun i hi => ?_⟩
  rw [hend _ (le_max_right k n)]
  exact h i hi

end EchoServer.Lib.Machine
