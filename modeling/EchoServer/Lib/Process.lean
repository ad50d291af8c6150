import EchoServer.Lib.Machine

/-!
# Machines in one process

Machines side by side, of which any takes the next step as long as the process runs. The
process ends when a machine comes to a state that ends it, and then none of them goes on.

Main results:

* `Process.step_agree` — machines other than `c` do not see what `c` does;
* `Process.isolated` — as long as the process runs, what the others have done and
  everything they can still do is what it is in the run without `c`.
-/

namespace EchoServer.Lib

universe u v w

variable {κ : Type w} {σ : Type u} {ι : Type v}

/-- Machines in one process, and whether it has ended. -/
structure Process (κ : Type w) (σ : Type u) where
  exited : Bool
  each : κ → σ

namespace Process

variable [DecidableEq κ]

/-- A step of one of the machines; the process ends with it when it comes to a state that is
`fatal`. -/
def step (M : κ → Machine σ ι) (fatal : σ → Bool) (s : Process κ σ) (i : κ × ι) :
    Option (Process κ σ) :=
  if s.exited then none
  else ((M i.1).step (s.each i.1) i.2).map fun x => ⟨fatal x, Function.update s.each i.1 x⟩

def machine (M : κ → Machine σ ι) (fatal : σ → Bool) : Machine (Process κ σ) (κ × ι) :=
  ⟨step M fatal⟩

variable {M : κ → Machine σ ι} {fatal : σ → Bool} {c : κ} {s s' t t' : Process κ σ} {i : κ × ι}
  {is js : List (κ × ι)}

/-- A step is one of a machine of a process that runs. -/
theorem step_eq_some_iff : step M fatal s i = some t ↔
    s.exited = false ∧
      ∃ x, (M i.1).step (s.each i.1) i.2 = some x ∧ t = ⟨fatal x, Function.update s.each i.1 x⟩ := by
  rw [step, Option.ite_none_left_eq_some, Bool.not_eq_true, Option.map_eq_some_iff]
  exact and_congr_right' (exists_congr fun x => and_congr_right' eq_comm)

/-- The steps of a run that are not those of `c`. -/
def without (c : κ) (is : List (κ × ι)) : List (κ × ι) := is.filter fun i => i.1 ≠ c

/-- The two processes run or have ended both, and all machines but `c` are in the same
states. -/
structure Agree (c : κ) (s t : Process κ σ) : Prop where
  exited : s.exited = t.exited
  each : ∀ d, d ≠ c → s.each d = t.each d

omit [DecidableEq κ] in
theorem Agree.refl (c : κ) (s : Process κ σ) : Agree c s s := ⟨rfl, fun _ _ => rfl⟩

/-- A step of another machine is not affected by `c`. -/
theorem step_agree (h : Agree c s s') (hi : i.1 ≠ c) (hstep : step M fatal s i = some t) :
    ∃ t', step M fatal s' i = some t' ∧ Agree c t t' := by
  obtain ⟨hexited, x, hx, rfl⟩ := step_eq_some_iff.mp hstep
  rw [h.each i.1 hi] at hx
  refine ⟨_, step_eq_some_iff.mpr ⟨h.exited.symm.trans hexited, x, hx, rfl⟩, rfl, fun d hd => ?_⟩
  by_cases hdi : d = i.1
  · subst hdi
    simp only [Function.update_self]
  · simp only [Function.update_of_ne hdi]
    exact h.each d hd

/-- A step of `c` that does not end the process is not seen by the other machines. -/
theorem agree_step (h : Agree c s s') (hi : i.1 = c) (hstep : step M fatal s i = some t)
    (ht : t.exited = false) : Agree c t s' := by
  obtain ⟨hexited, x, -, rfl⟩ := step_eq_some_iff.mp hstep
  refine ⟨ht.trans (hexited.symm.trans h.exited), fun d hd => ?_⟩
  have hdi : d ≠ i.1 := by rwa [hi]
  simp only [Function.update_of_ne hdi]
  exact h.each d hd

theorem exec_agree (h : Agree c s s') (hjs : ∀ j ∈ js, j.1 ≠ c)
    (hrun : (machine M fatal).exec s js = some t) :
    ∃ t', (machine M fatal).exec s' js = some t' ∧ Agree c t t' := by
  induction js generalizing s s' with
  | nil =>
    obtain rfl : s = t := by simpa using hrun
    exact ⟨s', rfl, h⟩
  | cons j js ih =>
    obtain ⟨m, hm, hrest⟩ := Machine.exec_cons_iff.mp hrun
    obtain ⟨m', hm', hagree⟩ := step_agree h (hjs j (List.mem_cons_self ..)) hm
    obtain ⟨t', ht', hlast⟩ := ih hagree (fun j' hj' => hjs j' (List.mem_cons_of_mem _ hj')) hrest
    exact ⟨t', Machine.exec_cons_iff.mpr ⟨m', hm', ht'⟩, hlast⟩

/-- A process that takes steps runs. -/
theorem running_of_exec (ht : t.exited = false) (hrun : (machine M fatal).exec s is = some t) :
    s.exited = false := by
  cases is with
  | nil =>
    obtain rfl : s = t := by simpa using hrun
    exact ht
  | cons i is =>
    obtain ⟨m, hm, -⟩ := Machine.exec_cons_iff.mp hrun
    exact (step_eq_some_iff.mp hm).1

/-- The run without `c` is a run, and the other machines come to the same states in it. -/
theorem exec_without (h : Agree c s s') (ht : t.exited = false)
    (hrun : (machine M fatal).exec s is = some t) :
    ∃ t', (machine M fatal).exec s' (without c is) = some t' ∧ Agree c t t' := by
  induction is generalizing s s' with
  | nil =>
    obtain rfl : s = t := by simpa using hrun
    exact ⟨s', rfl, h⟩
  | cons i is ih =>
    obtain ⟨m, hm, hrest⟩ := Machine.exec_cons_iff.mp hrun
    by_cases hi : i.1 = c
    · rw [without, List.filter_cons_of_neg (by simpa using hi)]
      exact ih (agree_step h hi hm (running_of_exec ht hrest)) hrest
    · obtain ⟨m', hm', hagree⟩ := step_agree h hi hm
      obtain ⟨t', ht', hlast⟩ := ih hagree hrest
      rw [without, List.filter_cons_of_pos (by simpa using hi)]
      exact ⟨t', Machine.exec_cons_iff.mpr ⟨m', hm', ht'⟩, hlast⟩

/-- What the others can do after the run without `c`, they can do after the run, and they
come to the same states. -/
def Isolated (M : κ → Machine σ ι) (fatal : σ → Bool) (s : Process κ σ) (is : List (κ × ι))
    (t : Process κ σ) (c : κ) : Prop :=
  ∀ js u, (∀ j ∈ js, j.1 ≠ c) → (machine M fatal).exec s (without c is ++ js) = some u →
    ∃ v, (machine M fatal).exec t js = some v ∧ Agree c v u

/-- **A process that runs isolates its machines.** -/
theorem isolated (hrun : (machine M fatal).exec s is = some t) (ht : t.exited = false) (c : κ) :
    Isolated M fatal s is t c := by
  intro js u hjs hu
  obtain ⟨m, hm, hagree⟩ := exec_without (Agree.refl c s) ht hrun
  obtain ⟨m', hm', hrest⟩ := Machine.exec_append_iff.mp hu
  rw [hm] at hm'
  cases hm'
  obtain ⟨v, hv, hlast⟩ := exec_agree ⟨hagree.exited.symm, fun d hd => (hagree.each d hd).symm⟩ hjs hrest
  exact ⟨v, hv, hlast.exited.symm, fun d hd => (hlast.each d hd).symm⟩

end Process

end EchoServer.Lib
