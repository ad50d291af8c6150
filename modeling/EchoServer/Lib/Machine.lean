import Mathlib.Logic.Function.Basic
import Mathlib.Data.List.Basic

/-!
# Labelled machines

A machine is a partial step function whose every nondeterministic choice (which
party moves, how many bytes the kernel moves, which error it reports) is named
by a label. A run is a list of labels, so a run can be replayed by evaluation
and "for every interleaving" is a quantifier over label lists.

Main results:

* `Preserves.reachable` — a predicate that every step keeps holds in every
  state reached from a state where it holds;
* `Preserves.and` — the second half of an invariant may assume the first;
* `exec_append_iff`, `Reachable.trans` — runs compose;
* `view_exec` — a part of the state that only some labels touch is what these
  labels make of it;
* `exec_map` — two runs, step by step;
* `throughout_iff_along`, `eachStep_iff_along` — exactly which runs keep a property of
  states, or of steps, by the condition that their steps meet;
* `last_iff_along` — the same for a property that, once lost, is never regained;
* `inevitably_of_measure` — when every step outside `P` makes a measure smaller
  and some step is always enabled there, every run comes to `P`;
* `forall_update_iff_and` — what all keep of which one moves;
* `family_exec` — machines side by side, in any interleaving, do in each component
  only what it does by itself.
-/

namespace EchoServer.Lib

universe u v

/-! ## One of many moves -/

section
variable {κ : Type*} [DecidableEq κ] {τ : Type*} {P : τ → Prop} {f : κ → τ} {i : κ} {x : τ}

/-- What the move of one does not change. -/
theorem update_iff (h : P x ↔ P (f i)) (j : κ) : P (Function.update f i x j) ↔ P (f j) := by
  by_cases hj : j = i
  · subst hj
    rwa [Function.update_self]
  · rw [Function.update_of_ne hj]

/-- All keep what the one that moves keeps. -/
theorem forall_update (h : ∀ j, P (f j)) (hx : P x) (j : κ) : P (Function.update f i x j) :=
  (update_iff (iff_of_true hx (h i)) j).mpr (h j)

/-- They lose it only by the one that moves. -/
theorem forall_update_iff_and {C : Prop} (h : P x ↔ P (f i) ∧ C) :
    (∀ j, P (Function.update f i x j)) ↔ (∀ j, P (f j)) ∧ C := by
  rw [Function.forall_update_iff f fun _ => P, h]
  constructor
  · rintro ⟨⟨hi, hC⟩, hrest⟩
    refine ⟨fun j => ?_, hC⟩
    by_cases hj : j = i
    · rwa [hj]
    · exact hrest j hj
  · rintro ⟨hall, hC⟩
    exact ⟨⟨hall i, hC⟩, fun j _ => hall j⟩

end

/-! ## Machines -/

/-- A partial step function; `step s i = none` when choice `i` is not enabled. -/
structure Machine (σ : Type u) (ι : Type v) where
  step : σ → ι → Option σ

namespace Machine

variable {σ : Type u} {ι : Type v} {M : Machine σ ι}

/-! ## Runs -/

/-- Run a list of labels, in order. -/
def exec (M : Machine σ ι) : σ → List ι → Option σ
  | s, [] => some s
  | s, i :: is => (M.step s i).bind fun t => M.exec t is

@[simp] theorem exec_nil (s : σ) : M.exec s [] = some s := rfl

theorem exec_cons_iff {s t : σ} {i : ι} {is : List ι} :
    M.exec s (i :: is) = some t ↔ ∃ m, M.step s i = some m ∧ M.exec m is = some t := by
  simp [exec, Option.bind_eq_some_iff]

theorem exec_append {s : σ} {is js : List ι} :
    M.exec s (is ++ js) = (M.exec s is).bind fun m => M.exec m js := by
  induction is generalizing s with
  | nil => rfl
  | cons i is ih =>
    rw [List.cons_append, exec, exec, Option.bind_assoc]
    exact congrArg _ (funext fun _ => ih)

theorem exec_append_iff {s t : σ} {is js : List ι} :
    M.exec s (is ++ js) = some t ↔ ∃ m, M.exec s is = some m ∧ M.exec m js = some t := by
  rw [exec_append, Option.bind_eq_some_iff]

/-- `t` can be reached from `s` by some run. -/
def Reachable (M : Machine σ ι) (s t : σ) : Prop :=
  ∃ is, M.exec s is = some t

theorem Reachable.refl (s : σ) : M.Reachable s s := ⟨[], rfl⟩

theorem Reachable.trans {s m t : σ} (hsm : M.Reachable s m) (hmt : M.Reachable m t) :
    M.Reachable s t := by
  obtain ⟨is, hs⟩ := hsm
  obtain ⟨js, ht⟩ := hmt
  exact ⟨is ++ js, exec_append_iff.mpr ⟨m, hs, ht⟩⟩

theorem Reachable.of_step {s t : σ} {i : ι} (h : M.step s i = some t) : M.Reachable s t :=
  ⟨[i], exec_cons_iff.mpr ⟨t, h, rfl⟩⟩

/-! ## Invariants -/

/-- Every step of the machine keeps `P`. -/
def Preserves (M : Machine σ ι) (P : σ → Prop) : Prop :=
  ∀ ⦃s : σ⦄ ⦃i : ι⦄ ⦃t : σ⦄, P s → M.step s i = some t → P t

theorem Preserves.exec {P : σ → Prop} (h : M.Preserves P) {s t : σ} {is : List ι}
    (hs : P s) (hrun : M.exec s is = some t) : P t := by
  induction is generalizing s with
  | nil =>
    obtain rfl : s = t := by simpa using hrun
    exact hs
  | cons i is ih =>
    obtain ⟨m, hm, hrest⟩ := exec_cons_iff.mp hrun
    exact ih (h hs hm) hrest

theorem Preserves.reachable {P : σ → Prop} (h : M.Preserves P) {s t : σ}
    (hs : P s) (hrun : M.Reachable s t) : P t := by
  obtain ⟨is, his⟩ := hrun
  exact h.exec hs his

/-- A layered invariant: the step lemma of `Q` may use `P` before and after. -/
theorem Preserves.and {P Q : σ → Prop} (hP : M.Preserves P)
    (hQ : ∀ ⦃s : σ⦄ ⦃i : ι⦄ ⦃t : σ⦄, P s → P t → Q s → M.step s i = some t → Q t) :
    M.Preserves fun s => P s ∧ Q s := by
  rintro s i t ⟨hp, hq⟩ hstep
  have hp' := hP hp hstep
  exact ⟨hp', hQ hp hp' hq hstep⟩

/-- A part of the state that changes by the labels in `mine` only, and by these as
`next` says, is determined by what these labels are. -/
theorem view_exec {τ : Type*} {Inv : σ → Prop} (hinv : M.Preserves Inv) (view : σ → τ)
    (mine : ι → Bool) (next : τ → ι → τ)
    (hstep : ∀ s i t, Inv s → M.step s i = some t →
      view t = if mine i then next (view s) i else view s)
    {s t : σ} {is : List ι} (hs : Inv s) (hrun : M.exec s is = some t) :
    view t = (is.filter mine).foldl next (view s) := by
  induction is generalizing s with
  | nil =>
    obtain rfl : s = t := by simpa using hrun
    rfl
  | cons i is ih =>
    obtain ⟨m, hm, hrest⟩ := exec_cons_iff.mp hrun
    rw [ih (hinv hs hm) hrest, hstep s i m hs hm, List.filter_cons]
    split
    · rfl
    · rfl

/-- Two machines between whose states a map takes steps to steps, as long as an invariant
holds. -/
theorem exec_map {τ : Type*} {N : Machine τ ι} {Inv : σ → Prop} (f : σ → τ)
    (hinv : M.Preserves Inv) (hf : ∀ s i, Inv s → N.step (f s) i = (M.step s i).map f) {s : σ}
    (hs : Inv s) (is : List ι) : N.exec (f s) is = (M.exec s is).map f := by
  induction is generalizing s with
  | nil => rfl
  | cons i is ih =>
    rw [exec, exec, hf s i hs]
    cases hm : M.step s i with
    | none => rfl
    | some m => exact ih (hinv hs hm)

/-! ## Conditions on the steps of a run -/

/-- Every step of the run meets `C`, a condition on the state before it and on its
label. -/
def Along (M : Machine σ ι) (C : σ → ι → Prop) : σ → List ι → Prop
  | _, [] => True
  | s, i :: is => C s i ∧ ∀ t, M.step s i = some t → M.Along C t is

theorem along_cons_iff {C : σ → ι → Prop} {s t : σ} {i : ι} {is : List ι}
    (h : M.step s i = some t) : M.Along C s (i :: is) ↔ C s i ∧ M.Along C t is := by
  refine and_congr Iff.rfl ⟨fun hall => hall t h, fun ht u hu => ?_⟩
  rw [h] at hu
  cases hu
  exact ht

/-- What the steps that meet `C` keep is kept by a run of such steps. -/
theorem Along.invariant {P : σ → Prop} {C : σ → ι → Prop} {s t : σ} {is : List ι}
    (halong : M.Along C s is) (hrun : M.exec s is = some t) (hs : P s)
    (hstep : ∀ s i t, P s → C s i → M.step s i = some t → P t) : P t := by
  induction is generalizing s with
  | nil =>
    obtain rfl : s = t := by simpa using hrun
    exact hs
  | cons i is ih =>
    obtain ⟨m, hm, hrest⟩ := exec_cons_iff.mp hrun
    rw [along_cons_iff hm] at halong
    exact ih halong.2 hrest (hstep s i m hs halong.1 hm)

instance decidableAlong {C : σ → ι → Prop} [∀ s i, Decidable (C s i)] :
    ∀ (s : σ) (is : List ι), Decidable (M.Along C s is)
  | _, [] => isTrue trivial
  | s, i :: is =>
    match h : M.step s i with
    | none => decidable_of_iff (C s i) ⟨fun hC => ⟨hC, fun t ht => by simp [h] at ht⟩, fun h => h.1⟩
    | some t =>
      have : Decidable (M.Along C t is) := decidableAlong t is
      decidable_of_iff (C s i ∧ M.Along C t is) (along_cons_iff h).symm

/-- `P` holds in every state of the run, from the first to the last. -/
def Throughout (M : Machine σ ι) (P : σ → Prop) : σ → List ι → Prop
  | s, [] => P s
  | s, i :: is => P s ∧ ∀ t, M.step s i = some t → M.Throughout P t is

theorem throughout_cons_iff {P : σ → Prop} {s t : σ} {i : ι} {is : List ι}
    (h : M.step s i = some t) : M.Throughout P s (i :: is) ↔ P s ∧ M.Throughout P t is := by
  refine and_congr Iff.rfl ⟨fun hall => hall t h, fun ht u hu => ?_⟩
  rw [h] at hu
  cases hu
  exact ht

theorem Throughout.head {P : σ → Prop} {s : σ} {is : List ι} (h : M.Throughout P s is) : P s := by
  cases is with
  | nil => exact h
  | cons => exact h.1

/-- The rule for exact conditions: as long as the steps meet `C` an invariant holds that
gives `P`, and the first step that does not meet it leads to a state without `P`. -/
theorem throughout_iff_along (Inv : σ → Prop) {P : σ → Prop} {C : σ → ι → Prop}
    (hP : ∀ s, Inv s → P s)
    (hkeeps : ∀ s i t, Inv s → C s i → M.step s i = some t → Inv t)
    (hbreaks : ∀ s i t, Inv s → ¬ C s i → M.step s i = some t → ¬ P t) {s t : σ} {is : List ι}
    (hs : Inv s) (hrun : M.exec s is = some t) : M.Throughout P s is ↔ M.Along C s is := by
  induction is generalizing s with
  | nil => exact ⟨fun _ => trivial, fun _ => hP s hs⟩
  | cons i is ih =>
    obtain ⟨m, hm, hrest⟩ := exec_cons_iff.mp hrun
    rw [throughout_cons_iff hm, along_cons_iff hm]
    by_cases hC : C s i
    · rw [ih (hkeeps s i m hs hC hm) hrest]
      exact and_congr_left' (iff_of_true (hP s hs) hC)
    · exact iff_of_false (fun h => hbreaks s i m hs hC hm h.2.head) fun h => hC h.1

/-- Every step of the run is in `R`, between the state before it and the state after. -/
def EachStep (M : Machine σ ι) (R : σ → ι → σ → Prop) : σ → List ι → Prop
  | _, [] => True
  | s, i :: is => ∀ t, M.step s i = some t → R s i t ∧ M.EachStep R t is

theorem eachStep_cons_iff {R : σ → ι → σ → Prop} {s t : σ} {i : ι} {is : List ι}
    (h : M.step s i = some t) : M.EachStep R s (i :: is) ↔ R s i t ∧ M.EachStep R t is := by
  refine ⟨fun hall => hall t h, fun ht u hu => ?_⟩
  rw [h] at hu
  cases hu
  exact ht

/-- The rule for exact conditions on steps: as long as the steps meet `C` an invariant
holds and they are in `R`, and the first that does not meet it is not. -/
theorem eachStep_iff_along (Inv : σ → Prop) {R : σ → ι → σ → Prop} {C : σ → ι → Prop}
    (hkeeps : ∀ s i t, Inv s → C s i → M.step s i = some t → Inv t ∧ R s i t)
    (hbreaks : ∀ s i t, Inv s → ¬ C s i → M.step s i = some t → ¬ R s i t) {s t : σ} {is : List ι}
    (hs : Inv s) (hrun : M.exec s is = some t) : M.EachStep R s is ↔ M.Along C s is := by
  induction is generalizing s with
  | nil => exact Iff.rfl
  | cons i is ih =>
    obtain ⟨m, hm, hrest⟩ := exec_cons_iff.mp hrun
    rw [eachStep_cons_iff hm, along_cons_iff hm]
    by_cases hC : C s i
    · obtain ⟨hinv, hR⟩ := hkeeps s i m hs hC hm
      rw [ih hinv hrest]
      exact and_congr_left' (iff_of_true hR hC)
    · exact iff_of_false (fun h => hbreaks s i m hs hC hm h.1) fun h => hC h.1

/-- The rule for a property that is never regained: what each step does to it decides what
the run does. -/
theorem last_iff_along {Inv P : σ → Prop} {C : σ → ι → Prop} (hinv : M.Preserves Inv)
    (hstep : ∀ s i t, Inv s → M.step s i = some t → (P t ↔ P s ∧ C s i)) {s t : σ} {is : List ι}
    (hs : Inv s) (hrun : M.exec s is = some t) : P t ↔ P s ∧ M.Along C s is := by
  induction is generalizing s with
  | nil =>
    obtain rfl : s = t := by simpa using hrun
    exact (and_iff_left trivial).symm
  | cons i is ih =>
    obtain ⟨m, hm, hrest⟩ := exec_cons_iff.mp hrun
    have hlast := ih (hinv hs hm) hrest
    rw [along_cons_iff hm, hlast, hstep s i m hs hm, and_assoc]

/-! ## What every run comes to -/

/-- Every run from `s`, whatever its choices, comes to a state where `P` holds:
either it is there, or some step is enabled and after every enabled step it
still comes to one. -/
inductive Inevitably (M : Machine σ ι) (P : σ → Prop) : σ → Prop
  | now {s : σ} : P s → Inevitably M P s
  | later {s : σ} : (∃ i t, M.step s i = some t) →
      (∀ i t, M.step s i = some t → Inevitably M P t) → Inevitably M P s

theorem Inevitably.mono {P Q : σ → Prop} (hPQ : ∀ s, P s → Q s) {s : σ}
    (h : M.Inevitably P s) : M.Inevitably Q s := by
  induction h with
  | now hP => exact .now (hPQ _ hP)
  | later hsome _ ih => exact .later hsome ih

/-- The rule for `Inevitably`: an invariant, a measure that every step outside
`P` makes smaller, and progress outside `P`. -/
theorem inevitably_of_measure {P Inv : σ → Prop} (f : σ → Nat)
    (hstep : ∀ s i t, Inv s → ¬ P s → M.step s i = some t → Inv t ∧ f t < f s)
    (hprog : ∀ s, Inv s → ¬ P s → ∃ i t, M.step s i = some t) {s : σ} (hs : Inv s) :
    M.Inevitably P s := by
  -- strong induction on the measure
  induction hn : f s using Nat.strongRecOn generalizing s with
  | _ n ih =>
    by_cases hP : P s
    · exact .now hP
    · refine .later (hprog s hs hP) fun i t ht => ?_
      obtain ⟨ht', hlt⟩ := hstep s i t hs hP ht
      exact ih (f t) (hn ▸ hlt) ht' rfl

/-- A machine whose steps are those of another one, up to a map of states. -/
theorem Inevitably.of_map {τ : Type*} {N : Machine τ ι} {P : τ → Prop} (f : σ → τ)
    (hf : ∀ s i, N.step (f s) i = (M.step s i).map f) {s : σ} (h : N.Inevitably P (f s)) :
    M.Inevitably (fun s => P (f s)) s := by
  -- induction on the other machine's derivation, for every state it is the image of
  generalize ht : f s = t at h
  induction h generalizing s with
  | now hP => exact .now (by rwa [ht])
  | later hsome _ ih =>
    subst ht
    refine .later ?_ fun i u hu => ?_
    · obtain ⟨i, t, ht⟩ := hsome
      rw [hf, Option.map_eq_some_iff] at ht
      obtain ⟨u, hu, -⟩ := ht
      exact ⟨i, u, hu⟩
    · exact ih i (f u) (by rw [hf, hu]; rfl) rfl

/-! ## Machines side by side -/

variable {κ : Type*} [DecidableEq κ]

/-- One machine for each `c`, of which any takes the next step. -/
def family (M : κ → Machine σ ι) : Machine (κ → σ) (κ × ι) where
  step s i := ((M i.1).step (s i.1) i.2).map (Function.update s i.1)

/-- The part of a run that is the component `c`'s. -/
def component (c : κ) (is : List (κ × ι)) : List ι :=
  (is.filter fun i => i.1 = c).map Prod.snd

theorem family_exec {M : κ → Machine σ ι} {s t : κ → σ} {is : List (κ × ι)}
    (h : (family M).exec s is = some t) (c : κ) :
    (M c).exec (s c) (component c is) = some (t c) := by
  induction is generalizing s with
  | nil =>
    obtain rfl : s = t := by simpa using h
    rfl
  | cons i is ih =>
    obtain ⟨m, hm, hrest⟩ := exec_cons_iff.mp h
    obtain ⟨y, hy, rfl⟩ := Option.map_eq_some_iff.mp hm
    have hc := ih hrest
    by_cases hi : i.1 = c
    · subst hi
      rw [Function.update_self] at hc
      rw [component, List.filter_cons_of_pos (by simp), List.map_cons]
      exact exec_cons_iff.mpr ⟨y, hy, hc⟩
    · rw [Function.update_of_ne (Ne.symm hi)] at hc
      rwa [component, List.filter_cons_of_neg (by simpa using hi)]

theorem family_reachable {M : κ → Machine σ ι} {s t : κ → σ} (h : (family M).Reachable s t)
    (c : κ) : (M c).Reachable (s c) (t c) := by
  obtain ⟨is, his⟩ := h
  exact ⟨component c is, family_exec his c⟩

theorem exec_family {M : κ → Machine σ ι} (c : κ) {s : κ → σ} {x : σ} {is : List ι}
    (h : (M c).exec (s c) is = some x) :
    (family M).exec s (is.map (Prod.mk c)) = some (Function.update s c x) := by
  induction is generalizing s with
  | nil =>
    obtain rfl : s c = x := by simpa using h
    rw [Function.update_eq_self]
    rfl
  | cons i is ih =>
    obtain ⟨y, hy, hrest⟩ := exec_cons_iff.mp h
    refine exec_cons_iff.mpr ⟨Function.update s c y, Option.map_eq_some_iff.mpr ⟨y, hy, rfl⟩, ?_⟩
    rw [ih (s := Function.update s c y) (by rwa [Function.update_self]), Function.update_idem]

/-- What holds of a component in every state of all the machines holds in every state of
its own. -/
theorem forall_family_reachable {M : κ → Machine σ ι} {s : κ → σ} (c : κ) {P : σ → Prop} :
    (∀ t, (family M).Reachable s t → P (t c)) ↔ ∀ x, (M c).Reachable (s c) x → P x := by
  constructor
  · rintro h x ⟨is, his⟩
    have hx := h _ ⟨_, exec_family c his⟩
    rwa [Function.update_self] at hx
  · exact fun h t ht => h (t c) (family_reachable ht c)

end Machine

end EchoServer.Lib
