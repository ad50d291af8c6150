import Mathlib.Data.List.Basic

/-!
# Loops

A loop of the source is given by one round of it: the test of its condition and,
where that holds, one run of its body. A round emits something and leaves the loop in
a new state, unless the body goes wrong, as by an access outside its array. Nothing
makes a loop end, so its rounds are counted.

Main results:

* `rounds_succ` — one more round at the end of a run, the step of an induction on
  the number of rounds;
* `forall_of_rounds` — what holds of every emission of a round holds of a run's;
* `Ends.unique`, `Ends.not_faults` — a loop comes to one end at most.
-/

namespace EchoServer.Lib

universe u v

/-- One round of a loop: the condition is false, the body goes wrong, or the body emits
`out` and leaves the state `s`. -/
inductive Round (ω : Type u) (σ : Type v)
  | done
  | fault
  | next (out : ω) (s : σ)
  deriving DecidableEq, Repr

/-- A loop, by its rounds. -/
structure Loop (σ : Type v) (ω : Type u) where
  round : σ → Round ω σ

namespace Loop

variable {σ : Type v} {ω : Type u} {L : Loop σ ω}

/-- The first `n` rounds from a state, if there are as many: what they emit, and where
they leave the loop. -/
def rounds (L : Loop σ ω) : Nat → σ → Option (List ω × σ)
  | 0, s => some ([], s)
  | n + 1, s =>
    match L.round s with
    | .next out t => (L.rounds n t).map fun r => (out :: r.1, r.2)
    | _ => none

/-- The loop ends in `t`, having emitted `outs`. -/
def Ends (L : Loop σ ω) (s : σ) (outs : List ω) (t : σ) : Prop :=
  (∃ n, L.rounds n s = some (outs, t)) ∧ L.round t = .done

/-- The loop goes wrong after it has emitted `outs`. -/
def Faults (L : Loop σ ω) (s : σ) (outs : List ω) : Prop :=
  ∃ n t, L.rounds n s = some (outs, t) ∧ L.round t = .fault

theorem rounds_cons {n : Nat} {s t : σ} {out : ω} (h : L.round s = .next out t) :
    L.rounds (n + 1) s = (L.rounds n t).map fun r => (out :: r.1, r.2) := by
  rw [rounds, h]

/-- One more round at the end. -/
theorem rounds_succ {n : Nat} {s t u : σ} {outs : List ω} {out : ω}
    (h : L.rounds n s = some (outs, t)) (hround : L.round t = .next out u) :
    L.rounds (n + 1) s = some (outs ++ [out], u) := by
  induction n generalizing s outs with
  | zero =>
    obtain ⟨rfl, rfl⟩ : [] = outs ∧ s = t := by simpa [rounds] using h
    rw [rounds_cons hround]
    rfl
  | succ n ih =>
    rw [rounds] at h
    split at h
    · next o m hm =>
      obtain ⟨r, hr, heq⟩ := Option.map_eq_some_iff.mp h
      obtain ⟨rfl, rfl⟩ := Prod.mk.inj heq
      rw [rounds_cons hm, ih hr]
      rfl
    · cases h

/-- What every round emits, a run emits. -/
theorem forall_of_rounds {P : ω → Prop} (hP : ∀ s out t, L.round s = .next out t → P out)
    {n : Nat} {s t : σ} {outs : List ω} (h : L.rounds n s = some (outs, t)) :
    ∀ out ∈ outs, P out := by
  induction n generalizing s outs with
  | zero =>
    obtain ⟨rfl, -⟩ : [] = outs ∧ s = t := by simpa [rounds] using h
    simp
  | succ n ih =>
    rw [rounds] at h
    split at h
    · next out m hround =>
      obtain ⟨r, hr, heq⟩ := Option.map_eq_some_iff.mp h
      obtain ⟨rfl, rfl⟩ := Prod.mk.inj heq
      exact List.forall_mem_cons.mpr ⟨hP s out m hround, ih hr⟩
    · cases h

/-- Two runs of a loop, each up to where it stops, are the same run. -/
theorem rounds_unique {n m : Nat} {s t u : σ} {outs outs' : List ω}
    (ht : L.rounds n s = some (outs, t)) (hu : L.rounds m s = some (outs', u))
    (htstop : ∀ out v, L.round t ≠ .next out v) (hustop : ∀ out v, L.round u ≠ .next out v) :
    outs = outs' ∧ t = u := by
  -- both runs take the same first round, or neither takes any
  induction n generalizing s m outs outs' with
  | zero =>
    obtain ⟨rfl, rfl⟩ : [] = outs ∧ s = t := by simpa [rounds] using ht
    cases m with
    | zero => simpa [rounds] using hu
    | succ m =>
      rw [rounds] at hu
      split at hu
      · next out v hround => exact absurd hround (htstop out v)
      · cases hu
  | succ n ih =>
    rw [rounds] at ht
    split at ht
    · next out v hround =>
      obtain ⟨r, hr, heq⟩ := Option.map_eq_some_iff.mp ht
      obtain ⟨rfl, rfl⟩ := Prod.mk.inj heq
      cases m with
      | zero =>
        obtain ⟨-, rfl⟩ : [] = outs' ∧ s = u := by simpa [rounds] using hu
        exact absurd hround (hustop out v)
      | succ m =>
        rw [rounds_cons hround] at hu
        obtain ⟨r', hr', heq'⟩ := Option.map_eq_some_iff.mp hu
        obtain ⟨rfl, rfl⟩ := Prod.mk.inj heq'
        obtain ⟨houts, hend⟩ := ih hr hr'
        exact ⟨congrArg (out :: ·) houts, hend⟩
    · cases ht

theorem Ends.unique {s t u : σ} {outs outs' : List ω} (ht : L.Ends s outs t)
    (hu : L.Ends s outs' u) : outs = outs' ∧ t = u := by
  obtain ⟨⟨n, hn⟩, htdone⟩ := ht
  obtain ⟨⟨m, hm⟩, hudone⟩ := hu
  exact rounds_unique hn hm (by simp [htdone]) (by simp [hudone])

theorem Ends.not_faults {s t : σ} {outs outs' : List ω} (ht : L.Ends s outs t) :
    ¬ L.Faults s outs' := by
  rintro ⟨m, u, hm, hfault⟩
  obtain ⟨⟨n, hn⟩, hdone⟩ := ht
  obtain ⟨-, rfl⟩ := rounds_unique hn hm (by simp [hdone]) (by simp [hfault])
  rw [hdone] at hfault
  cases hfault

end Loop

end EchoServer.Lib
