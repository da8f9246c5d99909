import Mathlib.Data.List.Basic

/-! Runs of a machine that takes one step after another: what holds in every state of a run,
read off its steps. -/
namespace AetherVault.Lib.Runs

variable {σ μ : Type} (step : σ → μ → σ)

def Always (G : σ → Prop) (start : σ) (moves : List μ) : Prop :=
  ∀ before after, moves = before ++ after → G (before.foldl step start)

/-- Every step of the run fits the state that it finds. -/
def Every (F : σ → μ → Prop) (start : σ) (moves : List μ) : Prop :=
  ∀ before m after, moves = before ++ m::after → F (before.foldl step start) m

variable {step} {G I : σ → Prop} {F : σ → μ → Prop} {start : σ} {m : μ} {moves : List μ}

theorem always_nil : Always step G start [] ↔ G start := by
  constructor
  · intro always
    exact always [] [] rfl
  · intro here before after split
    obtain ⟨rfl,-⟩ := List.append_eq_nil_iff.mp split.symm
    exact here

theorem always_cons : Always step G start (m::moves) ↔ G start ∧ Always step G (step start m) moves := by
  constructor
  · intro always
    exact ⟨always [] _ rfl,fun before after split => always (m::before) after (congrArg (m::·) split)⟩
  · intro both before after split
    cases before with
    | nil => exact both.1
    | cons first before =>
      obtain ⟨rfl,rest⟩ := List.cons.inj split
      exact both.2 before after rest

theorem every_nil : Every step F start [] := by
  intro before m after split
  cases before <;> contradiction

theorem every_cons : Every step F start (m::moves) ↔ F start m ∧ Every step F (step start m) moves := by
  constructor
  · intro every
    exact ⟨every [] m _ rfl,fun before next after split => every (m::before) next after (congrArg (m::·) split)⟩
  · intro both before next after split
    cases before with
    | nil =>
      obtain ⟨rfl,-⟩ := List.cons.inj split
      exact both.1
    | cons first before =>
      obtain ⟨rfl,rest⟩ := List.cons.inj split
      exact both.2 before next after rest

theorem Every.mono {F' : σ → μ → Prop} (weaker : ∀ s m, F s m → F' s m) (every : Every step F start moves) :
    Every step F' start moves :=
  fun before m after split => weaker _ m (every before m after split)

theorem run_keeps (kept : ∀ s m, I s → F s m → I (step s m)) (first : I start) (every : Every step F start moves) :
    I (moves.foldl step start) := by
  induction moves generalizing start with
  | nil => exact first
  | cons m moves ih =>
    obtain ⟨fits,rest⟩ := every_cons.mp every
    exact ih (kept start m first fits) rest

/-- An invariant that every step keeps holds wherever a run has come. -/
theorem run_holds (kept : ∀ s m, I s → I (step s m)) (first : I start) (moves : List μ) : I (moves.foldl step start) :=
  run_keeps (F := fun _ _ => True) (fun s m holds _ => kept s m holds) first fun _ _ _ _ => trivial

/-- What follows from an invariant that every fitting step keeps holds in every state of the run. -/
theorem always_of (kept : ∀ s m, I s → F s m → I (step s m)) (good : ∀ s, I s → G s) (first : I start)
    (every : Every step F start moves) : Always step G start moves := by
  intro before after split
  refine good _ (run_keeps kept first fun earlier m later parts => ?_)
  refine every earlier m (later ++ after) ?_
  rw [split,parts,List.append_assoc,List.cons_append]

/-- A property that a step keeps exactly when it fits holds throughout exactly when every step fits. -/
theorem always_iff (kept : ∀ s m, I s → I (step s m)) (exactly : ∀ s m, I s → G s → (G (step s m) ↔ F s m))
    (first : I start) (good : G start) (moves : List μ) : Always step G start moves ↔ Every step F start moves := by
  induction moves generalizing start with
  | nil =>
    rw [always_nil]
    exact ⟨fun _ => every_nil,fun _ => good⟩
  | cons m moves ih =>
    rw [always_cons,every_cons]
    constructor
    · intro both
      have next : G (step start m) := both.2 [] moves rfl
      exact ⟨(exactly start m first good).mp next,(ih (kept start m first) next).mp both.2⟩
    · intro both
      have next := (exactly start m first good).mpr both.1
      exact ⟨good,(ih (kept start m first) next).mpr both.2⟩

/-- What a step does, seen from a state that keeps the invariant, decides the same of every step of a run. -/
theorem every_congr {F' : σ → μ → Prop} (kept : ∀ s m, I s → I (step s m)) (same : ∀ s m, I s → (F s m ↔ F' s m))
    (first : I start) (moves : List μ) : Every step F start moves ↔ Every step F' start moves := by
  constructor
  · intro every before m after split
    exact (same _ m (run_holds kept first before)).mp (every before m after split)
  · intro every before m after split
    exact (same _ m (run_holds kept first before)).mpr (every before m after split)

end AetherVault.Lib.Runs
