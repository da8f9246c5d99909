import AetherVault.Lib.Dict
import Mathlib.Data.List.Induction

/-! Requests that look at a shared state, decide what they will write and commit it later, any
number of them at once. What holds of a run is read off its commits: a property that one commit
keeps exactly when its plan still fits holds throughout exactly when every plan still fits. -/
namespace AetherVault.Lib.ReadCommit

/-- What a request makes of the state it looks at, what its plan writes at the commit (`δ` is
what only that moment brings), and the plans on the way that it waits for before it looks. -/
structure Protocol (σ κ ρ δ : Type) where
  plan : κ → σ → Option ρ
  write : ρ → δ → σ → σ
  waits : κ → ρ → Bool

inductive Move (κ δ : Type)
  | read (i : Nat) (request : κ)
  | commit (i : Nat) (now : δ)
  | abandon (i : Nat)

structure Server (σ ρ : Type) where
  shared : σ
  pending : Dict Nat ρ

variable {σ κ ρ δ : Type}

namespace Protocol

variable (P : Protocol σ κ ρ δ)

def step (s : Server σ ρ) : Move κ δ → Server σ ρ
  | .read i request =>
    if s.pending.contains i || s.pending.entries.any (fun entry => P.waits request entry.2) then s
    else (P.plan request s.shared).elim s fun plan => {s with pending := s.pending.set i plan}
  | .commit i now => (s.pending.get? i).elim s fun plan => ⟨P.write plan now s.shared,s.pending.erase i⟩
  | .abandon i => {s with pending := s.pending.erase i}

def run (start : σ) (moves : List (Move κ δ)) : Server σ ρ := moves.foldl P.step ⟨start,∅⟩

/-- Every plan of the run fits the state that its commit finds. -/
def Every (start : σ) (F : ρ → δ → σ → Prop) (moves : List (Move κ δ)) : Prop :=
  ∀ before i now after plan, moves = before ++ .commit i now::after →
    (P.run start before).pending.get? i = some plan → F plan now (P.run start before).shared

variable {P} {s : Server σ ρ} {start : σ} {moves : List (Move κ δ)}

theorem run_append (start : σ) (moves more : List (Move κ δ)) :
    P.run start (moves ++ more) = more.foldl P.step (P.run start moves) := List.foldl_append

theorem run_concat (start : σ) (moves : List (Move κ δ)) (m : Move κ δ) :
    P.run start (moves ++ [m]) = P.step (P.run start moves) m := run_append start moves [m]

theorem step_shared (s : Server σ ρ) (m : Move κ δ) : (P.step s m).shared = s.shared ∨
    ∃ i now plan, m = .commit i now ∧ s.pending.get? i = some plan ∧ (P.step s m).shared = P.write plan now s.shared := by
  cases m with
  | read i request =>
    left
    simp only [step]
    split
    · rfl
    · cases P.plan request s.shared <;> rfl
  | commit i now =>
    cases found : s.pending.get? i with
    | none => exact .inl (by simp [step,found])
    | some plan => exact .inr ⟨i,now,plan,rfl,found,by simp [step,found]⟩
  | abandon i => exact .inl rfl

/-- What is on the way after a move was before it, or has just been planned. -/
theorem step_pending (s : Server σ ρ) (m : Move κ δ) {j : Nat} {plan : ρ} (found : (P.step s m).pending.get? j = some plan) :
    s.pending.get? j = some plan ∨ ∃ request, m = .read j request ∧ P.plan request s.shared = some plan ∧
      s.pending.get? j = none ∧ ∀ i other, s.pending.get? i = some other → P.waits request other = false := by
  have kept : ∀ i, (s.pending.erase i).get? j = some plan → s.pending.get? j = some plan := by
    intro i found
    rw [Dict.get?_erase] at found
    split at found
    · contradiction
    · exact found
  cases m with
  | read i request =>
    simp only [step] at found
    split at found
    · exact .inl found
    · rename_i free
      simp only [Bool.or_eq_true,List.any_eq_true,not_or] at free
      cases planned : P.plan request s.shared with
      | none =>
        rw [planned] at found
        exact .inl found
      | some fresh =>
        rw [planned] at found
        simp only [Option.elim_some,Dict.get?_set] at found
        split at found
        · rename_i same
          subst same
          cases found
          right
          refine ⟨request,rfl,planned,(Dict.contains_false _ _).mp (by simpa using free.1),?_⟩
          intro i other on_the_way
          by_contra waits
          exact free.2 ⟨(i,other),(Dict.mem_entries _ _ _).mpr on_the_way,by simpa using waits⟩
        · exact .inl found
  | commit i now =>
    cases held : s.pending.get? i with
    | none => exact .inl (by simpa [step,held] using found)
    | some other =>
      simp only [step,held,Option.elim_some] at found
      exact .inl (kept i found)
  | abandon i => exact .inl (kept i found)

theorem Every.earlier {F : ρ → δ → σ → Prop} {more : List (Move κ δ)} (every : P.Every start F (moves ++ more)) :
    P.Every start F moves := by
  intro before i now after plan split
  exact every before i now (after ++ more) plan (by simp [split])

theorem every_nil {F : ρ → δ → σ → Prop} : P.Every start F [] := by
  intro before i now after plan split
  cases before <;> contradiction

theorem every_concat_iff {F : ρ → δ → σ → Prop} {m : Move κ δ} : P.Every start F (moves ++ [m]) ↔ P.Every start F moves ∧
    ∀ i now plan, m = .commit i now → (P.run start moves).pending.get? i = some plan → F plan now (P.run start moves).shared := by
  constructor
  · intro every
    exact ⟨every.earlier,fun i now plan last found => every moves i now [] plan (by rw [last]) found⟩
  · intro both before i now after plan split found
    cases after using List.reverseRecOn with
    | nil =>
      obtain ⟨rfl,same⟩ := List.append_inj' split rfl
      exact both.2 i now plan (List.singleton_inj.mp same) found
    | append_singleton after last _ =>
      rw [← List.cons_append,← List.append_assoc] at split
      exact both.1 before i now after plan (List.append_inj' split rfl).1 found

section Invariant

variable {I : σ → Prop} {A : ρ → Prop}

theorem run_keeps {F : ρ → δ → σ → Prop}
    (planned : ∀ request s plan, I s → P.plan request s = some plan → A plan)
    (kept : ∀ plan now s, A plan → F plan now s → I s → I (P.write plan now s))
    (first : I start) (every : P.Every start F moves) :
    I (P.run start moves).shared ∧ ∀ i plan, (P.run start moves).pending.get? i = some plan → A plan := by
  induction moves using List.reverseRecOn with
  | nil =>
    constructor
    · exact first
    · intro i plan found
      contradiction
  | append_singleton moves m ih =>
    obtain ⟨holds,on_the_way⟩ := ih every.earlier
    rw [run_concat]
    constructor
    · cases step_shared (P.run start moves) m with
      | inl same => rwa [same]
      | inr committed =>
        obtain ⟨i,now,plan,rfl,found,wrote⟩ := committed
        rw [wrote]
        exact kept plan now _ (on_the_way i plan found) (every moves i now [] plan rfl found) holds
    · intro i plan found
      cases step_pending _ m found with
      | inl before => exact on_the_way i plan before
      | inr fresh =>
        obtain ⟨request,-,made,-⟩ := fresh
        exact planned request _ plan holds made

theorem run_holds (planned : ∀ request s plan, I s → P.plan request s = some plan → A plan)
    (kept : ∀ plan now s, A plan → I s → I (P.write plan now s)) (first : I start) (moves : List (Move κ δ)) :
    I (P.run start moves).shared ∧ ∀ i plan, (P.run start moves).pending.get? i = some plan → A plan :=
  run_keeps (F := fun _ _ _ => True) planned (fun plan now s made _ holds => kept plan now s made holds) first
    fun _ _ _ _ _ _ _ => trivial

variable {G : σ → Prop} {F : ρ → δ → σ → Prop}

/-- A property that a commit keeps exactly when its plan fits holds throughout exactly when every plan fits. -/
theorem always_iff (planned : ∀ request s plan, I s → P.plan request s = some plan → A plan)
    (kept : ∀ plan now s, A plan → I s → I (P.write plan now s))
    (exactly : ∀ plan now s, A plan → I s → G s → (G (P.write plan now s) ↔ F plan now s))
    (first : I start) (good : G start) (moves : List (Move κ δ)) :
    (∀ before after, moves = before ++ after → G (P.run start before).shared) ↔ P.Every start F moves := by
  constructor
  · intro always before i now after plan split found
    obtain ⟨holds,on_the_way⟩ := run_holds planned kept first before
    have here := always before (.commit i now::after) split
    have next := always (before ++ [.commit i now]) after (by simp [split])
    rw [run_concat] at next
    simp only [step,found,Option.elim_some] at next
    exact (exactly plan now _ (on_the_way i plan found) holds here).mp next
  · intro every before after split
    subst split
    have both := run_keeps (I := fun s => I s ∧ G s) (A := A) (F := F)
      (fun request s plan holds made => planned request s plan holds.1 made)
      (fun plan now s made fits holds => ⟨kept plan now s made holds.1,(exactly plan now s made holds.1 holds.2).mpr fits⟩)
      ⟨first,good⟩ every.earlier
    exact both.1.2

/-- What a fitting commit keeps from the state it finds is kept from any state of the run to any later one. -/
theorem run_relates {R : σ → σ → Prop} (refl : ∀ s, I s → R s s) (trans : ∀ s t u, R s t → R t u → R s u)
    (planned : ∀ request s plan, I s → P.plan request s = some plan → A plan)
    (kept : ∀ plan now s, A plan → F plan now s → I s → I (P.write plan now s))
    (related : ∀ plan now s, A plan → F plan now s → I s → R s (P.write plan now s))
    (first : I start) (every : P.Every start F moves) : ∀ before between after, moves = before ++ between ++ after →
      R (P.run start before).shared (P.run start (before ++ between)).shared := by
  intro before between after split
  subst split
  have earlier := every.earlier
  clear every
  induction between using List.reverseRecOn with
  | nil => simpa using refl _ (run_keeps planned kept first earlier.earlier).1
  | append_singleton between m ih =>
    rw [← List.append_assoc] at earlier ⊢
    have so_far := ih earlier.earlier
    obtain ⟨holds,on_the_way⟩ := run_keeps planned kept first earlier.earlier
    rw [run_concat]
    cases step_shared (P.run start (before ++ between)) m with
    | inl same => rwa [same]
    | inr committed =>
      obtain ⟨i,now,plan,rfl,found,wrote⟩ := committed
      rw [wrote]
      apply trans _ _ _ so_far
      exact related plan now _ (on_the_way i plan found) (earlier _ i now [] plan rfl found) holds

/-- What a commit keeps from the state it finds, read off the commits in the same way. -/
theorem related_iff {R : σ → σ → Prop} (refl : ∀ s, I s → R s s) (trans : ∀ s t u, R s t → R t u → R s u)
    (planned : ∀ request s plan, I s → P.plan request s = some plan → A plan)
    (kept : ∀ plan now s, A plan → I s → I (P.write plan now s))
    (exactly : ∀ plan now s, A plan → I s → (R s (P.write plan now s) ↔ F plan now s))
    (first : I start) (moves : List (Move κ δ)) :
    (∀ before between after, moves = before ++ between ++ after →
      R (P.run start before).shared (P.run start (before ++ between)).shared) ↔ P.Every start F moves := by
  constructor
  · intro always before i now after plan split found
    obtain ⟨holds,on_the_way⟩ := run_holds planned kept first before
    have related := always before [.commit i now] after (by simp [split])
    rw [run_concat] at related
    simp only [step,found,Option.elim_some] at related
    exact (exactly plan now _ (on_the_way i plan found) holds).mp related
  · intro every
    exact run_relates refl trans planned (fun plan now s made _ holds => kept plan now s made holds)
      (fun plan now s made fits holds => (exactly plan now s made holds).mpr fits) first every

end Invariant

/-- A relation of each state to the next is decided by the commits. -/
theorem every_step_iff {R : σ → σ → Prop} {F : ρ → δ → σ → Prop} (refl : ∀ s, R s s)
    (exactly : ∀ plan now s, R s (P.write plan now s) ↔ F plan now s) (moves : List (Move κ δ)) :
    (∀ before m after, moves = before ++ m::after → R (P.run start before).shared (P.step (P.run start before) m).shared) ↔
      P.Every start F moves := by
  constructor
  · intro each before i now after plan split found
    have related := each before (.commit i now) after split
    simp only [step,found,Option.elim_some] at related
    exact (exactly plan now _).mp related
  · intro every before m after split
    cases step_shared (P.run start before) m with
    | inl same =>
      rw [same]
      exact refl _
    | inr committed =>
      obtain ⟨i,now,plan,rfl,found,wrote⟩ := committed
      rw [wrote]
      exact (exactly plan now _).mpr (every before i now after plan split found)

section Locking

variable {B : ρ → ρ → Prop} {F : ρ → σ → Prop}

/-- Where requests wait for the plans they would disturb, what a plan was made from still stands at its commit. -/
theorem pending_fresh (symm : ∀ a b, B a b → B b a)
    (apart : ∀ request s plan other, P.plan request s = some plan → P.waits request other = false → B plan other)
    (looked : ∀ request s plan, P.plan request s = some plan → F plan s)
    (undisturbed : ∀ plan other now s, B plan other → F plan s → F plan (P.write other now s))
    (start : σ) (moves : List (Move κ δ)) :
    (∀ i plan, (P.run start moves).pending.get? i = some plan → F plan (P.run start moves).shared) ∧
    ∀ i j plan other, i ≠ j → (P.run start moves).pending.get? i = some plan →
      (P.run start moves).pending.get? j = some other → B plan other := by
  induction moves using List.reverseRecOn with
  | nil =>
    constructor
    · intro i plan found
      contradiction
    · intro i j plan other _ found
      contradiction
  | append_singleton moves m ih =>
    obtain ⟨fresh,separate⟩ := ih
    rw [run_concat]
    constructor
    · intro j plan found
      cases step_pending _ m found with
      | inr planned =>
        obtain ⟨request,rfl,made,-⟩ := planned
        cases step_shared (P.run start moves) (.read j request) with
        | inl same =>
          rw [same]
          exact looked request _ plan made
        | inr committed =>
          obtain ⟨i,now,other,impossible,-⟩ := committed
          contradiction
      | inl before =>
        cases step_shared (P.run start moves) m with
        | inl same =>
          rw [same]
          exact fresh j plan before
        | inr committed =>
          obtain ⟨i,now,other,rfl,held,wrote⟩ := committed
          rw [wrote]
          by_cases mine : j = i
          · subst mine
            simp [step,held,Dict.get?_erase] at found
          · exact undisturbed plan other now _ (separate j i plan other mine before held) (fresh j plan before)
    · intro i j plan other differ found here
      cases step_pending _ m found with
      | inl before =>
        cases step_pending _ m here with
        | inl before' => exact separate i j plan other differ before before'
        | inr planned =>
          obtain ⟨request,-,made,-,free⟩ := planned
          exact symm _ _ (apart request _ other plan made (free i plan before))
      | inr planned =>
        obtain ⟨request,rfl,made,-,free⟩ := planned
        cases step_pending _ (.read i request) here with
        | inl before' => exact apart request _ plan other made (free j other before')
        | inr planned' =>
          obtain ⟨request',same,-⟩ := planned'
          cases same
          contradiction

end Locking

end Protocol

end AetherVault.Lib.ReadCommit
