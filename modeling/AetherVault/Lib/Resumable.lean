import Mathlib.Data.List.Basic

/-! Loops that skip the items which a record lists as done, and count what they could not do. -/
namespace AetherVault.Lib.Resumable

variable {σ ι : Type} {step : σ → ι → Except σ σ}

/-- What one turn of such a loop does: what is settled stays as it is, and an item without a failure is settled, and held
unless it was settled before. -/
structure Turn (settled held : σ → ι → Prop) (failed : σ → Nat) (items : List ι) (s : σ) (x : ι) (t : σ) : Prop where
  stays : ∀ y ∈ items, settled s y → settled t y ∧ (held t y ↔ held s y)
  settles : ∀ y ∈ items, settled t y → settled s y ∨ held t y
  done : failed t = 0 → failed s = 0 ∧ (settled s x ∨ held t x ∧ settled t x)

variable {settled held : σ → ι → Prop} {failed : σ → Nat} {items : List ι}

theorem fold_stays (turns : ∀ s x t, x ∈ items → step s x = .ok t → Turn settled held failed items s x t) {todo : List ι}
    (inside : todo ⊆ items) {s t : σ} (ran : todo.foldlM step s = .ok t) {y : ι} (member : y ∈ items) (before : settled s y) :
    held t y ↔ held s y := by
  induction todo generalizing s with
  | nil =>
    obtain rfl : s = t := Except.ok.inj ran
    exact Iff.rfl
  | cons x rest ih =>
    obtain ⟨first,tail⟩ := List.cons_subset.mp inside
    rw [List.foldlM_cons] at ran
    cases turned : step s x with
    | error u =>
      rw [turned] at ran
      cases ran
    | ok u =>
      rw [turned] at ran
      obtain ⟨stays,same⟩ := (turns s x u first turned).stays y member before
      exact (ih tail ran stays).trans same

theorem fold_done (turns : ∀ s x t, x ∈ items → step s x = .ok t → Turn settled held failed items s x t) {todo : List ι}
    (inside : todo ⊆ items) {s t : σ} (ran : todo.foldlM step s = .ok t) (quiet : failed t = 0) :
    failed s = 0 ∧ ∀ y ∈ todo, settled s y ∨ held t y := by
  induction todo generalizing s with
  | nil =>
    obtain rfl : s = t := Except.ok.inj ran
    exact ⟨quiet,fun y member => absurd member List.not_mem_nil⟩
  | cons x rest ih =>
    obtain ⟨first,tail⟩ := List.cons_subset.mp inside
    rw [List.foldlM_cons] at ran
    cases turned : step s x with
    | error u =>
      rw [turned] at ran
      cases ran
    | ok u =>
      rw [turned] at ran
      have turn := turns s x u first turned
      obtain ⟨quiet_after,later⟩ := ih tail ran
      obtain ⟨quiet_before,mine⟩ := turn.done quiet_after
      refine ⟨quiet_before,fun y member => ?_⟩
      have kept {z : ι} (among : z ∈ items) (settled_after : settled u z) (held_after : held u z) : held t z :=
        (fold_stays turns tail ran among settled_after).mpr held_after
      cases List.mem_cons.mp member with
      | inl same =>
        subst same
        exact mine.imp_right fun both => kept first both.2 both.1
      | inr among =>
        cases later y among with
        | inl settled_after =>
          exact (turn.settles y (tail among) settled_after).imp_right fun held_after => kept (tail among) settled_after held_after
        | inr held_at_end => exact Or.inr held_at_end

/-- Without a failure every item is held in the end exactly when those settled at the start were held then. -/
theorem all_held_iff (turns : ∀ s x t, x ∈ items → step s x = .ok t → Turn settled held failed items s x t) {s t : σ}
    (ran : items.foldlM step s = .ok t) (quiet : failed t = 0) :
    (∀ x ∈ items, held t x) ↔ ∀ x ∈ items, settled s x → held s x := by
  have same {y : ι} (member : y ∈ items) (before : settled s y) := fold_stays turns (List.Subset.refl _) ran member before
  constructor
  · intro all x member before
    exact (same member before).mp (all x member)
  · intro trusted x member
    cases (fold_done turns (List.Subset.refl _) ran quiet).2 x member with
    | inl before => exact (same member before).mpr (trusted x member before)
    | inr held_at_end => exact held_at_end

/-- What every turn keeps, the loop keeps. -/
theorem fold_keeps {I : σ → Prop} (kept : ∀ s x t, x ∈ items → I s → step s x = .ok t → I t) {s t : σ}
    (ran : items.foldlM step s = .ok t) (holds : I s) : I t := by
  induction items generalizing s with
  | nil =>
    obtain rfl : s = t := Except.ok.inj ran
    exact holds
  | cons x rest ih =>
    rw [List.foldlM_cons] at ran
    cases turned : step s x with
    | error u =>
      rw [turned] at ran
      cases ran
    | ok u =>
      rw [turned] at ran
      exact ih (fun s x t member => kept s x t (List.mem_cons_of_mem _ member)) ran (kept s x u List.mem_cons_self holds turned)

/-! Loops that may be cut short. -/

/-- Where a loop has come, whether it was cut short or not. -/
def outcome : Except σ σ → σ
  | .ok s => s
  | .error s => s

theorem fold_always {I : σ → Prop} (kept : ∀ s x, x ∈ items → I s → I (outcome (step s x))) {s : σ} (holds : I s) :
    I (outcome (items.foldlM step s)) := by
  induction items generalizing s with
  | nil => exact holds
  | cons x rest ih =>
    have next := kept s x List.mem_cons_self holds
    rw [List.foldlM_cons]
    cases turned : step s x with
    | error u =>
      rw [turned] at next
      exact next
    | ok u =>
      rw [turned] at next
      exact ih (fun s x member => kept s x (List.mem_cons_of_mem _ member)) next

theorem then_always {I : σ → Prop} {first : Except σ σ} {next : σ → Except σ σ} (holds : I (outcome first))
    (kept : ∀ s, I s → I (outcome (next s))) : I (outcome (first >>= next)) := by
  cases first with
  | error s => exact holds
  | ok s => exact kept s holds

theorem fold_quiet (quiet : ∀ s x, x ∈ items → failed s = 0 → ∃ t, step s x = .ok t ∧ failed t = 0) {s : σ}
    (start : failed s = 0) : ∃ t, items.foldlM step s = .ok t ∧ failed t = 0 := by
  induction items generalizing s with
  | nil => exact ⟨s,rfl,start⟩
  | cons x rest ih =>
    obtain ⟨u,turned,still⟩ := quiet s x List.mem_cons_self start
    obtain ⟨t,ran,done⟩ := ih (fun s x member => quiet s x (List.mem_cons_of_mem _ member)) still
    refine ⟨t,?_,done⟩
    rw [List.foldlM_cons,turned]
    exact ran

end AetherVault.Lib.Resumable
