import Mathlib.Data.List.Sort
import Mathlib.Order.Defs.LinearOrder

/-! Sets that are walked in an order of their own. What is sorted, or added up, does not show it. -/
namespace AetherVault.Lib

variable {α : Type}

/-- The order a set is walked in, from the elements it holds. -/
structure SetOrder (α : Type) where
  list : List α → List α
  perm : ∀ xs, (list xs).Perm xs

namespace SetOrder

def as_listed : SetOrder α := ⟨id,List.Perm.refl⟩

/-- `sorted(xs)`. -/
def sorted [LinearOrder α] (xs : List α) : List α := xs.mergeSort (· ≤ ·)

theorem mem_sorted [LinearOrder α] {xs : List α} {x : α} : x ∈ sorted xs ↔ x ∈ xs := List.mem_mergeSort

theorem sorted_congr [LinearOrder α] {xs ys : List α} (same : xs.Perm ys) : sorted xs = sorted ys := by
  have ordered (zs : List α) : (sorted zs).Pairwise (· ≤ ·) := by
    have : (zs.mergeSort fun a b => decide (a ≤ b)).Pairwise fun a b => decide (a ≤ b) = true := List.pairwise_mergeSort
      (fun a b c first second => by simpa using le_trans (of_decide_eq_true first) (of_decide_eq_true second))
      (fun a b => by simpa using le_total a b) zs
    simpa [sorted] using this
  have perm : (sorted xs).Perm (sorted ys) := ((List.mergeSort_perm xs _).trans same).trans (List.mergeSort_perm ys _).symm
  exact perm.eq_of_pairwise (fun _ _ _ _ first second => le_antisymm first second) (ordered xs) (ordered ys)

theorem sorted_list [LinearOrder α] (order : SetOrder α) (xs : List α) : sorted (order.list xs) = sorted xs :=
  sorted_congr (order.perm xs)

variable {M : Type} [Add M] (swap : ∀ a b c : M, a + b + c = a + c + b)
include swap

/-- A sum over a set, where each term may be missing. -/
theorem fold_add_congr (term : α → Option M) {xs ys : List α} (same : xs.Perm ys) (acc : M) :
    xs.foldlM (fun acc x => (term x).map (acc + ·)) acc = ys.foldlM (fun acc x => (term x).map (acc + ·)) acc := by
  induction same generalizing acc with
  | nil => rfl
  | cons x _ ih =>
    rw [List.foldlM_cons,List.foldlM_cons]
    cases term x with
    | none => rfl
    | some m => exact ih (acc + m)
  | swap x y rest =>
    simp only [List.foldlM_cons]
    cases term x with
    | none => cases term y <;> rfl
    | some m =>
      cases term y with
      | none => rfl
      | some n => simp [swap acc n m]
  | trans _ _ first second => exact (first acc).trans (second acc)

omit swap in
theorem fold_add_isSome (term : α → Option M) (xs : List α) (acc : M) :
    (xs.foldlM (fun acc x => (term x).map (acc + ·)) acc).isSome = xs.all fun x => (term x).isSome := by
  induction xs generalizing acc with
  | nil => rfl
  | cons x rest ih =>
    rw [List.foldlM_cons,List.all_cons]
    cases term x with
    | none => rfl
    | some m => exact ih (acc + m)

end SetOrder

end AetherVault.Lib
