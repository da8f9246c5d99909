import Mathlib.Data.List.Induction
import Mathlib.Data.List.Sort

/-! Pages of records in the order of a key, each from where the one before it ended: what a
page skips is not beyond its cursor. -/
namespace AetherVault.Lib.CursorPage

variable {α : Type} (key : α → Nat)

def page (records : List α) (since limit : Nat) : List α :=
  ((records.filter fun record => since < key record).insertionSort fun a b => key a ≤ key b).take limit

def cursor (since : Nat) (shown : List α) : Nat := shown.getLast?.elim since key

variable {key} {records : List α} {since limit : Nat}

theorem mem_of_page {record : α} (shown : record ∈ page key records since limit) : record ∈ records ∧ since < key record := by
  have kept := (List.mem_insertionSort _).mp (List.mem_of_mem_take shown)
  exact ⟨List.mem_of_mem_filter kept,of_decide_eq_true (List.of_mem_filter (p := fun record => decide (since < key record)) kept)⟩

theorem sorted_pairwise (distinct : (records.map key).Nodup) :
    ((records.filter fun record => since < key record).insertionSort fun a b => key a ≤ key b).Pairwise
      fun a b => key a < key b := by
  have ordered := List.pairwise_insertionSort (fun a b => key a ≤ key b) (records.filter fun record => since < key record)
  have apart : (((records.filter fun record => since < key record).insertionSort fun a b => key a ≤ key b).map key).Nodup :=
    ((List.perm_insertionSort _ _).map key).nodup_iff.mpr (distinct.sublist (List.filter_sublist.map key))
  exact (ordered.and (List.pairwise_map.mp apart)).imp fun both => Nat.lt_of_le_of_ne both.1 both.2

theorem page_pairwise (distinct : (records.map key).Nodup) :
    (page key records since limit).Pairwise fun a b => key a < key b :=
  (sorted_pairwise distinct).sublist (List.take_sublist _ _)

theorem le_last {shown : List α} (ordered : shown.Pairwise fun a b => key a < key b) {record : α} (present : record ∈ shown) :
    key record ≤ cursor key since shown := by
  induction shown using List.reverseRecOn with
  | nil => contradiction
  | append_singleton before final _ =>
    have at_end : cursor key since (before ++ [final]) = key final := by simp [cursor]
    rw [at_end]
    cases List.mem_append.mp present with
    | inl earlier => exact Nat.le_of_lt ((List.pairwise_append.mp ordered).2.2 record earlier final (by simp))
    | inr here => rw [List.mem_singleton.mp here]

theorem le_cursor : since ≤ cursor key since (page key records since limit) := by
  unfold cursor
  cases final : (page key records since limit).getLast? with
  | none => exact Nat.le_refl _
  | some record => exact Nat.le_of_lt (mem_of_page (List.mem_of_getLast? final)).2

theorem page_covers (distinct : (records.map key).Nodup) {record : α} (present : record ∈ records) (beyond : since < key record)
    (passed : key record ≤ cursor key since (page key records since limit)) : record ∈ page key records since limit := by
  have waiting : record ∈ (records.filter fun record => since < key record).insertionSort fun a b => key a ≤ key b :=
    (List.mem_insertionSort _).mpr (List.mem_filter.mpr ⟨present,decide_eq_true beyond⟩)
  have ordered : ((records.filter fun record => since < key record).insertionSort fun a b => key a ≤ key b).Pairwise
      fun a b => key a < key b := sorted_pairwise distinct
  rw [← List.take_append_drop limit ((records.filter fun record => since < key record).insertionSort fun a b => key a ≤ key b)]
    at waiting ordered
  cases List.mem_append.mp waiting with
  | inl shown => exact shown
  | inr left_out =>
    exfalso
    unfold cursor at passed
    cases final : (page key records since limit).getLast? with
    | none =>
      rw [final] at passed
      exact Nat.not_le_of_lt beyond passed
    | some last =>
      rw [final] at passed
      exact Nat.not_le_of_lt ((List.pairwise_append.mp ordered).2.2 last (List.mem_of_getLast? final) record left_out) passed

theorem cursor_advances (some_room : 0 < limit) {record : α} (present : record ∈ records) (beyond : since < key record) :
    since < cursor key since (page key records since limit) := by
  unfold cursor
  cases final : (page key records since limit).getLast? with
  | some last => exact (mem_of_page (List.mem_of_getLast? final)).2
  | none =>
    have nothing := List.getLast?_eq_none_iff.mp final
    have waiting : record ∈ (records.filter fun record => since < key record).insertionSort fun a b => key a ≤ key b :=
      (List.mem_insertionSort _).mpr (List.mem_filter.mpr ⟨present,decide_eq_true beyond⟩)
    cases List.take_eq_nil_iff.mp nothing with
    | inl no_room => omega
    | inr none_kept =>
      rw [none_kept] at waiting
      contradiction

end AetherVault.Lib.CursorPage
