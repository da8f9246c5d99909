import Mathlib.Data.List.Induction
import Mathlib.Data.List.Sort

/-! A listing read page by page while its table changes: each page begins beyond the last key of the one
before it, and the walk ends with a page that is not full. -/
namespace AetherVault.Lib.KeysetWalk

variable {K α : Type} [LinearOrder K] (key : α → K)

def beyond (after : Option K) (k : K) : Bool :=
  match after with
  | none => true
  | some a => a < k

def listing (rows : List α) (after : Option K) : List α :=
  (rows.filter fun row => beyond after (key row)).insertionSort fun a b => key a ≤ key b

def page (rows : List α) (after : Option K) (limit : Nat) : List α := (listing key rows after).take limit

/-- The pages that are read of the tables that successive requests find. -/
def walk (limit : Nat) : List (List α) → Option K → List (List α)
  | [],_ => []
  | rows::later,after =>
    let shown := page key rows after limit
    shown::if shown.length = limit then walk limit later (shown.getLast?.map key) else []

def Finished (limit : Nat) (pages : List (List α)) : Prop := ∃ last, pages.getLast? = some last ∧ last.length < limit

variable {key} {rows : List α} {after : Option K} {limit : Nat}

theorem mem_listing {row : α} : row ∈ listing key rows after ↔ row ∈ rows ∧ beyond after (key row) = true := by
  rw [listing,List.mem_insertionSort,List.mem_filter]

theorem listing_ordered (distinct : (rows.map key).Nodup) : (listing key rows after).Pairwise fun a b => key a < key b := by
  have ordered := List.pairwise_insertionSort (fun a b => key a ≤ key b) (rows.filter fun row => beyond after (key row))
  have apart : ((listing key rows after).map key).Nodup :=
    ((List.perm_insertionSort _ _).map key).nodup_iff.mpr (distinct.sublist (List.filter_sublist.map key))
  exact (ordered.and (List.pairwise_map.mp apart)).imp fun both => lt_of_le_of_ne both.1 both.2

theorem mem_page {row : α} (shown : row ∈ page key rows after limit) : row ∈ rows ∧ beyond after (key row) = true :=
  mem_listing.mp (List.mem_of_mem_take shown)

theorem beyond_trans {k : K} {last : K} (first : beyond after last = true) (later : beyond (some last) k = true) :
    beyond after k = true := by
  cases after with
  | none => rfl
  | some a =>
    simp only [beyond,decide_eq_true_eq] at first later ⊢
    exact first.trans later

/-- What a full page leaves out is beyond its last row, and nothing else is. -/
theorem page_split (distinct : (rows.map key).Nodup) {row : α} (present : row ∈ rows)
    (waiting : beyond after (key row) = true) :
    row ∈ page key rows after limit ∨ (page key rows after limit).length = limit ∧
      beyond ((page key rows after limit).getLast?.map key) (key row) = true := by
  have among : row ∈ listing key rows after := mem_listing.mpr ⟨present,waiting⟩
  have ordered : (listing key rows after).Pairwise fun a b => key a < key b := listing_ordered distinct
  rw [← List.take_append_drop limit (listing key rows after)] at among ordered
  rcases List.mem_append.mp among with shown | left_out
  · exact .inl shown
  · refine .inr ⟨?_,?_⟩
    · have some_left := List.length_pos_of_mem left_out
      rw [List.length_drop] at some_left
      rw [page,List.length_take]
      omega
    · cases final : (page key rows after limit).getLast? with
      | none => rfl
      | some last =>
        have apart := (List.pairwise_append.mp ordered).2.2 last (List.mem_of_getLast? final) row left_out
        simpa [beyond] using apart

theorem full_last (room : 0 < limit) {shown : List α} (full : shown.length = limit) : ∃ last, shown.getLast? = some last := by
  cases final : shown.getLast? with
  | some last => exact ⟨last,rfl⟩
  | none =>
    rw [List.getLast?_eq_none_iff.mp final] at full
    exact absurd full room.ne

theorem walk_beyond (room : 0 < limit) {tables : List (List α)} {row : α}
    (shown : row ∈ (walk key limit tables after).flatten) : beyond after (key row) = true := by
  induction tables generalizing after with
  | nil => exact absurd shown List.not_mem_nil
  | cons rows later ih =>
    rw [walk,List.flatten_cons] at shown
    rcases List.mem_append.mp shown with here | next
    · exact (mem_page here).2
    · split at next
      · rename_i full
        obtain ⟨last,final⟩ := full_last room full
        rw [final] at next
        exact beyond_trans (mem_page (List.mem_of_getLast? final)).2 (ih next)
      · exact absurd next List.not_mem_nil

/-- No row is read twice, whatever becomes of the table between two pages. -/
theorem walk_ordered (room : 0 < limit) {tables : List (List α)} (distinct : ∀ rows ∈ tables, (rows.map key).Nodup) :
    (walk key limit tables after).flatten.Pairwise fun a b => key a < key b := by
  induction tables generalizing after with
  | nil => exact .nil
  | cons rows later ih =>
    rw [walk,List.flatten_cons]
    have here : (page key rows after limit).Pairwise fun a b => key a < key b :=
      (listing_ordered (distinct rows List.mem_cons_self)).sublist (List.take_sublist ..)
    refine List.pairwise_append.mpr ⟨here,?_,fun row shown other next => ?_⟩
    · split
      · exact ih fun rows among => distinct rows (List.mem_cons_of_mem _ among)
      · exact .nil
    · split at next
      · rename_i full
        obtain ⟨last,final⟩ := full_last room full
        rw [final] at next
        have later : key last < key other := by simpa [beyond] using walk_beyond room next
        obtain ⟨front,split⟩ := List.getLast?_eq_some_iff.mp final
        rw [split] at shown here
        rcases List.mem_append.mp shown with earlier | final
        · exact ((List.pairwise_append.mp here).2.2 row earlier last (List.mem_singleton_self _)).trans later
        · rw [List.mem_singleton.mp final]
          exact later
      · exact absurd next List.not_mem_nil

theorem walk_source {tables : List (List α)} {row : α} (shown : row ∈ (walk key limit tables after).flatten) :
    ∃ rows ∈ tables, row ∈ rows := by
  induction tables generalizing after with
  | nil => exact absurd shown List.not_mem_nil
  | cons rows later ih =>
    rw [walk,List.flatten_cons] at shown
    rcases List.mem_append.mp shown with here | next
    · exact ⟨rows,List.mem_cons_self,(mem_page here).1⟩
    · split at next
      · obtain ⟨rows,among,present⟩ := ih next
        exact ⟨rows,List.mem_cons_of_mem _ among,present⟩
      · exact absurd next List.not_mem_nil

/-- Every key that is in the table at each of its pages is read by a walk that ends. -/
theorem walk_complete {tables : List (List α)} (distinct : ∀ rows ∈ tables, (rows.map key).Nodup)
    (finished : Finished limit (walk key limit tables after)) {k : K} (waiting : beyond after k = true)
    (stays : ∀ rows ∈ tables, k ∈ rows.map key) : k ∈ (walk key limit tables after).flatten.map key := by
  induction tables generalizing after with
  | nil =>
    obtain ⟨last,final,-⟩ := finished
    contradiction
  | cons rows later ih =>
    obtain ⟨row,present,rfl⟩ := List.mem_map.mp (stays rows List.mem_cons_self)
    rw [walk,List.flatten_cons,List.map_append]
    have here : row ∈ page key rows after limit ∨ _ := page_split (distinct rows List.mem_cons_self) present waiting
    rcases here with shown | ⟨full,left_out⟩
    · exact List.mem_append_left _ (List.mem_map_of_mem shown)
    · refine List.mem_append_right _ ?_
      rw [walk,if_pos full] at finished
      rw [if_pos full]
      obtain ⟨last,final,short⟩ := finished
      have more : walk key limit later ((page key rows after limit).getLast?.map key) ≠ [] := by
        intro none
        rw [none,List.getLast?_singleton,Option.some.injEq] at final
        rw [← final] at short
        exact absurd full short.ne
      rw [List.getLast?_cons_of_ne_nil more] at final
      exact ih (fun rows among => distinct rows (List.mem_cons_of_mem _ among)) ⟨last,final,short⟩ left_out
        fun rows among => stays rows (List.mem_cons_of_mem _ among)

theorem finished_cons {shown : List α} {pages : List (List α)} (finished : Finished limit pages) :
    Finished limit (shown::pages) := by
  obtain ⟨last,final,short⟩ := finished
  refine ⟨last,?_,short⟩
  rw [List.getLast?_cons_of_ne_nil,final]
  rintro rfl
  contradiction

/-- A walk down keys that only so many others are beyond ends. -/
theorem walk_finishes (room : 0 < limit) (measure : K → Nat) (descends : ∀ a b, a < b → measure b < measure a)
    {tables : List (List α)} {a : K} (enough : measure a < tables.length) : Finished limit (walk key limit tables (some a)) := by
  induction tables generalizing a with
  | nil => exact absurd enough (Nat.not_lt_zero _)
  | cons rows later ih =>
    rw [walk]
    by_cases full : (page key rows (some a) limit).length = limit
    · obtain ⟨last,final⟩ := full_last room full
      have lower : a < key last := by simpa [beyond] using (mem_page (List.mem_of_getLast? final)).2
      have fewer := descends _ _ lower
      rw [List.length_cons] at enough
      rw [if_pos full,final,Option.map_some]
      exact finished_cons (ih (by omega))
    · rw [if_neg full]
      refine ⟨_,List.getLast?_singleton,lt_of_le_of_ne ?_ full⟩
      exact List.length_take_le ..

theorem walk_finishes_from_start (room : 0 < limit) (measure : K → Nat) (descends : ∀ a b, a < b → measure b < measure a)
    {rows : List α} {later : List (List α)} (top : Nat) (bounded : ∀ row ∈ rows, measure (key row) ≤ top)
    (enough : top < later.length) : Finished limit (walk key limit (rows::later) none) := by
  rw [walk]
  by_cases full : (page key rows none limit).length = limit
  · obtain ⟨last,final⟩ := full_last room full
    have low := bounded last (mem_page (List.mem_of_getLast? final)).1
    rw [if_pos full,final,Option.map_some]
    exact finished_cons (walk_finishes room measure descends (by omega))
  · rw [if_neg full]
    exact ⟨_,List.getLast?_singleton,lt_of_le_of_ne (List.length_take_le ..) full⟩

end AetherVault.Lib.KeysetWalk
