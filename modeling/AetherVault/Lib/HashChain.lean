import Mathlib.Data.List.Forall2
import Mathlib.Data.List.Infix
import Mathlib.Data.List.Nodup

/-! Records that carry a hash of themselves and of the hash before them. Where the hash
binds both, the last hash of a chain fixes all of it, and what is left of a chain is a
chain again only when it is a beginning. -/
namespace AetherVault.Lib.HashChain

variable {α η : Type} (hash : Option η → α → η) (stored : α → η)

def Linked : Option η → List α → Prop
  | _,[] => True
  | prev,row::rest => hash prev row = stored row ∧ Linked (some (stored row)) rest

/-- The hash that the next record is linked to. -/
def last (prev : Option η) (rows : List α) : Option η := (rows.getLast?.map stored).or prev

@[simp] theorem last_nil (prev : Option η) : last stored prev [] = prev := rfl

@[simp] theorem last_cons (prev : Option η) (row : α) (rest : List α) :
    last stored prev (row::rest) = last stored (some (stored row)) rest := by
  cases rest with
  | nil => rfl
  | cons next rest =>
    obtain ⟨final,found⟩ : ∃ final, (next::rest).getLast? = some final := ⟨_,List.getLast?_eq_some_getLast (by simp)⟩
    simp only [last,List.getLast?_cons_cons,found]
    rfl

theorem last_concat (prev : Option η) (rows : List α) (row : α) :
    last stored prev (rows ++ [row]) = some (stored row) := by simp [last]

theorem linked_append (prev : Option η) (rows more : List α) :
    Linked hash stored prev (rows ++ more) ↔
      Linked hash stored prev rows ∧ Linked hash stored (last stored prev rows) more := by
  induction rows generalizing prev with
  | nil => simp [Linked]
  | cons row rest ih => simp [Linked,ih,and_assoc]

theorem Linked.of_prefix {prev : Option η} {rows kept : List α} (linked : Linked hash stored prev rows)
    (first : kept <+: rows) : Linked hash stored prev kept := by
  obtain ⟨rest,rfl⟩ := first
  exact ((linked_append hash stored prev kept rest).mp linked).1

theorem linked_map {β : Type} (f : β → α) (prev : Option η) (rows : List β) :
    Linked hash stored prev (rows.map f) ↔ Linked (fun prev row => hash prev (f row)) (fun row => stored (f row)) prev rows := by
  induction rows generalizing prev with
  | nil => exact Iff.rfl
  | cons row rest ih =>
    apply and_congr_right
    intro _
    exact ih _

section Binding

variable {hash stored} {R : α → α → Prop}
variable (binds : ∀ prev row prev' row', hash prev row = hash prev' row' → prev = prev' ∧ R row row')
include binds

/-- Two chains that end in one hash agree record by record: by induction from their ends,
the hash of a record gives the hash before it. -/
theorem Linked.agree {rows other : List α} (one : Linked hash stored none rows) (two : Linked hash stored none other)
    (same : last stored none rows = last stored none other) : List.Forall₂ R rows other := by
  induction rows using List.reverseRecOn generalizing other with
  | nil =>
    induction other using List.reverseRecOn with
    | nil => exact .nil
    | append_singleton _ row _ =>
      rw [last_concat] at same
      contradiction
  | append_singleton rows row ih =>
    induction other using List.reverseRecOn with
    | nil =>
      rw [last_concat] at same
      contradiction
    | append_singleton other row' _ =>
      obtain ⟨before,linked⟩ := (linked_append hash stored none rows [row]).mp one
      obtain ⟨before',linked'⟩ := (linked_append hash stored none other [row']).mp two
      rw [last_concat,last_concat] at same
      have hashes : hash (last stored none rows) row = hash (last stored none other) row' :=
        linked.1.trans ((Option.some.inj same).trans linked'.1.symm)
      obtain ⟨prev_same,agrees⟩ := binds _ _ _ _ hashes
      exact List.rel_append (ih before before' prev_same) (.cons agrees .nil)

/-- No hash occurs twice in a chain, nor is it linked to nothing twice. -/
theorem Linked.last_inj {rows one two : List α} (linked : Linked hash stored none rows) (first : one <+: rows)
    (second : two <+: rows) (same : last stored none one = last stored none two) : one = two := by
  have lengths := ((linked.of_prefix hash stored first).agree binds (linked.of_prefix hash stored second) same).length_eq
  rw [List.prefix_iff_eq_take.mp first,List.prefix_iff_eq_take.mp second,lengths]

/-- By induction on what follows the records that are kept so far. -/
theorem Linked.kept_prefix {rest kept : List α} (sub : kept.Sublist rest) (done : List α)
    (linked : Linked hash stored none (done ++ rest)) (still : Linked hash stored none (done ++ kept)) : kept <+: rest := by
  induction rest generalizing kept done with
  | nil =>
    rw [List.sublist_nil.mp sub]
  | cons row rest ih =>
    cases sub with
    | cons _ sub =>
      cases kept with
      | nil => exact List.nil_prefix
      | cons next kept =>
        exfalso
        obtain ⟨between,after,rfl⟩ := List.append_of_mem (sub.subset (List.mem_cons_self))
        rw [show done ++ row::(between ++ next::after) = (done ++ row::between) ++ next::after by simp] at linked
        have here := ((linked_append hash stored none _ _).mp linked).2.1
        have there := ((linked_append hash stored none _ _).mp still).2.1
        obtain ⟨same,-⟩ := binds _ _ _ _ (there.trans here.symm)
        have equal := linked.last_inj binds ⟨row::(between ++ next::after),by simp⟩ ⟨next::after,rfl⟩ same
        simp at equal
    | cons_cons _ sub =>
      obtain ⟨tail,joined⟩ := ih sub (done ++ [row]) (by simpa using linked) (by simpa using still)
      exact ⟨tail,by rw [← joined]; rfl⟩

/-- What is left of a chain is a chain exactly when nothing before it is gone. -/
theorem Linked.kept_iff {rows kept : List α} (linked : Linked hash stored none rows) (sub : kept.Sublist rows) :
    Linked hash stored none kept ↔ kept <+: rows :=
  ⟨fun still => Linked.kept_prefix binds sub [] linked still,linked.of_prefix hash stored⟩

end Binding

/-- Dropping records by a test leaves a beginning when every record after a dropped one is dropped. -/
theorem filter_prefix_iff (dropped : α → Bool) (rows : List α) :
    (rows.filter fun row => !dropped row) <+: rows ↔ rows.Pairwise fun row next => dropped row → dropped next := by
  induction rows with
  | nil => simp
  | cons row rest ih =>
    rw [List.pairwise_cons,← ih]
    cases gone : dropped row with
    | false => simp [gone]
    | true =>
      simp only [List.filter_cons,gone,Bool.not_true,Bool.false_eq_true,if_false,true_implies]
      constructor
      · intro first
        have none_left : rest.filter (fun row => !dropped row) = [] := by
          cases kept : rest.filter (fun row => !dropped row) with
          | nil => rfl
          | cons next more =>
            rw [kept] at first
            have same := (List.cons_prefix_cons.mp first).1
            have stays := List.of_mem_filter (kept ▸ List.mem_cons_self : next ∈ rest.filter fun row => !dropped row)
            rw [same,gone] at stays
            contradiction
        rw [none_left]
        exact ⟨by simpa using none_left,List.nil_prefix⟩
      · intro later
        have none_left : rest.filter (fun row => !dropped row) = [] := by simpa using later.1
        rw [none_left]
        exact List.nil_prefix

end AetherVault.Lib.HashChain
