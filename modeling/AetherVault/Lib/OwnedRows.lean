import AetherVault.Lib.Dict

/-! Rows under keys, each of an owner, and edits that go to them by their keys: what one owner
sees of the rows, and when edits leave it as it was. -/
namespace AetherVault.Lib.OwnedRows

variable {κ ω α : Type} [DecidableEq κ] [DecidableEq ω]

structure Row (ω α : Type) where
  owner : Option ω
  fields : α

/-- What becomes of the row with a key. -/
inductive Change (α : Type)
  | keep
  | put (fields : α)
  | drop

/-- An edit goes to a key, with the owner that a new row gets there; a row that is there keeps its own. -/
structure Edit (κ ω α : Type) where
  key : κ
  owner : Option ω
  change : Option α → Change α

namespace Edit

def owner_in (edit : Edit κ ω α) (rows : Dict κ (Row ω α)) : Option ω := (rows.get? edit.key).elim edit.owner Row.owner

def apply (rows : Dict κ (Row ω α)) (edit : Edit κ ω α) : Dict κ (Row ω α) :=
  match edit.change ((rows.get? edit.key).map Row.fields) with
  | .keep => rows
  | .put fields => rows.set edit.key ⟨edit.owner_in rows,fields⟩
  | .drop => rows.erase edit.key

/-- An edit that asks for what is there. -/
def Idle (edit : Edit κ ω α) (rows : Dict κ (Row ω α)) : Prop :=
  match edit.change ((rows.get? edit.key).map Row.fields) with
  | .keep => True
  | .put fields => (rows.get? edit.key).map Row.fields = some fields
  | .drop => rows.get? edit.key = none

end Edit

/-- The row with a key, for its owner. -/
def seen (rows : Dict κ (Row ω α)) (owner : ω) (key : κ) : Option (Row ω α) := (rows.get? key).filter fun row => row.owner = some owner

variable {rows other_rows : Dict κ (Row ω α)} {edit : Edit κ ω α} {key : κ} {owner : ω}

omit [DecidableEq ω] in
theorem apply_elsewhere (elsewhere : key ≠ edit.key) : (edit.apply rows).get? key = rows.get? key := by
  unfold Edit.apply
  split
  · rfl
  · exact Dict.get?_set_other _ _ _ _ elsewhere
  · rw [Dict.get?_erase,if_neg elsewhere]

omit [DecidableEq ω] in
theorem apply_local (same : rows.get? edit.key = other_rows.get? edit.key) :
    (edit.apply rows).get? edit.key = (edit.apply other_rows).get? edit.key := by
  unfold Edit.apply Edit.owner_in
  rw [same]
  split
  · exact same
  · rw [Dict.get?_set_same,Dict.get?_set_same]
  · rw [Dict.get?_erase,Dict.get?_erase,if_pos rfl,if_pos rfl]

theorem seen_apply_iff : seen (edit.apply rows) owner edit.key = seen rows owner edit.key ↔
    (edit.owner_in rows = some owner → edit.Idle rows) := by
  unfold seen Edit.apply Edit.Idle Edit.owner_in
  split
  · simp
  · rw [Dict.get?_set_same]
    cases found : rows.get? edit.key with
    | none =>
      simp only [Option.elim_none,Option.map_none,Option.filter_none,Option.filter_eq_none_iff]
      simp
    | some row =>
      simp only [Option.elim_some,Option.map_some,Option.some.injEq]
      by_cases own : row.owner = some owner
      · rw [Option.filter_some_pos (by simpa using own),Option.filter_some_pos (by simpa using own)]
        simp only [own,forall_const,Option.some.injEq]
        constructor
        · intro same
          rw [← same]
        · intro same
          rw [← own,← same]
      · simp [own,Option.filter]
  · rw [Dict.get?_erase,if_pos rfl]
    cases found : rows.get? edit.key with
    | none => simp
    | some row =>
      simp only [Option.filter_none,Option.elim_some,reduceCtorEq,imp_false]
      by_cases own : row.owner = some owner <;> simp [own,Option.filter]

omit [DecidableEq ω] in
theorem apply_all {edits : List (Edit κ ω α)} (apart : (edits.map Edit.key).Nodup) (rows : Dict κ (Row ω α)) :
    (∀ edit ∈ edits, (edits.foldl Edit.apply rows).get? edit.key = (edit.apply rows).get? edit.key) ∧
    ∀ key, key ∉ edits.map Edit.key → (edits.foldl Edit.apply rows).get? key = rows.get? key := by
  induction edits generalizing rows with
  | nil => simp
  | cons head edits ih =>
    rw [List.map_cons,List.nodup_cons] at apart
    obtain ⟨at_keys,elsewhere⟩ := ih apart.2 (head.apply rows)
    constructor
    · intro edit among
      rw [List.foldl_cons]
      cases List.mem_cons.mp among with
      | inl here =>
        rw [here]
        exact elsewhere head.key apart.1
      | inr later =>
        have differ : edit.key ≠ head.key := by
          intro same
          rw [← same] at apart
          exact apart.1 (List.mem_map_of_mem later)
        rw [at_keys edit later]
        exact apply_local (apply_elsewhere differ)
    · intro key outside
      rw [List.map_cons,List.mem_cons,not_or] at outside
      rw [List.foldl_cons,elsewhere key outside.2]
      exact apply_elsewhere outside.1

/-- An owner sees the same rows exactly when no edit of theirs asks for anything new. -/
theorem seen_all_iff {edits : List (Edit κ ω α)} (apart : (edits.map Edit.key).Nodup) :
    (∀ key, seen (edits.foldl Edit.apply rows) owner key = seen rows owner key) ↔
      ∀ edit ∈ edits, edit.owner_in rows = some owner → edit.Idle rows := by
  obtain ⟨at_keys,elsewhere⟩ := apply_all apart rows
  constructor
  · intro same edit among
    apply seen_apply_iff.mp
    have here := same edit.key
    unfold seen at here ⊢
    rw [← at_keys edit among]
    exact here
  · intro idle key
    by_cases edited : key ∈ edits.map Edit.key
    · obtain ⟨edit,among,rfl⟩ := List.mem_map.mp edited
      have here := seen_apply_iff.mpr (idle edit among)
      unfold seen at here ⊢
      rw [at_keys edit among]
      exact here
    · unfold seen
      rw [elsewhere key edited]

end AetherVault.Lib.OwnedRows
