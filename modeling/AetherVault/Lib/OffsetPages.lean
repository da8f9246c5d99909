import Mathlib.Data.List.Basic

/-! A walk over numbered pages, each from the offset where the one before it ended, until a page
comes back short. -/
namespace AetherVault.Lib.OffsetPages

variable {α : Type} {limit : Nat}

/-- `none` when a page fails, or when the pages do not come to an end. -/
def all_pages (limit : Nat) (page : Nat → Option (List α)) : Nat → Nat → Option (List α)
  | 0,_ => none
  | fuel+1,offset => (page offset).bind fun rows =>
    if rows.length < limit then some rows
    else (all_pages limit page fuel (offset + limit)).map fun rest => rows ++ rest

/-- Pages cut from a list walk through all of it. -/
theorem all_pages_cut (items : List α) {fuel offset : Nat} (enough : items.length < offset + fuel * limit) :
    offset ≤ items.length → all_pages limit (fun offset => some ((items.drop offset).take limit)) fuel offset =
      some (items.drop offset) := by
  intro inside
  induction fuel generalizing offset with
  | zero => omega
  | succ fuel ih =>
    rw [all_pages,Option.bind_some]
    have length : ((items.drop offset).take limit).length = min limit (items.length - offset) := by
      rw [List.length_take,List.length_drop]
    split
    · rename_i short
      have whole : (items.drop offset).length ≤ limit := by
        rw [List.length_drop]
        omega
      rw [List.take_of_length_le whole]
    · rename_i full
      have further : items.length < (offset + limit) + fuel * limit := by
        rw [Nat.succ_mul] at enough
        omega
      rw [ih further (by omega),Option.map_some,← List.drop_drop,List.take_append_drop]

end AetherVault.Lib.OffsetPages
