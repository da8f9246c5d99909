import AetherVault.Lib.BreadthFirst
import AetherVault.MergeHistory

/-! What `find_merge_base` finds in any history: the common ancestor that comes first when the ancestors
of the other side are listed generation by generation, and when that one is a best common ancestor. -/
namespace AetherVault.MergeBase
open Lib Lib.BreadthFirst

variable {H : Type} [DecidableEq H]

def Ancestor (commits : Dict H (CommitData H)) (c h : H) : Prop := Search.Reach (parents_of commits) h c

def Common (commits : Dict H (CommitData H)) (ours theirs c : H) : Prop := Ancestor commits c ours ∧ Ancestor commits c theirs

structure BestBase (commits : Dict H (CommitData H)) (ours theirs : H) : Prop where
  none_iff : find_merge_base commits ours theirs = none ↔ ∀ c, ¬ Common commits ours theirs c
  common : ∀ base, find_merge_base commits ours theirs = some base → Common commits ours theirs base
  best : ∀ base, find_merge_base commits ours theirs = some base → ∀ c, Common commits ours theirs c → c ≠ base →
    ¬ Ancestor commits base c
  ours_older : Ancestor commits ours theirs → find_merge_base commits ours theirs = some ours
  theirs_older : Ancestor commits theirs ours → find_merge_base commits ours theirs = some theirs

/-- The ancestors of a commit in generation order: itself, its parents, their parents and so on, each
as often as lines of parents lead to it. -/
def ancestor_order (commits : Dict H (CommitData H)) (h : H) (n : Nat) : List H := generations (parents_of commits) n [h]

/-- A common ancestor older than another one is never the first that their side meets. -/
def MetLater (commits : Dict H (CommitData H)) (ours theirs : H) : Prop :=
  ∀ old new, Common commits ours theirs old → Common commits ours theirs new → new ≠ old → Ancestor commits old new →
    ∃ n, ∃ c ∈ (ancestor_order commits theirs n).takeWhile (· ≠ old), Common commits ours theirs c

variable {commits : Dict H (CommitData H)} {ours theirs : H}

/-- The first walk: everything our side reaches. -/
def ours_ancestors (commits : Dict H (CommitData H)) (ours h : H) : Bool :=
  h ∈ Search.search (parents_of commits) (walk_fuel commits) [ours] []

theorem ours_ancestors_iff (h : H) : ours_ancestors commits ours h = true ↔ Ancestor commits h ours := by
  rw [ours_ancestors,decide_eq_true_iff]
  exact ancestors_iff commits ours h

theorem nearest_first (parents : H → List H) (sides : List H) (fuel : Nat) (queue visited : List H) :
    nearest parents sides fuel queue visited = first parents (fun h => h ∈ sides) fuel queue visited := by
  induction fuel generalizing queue visited with
  | zero => rfl
  | succ fuel ih =>
    cases queue with
    | nil => rfl
    | cons h rest => simp only [nearest,first,ih,decide_eq_true_eq]

theorem find_merge_base_first (commits : Dict H (CommitData H)) (ours theirs : H) : find_merge_base commits ours theirs =
    first (parents_of commits) (ours_ancestors commits ours) (walk_fuel commits) [theirs] [] :=
  nearest_first _ _ _ _ _

theorem walk_fuel_enough (commits : Dict H (CommitData H)) (h : H) :
    [h].length + Search.weight (parents_of commits) commits.keys [] ≤ walk_fuel commits :=
  Nat.le_refl _

theorem no_base_iff : find_merge_base commits ours theirs = none ↔ ∀ c, ¬ Common commits ours theirs c := by
  rw [find_merge_base_first,first_none_iff commits.distinct (parents_of_absent commits) (walk_fuel_enough commits theirs)]
  constructor
  · intro missed c common
    have apart := missed theirs List.mem_cons_self c common.2
    rw [(ours_ancestors_iff c).mpr common.1] at apart
    contradiction
  · intro apart h member c path
    rw [List.mem_singleton.mp member] at path
    have other : ¬ ours_ancestors commits ours c = true := fun mine => apart c ⟨(ours_ancestors_iff c).mp mine,path⟩
    simpa using other

theorem base_iff (base : H) : find_merge_base commits ours theirs = some base ↔
    ∃ n, (ancestor_order commits theirs n).find? (ours_ancestors commits ours) = some base := by
  rw [find_merge_base_first]
  exact first_some_iff commits.distinct (parents_of_absent commits) (walk_fuel_enough commits theirs) base

theorem base_common {base : H} (found : find_merge_base commits ours theirs = some base) : Common commits ours theirs base := by
  obtain ⟨n,hit⟩ := (base_iff base).mp found
  obtain ⟨h,member,path⟩ := generations_reach (List.mem_of_find?_eq_some hit)
  exact ⟨(ours_ancestors_iff base).mp (List.find?_some hit),List.mem_singleton.mp member ▸ path⟩

/-- Their side meets the base before any other common ancestor. -/
theorem base_ahead {base c : H} (found : find_merge_base commits ours theirs = some base) (common : Common commits ours theirs c)
    (other : c ≠ base) : ∃ n, ∃ e ∈ (ancestor_order commits theirs n).takeWhile (· ≠ c), Common commits ours theirs e := by
  obtain ⟨n,hit⟩ := (base_iff base).mp found
  exact ⟨n,base,hit_before hit ((ours_ancestors_iff c).mpr common.1) other,base_common found⟩

theorem base_first {base : H} (found : find_merge_base commits ours theirs = some base) {n : Nat} {c : H}
    (before : c ∈ (ancestor_order commits theirs n).takeWhile (· ≠ base)) : ¬ Common commits ours theirs c := by
  intro common
  have mine := (ours_ancestors_iff c).mpr common.1
  obtain ⟨m,hit⟩ := (base_iff base).mp found
  obtain ⟨met,here⟩ : ∃ met, (ancestor_order commits theirs n).find? (ours_ancestors commits ours) = some met := by
    apply Option.isSome_iff_exists.mp
    exact List.find?_isSome.mpr ⟨c,(List.takeWhile_prefix _).subset before,mine⟩
  obtain rfl : met = base := generations_hit here hit
  rw [before_hit here before] at mine
  contradiction

theorem theirs_base (older : Ancestor commits theirs ours) : find_merge_base commits ours theirs = some theirs := by
  apply (base_iff theirs).mpr
  refine ⟨1,?_⟩
  rw [ancestor_order,generations,List.cons_append,List.find?_cons_of_pos ((ours_ancestors_iff theirs).mpr older)]

/-- In every history, with merges, criss-crosses and missing commits. -/
theorem best_base_iff (commits : Dict H (CommitData H)) (ours theirs : H) :
    BestBase commits ours theirs ↔ MetLater commits ours theirs := by
  constructor
  · intro base old new older newer apart path
    cases found : find_merge_base commits ours theirs with
    | none => exact absurd older (no_base_iff.mp found old)
    | some met =>
      apply base_ahead found older
      intro same
      exact base.best met found new newer (fun same' => apart (same'.trans same.symm)) (same ▸ path)
  · intro later
    have best {base c : H} (found : find_merge_base commits ours theirs = some base) (common : Common commits ours theirs c)
        (apart : c ≠ base) : ¬ Ancestor commits base c := by
      intro path
      obtain ⟨n,e,before,met⟩ := later base c (base_common found) common apart path
      exact base_first found before met
    constructor
    · exact no_base_iff
    · exact fun base found => base_common found
    · exact fun base found c common apart => best found common apart
    · intro older
      have common : Common commits ours theirs ours := ⟨.refl,older⟩
      cases found : find_merge_base commits ours theirs with
      | none => exact absurd common (no_base_iff.mp found ours)
      | some base =>
        by_cases same : ours = base
        · rw [same]
        · exact absurd (base_common found).1 (best found common same)
    · exact theirs_base

/-! `av merge --no-ff feature` on a branch still at commit 0, where `feature` has 1 and then 2, makes the
merge commit 3. A branch at 1 merges 3. -/

def commit (parents : List Nat) : CommitData Nat := ⟨parents,"",0,∅⟩

def unforwarded : Dict Nat (CommitData Nat) := Dict.ofList [(0,commit []),(1,commit [0]),(2,commit [1]),(3,commit [0,2])]

/-- The branch could be put forward to 3, but the base is 0: the merge commit names it as a parent. -/
theorem old_parent_met_first : find_merge_base unforwarded 1 3 = some 0 ∧ Ancestor unforwarded 1 3 ∧ ¬ BestBase unforwarded 1 3 := by
  have found : find_merge_base unforwarded 1 3 = some 0 := by decide +kernel
  have older : Ancestor unforwarded 1 3 := .head (b := 2) (by decide +kernel) (.single (by decide +kernel))
  exact ⟨found,older,fun base => absurd (found.symm.trans (base.ours_older older)) (by decide)⟩

end AetherVault.MergeBase
