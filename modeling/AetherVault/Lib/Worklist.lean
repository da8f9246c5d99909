import AetherVault.Lib.Search

/-! Loops that empty a worklist with a visited list while they look for a target, wherever in a turn they compare with it. A loop
whose turns either find the target or take an entry off in one of two ways ends, and tells whether the target is reachable. -/
namespace AetherVault.Lib.Worklist
open Search

variable {α : Type} [DecidableEq α]

/-- A turn that does not find the target. -/
inductive Turn (succ : α → List α) (target : α) : List α → List α → List α → List α → Prop
  | skip {x : α} {rest seen : List α} (idle : x ∈ seen ∨ succ x = []) (other : x ≠ target) : Turn succ target (x::rest) seen rest seen
  | visit {x : α} {rest seen : List α} (fresh : x ∉ seen) (other : x ≠ target) :
      Turn succ target (x::rest) seen ((succ x).reverse ++ rest) (x::seen)

/-- Every edge of a visited node leads to a visited node, to a pending one or to a node without edges. -/
structure Kept (succ : α → List α) (target : α) (stack seen : List α) : Prop where
  unseen : target ∉ seen
  covered : ∀ a ∈ seen, ∀ b ∈ succ a, b ∈ seen ∨ b ∈ stack ∨ (succ b = [] ∧ b ≠ target)

variable {succ : α → List α} {target : α} {stack seen stack' seen' : List α}

omit [DecidableEq α] in
theorem Kept.turn (kept : Kept succ target stack seen) (turn : Turn succ target stack seen stack' seen') : Kept succ target stack' seen' := by
  cases turn with
  | @skip x _ _ idle other =>
    refine ⟨kept.unseen,fun a member b edge => ?_⟩
    rcases kept.covered a member b edge with done | pending | last
    · exact .inl done
    · rcases List.mem_cons.mp pending with rfl | pending
      · exact idle.imp id fun none => .inr ⟨none,other⟩
      · exact .inr (.inl pending)
    · exact .inr (.inr last)
  | @visit x _ _ fresh other =>
    refine ⟨fun member => ?_,fun a member b edge => ?_⟩
    · rcases List.mem_cons.mp member with same | member
      · exact other same.symm
      · exact kept.unseen member
    · rcases List.mem_cons.mp member with rfl | member
      · exact .inr (.inl (List.mem_append_left _ (List.mem_reverse.mpr edge)))
      · rcases kept.covered a member b edge with done | pending | last
        · exact .inl (List.mem_cons_of_mem _ done)
        · rcases List.mem_cons.mp pending with rfl | pending
          · exact .inl List.mem_cons_self
          · exact .inr (.inl (List.mem_append_right _ pending))
        · exact .inr (.inr last)

omit [DecidableEq α] in
theorem not_reach_idle {x : α} (none : succ x = []) (other : x ≠ target) : ¬ Reach succ x target := by
  intro path
  rcases Relation.ReflTransGen.cases_head path with same | ⟨y,edge,-⟩
  · exact other same
  · rw [none] at edge
    exact absurd edge List.not_mem_nil

omit [DecidableEq α] in
/-- A path from a visited node to the target leaves through a pending node. -/
theorem Kept.leaves (kept : Kept succ target stack seen) {x : α} (member : x ∈ seen) (path : Reach succ x target) :
    ∃ y ∈ stack, y ∉ seen ∧ Reach succ y target := by
  induction path using Relation.ReflTransGen.head_induction_on with
  | refl => exact absurd member kept.unseen
  | @head x y edge path ih =>
    by_cases inside : y ∈ seen
    · exact ih inside
    · rcases kept.covered x member y edge with done | pending | last
      · exact absurd done inside
      · exact ⟨y,pending,inside,path⟩
      · exact absurd path (not_reach_idle last.1 last.2)

omit [DecidableEq α] in
/-- A turn changes neither answer. -/
theorem Turn.reach_iff (kept : Kept succ target stack seen) (turn : Turn succ target stack seen stack' seen') :
    (∃ y ∈ stack', Reach succ y target) ↔ ∃ y ∈ stack, Reach succ y target := by
  cases turn with
  | @skip x _ _ idle other =>
    constructor
    · intro found
      obtain ⟨y,member,path⟩ := found
      exact ⟨y,List.mem_cons_of_mem _ member,path⟩
    · intro found
      obtain ⟨y,member,path⟩ := found
      rcases List.mem_cons.mp member with rfl | member
      · rcases idle with old | none
        · obtain ⟨z,pending,unseen,path⟩ := kept.leaves old path
          rcases List.mem_cons.mp pending with rfl | pending
          · exact absurd old unseen
          · exact ⟨z,pending,path⟩
        · exact absurd path (not_reach_idle none other)
      · exact ⟨y,member,path⟩
  | @visit x _ _ fresh other =>
    constructor
    · intro found
      obtain ⟨y,member,path⟩ := found
      rcases List.mem_append.mp member with edge | member
      · exact ⟨x,List.mem_cons_self,.head (List.mem_reverse.mp edge) path⟩
      · exact ⟨y,List.mem_cons_of_mem _ member,path⟩
    · intro found
      obtain ⟨y,member,path⟩ := found
      rcases List.mem_cons.mp member with rfl | member
      · rcases Relation.ReflTransGen.cases_head path with same | ⟨z,edge,path⟩
        · exact absurd same other
        · exact ⟨z,List.mem_append_left _ (List.mem_reverse.mpr edge),path⟩
      · exact ⟨y,List.mem_append_right _ member,path⟩

/-- A turn uses up an entry or the edges of a node. -/
theorem Turn.weight_lt {nodes : List α} (distinct : nodes.Nodup) (finite : ∀ x, x ∉ nodes → succ x = [])
    (turn : Turn succ target stack seen stack' seen') :
    stack'.length + weight succ nodes seen' < stack.length + weight succ nodes seen := by
  cases turn with
  | skip => exact Nat.add_lt_add_right (Nat.lt_succ_self _) _
  | @visit x rest _ fresh other =>
    have expanded := weight_expand succ nodes seen x distinct (finite x) fresh
    rw [List.length_append,List.length_reverse,List.length_cons]
    omega

/-- A loop of such turns answers, given fuel for every pending entry and every edge not yet followed. -/
theorem decides {loop : Nat → List α → List α → Option Bool} {Fit : List α → List α → Prop} {nodes : List α} (distinct : nodes.Nodup)
    (finite : ∀ x, x ∉ nodes → succ x = []) (stops : ∀ fuel seen, loop fuel [] seen = some false)
    (turns : ∀ fuel x rest seen, Fit (x::rest) seen → target ∉ seen → loop (fuel + 1) (x::rest) seen = some true ∧ Reach succ x target ∨
      ∃ stack' seen', Turn succ target (x::rest) seen stack' seen' ∧ Fit stack' seen' ∧
        loop (fuel + 1) (x::rest) seen = loop fuel stack' seen')
    (fuel : Nat) (stack seen : List α) (fit : Fit stack seen) (kept : Kept succ target stack seen)
    (enough : stack.length + weight succ nodes seen ≤ fuel) :
    ∃ answer, loop fuel stack seen = some answer ∧ (answer = true ↔ ∃ y ∈ stack, Reach succ y target) := by
  induction fuel generalizing stack seen with
  | zero =>
    have empty : stack = [] := List.length_eq_zero_iff.mp (by omega)
    rw [empty,stops]
    exact ⟨false,rfl,by simp⟩
  | succ fuel ih =>
    cases stack with
    | nil =>
      rw [stops]
      exact ⟨false,rfl,by simp⟩
    | cons x rest =>
      rcases turns fuel x rest seen fit kept.unseen with ⟨found,path⟩ | ⟨stack',seen',turn,fit',goes_on⟩
      · exact ⟨true,found,fun _ => ⟨x,List.mem_cons_self,path⟩,fun _ => rfl⟩
      · have less := turn.weight_lt distinct finite
        rw [goes_on,← turn.reach_iff kept]
        exact ih stack' seen' fit' (kept.turn turn) (by omega)

end AetherVault.Lib.Worklist
