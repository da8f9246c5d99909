import Mathlib.Logic.Relation
import Mathlib.Data.List.Nodup
import Mathlib.Tactic.Linarith

/-! Worklist search over a graph given by successor lists, with a visited list and
explicit fuel. With fuel for every edge it visits exactly what is reachable, on
any graph: cycles, dangling edges and shared nodes included. -/
namespace AetherVault.Lib.Search

variable {α : Type} [DecidableEq α]

/-- Pops the newest entry first; a visited node is skipped, a new one is expanded. -/
def search (succ : α → List α) : Nat → List α → List α → List α
  | 0,_,seen => seen
  | _+1,[],seen => seen
  | fuel+1,x::rest,seen =>
    if x ∈ seen then search succ fuel rest seen
    else search succ fuel ((succ x).reverse ++ rest) (x::seen)

/-- The same walk, ending at once when the target is popped. -/
def reaches (succ : α → List α) (target : α) : Nat → List α → List α → Bool
  | 0,_,_ => false
  | _+1,[],_ => false
  | fuel+1,x::rest,seen =>
    if x = target then true
    else if x ∈ seen then reaches succ target fuel rest seen
    else reaches succ target fuel ((succ x).reverse ++ rest) (x::seen)

def Reach (succ : α → List α) (a b : α) : Prop := Relation.ReflTransGen (fun x y => y ∈ succ x) a b

/-- The edges that leave nodes not yet visited. -/
def weight (succ : α → List α) (nodes seen : List α) : Nat :=
  ((nodes.filter (fun x => decide (x ∉ seen))).map (fun x => (succ x).length)).sum

/-- Every edge of a visited node leads to a visited node or to a pending one. -/
def Closed (succ : α → List α) (stack seen : List α) : Prop :=
  ∀ a ∈ seen, ∀ b ∈ succ a, b ∈ seen ∨ b ∈ stack

theorem weight_visit_absent (succ : α → List α) (nodes seen : List α) (x : α) (absent : x ∉ nodes) :
    weight succ nodes (x::seen) = weight succ nodes seen := by
  unfold weight
  congr 2
  apply List.filter_congr
  intro y member
  have differ : y ≠ x := fun same => absent (same ▸ member)
  simp [differ]

theorem weight_cons_old (succ : α → List α) (nodes seen : List α) (n : α) (old : n ∈ seen) :
    weight succ (n::nodes) seen = weight succ nodes seen := by simp [weight,old]

theorem weight_cons_new (succ : α → List α) (nodes seen : List α) (n : α) (fresh : n ∉ seen) :
    weight succ (n::nodes) seen = (succ n).length + weight succ nodes seen := by simp [weight,fresh]

theorem weight_visit (succ : α → List α) (nodes seen : List α) (x : α) (distinct : nodes.Nodup)
    (member : x ∈ nodes) (fresh : x ∉ seen) :
    weight succ nodes (x::seen) + (succ x).length = weight succ nodes seen := by
  induction nodes with
  | nil => simp at member
  | cons n rest ih =>
    obtain ⟨absent,tail⟩ := List.nodup_cons.mp distinct
    by_cases same : n = x
    · subst n
      rw [weight_cons_old succ rest (x::seen) x (by simp),weight_cons_new succ rest seen x fresh,
        weight_visit_absent succ rest seen x absent,Nat.add_comm]
    · have step := ih tail (by simpa [Ne.symm same] using member)
      by_cases old : n ∈ seen
      · rw [weight_cons_old succ rest (x::seen) n (by simp [old]),weight_cons_old succ rest seen n old]
        exact step
      · rw [weight_cons_new succ rest (x::seen) n (by simp [old,same]),weight_cons_new succ rest seen n old]
        omega

/-- What visiting a new node adds to the pending entries is taken off the weight. -/
theorem weight_expand (succ : α → List α) (nodes seen : List α) (x : α) (distinct : nodes.Nodup)
    (finite : x ∉ nodes → succ x = []) (fresh : x ∉ seen) :
    weight succ nodes (x::seen) + (succ x).length = weight succ nodes seen := by
  by_cases inside : x ∈ nodes
  · exact weight_visit succ nodes seen x distinct inside fresh
  · rw [weight_visit_absent succ nodes seen x inside,finite inside]
    rfl

theorem weight_le (succ : α → List α) (nodes seen : List α) :
    weight succ nodes seen ≤ (nodes.map fun x => (succ x).length).sum := by
  induction nodes with
  | nil => simp [weight]
  | cons n rest ih =>
    rw [List.map_cons,List.sum_cons]
    by_cases old : n ∈ seen
    · rw [weight_cons_old succ rest seen n old]
      omega
    · rw [weight_cons_new succ rest seen n old]
      omega

theorem seen_subset_search (succ : α → List α) (fuel : Nat) (stack seen : List α) :
    seen ⊆ search succ fuel stack seen := by
  induction fuel generalizing stack seen with
  | zero => exact List.Subset.refl _
  | succ fuel ih =>
    cases stack with
    | nil => exact List.Subset.refl _
    | cons x rest =>
      simp only [search]
      split
      · exact ih _ _
      · exact fun y member => ih _ _ (List.mem_cons_of_mem x member)

theorem search_sound (succ : α → List α) (fuel : Nat) (stack seen : List α) (x : α)
    (found : x ∈ search succ fuel stack seen) : x ∈ seen ∨ ∃ y ∈ stack, Reach succ y x := by
  induction fuel generalizing stack seen with
  | zero => exact Or.inl found
  | succ fuel ih =>
    cases stack with
    | nil => exact Or.inl found
    | cons top rest =>
      simp only [search] at found
      split at found
      · rcases ih _ _ found with old | ⟨y,member,path⟩
        · exact Or.inl old
        · exact Or.inr ⟨y,List.mem_cons_of_mem _ member,path⟩
      · rcases ih _ _ found with old | ⟨y,member,path⟩
        · rcases List.mem_cons.mp old with rfl | old
          · exact Or.inr ⟨x,by simp,.refl⟩
          · exact Or.inl old
        · rcases List.mem_append.mp member with edge | member
          · exact Or.inr ⟨top,by simp,.head (List.mem_reverse.mp edge) path⟩
          · exact Or.inr ⟨y,List.mem_cons_of_mem _ member,path⟩

theorem search_complete (succ : α → List α) (nodes : List α) (distinct : nodes.Nodup)
    (finite : ∀ x, x ∉ nodes → succ x = []) (fuel : Nat) (stack seen : List α)
    (enough : stack.length + weight succ nodes seen ≤ fuel) (closed : Closed succ stack seen) :
    stack ⊆ search succ fuel stack seen ∧ Closed succ [] (search succ fuel stack seen) := by
  induction fuel generalizing stack seen with
  | zero =>
    have none : stack = [] := List.length_eq_zero_iff.mp (by omega)
    subst none
    exact ⟨List.nil_subset _,closed⟩
  | succ fuel ih =>
    cases stack with
    | nil => exact ⟨List.nil_subset _,closed⟩
    | cons top rest =>
      simp only [search]
      simp only [List.length_cons] at enough
      split
      · rename_i old
        have next : Closed succ rest seen := by
          intro a member b edge
          rcases closed a member b edge with done | pending
          · exact Or.inl done
          · rcases List.mem_cons.mp pending with rfl | pending
            · exact Or.inl old
            · exact Or.inr pending
        obtain ⟨visited,final⟩ := ih rest seen (by omega) next
        refine ⟨?_,final⟩
        intro y member
        rcases List.mem_cons.mp member with rfl | member
        · exact seen_subset_search _ _ _ _ old
        · exact visited member
      · rename_i fresh
        have bound : ((succ top).reverse ++ rest).length + weight succ nodes (top::seen) ≤ fuel := by
          have expanded := weight_expand succ nodes seen top distinct (finite top) fresh
          simp only [List.length_append,List.length_reverse]
          omega
        have next : Closed succ ((succ top).reverse ++ rest) (top::seen) := by
          intro a member b edge
          rcases List.mem_cons.mp member with rfl | member
          · exact Or.inr (List.mem_append_left _ (List.mem_reverse.mpr edge))
          · rcases closed a member b edge with done | pending
            · exact Or.inl (List.mem_cons_of_mem _ done)
            · rcases List.mem_cons.mp pending with rfl | pending
              · exact Or.inl (by simp)
              · exact Or.inr (List.mem_append_right _ pending)
        obtain ⟨visited,final⟩ := ih _ _ bound next
        refine ⟨?_,final⟩
        intro y member
        rcases List.mem_cons.mp member with rfl | member
        · exact seen_subset_search _ _ _ _ (by simp)
        · exact visited (List.mem_append_right _ member)

omit [DecidableEq α] in
theorem closed_reach (succ : α → List α) (seen : List α) (closed : Closed succ [] seen) (a b : α)
    (inside : a ∈ seen) (path : Reach succ a b) : b ∈ seen := by
  induction path with
  | refl => exact inside
  | tail _ edge ih =>
    rcases closed _ ih _ edge with done | pending
    · exact done
    · simp at pending

/-- With fuel for every pending entry and every unvisited edge, the search visits
exactly what was visited before and what is reachable from the stack. -/
theorem mem_search (succ : α → List α) (nodes : List α) (distinct : nodes.Nodup)
    (finite : ∀ x, x ∉ nodes → succ x = []) (fuel : Nat) (stack seen : List α)
    (enough : stack.length + weight succ nodes seen ≤ fuel) (closed : Closed succ stack seen) (x : α) :
    x ∈ search succ fuel stack seen ↔ x ∈ seen ∨ ∃ y ∈ stack, Reach succ y x := by
  obtain ⟨visited,final⟩ := search_complete succ nodes distinct finite fuel stack seen enough closed
  constructor
  · exact search_sound succ fuel stack seen x
  · rintro (old | ⟨y,member,path⟩)
    · exact seen_subset_search _ _ _ _ old
    · exact closed_reach succ _ final y x (visited member) path

theorem reaches_eq (succ : α → List α) (target : α) (fuel : Nat) (stack seen : List α)
    (fresh : target ∉ seen) : reaches succ target fuel stack seen = true ↔ target ∈ search succ fuel stack seen := by
  induction fuel generalizing stack seen with
  | zero => simp [reaches,search,fresh]
  | succ fuel ih =>
    cases stack with
    | nil => simp [reaches,search,fresh]
    | cons top rest =>
      by_cases hit : top = target
      · subst top
        have now : target ∈ search succ fuel ((succ target).reverse ++ rest) (target::seen) :=
          seen_subset_search _ _ _ _ (by simp)
        simp [reaches,search,fresh,now]
      · by_cases old : top ∈ seen
        · simpa [reaches,search,hit,old] using ih rest seen fresh
        · simpa [reaches,search,hit,old] using ih _ (top::seen) (by simp [fresh,Ne.symm hit])

theorem reaches_iff (succ : α → List α) (nodes : List α) (distinct : nodes.Nodup)
    (finite : ∀ x, x ∉ nodes → succ x = []) (target : α) (fuel : Nat) (stack : List α)
    (enough : stack.length + weight succ nodes [] ≤ fuel) :
    reaches succ target fuel stack [] = true ↔ ∃ y ∈ stack, Reach succ y target := by
  rw [reaches_eq succ target fuel stack [] (by simp),
    mem_search succ nodes distinct finite fuel stack [] enough (by intro a member; simp at member)]
  simp

/-! Two graphs that agree on a set of nodes that no edge leaves. -/

section Agree

variable {succ succ' : α → List α} {known : α → Prop}

omit [DecidableEq α] in
theorem reach_known (closed : ∀ a, known a → ∀ b ∈ succ a, known b) {a b : α} (start : known a) (path : Reach succ a b) : known b := by
  induction path with
  | refl => exact start
  | tail _ edge ih => exact closed _ ih _ edge

omit [DecidableEq α] in
theorem reach_agrees (same : ∀ a, known a → succ' a = succ a) (closed : ∀ a, known a → ∀ b ∈ succ a, known b) {a b : α}
    (start : known a) : Reach succ' a b ↔ Reach succ a b := by
  constructor
  · intro path
    suffices both : Reach succ a b ∧ known b from both.1
    induction path with
    | refl => exact ⟨.refl,start⟩
    | tail _ edge ih =>
      rw [same _ ih.2] at edge
      exact ⟨ih.1.tail edge,closed _ ih.2 _ edge⟩
  · intro path
    induction path with
    | refl => exact .refl
    | tail before edge ih =>
      rw [← same _ (reach_known closed start before)] at edge
      exact ih.tail edge

end Agree

end AetherVault.Lib.Search
