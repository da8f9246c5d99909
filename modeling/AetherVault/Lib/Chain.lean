import AetherVault.Lib.Search

/-! A walk down the first successor of each node that ends at a node it stops at, and
what a store that is closed under successors holds after it. -/
namespace AetherVault.Lib.Chain
open Search

variable {α : Type} {succ : α → List α} {stop : α → Prop}

/-- From `tip` to a node by first successors, past nodes that do not stop the walk. -/
def On (succ : α → List α) (stop : α → Prop) (tip a : α) : Prop :=
  Relation.ReflTransGen (fun x y => ¬stop x ∧ (succ x).head? = some y) tip a

def Passed (succ : α → List α) (stop : α → Prop) (tip a : α) : Prop := On succ stop tip a ∧ ¬stop a

def Joins (succ : α → List α) (stop : α → Prop) (tip : α) : Prop := ∃ a, On succ stop tip a ∧ stop a

def Acyclic (succ : α → List α) : Prop := ∀ a b, b ∈ succ a → ¬Reach succ b a

theorem acyclic_of_rank (rank : α → Nat) (drops : ∀ a b, b ∈ succ a → rank b < rank a) : Acyclic succ := by
  have lower (a b : α) (path : Reach succ a b) : rank b ≤ rank a := by
    induction path with
    | refl => exact Nat.le_refl _
    | tail _ edge ih => exact Nat.le_trans (Nat.le_of_lt (drops _ _ edge)) ih
  intro a b edge back
  exact Nat.lt_irrefl _ (Nat.lt_of_lt_of_le (drops a b edge) (lower b a back))

theorem Acyclic.antisymm (acyclic : Acyclic succ) {a b : α} (there : Reach succ a b) (back : Reach succ b a) : a = b := by
  rcases Relation.ReflTransGen.cases_head there with same | ⟨c,edge,rest⟩
  · exact same
  · exact absurd (rest.trans back) (acyclic a c edge)

def ClosedStore (succ : α → List α) (store : α → Prop) : Prop := ∀ a, store a → ∀ b ∈ succ a, store b

theorem ClosedStore.reach {store : α → Prop} (closed : ClosedStore succ store) {a b : α} (held : store a)
    (path : Reach succ a b) : store b := reach_known closed held path

theorem On.reach {tip a : α} (on : On succ stop tip a) : Reach succ tip a := by
  induction on with
  | refl => exact .refl
  | tail _ edge ih => exact ih.tail (List.mem_of_head? edge.2)

theorem On.next {tip a b : α} (on : On succ stop tip a) (past : ¬stop a) (first : (succ a).head? = some b) :
    On succ stop tip b := on.tail ⟨past,first⟩

theorem On.stopped {tip a : α} (on : On succ stop tip a) (stops : stop tip) : a = tip := by
  rcases Relation.ReflTransGen.cases_head on with same | ⟨b,edge,-⟩
  · exact same.symm
  · exact absurd stops edge.1

theorem On.onward {tip a : α} (on : On succ stop tip a) :
    a = tip ∨ ∃ b, (succ tip).head? = some b ∧ On succ stop b a := by
  rcases Relation.ReflTransGen.cases_head on with same | ⟨b,edge,rest⟩
  · exact Or.inl same.symm
  · exact Or.inr ⟨b,edge.2,rest⟩

/-- A closed store that takes in the nodes passed holds all that the tip reaches,
exactly when it holds or takes in every successor of those nodes. -/
theorem reached_held_iff {held : α → Prop} {tip : α} (closed : ClosedStore succ held)
    (taken : held tip ∨ Passed succ stop tip tip) :
    (∀ a, Reach succ tip a → held a ∨ Passed succ stop tip a) ↔
      ∀ a, Passed succ stop tip a → ∀ b ∈ succ a, held b ∨ Passed succ stop tip b := by
  constructor
  · intro all a passed b edge
    exact all b (passed.1.reach.tail edge)
  · intro plain a path
    have whole : ClosedStore succ fun a => held a ∨ Passed succ stop tip a := by
      intro x known y edge
      rcases known with old | passed
      · exact Or.inl (closed x old y edge)
      · exact plain x passed y edge
    exact whole.reach taken path

end AetherVault.Lib.Chain
