import Mathlib.Data.List.Basic

/-! Cutting a list into pieces as it is read. A cut may depend on the piece so far and on how much is left, and on
nothing else: the pieces are the list, and what follows a cut is cut as if nothing came before it. -/
namespace AetherVault.Lib.Chunking

variable {α : Type*}

/-- `run` is the part of the current piece that was read already. -/
def split (cuts : List α → Nat → Bool) (run : List α) : List α → List (List α)
  | [] => [run]
  | a::rest => if cuts (run ++ [a]) rest.length then (run ++ [a])::split cuts [] rest else split cuts (run ++ [a]) rest

/-- Where the pieces end, the first of them beginning at `start`. -/
def ends (start : Nat) : List (List α) → List Nat
  | [] => []
  | piece::rest => (start+piece.length)::ends (start+piece.length) rest

variable {cuts : List α → Nat → Bool}

theorem split_flatten (cuts : List α → Nat → Bool) (run rest : List α) : (split cuts run rest).flatten = run ++ rest := by
  induction rest generalizing run with
  | nil => simp [split]
  | cons a rest ih =>
    rw [split]
    split <;> simp [ih]

theorem mem_ends {start q : Nat} {pieces : List (List α)} :
    q ∈ ends start pieces ↔ ∃ before piece after, pieces = before ++ piece::after ∧
      q = start+before.flatten.length+piece.length := by
  induction pieces generalizing start with
  | nil => simp [ends]
  | cons first rest ih =>
    rw [ends,List.mem_cons,ih]
    constructor
    · intro found
      rcases found with here | later
      · exact ⟨[],first,rest,rfl,by simp [here]⟩
      · obtain ⟨before,piece,after,shape,place⟩ := later
        refine ⟨first::before,piece,after,by simp [shape],?_⟩
        simp [place]
        omega
    · intro found
      obtain ⟨before,piece,after,shape,place⟩ := found
      cases before with
      | nil =>
        obtain ⟨rfl,rfl⟩ := List.cons.inj shape
        exact Or.inl (by simpa using place)
      | cons head before =>
        obtain ⟨rfl,rfl⟩ := List.cons.inj shape
        refine Or.inr ⟨before,piece,after,rfl,?_⟩
        simp only [List.flatten_cons,List.length_append] at place
        omega

/-! What ends a piece. -/

/-- No cut falls in `piece` before its last element, when `left` follow it. -/
def Uncut (cuts : List α → Nat → Bool) (piece : List α) (left : Nat) : Prop :=
  ∀ k, 0 < k → k < piece.length → cuts (piece.take k) (piece.length-k+left) = false

theorem Uncut.snoc {run : List α} {a : α} {left : Nat} (uncut : Uncut cuts run (left+1))
    (last : run = [] ∨ cuts run (left+1) = false) : Uncut cuts (run ++ [a]) left := by
  intro k positive inside
  have bound : k ≤ run.length := by simpa [Nat.lt_succ_iff] using inside
  have left' : (run ++ [a]).length-k+left = run.length-k+(left+1) := by
    simp only [List.length_append,List.length_singleton]
    omega
  rw [List.take_append_of_le_length bound,left']
  rcases Nat.lt_or_eq_of_le bound with before | same
  · exact uncut k positive before
  · subst same
    rcases last with empty | kept
    · simp [empty] at positive
    · simpa using kept

/-- Every piece but the last ends at a cut, and no piece has a cut inside. -/
theorem split_piece {run rest : List α} (uncut : Uncut cuts run rest.length) (open_end : run = [] ∨ cuts run rest.length = false)
    {before after : List (List α)} {piece : List α} (shape : split cuts run rest = before ++ piece::after) :
    Uncut cuts piece after.flatten.length ∧ (after = [] ∨ cuts piece after.flatten.length = true) := by
  induction rest generalizing run before with
  | nil =>
    cases before with
    | nil =>
      obtain ⟨rfl,rfl⟩ := List.cons.inj shape
      exact ⟨uncut,Or.inl rfl⟩
    | cons first before => simp [split] at shape
  | cons a rest ih =>
    have grown : Uncut cuts (run ++ [a]) rest.length := uncut.snoc open_end
    rw [split] at shape
    split at shape
    · rename_i cut
      cases before with
      | nil =>
        obtain ⟨rfl,rfl⟩ := List.cons.inj shape
        have follows : (split cuts [] rest).flatten.length = rest.length := by simp [split_flatten]
        rw [follows]
        exact ⟨grown,Or.inr cut⟩
      | cons first before =>
        obtain ⟨-,later⟩ := List.cons.inj shape
        exact ih (by intro k _ inside; simp at inside) (Or.inl rfl) later
    · rename_i kept
      exact ih grown (Or.inr (by simpa using kept)) shape

theorem split_pieces {content : List α} {before after : List (List α)} {piece : List α}
    (shape : split cuts [] content = before ++ piece::after) :
    Uncut cuts piece after.flatten.length ∧ (after = [] ∨ cuts piece after.flatten.length = true) :=
  split_piece (by intro k _ inside; simp at inside) (Or.inl rfl) shape

/-- A piece is empty only if there is nothing to cut. -/
theorem split_positive (stops : ∀ run, cuts run 0 = false) {run rest : List α} (some_left : run ++ rest ≠ [])
    {piece : List α} (member : piece ∈ split cuts run rest) : piece ≠ [] := by
  induction rest generalizing run with
  | nil =>
    rw [split,List.mem_singleton] at member
    subst member
    simpa using some_left
  | cons a rest ih =>
    rw [split] at member
    split at member
    · rename_i cut
      have more : rest ≠ [] := by
        intro empty
        rw [empty,List.length_nil,stops] at cut
        contradiction
      rcases List.mem_cons.mp member with rfl | later
      · simp
      · exact ih (by simpa using more) later
    · exact ih (by simp) member

/-! Locality: behind a cut nothing before it counts. -/

theorem split_behind {run rest : List α} {before after : List (List α)} (inside : before ≠ []) (more : after ≠ [])
    (shape : split cuts run rest = before ++ after) : after = split cuts [] after.flatten := by
  induction rest generalizing run before with
  | nil =>
    have count := congrArg List.length shape
    have positive := List.length_pos_iff.mpr inside
    have positive' := List.length_pos_iff.mpr more
    simp only [split,List.length_singleton,List.length_append] at count
    omega
  | cons a rest ih =>
    rw [split] at shape
    split at shape
    · cases before with
      | nil => contradiction
      | cons first before =>
        obtain ⟨-,later⟩ := List.cons.inj shape
        by_cases last : before = []
        · subst last
          have rest_only : split cuts [] rest = after := later
          rw [← rest_only,split_flatten,List.nil_append]
        · exact ih last later
    · exact ih inside shape

theorem ends_from {run rest : List α} {start q : Nat} (member : q ∈ ends start (split cuts run rest)) :
    start+run.length ≤ q ∧ (rest ≠ [] → start+run.length < q) := by
  induction rest generalizing run start with
  | nil =>
    simp only [split,ends,List.mem_singleton] at member
    exact ⟨by omega,fun more => absurd rfl more⟩
  | cons a rest ih =>
    rw [split] at member
    split at member
    · rw [ends,List.mem_cons,List.length_append,List.length_singleton] at member
      rcases member with here | later
      · exact ⟨by omega,fun _ => by omega⟩
      · have bound := (ih later).1
        exact ⟨by omega,fun _ => by omega⟩
    · have bound := (ih member).1
      rw [List.length_append,List.length_singleton] at bound
      exact ⟨by omega,fun _ => by omega⟩

/-- Two lists with a common beginning are cut alike in it, when the rule does not tell apart the lengths left. -/
theorem split_common {reach : Nat} (alike : ∀ run left other, reach < left → reach < other → cuts run left = cuts run other)
    {run common first second : List α} (long : reach < first.length) (long' : reach < second.length) {start q : Nat}
    (near : q ≤ start+run.length+common.length) :
    q ∈ ends start (split cuts run (common ++ first)) ↔ q ∈ ends start (split cuts run (common ++ second)) := by
  induction common generalizing run start with
  | nil =>
    have beyond {rest : List α} (more : reach < rest.length) (member : q ∈ ends start (split cuts run rest)) : False := by
      have bound := (ends_from member).2 (by intro empty; simp [empty] at more)
      rw [List.length_nil] at near
      omega
    exact ⟨fun member => (beyond long member).elim,fun member => (beyond long' member).elim⟩
  | cons a common ih =>
    have same : cuts (run ++ [a]) (common ++ first).length = cuts (run ++ [a]) (common ++ second).length :=
      alike _ _ _ (by rw [List.length_append]; omega) (by rw [List.length_append]; omega)
    simp only [List.cons_append,split,← same]
    rw [List.length_cons] at near
    split
    · rw [ends,ends,List.mem_cons,List.mem_cons,ih (by simp only [List.length_append,List.length_singleton,List.length_nil]; omega)]
    · exact ih (by simp only [List.length_append,List.length_singleton]; omega)

end AetherVault.Lib.Chunking
