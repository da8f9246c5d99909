import AetherVault.Lib.PyString
import Mathlib.Data.List.Infix
import Mathlib.Data.List.Forall2

/-! Paths and globs as lists of components: where the components of a path lead, and when a match of the whole spelling is one
of the components. -/
namespace AetherVault.Lib.GlobPath
open PyString

section Paths

variable {α : Type} (here up : α → Bool)

/-- From a directory on, a component at a time: one that stays, one that goes up, or one that goes into a directory. -/
def resolve (base components : List α) : List α :=
  components.foldl (fun place c => if here c then place else if up c then place.dropLast else place ++ [c]) base

theorem mem_resolve {base components : List α} {c : α} (member : c ∈ resolve here up base components) : c ∈ base ∨ c ∈ components := by
  induction components generalizing base with
  | nil => exact .inl member
  | cons first rest ih =>
    rcases ih member with placed | later
    · dsimp only at placed
      split at placed
      · exact .inl placed
      · split at placed
        · exact .inl (List.mem_of_mem_dropLast placed)
        · rcases List.mem_append.mp placed with placed | last
          · exact .inl placed
          · rw [List.mem_singleton.mp last]
            exact .inr List.mem_cons_self
    · exact .inr (List.mem_cons_of_mem _ later)

/-- A separator before every component. -/
def spelled (sep : α) (components : List (List α)) : List α := components.flatMap fun c => sep::c

theorem spelled_cons (sep : α) (c : List α) (components : List (List α)) :
    spelled sep (c::components) = sep::(c ++ spelled sep components) := rfl

theorem mem_splitOnP {p : α → Bool} {xs piece : List α} (member : piece ∈ xs.splitOnP p) : ∀ x ∈ piece, p x = false := by
  induction xs generalizing piece with
  | nil =>
    rw [List.splitOnP_nil,List.mem_singleton] at member
    rw [member]
    exact fun x inside => absurd inside List.not_mem_nil
  | cons first rest ih =>
    rw [List.splitOnP_cons_eq_if_modifyHead] at member
    split at member
    · rcases List.mem_cons.mp member with rfl | later
      · exact fun x inside => absurd inside List.not_mem_nil
      · exact ih later
    · rename_i apart
      cases pieces : rest.splitOnP p with
      | nil => exact absurd pieces (List.splitOnP_ne_nil p rest)
      | cons head tail =>
        rw [pieces,List.modifyHead_cons] at member
        rcases List.mem_cons.mp member with rfl | later
        · intro x inside
          rcases List.mem_cons.mp inside with rfl | inside
          · exact Bool.eq_false_iff.mpr apart
          · exact ih (pieces ▸ List.mem_cons_self) x inside
        · exact ih (pieces ▸ List.mem_cons_of_mem _ later)

end Paths

def is_slash : Glob → Bool
  | .char '/' => true
  | _ => false

/-- The components of a glob. A slash between brackets is none that separates. -/
def glob_components (globs : List Glob) : List (List Glob) := globs.splitOnP is_slash

/-- What a glob other than a star takes for its one character. -/
def takes : Glob → Char → Bool
  | .one negate ranges,c => (ranges.any fun range => range.1 ≤ c && c ≤ range.2) != negate
  | .char first,c => c = first
  | _,_ => true

theorem matches_star {rest : List Glob} {name : List Char} :
    matches_globs (.star::rest) name = true ↔ ∃ a b, name = a ++ b ∧ matches_globs rest b = true := by
  rw [matches_globs,List.any_eq_true]
  constructor
  · intro found
    obtain ⟨b,member,matched⟩ := found
    obtain ⟨a,split⟩ := (List.mem_tails _ _).mp member
    exact ⟨a,b,split.symm,matched⟩
  · intro found
    obtain ⟨a,b,split,matched⟩ := found
    exact ⟨b,(List.mem_tails _ _).mpr ⟨a,split.symm⟩,matched⟩

theorem matches_single {glob : Glob} (one : glob ≠ .star) {rest : List Glob} {name : List Char} :
    matches_globs (glob::rest) name = true ↔ ∃ c tail, name = c::tail ∧ takes glob c = true ∧ matches_globs rest tail = true := by
  cases name with
  | nil => cases glob <;> simp_all [matches_globs]
  | cons c tail => cases glob <;> simp_all [matches_globs,takes]

theorem matches_append (globs more : List Glob) (name : List Char) : matches_globs (globs ++ more) name = true ↔
    ∃ a b, name = a ++ b ∧ matches_globs globs a = true ∧ matches_globs more b = true := by
  induction globs generalizing name with
  | nil =>
    constructor
    · intro matched
      exact ⟨[],name,rfl,rfl,matched⟩
    · intro found
      obtain ⟨a,b,rfl,none,matched⟩ := found
      rw [List.isEmpty_iff.mp none]
      exact matched
  | cons glob rest ih =>
    by_cases star : glob = .star
    · subst star
      simp only [List.cons_append,matches_star,ih]
      constructor
      · intro found
        obtain ⟨skipped,left,rfl,a,b,rfl,first,second⟩ := found
        exact ⟨skipped ++ a,b,(List.append_assoc _ _ _).symm,⟨skipped,a,rfl,first⟩,second⟩
      · intro found
        obtain ⟨both,b,rfl,⟨skipped,a,rfl,first⟩,second⟩ := found
        exact ⟨skipped,a ++ b,List.append_assoc _ _ _,a,b,rfl,first,second⟩
    · simp only [List.cons_append,matches_single star,ih]
      constructor
      · intro found
        obtain ⟨c,tail,rfl,taken,a,b,rfl,first,second⟩ := found
        exact ⟨c::a,b,rfl,⟨c,a,rfl,taken,first⟩,second⟩
      · intro found
        obtain ⟨whole,b,rfl,⟨c,a,rfl,taken,first⟩,second⟩ := found
        exact ⟨c,a ++ b,rfl,taken,a,b,rfl,first,second⟩

theorem slash_taken {glob : Glob} (slash : is_slash glob = true) : glob = .char '/' := by
  unfold is_slash at slash
  split at slash
  · rfl
  · contradiction

/-- A slash of the glob takes one of the name. -/
theorem slashes_le {globs : List Glob} {name : List Char} (matched : matches_globs globs name = true) :
    globs.countP is_slash ≤ name.count '/' := by
  induction globs generalizing name with
  | nil => exact Nat.zero_le _
  | cons glob rest ih =>
    by_cases star : glob = .star
    · subst star
      obtain ⟨a,b,rfl,later⟩ := matches_star.mp matched
      have less := ih later
      rw [List.countP_cons_of_neg Bool.false_ne_true,List.count_append]
      omega
    · obtain ⟨c,tail,rfl,taken,later⟩ := (matches_single star).mp matched
      have less := ih later
      by_cases slash : is_slash glob = true
      · rw [slash_taken slash,takes,decide_eq_true_eq] at taken
        rw [List.countP_cons_of_pos slash,taken,List.count_cons_self]
        omega
      · rw [List.countP_cons_of_neg slash]
        exact less.trans List.count_le_count_cons

theorem slashes_spelled {globs : List (List Glob)} (apart : ∀ g ∈ globs, ∀ glob ∈ g, is_slash glob = false) :
    (spelled (.char '/') globs).countP is_slash = globs.length := by
  induction globs with
  | nil => rfl
  | cons g rest ih =>
    have none : g.countP is_slash = 0 := List.countP_eq_zero.mpr fun glob member => by
      rw [apart g List.mem_cons_self glob member]
      exact Bool.false_ne_true
    have later := ih fun g' member => apart g' (List.mem_cons_of_mem _ member)
    rw [spelled_cons,List.countP_cons_of_pos rfl,List.countP_append,none,later,List.length_cons,Nat.zero_add]

theorem count_spelled {names : List (List Char)} (apart : ∀ n ∈ names, '/' ∉ n) : (spelled '/' names).count '/' = names.length := by
  induction names with
  | nil => rfl
  | cons n rest ih =>
    have later := ih fun n' member => apart n' (List.mem_cons_of_mem _ member)
    rw [spelled_cons,List.count_cons_self,List.count_append,
      List.count_eq_zero.mpr (apart n List.mem_cons_self),later,List.length_cons,Nat.zero_add]

/-- A component ends at the first slash. -/
theorem take_component {n more : List Char} (apart : '/' ∉ n) (starts : more = [] ∨ more.head? = some '/') :
    (n ++ more).takeWhile (· ≠ '/') = n := by
  have whole : ∀ c ∈ n, decide (c ≠ '/') = true := fun c member => decide_eq_true fun same => apart (same ▸ member)
  rw [List.takeWhile_append_of_pos whole]
  rcases starts with rfl | slash
  · rw [List.takeWhile_nil,List.append_nil]
  · obtain ⟨rest,rfl⟩ := List.head?_eq_some_iff.mp slash
    rw [List.takeWhile_cons_of_neg (by simp),List.append_nil]

theorem spelled_starts (names : List (List Char)) : spelled '/' names = [] ∨ (spelled '/' names).head? = some '/' := by
  cases names with
  | nil => exact .inl rfl
  | cons n names => exact .inr rfl

theorem matched_starts {globs : List (List Glob)} {name : List Char} (matched : matches_globs (spelled (.char '/') globs) name = true) :
    name = [] ∨ name.head? = some '/' := by
  cases globs with
  | nil => exact .inl (List.isEmpty_iff.mp matched)
  | cons g globs =>
    rw [spelled_cons,matches_single Glob.noConfusion] at matched
    obtain ⟨c,tail,rfl,taken,-⟩ := matched
    exact .inr (congrArg some (of_decide_eq_true taken))

/-- A glob of as many components matches a path as a whole exactly when it does so one component after the other. -/
theorem matches_spelled {globs : List (List Glob)} {names : List (List Char)} (plain : ∀ g ∈ globs, ∀ glob ∈ g, is_slash glob = false)
    (apart : ∀ n ∈ names, '/' ∉ n) : matches_globs (spelled (.char '/') globs) (spelled '/' names) = true ∧ globs.length = names.length ↔
      List.Forall₂ (fun g n => matches_globs g n = true) globs names := by
  constructor
  · intro both
    obtain ⟨matched,size⟩ := both
    induction globs generalizing names with
    | nil =>
      rw [List.length_eq_zero_iff.mp size.symm]
      exact .nil
    | cons g globs ih =>
      cases names with
      | nil => contradiction
      | cons n names =>
        rw [spelled_cons,matches_single Glob.noConfusion] at matched
        obtain ⟨c,tail,split,-,matched⟩ := matched
        obtain ⟨a,b,rfl,first,later⟩ := (matches_append g _ tail).mp matched
        have same : n ++ spelled '/' names = a ++ b := (List.cons.inj split).2
        have plain' : ∀ g' ∈ globs, ∀ glob ∈ g', is_slash glob = false := fun g' member => plain g' (List.mem_cons_of_mem _ member)
        have apart' : ∀ n' ∈ names, '/' ∉ n' := fun n' member => apart n' (List.mem_cons_of_mem _ member)
        -- All the slashes that are left belong to `b`, so none is in `a`.
        have left := slashes_le later
        have total := congrArg (List.count '/') same
        rw [slashes_spelled plain'] at left
        rw [List.count_append,List.count_append,count_spelled apart',List.count_eq_zero.mpr (apart n List.mem_cons_self)] at total
        rw [List.length_cons,List.length_cons] at size
        have none : '/' ∉ a := List.count_eq_zero.mp (by omega)
        have heads := congrArg (List.takeWhile (· ≠ '/')) same
        rw [take_component (apart n List.mem_cons_self) (spelled_starts names),take_component none (matched_starts later)] at heads
        rw [heads] at same ⊢
        rw [← List.append_cancel_left same] at later
        exact .cons first (ih plain' apart' later (Nat.succ.inj size))
  · intro each
    refine ⟨?_,each.length_eq⟩
    induction each with
    | nil => rfl
    | @cons g n globs names first _ ih =>
      have later := ih (fun g' member => plain g' (List.mem_cons_of_mem _ member)) fun n' member => apart n' (List.mem_cons_of_mem _ member)
      rw [spelled_cons,matches_single Glob.noConfusion]
      exact ⟨'/',n ++ spelled '/' names,rfl,rfl,(matches_append _ _ _).mpr ⟨n,_,rfl,first,later⟩⟩

end AetherVault.Lib.GlobPath
