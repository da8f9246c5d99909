import AetherVault.Lib.Search

/-! Breadth-first search with a visited list: it ends at the first hit in the order of the generations,
the order of a walk that forgets nothing. On any graph, with fuel for every edge. -/
namespace AetherVault.Lib.BreadthFirst
open Search

variable {α : Type} [DecidableEq α]

/-- Pops the oldest entry first; a visited node is skipped, a hit ends the search, any other node is expanded. -/
def first (succ : α → List α) (hit : α → Bool) : Nat → List α → List α → Option α
  | 0,_,_ => none
  | _+1,[],_ => none
  | fuel+1,x::queue,seen =>
    if x ∈ seen then first succ hit fuel queue seen
    else if hit x then some x
    else first succ hit fuel (queue ++ succ x) (x::seen)

/-- What a walk without a visited list pops in so many steps. -/
def popped (succ : α → List α) : Nat → List α → List α
  | 0,_ => []
  | _+1,[] => []
  | n+1,x::queue => x :: popped succ n (queue ++ succ x)

/-- So many generations, one after the other. -/
def generations (succ : α → List α) : Nat → List α → List α
  | 0,_ => []
  | n+1,level => level ++ generations succ n (level.flatMap succ)

/-- The one queue is the other without entries that are visited or stand before. -/
inductive Thinned : List α → List α → List α → Prop
  | nil (seen : List α) : Thinned seen [] []
  | keep {x : α} {seen queue long : List α} (rest : Thinned (x::seen) queue long) : Thinned seen (x::queue) (x::long)
  | drop {x : α} {seen queue long : List α} (known : x ∈ seen) (rest : Thinned seen queue long) : Thinned seen queue (x::long)

variable {succ : α → List α} {hit : α → Bool}

omit [DecidableEq α] in
/-- The front of the queue is taken off, having been visited before. -/
theorem known_skip {x y : α} {queue seen : List α} (old : x ∈ seen) (known : y ∈ seen ∨ y ∈ x::queue) : y ∈ seen ∨ y ∈ queue := by
  cases known with
  | inl done => exact Or.inl done
  | inr waiting =>
    cases List.mem_cons.mp waiting with
    | inl same => exact Or.inl (same ▸ old)
    | inr later => exact Or.inr later

omit [DecidableEq α] in
/-- The front of the queue is taken off and visited. -/
theorem known_visit {x y : α} {queue seen : List α} (known : y ∈ seen ∨ y ∈ x::queue) : y ∈ x::seen ∨ y ∈ queue := by
  cases known with
  | inl done => exact Or.inl (List.mem_cons_of_mem x done)
  | inr waiting =>
    cases List.mem_cons.mp waiting with
    | inl same => exact Or.inl (same ▸ List.mem_cons_self)
    | inr later => exact Or.inr later

/-! The order of the generations. -/

omit [DecidableEq α] in
theorem popped_level (succ : α → List α) (level queue : List α) (n : Nat) :
    popped succ (level.length + n) (level ++ queue) = level ++ popped succ n (queue ++ level.flatMap succ) := by
  induction level generalizing queue with
  | nil => simp
  | cons x rest ih =>
    rw [List.length_cons,Nat.add_right_comm]
    simp only [List.cons_append,popped,List.flatMap_cons]
    rw [List.append_assoc,ih,List.append_assoc]

omit [DecidableEq α] in
theorem popped_short (succ : α → List α) (level queue : List α) {n : Nat} (short : n ≤ level.length) :
    popped succ n (level ++ queue) = level.take n := by
  induction n generalizing level queue with
  | zero => simp [popped]
  | succ n ih =>
    cases level with
    | nil => simp at short
    | cons x rest =>
      simp only [List.cons_append,popped,List.take_succ_cons]
      rw [List.append_assoc,ih rest _ (by simpa using short)]

omit [DecidableEq α] in
theorem generations_grow (succ : α → List α) {m n : Nat} (le : m ≤ n) (level : List α) : generations succ m level <+: generations succ n level := by
  induction m generalizing n level with
  | zero => exact List.nil_prefix
  | succ m ih =>
    obtain ⟨n,rfl⟩ : ∃ k, n = k + 1 := ⟨n - 1,by omega⟩
    exact (List.prefix_append_right_inj level).mpr (ih (by omega) _)

omit [DecidableEq α] in
theorem popped_generations (succ : α → List α) (n : Nat) (level : List α) : popped succ n level <+: generations succ n level := by
  induction n using Nat.strong_induction_on generalizing level with
  | _ n ih =>
    by_cases short : n ≤ level.length
    · have taken := popped_short succ level [] short
      rw [List.append_nil] at taken
      rw [taken]
      cases n with
      | zero => exact List.nil_prefix
      | succ n => exact (List.take_prefix _ _).trans (List.prefix_append _ _)
    · obtain ⟨more,rfl⟩ : ∃ k, n = level.length + k := ⟨n - level.length,by omega⟩
      cases level with
      | nil => cases more <;> exact List.nil_prefix
      | cons x rest =>
        have whole := popped_level succ (x::rest) [] more
        simp only [List.append_nil,List.nil_append] at whole
        rw [whole,List.length_cons,Nat.add_right_comm]
        apply (List.prefix_append_right_inj (x::rest)).mpr
        exact (ih more (by simp) _).trans (generations_grow succ (by omega) _)

omit [DecidableEq α] in
theorem generations_reach {n : Nat} {level : List α} {x : α} (member : x ∈ generations succ n level) :
    ∃ y ∈ level, Reach succ y x := by
  induction n generalizing level with
  | zero => simp [generations] at member
  | succ n ih =>
    cases List.mem_append.mp member with
    | inl here => exact ⟨x,here,.refl⟩
    | inr later =>
      obtain ⟨y,inside,path⟩ := ih later
      obtain ⟨z,top,edge⟩ := List.mem_flatMap.mp inside
      exact ⟨z,top,.head edge path⟩

/-! Leaving out what is already known does not change the first hit. -/

omit [DecidableEq α] in
theorem Thinned.weaken {seen more queue long : List α} (thinned : Thinned seen queue long) (sub : ∀ x ∈ seen, x ∈ more) :
    Thinned more queue long := by
  induction thinned generalizing more with
  | nil => exact .nil more
  | keep rest ih =>
    apply Thinned.keep
    apply ih
    intro y member
    cases List.mem_cons.mp member with
    | inl same => exact same ▸ List.mem_cons_self
    | inr old => exact List.mem_cons_of_mem _ (sub y old)
  | drop known rest ih => exact .drop (sub _ known) (ih sub)

omit [DecidableEq α] in
theorem Thinned.drops {seen queue long : List α} (thinned : Thinned seen queue long) {extra : List α}
    (known : ∀ x ∈ extra, x ∈ seen ∨ x ∈ queue) : Thinned seen queue (long ++ extra) := by
  induction thinned with
  | nil seen =>
    induction extra with
    | nil => exact .nil seen
    | cons x rest ih =>
      exact .drop ((known x List.mem_cons_self).resolve_right List.not_mem_nil)
        (ih fun y member => known y (List.mem_cons_of_mem x member))
  | @keep x seen queue long rest ih =>
    apply Thinned.keep
    exact ih fun y member => known_visit (known y member)
  | drop old rest ih => exact .drop old (ih known)

omit [DecidableEq α] in
theorem Thinned.keeps (seen list : List α) : Thinned seen list list := by
  induction list generalizing seen with
  | nil => exact .nil seen
  | cons x rest ih => exact .keep (ih _)

omit [DecidableEq α] in
theorem Thinned.append {seen queue long : List α} (thinned : Thinned seen queue long) (list : List α) :
    Thinned seen (queue ++ list) (long ++ list) := by
  induction thinned with
  | nil seen => exact keeps seen list
  | keep rest ih => exact .keep ih
  | drop known rest ih => exact .drop known ih

/-- Every edge of a visited node leads to a visited node or one that waits, and none of them is a hit. -/
structure Passed (succ : α → List α) (hit : α → Bool) (queue seen : List α) : Prop where
  closed : Closed succ queue seen
  missed : ∀ x ∈ seen, hit x = false

omit [DecidableEq α] in
theorem Passed.skip {x : α} {queue seen : List α} (passed : Passed succ hit (x::queue) seen) (old : x ∈ seen) :
    Passed succ hit queue seen where
  closed := fun a member b edge => known_skip old (passed.closed a member b edge)
  missed := passed.missed

omit [DecidableEq α] in
theorem Passed.expand {x : α} {queue seen : List α} (passed : Passed succ hit (x::queue) seen) (miss : hit x = false) :
    Passed succ hit (queue ++ succ x) (x::seen) where
  closed := by
    intro a member b edge
    cases List.mem_cons.mp member with
    | inl same => exact Or.inr (List.mem_append_right _ (same ▸ edge))
    | inr old =>
      exact (known_visit (passed.closed a old b edge)).imp_right (List.mem_append_left _)
  missed := by
    intro y member
    cases List.mem_cons.mp member with
    | inl same => exact same ▸ miss
    | inr old => exact passed.missed y old

/-- What the search finds is the first hit among what the longer queue's walk pops. -/
theorem first_popped {fuel : Nat} {queue seen long : List α} (passed : Passed succ hit queue seen) {x : α}
    (found : first succ hit fuel queue seen = some x) (thinned : Thinned seen queue long) :
    ∃ n, (popped succ n long).find? hit = some x := by
  induction fuel generalizing queue seen long with
  | zero => contradiction
  | succ fuel ih =>
    suffices general : ∀ extra : List α, (∀ y ∈ extra, y ∈ seen ∨ y ∈ queue) →
        ∃ n, (popped succ n (long ++ extra)).find? hit = some x by
      simpa using general [] (by simp)
    -- The entries left out at the front are popped one by one; what they lead to is known as well.
    induction thinned with
    | nil => contradiction
    | @drop y seen queue long known rest again =>
      intro extra covered
      obtain ⟨n,popped_hit⟩ := again passed found (extra ++ succ y) fun z member => by
        cases List.mem_append.mp member with
        | inl before => exact covered z before
        | inr edge => exact passed.closed y known z edge
      refine ⟨n + 1,?_⟩
      rw [List.cons_append,popped,List.find?_cons_of_neg (by simp [passed.missed y known]),List.append_assoc]
      exact popped_hit
    | @keep y seen queue long rest =>
      intro extra covered
      have step {m : Nat} (miss : hit y = false) (later : (popped succ m (long ++ extra ++ succ y)).find? hit = some x) :
          ∃ n, (popped succ n (y::long ++ extra)).find? hit = some x := by
        refine ⟨m + 1,?_⟩
        rw [List.cons_append,popped,List.find?_cons_of_neg (by simp [miss])]
        exact later
      unfold first at found
      split at found
      · rename_i old
        have known : ∀ z ∈ extra ++ succ y, z ∈ seen ∨ z ∈ queue := by
          intro z member
          apply known_skip old
          cases List.mem_append.mp member with
          | inl before => exact covered z before
          | inr edge => exact passed.closed y old z edge
        have shorter : Thinned seen queue (long ++ (extra ++ succ y)) := by
          apply Thinned.drops _ known
          apply rest.weaken
          intro z member
          cases List.mem_cons.mp member with
          | inl same => exact same ▸ old
          | inr already => exact already
        rw [← List.append_assoc] at shorter
        obtain ⟨m,later⟩ := ih (passed.skip old) found shorter
        exact step (passed.missed y old) later
      · split at found
        · rename_i struck
          refine ⟨1,?_⟩
          rw [List.cons_append,popped,List.find?_cons_of_pos struck]
          exact found
        · rename_i missed
          have miss : hit y = false := by simpa using missed
          have known : ∀ z ∈ extra, z ∈ y::seen ∨ z ∈ queue := fun z member => known_visit (covered z member)
          obtain ⟨m,later⟩ := ih (passed.expand miss) found ((rest.drops known).append (succ y))
          exact step miss later

/-- With fuel for every edge, a search that finds nothing has passed everything it can reach. -/
theorem first_none {nodes : List α} (distinct : nodes.Nodup) (finite : ∀ x, x ∉ nodes → succ x = []) {fuel : Nat}
    {queue seen : List α} (enough : queue.length + weight succ nodes seen ≤ fuel) (passed : Passed succ hit queue seen)
    (missed : first succ hit fuel queue seen = none) {x y : α} (start : x ∈ seen ∨ x ∈ queue) (path : Reach succ x y) :
    hit y = false := by
  induction fuel generalizing queue seen with
  | zero =>
    obtain rfl : queue = [] := List.length_eq_zero_iff.mp (by omega)
    exact passed.missed y (closed_reach succ seen passed.closed x y (start.resolve_right List.not_mem_nil) path)
  | succ fuel ih =>
    cases queue with
    | nil => exact passed.missed y (closed_reach succ seen passed.closed x y (start.resolve_right List.not_mem_nil) path)
    | cons z queue =>
      simp only [List.length_cons] at enough
      unfold first at missed
      split at missed
      · rename_i old
        exact ih (by omega) (passed.skip old) missed (known_skip old start)
      · rename_i fresh
        split at missed
        · contradiction
        · rename_i miss
          have expanded := weight_expand succ nodes seen z distinct (finite z) fresh
          apply ih _ (passed.expand (by simpa using miss)) missed
          · exact (known_visit start).imp_right (List.mem_append_left _)
          · rw [List.length_append]
            omega

omit [DecidableEq α] in
theorem passed_start (succ : α → List α) (hit : α → Bool) (queue : List α) : Passed succ hit queue [] where
  closed := by simp [Closed]
  missed := by simp

theorem first_none_iff {nodes : List α} (distinct : nodes.Nodup) (finite : ∀ x, x ∉ nodes → succ x = []) {fuel : Nat}
    {queue : List α} (enough : queue.length + weight succ nodes [] ≤ fuel) :
    first succ hit fuel queue [] = none ↔ ∀ x ∈ queue, ∀ y, Reach succ x y → hit y = false := by
  constructor
  · exact fun missed x member y path => first_none distinct finite enough (passed_start _ _ _) missed (Or.inr member) path
  · intro missed
    cases found : first succ hit fuel queue [] with
    | none => rfl
    | some x =>
      obtain ⟨n,popped_hit⟩ := first_popped (passed_start succ hit queue) found (.keeps [] queue)
      obtain ⟨y,member,path⟩ := generations_reach ((popped_generations succ n queue).subset (List.mem_of_find?_eq_some popped_hit))
      have struck := List.find?_some popped_hit
      rw [missed y member x path] at struck
      contradiction

omit [DecidableEq α] in
/-- The first hit of a number of generations is the first hit of any greater number. -/
theorem generations_hit {m n : Nat} {level : List α} {x y : α} (one : (generations succ m level).find? hit = some x)
    (two : (generations succ n level).find? hit = some y) : x = y := by
  have grown {a b : Nat} (le : a ≤ b) {z : α} (found : (generations succ a level).find? hit = some z) :
      (generations succ b level).find? hit = some z := by
    obtain ⟨more,same⟩ := generations_grow succ le level
    rw [← same,List.find?_append,found]
    rfl
  cases Nat.le_total m n with
  | inl le => exact Option.some.inj ((grown le one).symm.trans two)
  | inr le => exact Option.some.inj (one.symm.trans (grown le two))

/-- Nothing that stands before the first hit is one. -/
theorem before_hit {list : List α} {x y : α} (found : list.find? hit = some x) (before : y ∈ list.takeWhile (· ≠ x)) :
    hit y = false := by
  induction list with
  | nil => contradiction
  | cons z rest ih =>
    by_cases struck : hit z = true
    · obtain rfl : z = x := by simpa [struck] using found
      simp at before
    · rw [List.find?_cons_of_neg struck] at found
      by_cases here : y = z
      · simpa [here] using struck
      · apply ih found
        rw [List.takeWhile_cons] at before
        split at before
        · exact (List.mem_cons.mp before).resolve_left here
        · contradiction

/-- The first hit stands before every other. -/
theorem hit_before {list : List α} {x y : α} (found : list.find? hit = some x) (struck : hit y = true) (other : y ≠ x) :
    x ∈ list.takeWhile (· ≠ y) := by
  induction list with
  | nil => contradiction
  | cons z rest ih =>
    have apart : z ≠ y := by
      intro same
      rw [same,List.find?_cons_of_pos struck] at found
      exact other (Option.some.inj found)
    rw [List.takeWhile_cons_of_pos (by simpa using apart)]
    by_cases here : hit z = true
    · rw [List.find?_cons_of_pos here] at found
      exact Option.some.inj found ▸ List.mem_cons_self
    · rw [List.find?_cons_of_neg here] at found
      exact List.mem_cons_of_mem z (ih found)

/-- The search finds the first hit in the order of the generations. -/
theorem first_some_iff {nodes : List α} (distinct : nodes.Nodup) (finite : ∀ x, x ∉ nodes → succ x = []) {fuel : Nat}
    {queue : List α} (enough : queue.length + weight succ nodes [] ≤ fuel) (x : α) :
    first succ hit fuel queue [] = some x ↔ ∃ n, (generations succ n queue).find? hit = some x := by
  have listed {z : α} (found : first succ hit fuel queue [] = some z) : ∃ n, (generations succ n queue).find? hit = some z := by
    obtain ⟨n,popped_hit⟩ := first_popped (passed_start succ hit queue) found (.keeps [] queue)
    obtain ⟨more,same⟩ := popped_generations succ n queue
    refine ⟨n,?_⟩
    rw [← same,List.find?_append,popped_hit]
    rfl
  constructor
  · exact listed
  · intro found
    obtain ⟨n,hit_x⟩ := found
    cases search : first succ hit fuel queue [] with
    | none =>
      obtain ⟨y,member,path⟩ := generations_reach (List.mem_of_find?_eq_some hit_x)
      have struck := List.find?_some hit_x
      rw [(first_none_iff distinct finite enough).mp search y member x path] at struck
      contradiction
    | some y =>
      obtain ⟨m,hit_y⟩ := listed search
      rw [generations_hit hit_y hit_x]

end AetherVault.Lib.BreadthFirst
