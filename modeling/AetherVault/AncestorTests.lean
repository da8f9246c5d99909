import AetherVault.Lib.Worklist
import AetherVault.Pull

/-! The two ancestor tests, `is_ancestor` of `sync.py` and `_ref_contains` of `core.py`, as the loops they are: one compares
with the commit it looks for before it queues a parent, the other when it takes one off. -/
namespace AetherVault.AncestorTests
open Lib

variable {H : Type}

/-- What the tests read of a commit file. The list can be missing, and can hold nulls. -/
structure CommitFile (H : Type) where
  parents : Option (List (Option H))

/-- `commit.get("parents") or []`. -/
def CommitFile.links (commit : CommitFile H) : List (Option H) := commit.parents.getD []

variable [DecidableEq H]

def load_commit (commits : Dict H (CommitFile H)) (current : Option H) : Option (CommitFile H) := current.bind commits.get?

/-- The queue with the parents on it, or `none` when one of them is the ancestor. -/
def queue_parents (ancestor_hash : H) : List (Option H) → List (Option H) → Option (List (Option H))
  | [],queue => some queue
  | parent::parents,queue => if parent = some ancestor_hash then none else queue_parents ancestor_hash parents (parent::queue)

variable (commits : Dict H (CommitFile H))

/-- Without an answer when the fuel runs out. -/
def is_ancestor_loop (ancestor_hash : H) : Nat → List (Option H) → List (Option H) → Option Bool
  | _,[],_ => some false
  | 0,_::_,_ => none
  | fuel+1,current::queue,visited =>
    if current ∈ visited ∨ current = none then is_ancestor_loop ancestor_hash fuel queue visited
    else match load_commit commits current with
      | none => is_ancestor_loop ancestor_hash fuel queue (current::visited)
      | some commit => match queue_parents ancestor_hash commit.links queue with
        | none => some true
        | some queue => is_ancestor_loop ancestor_hash fuel queue (current::visited)

def is_ancestor (fuel : Nat) (ancestor_hash descendant_hash : H) : Option Bool :=
  if ancestor_hash = descendant_hash then some true else is_ancestor_loop commits ancestor_hash fuel [some descendant_hash] []

def ref_contains_loop (commit_hash : H) : Nat → List (Option H) → List (Option H) → Option Bool
  | _,[],_ => some false
  | 0,_::_,_ => none
  | fuel+1,current::stack,seen =>
    if current = some commit_hash then some true
    else if current ∈ seen then ref_contains_loop commit_hash fuel stack seen
    else match load_commit commits current with
      | none => ref_contains_loop commit_hash fuel stack (current::seen)
      | some commit => ref_contains_loop commit_hash fuel (commit.links.reverse ++ stack) (current::seen)

/-- A ref that does not exist, or is empty, is `none`. -/
def _ref_contains (fuel : Nat) (ref_hash : Option H) (commit_hash : H) : Option Bool :=
  match ref_hash with
  | none => some false
  | some tip => ref_contains_loop commits commit_hash fuel [some tip] []

/-- A parent of a commit that is there, whether or not the parent is. -/
def Parent (h parent : H) : Prop := ∃ commit, commits.get? h = some commit ∧ some parent ∈ commit.links

/-! The graph that both walk: nulls are nodes without edges. -/

def links_of (current : Option H) : List (Option H) := (load_commit commits current).elim [] CommitFile.links

def nodes : List (Option H) := commits.keys.map some

omit [DecidableEq H] in
theorem nodes_distinct : (nodes commits).Nodup := commits.distinct.map (Option.some_injective H)

theorem links_of_absent (current : Option H) (absent : current ∉ nodes commits) : links_of commits current = [] := by
  cases current with
  | none => rfl
  | some h =>
    cases held : commits.get? h with
    | none => simp only [links_of,load_commit,Option.bind_some,held,Option.elim_none]
    | some commit => exact absurd (List.mem_map_of_mem ((commits.mem_keys h).mpr ⟨commit,held⟩)) absent

theorem parent_iff {h parent : H} : some parent ∈ links_of commits (some h) ↔ Parent commits h parent := by
  cases held : commits.get? h <;> simp [links_of,load_commit,Parent,held]

theorem reach_iff {descendant ancestor : H} : Search.Reach (links_of commits) (some descendant) (some ancestor) ↔
    Relation.ReflTransGen (Parent commits) descendant ancestor := by
  constructor
  · intro path
    generalize start_eq : some descendant = start at path
    induction path using Relation.ReflTransGen.head_induction_on generalizing descendant with
    | refl =>
      obtain rfl := Option.some.inj start_eq
      exact .refl
    | @head x y edge path ih =>
      subst start_eq
      cases y with
      | none =>
        rcases Relation.ReflTransGen.cases_head path with same | ⟨z,edge,-⟩
        · contradiction
        · exact absurd edge List.not_mem_nil
      | some h => exact .head ((parent_iff commits).mp edge) (ih rfl)
  · intro path
    exact path.lift some fun _ _ edge => (parent_iff commits).mpr edge

/-! One turn of each loop. -/

theorem queue_parents_eq (ancestor_hash : H) (parents queue : List (Option H)) : queue_parents ancestor_hash parents queue =
    if some ancestor_hash ∈ parents then none else some (parents.reverse ++ queue) := by
  induction parents generalizing queue with
  | nil => rfl
  | cons parent parents ih =>
    by_cases same : parent = some ancestor_hash
    · simp [queue_parents,same]
    · simp [queue_parents,same,Ne.symm same,ih]

theorem is_ancestor_turn (ancestor_hash : H) (fuel : Nat) (current : Option H) (queue visited : List (Option H))
    (fit : some ancestor_hash ∉ current::queue) :
    is_ancestor_loop commits ancestor_hash (fuel + 1) (current::queue) visited = some true ∧
      Search.Reach (links_of commits) current (some ancestor_hash) ∨
    ∃ queue' visited', Worklist.Turn (links_of commits) (some ancestor_hash) (current::queue) visited queue' visited' ∧
      some ancestor_hash ∉ queue' ∧ is_ancestor_loop commits ancestor_hash (fuel + 1) (current::queue) visited =
        is_ancestor_loop commits ancestor_hash fuel queue' visited' := by
  have other := List.ne_of_not_mem_cons fit
  have rest := List.not_mem_of_not_mem_cons fit
  by_cases idle : current ∈ visited ∨ current = none
  · refine .inr ⟨queue,visited,.skip (idle.imp id fun empty => by rw [empty]; rfl) (Ne.symm other),rest,?_⟩
    rw [is_ancestor_loop,if_pos idle]
  · have fresh : current ∉ visited := fun old => idle (.inl old)
    rw [is_ancestor_loop,if_neg idle]
    cases held : load_commit commits current with
    | none =>
      have links : links_of commits current = [] := by rw [links_of,held,Option.elim_none]
      have turn : Worklist.Turn (links_of commits) (some ancestor_hash) (current::queue) visited
        ((links_of commits current).reverse ++ queue) (current::visited) := .visit fresh (Ne.symm other)
      rw [links] at turn
      exact .inr ⟨queue,current::visited,turn,rest,rfl⟩
    | some commit =>
      have links : links_of commits current = commit.links := by rw [links_of,held,Option.elim_some]
      dsimp only
      rw [queue_parents_eq]
      by_cases found : some ancestor_hash ∈ commit.links
      · rw [if_pos found]
        exact .inl ⟨rfl,.single (links ▸ found)⟩
      · rw [if_neg found]
        refine .inr ⟨commit.links.reverse ++ queue,current::visited,links ▸ .visit fresh (Ne.symm other),?_,rfl⟩
        rw [List.mem_append,List.mem_reverse]
        exact not_or.mpr ⟨found,rest⟩

theorem ref_contains_turn (commit_hash : H) (fuel : Nat) (current : Option H) (stack seen : List (Option H)) :
    ref_contains_loop commits commit_hash (fuel + 1) (current::stack) seen = some true ∧
      Search.Reach (links_of commits) current (some commit_hash) ∨
    ∃ stack' seen', Worklist.Turn (links_of commits) (some commit_hash) (current::stack) seen stack' seen' ∧ True ∧
      ref_contains_loop commits commit_hash (fuel + 1) (current::stack) seen = ref_contains_loop commits commit_hash fuel stack' seen' := by
  rw [ref_contains_loop]
  by_cases hit : current = some commit_hash
  · rw [if_pos hit]
    exact .inl ⟨rfl,hit ▸ .refl⟩
  · rw [if_neg hit]
    by_cases old : current ∈ seen
    · rw [if_pos old]
      exact .inr ⟨stack,seen,.skip (.inl old) hit,trivial,rfl⟩
    · rw [if_neg old]
      refine .inr ⟨_,_,.visit old hit,trivial,?_⟩
      rw [links_of]
      cases load_commit commits current <;> rfl

/-! The answers. -/

def turns : Nat := 1 + Search.weight (links_of commits) (nodes commits) []

theorem start_kept (current : Option H) (target : H) : Worklist.Kept (links_of commits) (some target) [current] [] :=
  ⟨List.not_mem_nil,fun _ member => absurd member List.not_mem_nil⟩

theorem is_ancestor_decides (ancestor_hash descendant_hash : H) (fuel : Nat) (enough : turns commits ≤ fuel) :
    ∃ answer, is_ancestor commits fuel ancestor_hash descendant_hash = some answer ∧
      (answer = true ↔ Relation.ReflTransGen (Parent commits) descendant_hash ancestor_hash) := by
  rw [is_ancestor]
  by_cases same : ancestor_hash = descendant_hash
  · rw [if_pos same,same]
    exact ⟨true,rfl,fun _ => .refl,fun _ => rfl⟩
  · obtain ⟨answer,ends,meaning⟩ := Worklist.decides (nodes_distinct commits) (links_of_absent commits)
      (fun _ _ => by rw [is_ancestor_loop]) (fun fuel x rest seen fit _ => is_ancestor_turn commits ancestor_hash fuel x rest seen fit)
      fuel [some descendant_hash] [] (by simpa using same) (start_kept commits _ ancestor_hash) enough
    rw [if_neg same,← reach_iff]
    exact ⟨answer,ends,meaning.trans (by simp)⟩

theorem ref_contains_decides (tip commit_hash : H) (fuel : Nat) (enough : turns commits ≤ fuel) :
    ∃ answer, _ref_contains commits fuel (some tip) commit_hash = some answer ∧
      (answer = true ↔ Relation.ReflTransGen (Parent commits) tip commit_hash) := by
  obtain ⟨answer,ends,meaning⟩ := Worklist.decides (nodes_distinct commits) (links_of_absent commits)
    (fun _ _ => by rw [ref_contains_loop]) (fun fuel x rest seen _ _ => ref_contains_turn commits commit_hash fuel x rest seen)
    fuel [some tip] [] trivial (start_kept commits _ commit_hash) enough
  rw [← reach_iff]
  exact ⟨answer,ends,meaning.trans (by simp)⟩

/-- Both tests end on every commit graph, and both tell whether the one commit is reached from the other through the parents of
the commits that are there; a ref that does not exist contains nothing. -/
theorem ancestor_tests_agree (commits : Dict H (CommitFile H)) (ancestor descendant : H) : ∃ answer,
    (answer = true ↔ Relation.ReflTransGen (Parent commits) descendant ancestor) ∧
      (∃ enough, ∀ fuel, enough ≤ fuel → is_ancestor commits fuel ancestor descendant = some answer ∧
        _ref_contains commits fuel (some descendant) ancestor = some answer) ∧
      ∀ fuel, _ref_contains commits fuel none ancestor = some false := by
  obtain ⟨answer,-,meaning⟩ := is_ancestor_decides commits ancestor descendant _ (Nat.le_refl _)
  refine ⟨answer,meaning,⟨turns commits,fun fuel enough => ?_⟩,fun _ => rfl⟩
  obtain ⟨first,ends,first_meaning⟩ := is_ancestor_decides commits ancestor descendant fuel enough
  obtain ⟨second,ends',second_meaning⟩ := ref_contains_decides commits descendant ancestor fuel enough
  rw [ends,ends',Bool.eq_iff_iff.mpr (first_meaning.trans meaning.symm),Bool.eq_iff_iff.mpr (second_meaning.trans meaning.symm)]
  exact ⟨rfl,rfl⟩

/-! The commit files that the rest of the repository is about. -/

def commit_files (commits : Dict H (CommitData H)) : Dict H (CommitFile H) := commits.map fun _ data => ⟨some (data.parents.map some)⟩

theorem parent_commit_files {commits : Dict H (CommitData H)} {h parent : H} :
    Parent (commit_files commits) h parent ↔ parent ∈ parents_of commits h := by
  cases held : commits.get? h <;> simp [Parent,commit_files,parents_of,CommitFile.links,held]

theorem reach_commit_files {commits : Dict H (CommitData H)} {descendant ancestor : H} :
    Relation.ReflTransGen (Parent (commit_files commits)) descendant ancestor ↔ Search.Reach (parents_of commits) descendant ancestor := by
  constructor
  · intro path
    exact Relation.ReflTransGen.mono (fun _ _ edge => parent_commit_files.mp edge) _ _ path
  · intro path
    exact Relation.ReflTransGen.mono (fun _ _ edge => parent_commit_files.mpr edge) _ _ path

/-- The loops give what the search gives that a pull and a flush are modelled with. -/
theorem ancestor_tests_search (commits : Dict H (CommitData H)) (ancestor descendant : H) (fuel : Nat)
    (enough : turns (commit_files commits) ≤ fuel) :
    is_ancestor (commit_files commits) fuel ancestor descendant = some (AetherVault.is_ancestor commits ancestor descendant) ∧
      _ref_contains (commit_files commits) fuel (some descendant) ancestor =
        some (AetherVault._ref_contains commits (some descendant) ancestor) := by
  obtain ⟨first,ends,first_meaning⟩ := is_ancestor_decides (commit_files commits) ancestor descendant fuel enough
  obtain ⟨second,ends',second_meaning⟩ := ref_contains_decides (commit_files commits) descendant ancestor fuel enough
  have searched : AetherVault._ref_contains commits (some descendant) ancestor = true ↔ Search.Reach (parents_of commits) descendant ancestor := by
    rw [ref_contains_iff]
    simp
  rw [reach_commit_files] at first_meaning second_meaning
  rw [ends,ends']
  exact ⟨congrArg some (Bool.eq_iff_iff.mpr (first_meaning.trans searched.symm)),
    congrArg some (Bool.eq_iff_iff.mpr (second_meaning.trans searched.symm))⟩

end AetherVault.AncestorTests
