import AetherVault.FrontEnds

/-! Machine-driven commits: of the files under the paths that are given, the ones that staging them changes and those alone. -/
namespace AetherVault.FrontEnds
open Lib Hashing Index Solo

variable {H : Type} [DecidableEq H] [Hashing H]

inductive Returned (H : Type)
  | raised
  | unchanged
  | committed (tree : Tree H) (parents : List H)

namespace Checkout

variable (env : Env) (c : Checkout H)

def scoped_files (paths : List Path) : List Path := paths.flatMap (c.files_of env c.root (some c.root))

/-- Where staging ends, and whether it comes through. -/
def stage_targets : List Path → Objects H × Index H → (Objects H × Index H) × Bool
  | [],staged => (staged,true)
  | l::rest,staged => match c.stage_file env staged l with
    | none => (staged,false)
    | some staged => stage_targets rest staged

/-- New, with other content, or staged and not so before. -/
def touched (path : Path) (e : IndexEntry H) : Bool :=
  match c.index.entries.get? path with
  | none => true
  | some saved => decide (e.hash ≠ saved.hash) || (e.staged && !saved.staged)

def scope (idx : Index H) : Index H := {idx with entries := idx.entries.filter c.touched}

def merge_back (idx : Index H) : Index H := {idx with entries := idx.entries.union c.index.entries}

/-- The index is merged back and saved however the call ends. -/
def commit_scoped_paths (paths : List Path) : Index H × Returned H :=
  let staged := c.stage_targets env (c.scoped_files env paths) (c.objects,c.index)
  if !staged.2 then (c.merge_back staged.1.2,.raised)
  else
    let idx := c.scope staged.1.2
    match ({c with index := idx} : Checkout H)._commit_staged_locked with
    | none => (c.merge_back idx,.unchanged)
    | some commit => (c.merge_back idx.clear_staged,.committed commit.1 commit.2)

/-- The path of a file under one of the paths, unless it is named as a pointer. -/
def Scoped (paths : List Path) (path : Path) : Prop :=
  c.root ++ path ∈ c.scoped_files env paths ∧ path.endswith ".av-pointer" = false

/-- The file has another size or mtime than the index has for it, and other content. -/
def fresh_change (path : Path) : Option WorkFile := (c.fresh_file path).filter (c.changed path)

end Checkout

section
variable {env : Env} {c : Checkout H} {path : Path} {seen : List Path}

theorem stage_targets_seen (files : List Path) (staged : Objects H × Index H) (so_far : Seen env c seen staged.2) :
    ∃ more, Seen env c (seen ++ more) (c.stage_targets env files staged).1.2 ∧
      (∀ path ∈ more, c.root ++ path ∈ files ∧ path.endswith ".av-pointer" = false) ∧
      ((c.stage_targets env files staged).2 = true →
        ∀ path, c.root ++ path ∈ files → path.endswith ".av-pointer" = false → path ∈ more) := by
  induction files generalizing seen staged with
  | nil => exact ⟨[],by simpa [Checkout.stage_targets] using so_far,by simp,by simp⟩
  | cons l rest ih =>
    rw [Checkout.stage_targets]
    cases one : c.stage_file env staged l with
    | none => exact ⟨[],by simpa using so_far,by simp,by simp⟩
    | some next =>
      dsimp only
      obtain ⟨inside,next_seen⟩ := so_far.stage_file one
      obtain ⟨more,all_seen,among,all⟩ := ih next next_seen
      rw [List.append_assoc] at all_seen
      refine ⟨_,all_seen,?_,?_⟩
      · intro path member
        cases List.mem_append.mp member with
        | inl first =>
          split at first
          · exact absurd first List.not_mem_nil
          · rename_i named
            cases List.mem_singleton.mp first
            rw [under_root inside]
            exact ⟨List.mem_cons_self,by simpa using named⟩
        | inr later => exact ⟨List.mem_cons_of_mem _ (among path later).1,(among path later).2⟩
      · intro through path member named
        rw [List.mem_append]
        cases List.mem_cons.mp member with
        | inl first =>
          refine Or.inl ?_
          rw [← first,rel_path_append,named]
          simp
        | inr later => exact Or.inr (all through path later named)

theorem stage_targets_through (files : List Path) (staged : Objects H × Index H) (inside : ∀ l ∈ files, c.root.isPrefixOf l = true) :
    (c.stage_targets env files staged).2 = true := by
  induction files generalizing staged with
  | nil => rfl
  | cons l rest ih =>
    rw [Checkout.stage_targets]
    cases one : c.stage_file env staged l with
    | none => exact absurd one (stage_file_none (inside l List.mem_cons_self))
    | some next => exact ih next fun other member => inside other (List.mem_cons_of_mem _ member)

/-- An entry that was there before is not touched. -/
theorem untouched {e : IndexEntry H} (before : c.index.entries.get? path = some e) : c.touched path e = false := by
  rw [Checkout.touched,before]
  simp

theorem touched_staged (file : WorkFile) :
    c.touched path (staged_entry env file path (c.changed path file)) = c.changed path file := by
  unfold Checkout.touched Checkout.changed Index.changed
  cases c.index.entries.get? path with
  | none => rfl
  | some before =>
    by_cases same : before.hash = .sha (sha256 file.data.bytes)
    · simp [staged_entry,same]
    · simp [staged_entry,same,Ne.symm same]

/-- What is left of an index when it is scoped. -/
theorem scope_get {idx : Index H} (so_far : Seen env c seen idx) (path : Path) : (c.scope idx).entries.get? path =
    if path ∈ seen then (c.fresh_change path).map fun file => staged_entry env file path true else none := by
  have before : (c.index.entries.get? path).filter (c.touched path) = none := by
    rw [Option.filter_eq_none_iff]
    intro e held
    rw [untouched held]
    exact Bool.false_ne_true
  rw [Checkout.scope,Dict.get?_filter,so_far.entries path]
  by_cases taken : path ∈ seen
  · rw [if_pos taken,if_pos taken,Checkout.fresh_change]
    cases c.fresh_file path with
    | none => simpa using before
    | some file =>
      rw [Option.map_some,Option.some_or,Option.filter_some,Option.filter_some,touched_staged]
      cases changed : c.changed path file with
      | true => rfl
      | false => rfl
  · rw [if_neg taken,if_neg taken,before]

omit [DecidableEq H] [Hashing H] in
theorem staged_nothing (idx : Index H) :
    idx.get_staged_entries.entries = [] ↔ ∀ path e, idx.entries.get? path = some e → e.staged = false := by
  have member (path : Path) (e : IndexEntry H) :
      (path,e) ∈ idx.get_staged_entries.entries ↔ idx.entries.get? path = some e ∧ e.staged = true := by
    rw [Dict.mem_entries,Index.get_staged_entries,Dict.get?_filter,Option.filter_eq_some_iff]
  rw [List.eq_nil_iff_forall_not_mem]
  constructor
  · intro nothing path e held
    by_contra staged
    exact nothing (path,e) ((member path e).mpr ⟨held,by simpa using staged⟩)
  · intro clear pair among
    obtain ⟨held,staged⟩ := (member pair.1 pair.2).mp among
    rw [clear _ _ held] at staged
    contradiction

/-- The scoped index has nothing to commit exactly when no path that was seen has changed. -/
theorem scope_nothing {idx : Index H} (so_far : Seen env c seen idx) :
    (c.scope idx).get_staged_entries.entries = [] ↔ ∀ path ∈ seen, c.fresh_change path = none := by
  rw [staged_nothing]
  constructor
  · intro clear path taken
    cases changed : c.fresh_change path with
    | none => rfl
    | some file =>
      have held : (c.scope idx).entries.get? path = some (staged_entry env file path true) := by
        rw [scope_get so_far path,if_pos taken,changed]
        rfl
      exact absurd (clear path _ held) Bool.true_eq_false.mp
  · intro none path e held
    rw [scope_get so_far path] at held
    split at held
    · rename_i taken
      rw [none path taken] at held
      contradiction
    · contradiction

theorem merge_back_get (idx : Index H) (path : Path) :
    (c.merge_back idx).entries.get? path = (idx.entries.get? path).or (c.index.entries.get? path) := Dict.get?_union _ _ _

/-- The index that staging the paths leaves, before it is scoped. -/
theorem scoped_seen (env : Env) (c : Checkout H) (paths : List Path) : ∃ taken,
    Seen env c taken (c.stage_targets env (c.scoped_files env paths) (c.objects,c.index)).1.2 ∧
    (∀ path ∈ taken, c.Scoped env paths path) ∧
    ((c.stage_targets env (c.scoped_files env paths) (c.objects,c.index)).2 = true → ∀ path, c.Scoped env paths path → path ∈ taken) := by
  obtain ⟨taken,seen,among,all⟩ := stage_targets_seen (c.scoped_files env paths) (c.objects,c.index) (seen_nil env c)
  exact ⟨taken,seen,among,fun through path given => all through path given.1 given.2⟩

theorem entries_alone (env : Env) (c : Checkout H) (paths : List Path) {path : Path} (outside : ¬c.Scoped env paths path) :
    (c.commit_scoped_paths env paths).1.entries.get? path = c.index.entries.get? path := by
  obtain ⟨taken,seen,among,-⟩ := scoped_seen env c paths
  have untaken : path ∉ taken := fun member => outside (among path member)
  have left_out := scope_get seen path
  rw [if_neg untaken] at left_out
  unfold Checkout.commit_scoped_paths
  dsimp only
  split
  · rw [merge_back_get,seen.entries path,if_neg untaken,Option.or_self]
  · split
    · rw [merge_back_get,left_out,Option.none_or]
    · rw [merge_back_get,Index.clear_staged,Dict.get?_map,left_out,Option.map_none,Option.none_or]

theorem removals_alone (env : Env) (c : Checkout H) (paths : List Path) {path : Path} (outside : ¬c.Scoped env paths path)
    (without : ∀ tree parents, (c.commit_scoped_paths env paths).2 ≠ .committed tree parents) :
    (c.commit_scoped_paths env paths).1.removed.count path = c.index.removed.count path := by
  obtain ⟨taken,seen,among,-⟩ := scoped_seen env c paths
  have untaken : ¬(path ∈ taken ∧ (c.fresh_file path).isSome) := fun both => outside (among path both.1)
  have kept := seen.removed path
  rw [if_neg untaken,Nat.sub_zero] at kept
  unfold Checkout.commit_scoped_paths at without ⊢
  dsimp only at without ⊢
  split
  · exact kept
  · rename_i through
    rw [if_neg through] at without
    split
    · exact kept
    · rename_i commit landed
      rw [landed] at without
      exact absurd rfl (without _ _)

/-- Where nothing that is scoped has changed, only a removal that is staged brings a commit. -/
theorem unchanged_of (env : Env) (c : Checkout H) (paths : List Path) (none_removed : c.index.removed = [])
    (unchanged : ∀ path, c.Scoped env paths path → c.fresh_change path = none) (tree : Tree H) (parents : List H) :
    (c.commit_scoped_paths env paths).2 ≠ .committed tree parents := by
  obtain ⟨taken,seen,among,-⟩ := scoped_seen env c paths
  have removed : (c.scope (c.stage_targets env (c.scoped_files env paths) (c.objects,c.index)).1.2).removed = [] := by
    rw [List.eq_nil_iff_forall_not_mem]
    intro path
    rw [← List.count_eq_zero]
    have count := seen.removed path
    rw [none_removed,List.count_nil,Nat.zero_sub] at count
    exact count
  have staged := (scope_nothing seen).mpr fun path member => unchanged path (among path member)
  unfold Checkout.commit_scoped_paths Checkout._commit_staged_locked
  dsimp only
  rw [staged,removed]
  intro committed
  split at committed
  · contradiction
  · contradiction

theorem committed_tree (env : Env) (c : Checkout H) (paths : List Path) {tree : Tree H} {parents : List H}
    (committed : (c.commit_scoped_paths env paths).2 = .committed tree parents) : parents = c.parents ∧
    ∀ path e, tree.get? path = some e ↔ c.Scoped env paths path ∧
      ∃ file, c.fresh_change path = some file ∧ e = (staged_entry env file path true).tree_entry := by
  obtain ⟨taken,seen,among,all⟩ := scoped_seen env c paths
  unfold Checkout.commit_scoped_paths at committed
  dsimp only at committed
  split at committed
  · contradiction
  · rename_i through
    split at committed
    · contradiction
    · rename_i commit landed
      unfold Checkout._commit_staged_locked at landed
      split at landed
      · contradiction
      · cases landed
        cases committed
        refine ⟨rfl,fun path e => ?_⟩
        have taken_iff : path ∈ taken ↔ c.Scoped env paths path := ⟨among path,all (by simpa using through) path⟩
        rw [Index.tree,Dict.get?_map,scope_get seen path,← taken_iff]
        by_cases member : path ∈ taken
        · rw [if_pos member,Option.map_map,Option.map_eq_some_iff]
          constructor
          · intro found
            obtain ⟨file,changed,same⟩ := found
            exact ⟨member,file,changed,same.symm⟩
          · intro found
            obtain ⟨-,file,changed,same⟩ := found
            exact ⟨file,changed,same.symm⟩
        · rw [if_neg member]
          exact iff_of_false (Option.some_ne_none e).symm fun found => member found.1

theorem commits_of (env : Env) (c : Checkout H) (paths : List Path) (inside : ∀ l ∈ c.scoped_files env paths, c.root.isPrefixOf l = true)
    {path : Path} {file : WorkFile} (given : c.Scoped env paths path) (changed : c.fresh_change path = some file) :
    ∃ tree parents, (c.commit_scoped_paths env paths).2 = .committed tree parents := by
  obtain ⟨taken,seen,-,all⟩ := scoped_seen env c paths
  have through : (c.stage_targets env (c.scoped_files env paths) (c.objects,c.index)).2 = true := stage_targets_through _ _ inside
  have some_staged : (c.scope (c.stage_targets env (c.scoped_files env paths) (c.objects,c.index)).1.2).get_staged_entries.entries ≠ [] := by
    intro nothing
    have none := (scope_nothing seen).mp nothing path (all through path given)
    rw [changed] at none
    contradiction
  have not_empty := List.isEmpty_eq_false_iff.mpr some_staged
  unfold Checkout.commit_scoped_paths Checkout._commit_staged_locked
  dsimp only
  rw [through,Bool.not_true,if_neg Bool.false_ne_true,not_empty,Bool.false_and,if_neg Bool.false_ne_true]
  exact ⟨_,_,rfl⟩

end

/-- A scoped commit leaves every other entry alone, and without a commit every other staged removal; with none staged and nothing
changed there is no commit; a commit has the changed files and no others; and of files inside, a changed one brings a commit. -/
theorem scoped_commit_frame (env : Env) (c : Checkout H) (paths : List Path) :
    (∀ path, ¬c.Scoped env paths path → (c.commit_scoped_paths env paths).1.entries.get? path = c.index.entries.get? path) ∧
    ((∀ tree parents, (c.commit_scoped_paths env paths).2 ≠ .committed tree parents) → ∀ path, ¬c.Scoped env paths path →
      (c.commit_scoped_paths env paths).1.removed.count path = c.index.removed.count path) ∧
    (c.index.removed = [] → (∀ path, c.Scoped env paths path → c.fresh_change path = none) → ∀ tree parents,
      (c.commit_scoped_paths env paths).2 ≠ .committed tree parents) ∧
    (∀ tree parents, (c.commit_scoped_paths env paths).2 = .committed tree parents → parents = c.parents ∧
      ∀ path e, tree.get? path = some e ↔ c.Scoped env paths path ∧
        ∃ file, c.fresh_change path = some file ∧ e = (staged_entry env file path true).tree_entry) ∧
    ((∀ l ∈ c.scoped_files env paths, c.root.isPrefixOf l = true) → ∀ path file, c.Scoped env paths path →
      c.fresh_change path = some file → ∃ tree parents, (c.commit_scoped_paths env paths).2 = .committed tree parents) := by
  refine ⟨?_,?_,?_,?_,?_⟩
  · intro path outside
    exact entries_alone env c paths outside
  · intro without path outside
    exact removals_alone env c paths outside without
  · intro none_removed unchanged tree parents
    exact unchanged_of env c paths none_removed unchanged tree parents
  · intro tree parents committed
    exact committed_tree env c paths committed
  · intro inside path file given changed
    exact commits_of env c paths inside given changed

/-- A repository at `/r` without a commit, where `a.py` and `b.py` are staged. -/
def begun : Checkout Name :=
  let files := Dict.ofList [(["r","a.py"],⟨⟨letters "a",by decide⟩,1⟩),(["r","b.py"],⟨⟨letters "b",by decide⟩,1⟩)]
  let fresh : Checkout Name := ⟨⟨files,[[],["r"],["r",".av"]]⟩,["r"],.empty,.empty,.branch "main",∅⟩
  {fresh with index := fresh.av_add plain [["r","a.py"],["r","b.py"]]}

/-- The same, committed, where `b.py` has been edited since. -/
def edited : Checkout Name := {begun with
  fs := ⟨begun.fs.files.set ["r","b.py"] ⟨⟨letters "c",by decide⟩,2⟩,begun.fs.dirs⟩
  index := begun.index.clear_staged
  refs := Dict.ofList [("main",some (sha256 (letters "begun")))]}

def Returned.tree : Returned H → Option (Tree H)
  | .committed tree _ => some tree
  | _ => none

/-- The commit of `b.py` has no `a.py`, which its parent has; and what was staged before is not committed at all. -/
theorem scoped_commit_drops : ¬edited.Scoped plain [["r","b.py"]] ["a.py"] ∧
    (begun.av_commit.any fun head => head.1.contains ["a.py"]) = true ∧
    ((edited.commit_scoped_paths plain [["r","b.py"]]).2.tree.any fun tree => !tree.contains ["a.py"]) = true ∧
    begun.Scoped plain [["r","b.py"]] ["b.py"] ∧ begun.head = .branch "main" ∧ begun.refs = ∅ ∧
    (begun.commit_scoped_paths plain [["r","b.py"]]).2.tree = none := by
  refine ⟨?_,?_,?_,?_,rfl,rfl,?_⟩
  · intro given
    have absent : ["r","a.py"] ∉ edited.scoped_files plain [["r","b.py"]] := by decide +kernel
    exact absent given.1
  · decide +kernel
  · decide +kernel
  · exact ⟨by decide +kernel,by decide +kernel⟩
  · decide +kernel

end AetherVault.FrontEnds
