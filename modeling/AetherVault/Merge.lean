import AetherVault.Commands

/-! `av merge`: nearest common ancestor, three-way merge of the trees, and the command. -/
namespace AetherVault
open Lib Hashing
open Lib.Prog (call)

variable {H : Type} [DecidableEq H] [Hashing H] [Canonical H]

/-- The second walk of `find_merge_base`, in generation order. -/
def nearest (parents : H → List H) (ours_ancestors : List H) : Nat → List H → List H → Option H
  | 0,_,_ => none
  | _+1,[],_ => none
  | fuel+1,h::queue,visited =>
    if h ∈ visited then nearest parents ours_ancestors fuel queue visited
    else if h ∈ ours_ancestors then some h
    else nearest parents ours_ancestors fuel (queue ++ parents h) (h::visited)

def find_merge_base (commits : Dict H (CommitData H)) (ours theirs : H) : Option H :=
  let fuel := walk_fuel commits
  nearest (parents_of commits) (Search.search (parents_of commits) fuel [ours] []) fuel [theirs] []

/-- The side that wins a path; `none` is a conflict, `some none` a deletion. -/
def three_way (base ours theirs : Option (TreeEntry H)) : Option (Option (TreeEntry H)) :=
  if ours = theirs then some ours
  else if base = ours then some theirs
  else if base = theirs then some ours
  else none

def merge_path (base_tree ours_tree theirs_tree : Tree H) (acc : Tree H × List Path) (path : Path) : Tree H × List Path :=
  match three_way (base_tree.get? path) (ours_tree.get? path) (theirs_tree.get? path) with
  | none => (acc.1,acc.2 ++ [path])
  | some none => acc
  | some (some winner) => (acc.1.set path winner,acc.2)

/-- The paths that are in conflict come sorted. -/
def three_way_tree_merge (base_tree ours_tree theirs_tree : Tree H) : Tree H × List Path :=
  let done := (base_tree.keys ++ ours_tree.keys ++ theirs_tree.keys).dedup.foldl
    (merge_path base_tree ours_tree theirs_tree) (∅,[])
  (done.1,done.2.insertionSort fun a b => a.text ≤ b.text)

def resolve_conflict (policy_side merged : Tree H) (path : Path) : Tree H :=
  match policy_side.get? path with
  | none => merged.erase path
  | some entry => merged.set path entry

inductive Policy
  | ours
  | theirs
  deriving DecidableEq

def Policy.side (policy : Policy) (ours_tree theirs_tree : Tree H) : Tree H :=
  if policy = .ours then ours_tree else theirs_tree

def merged_tree (base_tree ours_tree theirs_tree : Tree H) (policy : Option Policy) : Option (Tree H) :=
  let (merged,conflicts) := three_way_tree_merge base_tree ours_tree theirs_tree
  match policy with
  | none => if conflicts = [] then some merged else none
  | some policy => some (conflicts.foldl (resolve_conflict (policy.side ours_tree theirs_tree)) merged)

structure MergeOptions where
  policy : Option Policy
  no_ff : Bool
  message : String

def tree_of (commits : Dict H (CommitData H)) (h : Option H) : Tree H :=
  match h.bind commits.get? with
  | some data => data.tree
  | none => ∅

/-- Takes the branch to the target's commit without a commit of its own. -/
def fast_forward (name : String) (theirs : H) (tree : Tree H) (idx : Index H) : Command H Unit := do
  ensure_objects_local tree
  let _ ← _materialize_tree tree idx false
  call (.write_ref name (some theirs))

def merge_trees (env : Env) (options : MergeOptions) (name : String) (idx : Index H) (ours theirs : H)
    (merged : Tree H) : Command H Unit := do
  ensure_objects_local merged
  let idx ← _materialize_tree merged idx false
  let timestamp ← call .now
  let _ ← _finalize_commit env ⟨[ours,theirs],options.message,timestamp,merged⟩ (some name) idx false none (.pure ())
  .pure ()

def merge_commits (env : Env) (options : MergeOptions) (name : String) (idx : Index H) (ours theirs : H) :
    Command H Unit := do
  let commits ← call .load_commits
  let base := find_merge_base commits ours theirs
  if base = some theirs then .pure ()
  else do
    let dirty ← _collect_dirty_paths idx ∅
    if base = some ours ∧ !options.no_ff ∧ dirty = [] then
      fast_forward name theirs (tree_of commits (some theirs)) idx
    else if dirty ≠ [] then .fail (.validation "You have uncommitted changes that would be overwritten by merge.")
    else
      let base_tree := tree_of commits base
      let ours_tree := tree_of commits (some ours)
      let theirs_tree := tree_of commits (some theirs)
      if !(tree_is_flat base_tree && tree_is_flat ours_tree && tree_is_flat theirs_tree) then
        .fail (.validation "Merge targets a legacy-format commit")
      else
        match merged_tree base_tree ours_tree theirs_tree options.policy with
        | none => .fail (.validation "Merge conflicts")
        | some merged => merge_trees env options name idx ours theirs merged

/-- The commit to merge; one that is named by its hash may have to be fetched. -/
def merge_target (target : Target H) : Command H (Option H) := do
  match target with
  | .branch name =>
    match ← call (.read_ref name) with
    | some tip => .pure tip
    | none => .pure none
  | .commit h =>
    let found ← find_commit h
    .pure (found.map fun _ => h)

def merge (env : Env) (target : Target H) (options : MergeOptions) : Command H Unit := do
  let idx ← call .load_index
  match ← call .read_head with
  | .detached _ => .fail (.validation "HEAD is detached")
  | .branch name =>
    match ← call (.read_ref name) with
    | some (some ours) =>
      match ← merge_target target with
      | none => .fail (.validation "Branch or commit not found.")
      | some theirs =>
        if theirs = ours then .pure ()
        else do
          let _ ← find_commit theirs
          merge_commits env options name idx ours theirs
    | _ => .fail (.validation "Branch has no commits yet")

end AetherVault
