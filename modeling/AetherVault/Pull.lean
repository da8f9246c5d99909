import AetherVault.Merge

/-! `clone` and `pull`: the history of a project comes down page by page, newest first.
The loops take fuel, and fail without enough of it. -/
namespace AetherVault
open Lib Hashing
open Lib.Prog (call forEach foldEach)

variable {H : Type} [DecidableEq H] [Hashing H] [Canonical H]

def page_size : Nat := 500

/-! `clone` -/

/-- `name[len(project_id) + 1:]`, for a ref of the project. -/
def branch_of (env : Env) (ref_name : String) : Option String :=
  let scope := (remote_ref env "").toList
  if scope.isPrefixOf ref_name.toList ∧ scope.length < ref_name.toList.length then
    some (String.ofList (ref_name.toList.drop scope.length))
  else none

def pick_default_branch (env : Env) (project_refs : Dict String H) : Option String :=
  let branches := (project_refs.keys.filterMap (branch_of env)).insertionSort fun a b => a ≤ b
  ["main","master"].find? (· ∈ branches) <|> branches.head?

structure Cloned (H : Type) [DecidableEq H] where
  tip_hash : Option H
  tip_tree : Option (Tree H)
  count : Nat

def clone_row (so_far : Cloned H) (row : H × CommitData H) : Command H (Cloned H) := do
  let tip_hash := if so_far.count = 0 then so_far.tip_hash <|> some row.1 else so_far.tip_hash
  call (.write_commit row.1 row.2)
  .pure ⟨tip_hash,if tip_hash = some row.1 then some row.2.tree else so_far.tip_tree,so_far.count + 1⟩

/-- A page that does not arrive ends the listing like the last one does. -/
def clone_pages : Nat → Nat → Cloned H → Command H (Cloned H)
  | 0,_,_ => .fail .out_of_fuel
  | fuel+1,offset,so_far => do
    match ← VaultClient.list_commits page_size offset with
    | none => .pure so_far
    | some page =>
      let so_far ← foldEach clone_row page.1 so_far
      match page.2 with
      | some next_offset => if page.1 = [] then .pure so_far else clone_pages fuel next_offset so_far
      | none => .pure so_far

/-- `_init_repo_structure`, for the repository of a clone. -/
def World.fresh (w : World H) : World H := {w with repo := Repo.init}

/-- Into a fresh repository. Its empty `main` reads as no branch whether it is unlinked or not. -/
def clone_project (env : Env) (fuel : Nat) (refs : Dict String H) : Command H Unit := do
  let branch := pick_default_branch env refs
  let cloned ← clone_pages fuel 0 ⟨branch.bind fun name => refs.get? (remote_ref env name),none,0⟩
  if cloned.count = 0 then .fail (.validation "Project has no commits yet.")
  else do
    call (.write_ref (branch.getD "main") cloned.tip_hash)
    call (.write_head (.branch (branch.getD "main")))
    let tip_tree := cloned.tip_tree.getD ∅
    ensure_objects_local tip_tree
    let idx ← call .load_index
    let _ ← _materialize_tree tip_tree idx false
    .pure ()

def clone (env : Env) (fuel : Nat) : Command H Unit := do
  if ← VaultClient.server_available then
    let refs ← VaultClient.list_refs
    clone_project env fuel refs
  else .fail (.validation "Registry unreachable")

/-! `pull` -/

/-- What the pages of the listing have shown so far. -/
structure Paged (H : Type) [DecidableEq H] where
  known : Dict H (CommitData H)
  offset : Nat
  exhausted : Bool

def Paged.read (paged : Paged H) (page : List (H × CommitData H) × Option Nat) : Paged H where
  known := page.1.foldl (fun known row => known.set row.1 row.2) paged.known
  offset := page.2.getD paged.offset
  exhausted := page.2.isNone

/-- Pages in as far as the commit. -/
def _resolve (h : H) : Nat → Paged H → Command H (Paged H)
  | 0,_ => .fail .out_of_fuel
  | fuel+1,paged =>
    if paged.known.contains h ∨ paged.exhausted then .pure paged
    else do
      match ← VaultClient.list_commits page_size paged.offset with
      | none => .pure {paged with exhausted := true}
      | some page => if page.1 = [] then .pure {paged with exhausted := true} else _resolve h fuel (paged.read page)

/-- Down the first parents, until the chain joins a commit that is here or the local tip. -/
def pull_walk (fuel : Nat) (local_tip : Option H) : Nat → Paged H → Option H → Command H Bool
  | _,_,none => .pure false
  | 0,_,some _ => .fail .out_of_fuel
  | turns+1,paged,some cursor =>
    if some cursor = local_tip then .pure true
    else do
      match ← call (.read_commit cursor) with
      | some _ => .pure true
      | none =>
        let paged ← _resolve cursor fuel paged
        match paged.known.get? cursor with
        | none => .fail (.validation "Remote history is broken")
        | some data =>
          call (.write_commit cursor data)
          pull_walk fuel local_tip turns paged data.parents.head?

def is_ancestor (commits : Dict H (CommitData H)) (ancestor descendant : H) : Bool :=
  Search.reaches (parents_of commits) ancestor (walk_fuel commits) [descendant] []

def ff_allowed (local_tip : Option H) (remote_tip : H) (join_found : Bool) : Command H Bool :=
  match local_tip with
  | none => .pure true
  | some tip =>
    if join_found then do
      let commits ← call .load_commits
      .pure (is_ancestor commits tip remote_tip)
    else .pure false

inductive Pulled
  | no_remote_branch
  | up_to_date
  | fast_forwarded
  deriving DecidableEq

def uncommitted (force : Bool) (idx : Index H) : Command H (List Path) :=
  if force then .pure [] else _collect_dirty_paths idx ∅

def pull_onto (branch : String) (remote_tip : H) (force : Bool) : Command H Pulled := do
  let idx ← call .load_index
  let dirty ← uncommitted force idx
  if dirty = [] then do
    let tip_data ← call (.read_commit remote_tip)
    fast_forward branch remote_tip ((tip_data.map (·.tree)).getD ∅) idx
    .pure .fast_forwarded
  else .fail (.validation "You have uncommitted changes that would be overwritten by pull.")

/-- What a pull has come to before it touches the index, the working tree or the branch. -/
inductive Decision (H : Type)
  | no_remote_branch
  | up_to_date
  | diverged (local_tip : Option H) (remote_tip : H)
  | fast_forward (branch : String) (remote_tip : H)
  deriving DecidableEq

def pull_tip (fuel : Nat) (branch : String) (local_tip : Option H) (remote_tip : H) : Command H (Decision H) := do
  let join_found ← pull_walk fuel local_tip fuel ⟨∅,0,false⟩ (some remote_tip)
  let allowed ← ff_allowed local_tip remote_tip join_found
  .pure (if allowed then .fast_forward branch remote_tip else .diverged local_tip remote_tip)

def pull_decision (env : Env) (fuel : Nat) : Command H (Decision H) := do
  match ← call .read_head with
  | .detached _ => .fail (.validation "HEAD is detached — check out a branch before pulling.")
  | .branch branch =>
    let found ← call (.read_ref branch)
    if ← VaultClient.server_available then
      match ← VaultClient.get_ref (remote_ref env branch) with
      | none => .pure .no_remote_branch
      | some remote_tip =>
        if found.join = some remote_tip then .pure .up_to_date
        else pull_tip fuel branch found.join remote_tip
    else .fail (.validation "Registry unreachable")

def pull (env : Env) (fuel : Nat) (force : Bool) : Command H Pulled := do
  match ← pull_decision env fuel with
  | .no_remote_branch => .pure .no_remote_branch
  | .up_to_date => .pure .up_to_date
  | .diverged local_tip remote_tip => .fail (.merge_conflict local_tip remote_tip)
  | .fast_forward branch remote_tip => pull_onto branch remote_tip force

end AetherVault
