import AetherVault.Restore

/-! The commands that write the index: `add`, `rm`, `unstage`, `branch`, `checkout`
and `stash`. -/
namespace AetherVault
open Lib Hashing
open Lib.Prog (call forEach foldEach)

variable {H : Type} [DecidableEq H] [Hashing H] [Canonical H]

/-! `add`: what to stage is decided first, from the index as it is loaded. -/

structure Work (H : Type) where
  rel_path : Path
  file_type : FileType
  existing_entry : Option (IndexEntry H)
  attr_flags : List String

def select_work (env : Env) (idx : Index H) (work : List (Work H)) (path : Path) : Command H (List (Work H)) := do
  match ← call (.stat path) with
  | none => .pure work
  | some file =>
    let existing_entry := idx.entries.get? path
    if existing_entry.any (compare_meta file) then .pure work
    else .pure (work ++ [⟨path,Index.classify_file path,existing_entry,env.flags_for path⟩])

def stage_work (staged : Index H × List (StageResult H)) (work : Work H) : Command H (Index H × List (StageResult H)) := do
  match ← call (.stage work.rel_path work.file_type work.existing_entry work.attr_flags) with
  | none => .fail .os_error
  | some none => .pure staged
  | some (some result) => .pure (apply_stage_result staged.1 result,staged.2 ++ [result])

/-- One staged path, merged into the index as it is now. -/
def merge_staged (idx current : Index H) (item : StageResult H) : Index H :=
  let added := current.add_entry item.rel_path (.sha item.hash) item.size 0 item.file_type none
  match idx.entries.get? item.rel_path with
  | some e => {added with entries := added.entries.set item.rel_path e}
  | none => added

def add (env : Env) (files_to_process : List Path) : Command H Unit := do
  let idx ← call .load_index
  let work ← foldEach (select_work env idx) files_to_process []
  let (staged,items) ← foldEach stage_work work (idx,[])
  if items = [] then .pure ()
  else with_lock .repo do
    let current ← call .load_index
    call (.save_index (items.foldl (merge_staged staged) current))

/-! `rm` -/

def tracked_below (idx : Index H) (path : Path) : List Path := idx.entries.keys.filter (fun rel => path.isPrefixOf rel)

def rm (paths : List Path) (cached : Bool) : Command H Unit :=
  with_lock .repo do
    let idx ← call .load_index
    if paths.any (fun path => tracked_below idx path = []) then .fail (.validation "Path is not tracked.")
    else do
      let selected := (paths.flatMap (tracked_below idx)).dedup
      forEach selected fun path => if cached then .pure () else call (.remove_file path)
      call (.save_index (selected.foldl Index.stage_removal idx))

/-! `unstage` -/

/-- The entry an unstaged path goes back to. -/
def unstaged_entry (path : Path) (head_data : TreeEntry H) : IndexEntry H :=
  ⟨head_data.hash,head_data.size,0,head_data.type,false,pointer_of path head_data.type,head_data.layers,[]⟩

def unstage_path (head_tree : Tree H) (idx : Index H) (path : Path) : Command H (Index H) :=
  if !idx.entries.contains path then .fail .type_error
  else match head_tree.get? path with
    | some head_data => .pure {idx with entries := idx.entries.set path (unstaged_entry path head_data)}
    | none => .pure {idx with entries := idx.entries.erase path}

def unstage (paths : List Path) : Command H Unit :=
  with_lock .repo do
    let idx ← call .load_index
    let staged := idx.get_staged_entries
    let rel_paths := if paths = [] then staged.keys else paths.filter (staged.contains ·)
    if rel_paths = [] then .pure ()
    else do
      let head_tree ← resolve_head_tree
      let reverted ← foldEach (unstage_path head_tree) rel_paths idx
      call (.save_index reverted)

/-! `branch` and `checkout` -/

/-- A branch by its name, or a commit by its hash. -/
inductive Target (H : Type)
  | branch (name : String)
  | commit (h : H)

def branch (name : String) : Command H Unit := do
  let (parents,_) ← head_parents
  call (.write_ref name parents.head?)

def find_commit (h : H) : Command H (Option (CommitData H)) := do
  match ← call (.read_commit h) with
  | some data => .pure (some data)
  | none =>
    if ← VaultClient.server_available then
      match ← VaultClient.get_commit h with
      | some data => do
        call (.write_commit h data)
        .pure (some data)
      | none => .pure none
    else .pure none

def resolve_target (target : Target H) : Command H (Option H × Option String) := do
  match target with
  | .branch name =>
    match ← call (.read_ref name) with
    | some tip => .pure (tip,some name)
    | none => .pure (none,none)
  | .commit h => .pure (some h,none)

def checkout_tree (h : H) (ref_name : Option String) (data : CommitData H) (force : Bool) : Command H Unit :=
  with_lock .repo do
    let idx ← call .load_index
    let dirty ← if force then .pure [] else _collect_dirty_paths idx data.tree
    if dirty = [] then do
      let _ ← _materialize_tree data.tree idx true
      call (.write_head (match ref_name with
        | some name => .branch name
        | none => .detached h))
    else .fail (.validation "You have uncommitted changes that would be overwritten by checkout.")

def checkout (target : Target H) (force : Bool) : Command H Unit := do
  let (commit_hash,ref_name) ← resolve_target target
  match commit_hash with
  | none => .fail (.validation "Commit not found.")
  | some h =>
    match ← find_commit h with
    | none => .fail (.validation "Commit not found.")
    | some data => checkout_tree h ref_name data force

/-! `stash` -/

def stage_one_file (env : Env) (idx : Index H) (path : Path) : Command H (Index H) := do
  match ← call (.stage path (Index.classify_file path) (idx.entries.get? path) (env.flags_for path)) with
  | none => .fail .os_error
  | some none => .pure idx
  | some (some result) => .pure (apply_stage_result idx result)

def reverted_entry (path : Path) (head_data : TreeEntry H) : IndexEntry H :=
  ⟨head_data.hash,head_data.size,0,head_data.type,false,pointer_of path head_data.type,head_data.layers,head_data.chunks⟩

/-- Back to HEAD, with the size and mtime of the file just restored. -/
def revert_path (head_tree : Tree H) (idx : Index H) (path : Path) : Command H (Index H) := do
  match head_tree.get? path with
  | some head_data =>
    materialize_file path head_data.hash head_data.layers head_data.chunks false
    let entry := reverted_entry path head_data
    match ← call (.stat path) with
    | some file => .pure {idx with entries := idx.entries.set path {entry with size := file.size,mtime_ns := file.mtime_ns}}
    | none => .pure {idx with entries := idx.entries.set path entry}
  | none =>
    call (.remove_file path)
    .pure {idx with entries := idx.entries.erase path}

def stash_entry (path : Path) (was_staged : Bool) (e : IndexEntry H) : StashEntry H :=
  ⟨path,e.hash,e.size,e.type,e.layers,e.chunks,e.pointer,was_staged⟩

def stash_path (env : Env) (head_tree : Tree H) (staged : List Path) (saved : Index H × List (StashEntry H))
    (path : Path) : Command H (Index H × List (StashEntry H)) := do
  let was_staged := decide (path ∈ staged)
  let idx ← if was_staged then .pure saved.1 else stage_one_file env saved.1 path
  match idx.entries.get? path with
  | none => .fail .type_error
  | some e =>
    let reverted ← revert_path head_tree idx path
    .pure (reverted,saved.2 ++ [stash_entry path was_staged e])

def _stash_push (env : Env) : Command H Unit := do
  let idx ← call .load_index
  let status ← compute_status idx
  let dirty_paths := status.staged ++ status.modified
  if dirty_paths = [] then .pure ()
  else do
    let head_tree ← resolve_head_tree
    let (reverted,stash_entries) ← foldEach (stash_path env head_tree status.staged) dirty_paths (idx,[])
    call (.save_index reverted)
    call (.save_stash stash_entries)

/-- The popped entry: staged again, or back on the baseline of HEAD. -/
def popped_entry (head_tree : Tree H) (entry : StashEntry H) (file : Option WorkFile) : IndexEntry H :=
  if entry.was_staged then
    ⟨entry.hash,(file.map WorkFile.size).getD 0,(file.map WorkFile.mtime_ns).getD 0,entry.type,true,entry.pointer,
      entry.layers,entry.chunks⟩
  else
    ⟨((head_tree.get? entry.rel_path).map (·.hash)).getD entry.hash,
      ((head_tree.get? entry.rel_path).map (·.size)).getD entry.size,0,entry.type,false,entry.pointer,
      entry.layers,entry.chunks⟩

def pop_entry (head_tree : Tree H) (idx : Index H) (entry : StashEntry H) : Command H (Index H) := do
  materialize_file entry.rel_path entry.hash entry.layers entry.chunks false
  let file ← call (.stat entry.rel_path)
  .pure {idx with entries := idx.entries.set entry.rel_path (popped_entry head_tree entry file)}

def _stash_apply_or_pop (stash_id : Option Nat) (delete_after : Bool) : Command H Unit := do
  match ← call (.read_stash stash_id) with
  | none => .pure ()
  | some (id,record) => do
    let idx ← call .load_index
    let head_tree ← resolve_head_tree
    let popped ← foldEach (pop_entry head_tree) record idx
    call (.save_index popped)
    if delete_after then call (.delete_stash id) else .pure ()

end AetherVault
