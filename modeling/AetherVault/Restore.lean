import AetherVault.Push

/-! Trees and the working tree: the committed tree a command compares with, what is
dirty against it, and the restore path shared by checkout and merge. -/
namespace AetherVault
open Lib Hashing
open Lib.Prog (call forEach foldEach)

variable {H : Type} [DecidableEq H] [Hashing H] [Canonical H]

/-- The tree of the HEAD commit, a tree of the old shape as it is read. -/
def resolve_head_tree : Command H (Tree H) := do
  let (parents,_) ← head_parents
  match parents with
  | [] => .pure ∅
  | h::_ =>
    match ← call (.read_commit h) with
    | none => .pure ∅
    | some data =>
      if tree_is_flat data.tree then .pure data.tree
      else match legacy_items data.tree with
        | none => .fail .type_error
        | some items => .pure (Dict.ofList (items.map fun item => (item.1,⟨item.2,0,.code,[],[]⟩)))

def compare_meta (file : WorkFile) (e : IndexEntry H) : Bool := file.size == e.size && file.mtime_ns == e.mtime_ns

structure Status where
  staged : List Path
  modified : List Path
  deleted : List Path

def status_entry (status : Status) (item : Path × IndexEntry H) : Command H Status := do
  match ← call (.stat item.1) with
  | none => .pure {status with deleted := status.deleted ++ [item.1]}
  | some file =>
    if item.2.staged then .pure {status with staged := status.staged ++ [item.1]}
    else if compare_meta file item.2 then .pure status
    else .pure {status with modified := status.modified ++ [item.1]}

def compute_status (idx : Index H) : Command H Status := foldEach status_entry idx.entries.entries ⟨[],[],[]⟩

def dirty_target (idx : Index H) (dirty : List Path) (item : Path × TreeEntry H) : Command H (List Path) := do
  match ← call (.stat item.1) with
  | some file =>
    if !idx.entries.contains item.1 ∧ Digest.sha (sha256 file.data.bytes) ≠ item.2.hash then .pure (dirty ++ [item.1])
    else .pure dirty
  | none => .pure dirty

def dirty_entry (dirty : List Path) (item : Path × IndexEntry H) : Command H (List Path) := do
  match ← call (.stat item.1) with
  | none => .pure (dirty ++ [item.1])
  | some file => if item.2.staged ∨ !compare_meta file item.2 then .pure (dirty ++ [item.1]) else .pure dirty

def _collect_dirty_paths (idx : Index H) (target_tree : Tree H) : Command H (List Path) := do
  let overwritten ← foldEach (dirty_target idx) target_tree.entries []
  foldEach dirty_entry idx.entries.entries overwritten

/-! Bringing a tree back. -/

def missing_shard (missing : Bool) (h : H) : Command H Bool := do
  let found ← call (.read_object h)
  .pure (missing || found.isNone)

def missing_entry (verify : Bool) (missing : List Path) (item : Path × TreeEntry H) : Command H (List Path) := do
  let parts := if item.2.layers ≠ [] then item.2.layers.map (·.hash) else item.2.chunks.map (·.hash)
  let absent ←
    if parts ≠ [] then foldEach missing_shard parts false
    else do
      let name ← object_path item.2.hash
      match ← read_local name with
      | none => .pure true
      | some content => .pure (verify && decide (Digest.sha (sha256 content) ≠ item.2.hash))
  .pure (if absent then missing ++ [item.1] else missing)

def tree_missing_objects (tree : Tree H) (verify : Bool) : Command H (List Path) :=
  foldEach (missing_entry verify) tree.entries []

def collect_hashes (hashes : List H) (item : Path × TreeEntry H) : Command H (List H) := do
  let names ← entry_objects item.2
  if names = [] then .fail (.validation "refusing to materialize a partial tree.")
  else .pure (hashes ++ names.filter (fun h => h ∉ hashes))

def missing_local (missing : List H) (h : H) : Command H (List H) := do
  let found ← call (.read_object h)
  .pure (if found.isNone then missing ++ [h] else missing)

def fetch_object (h : H) : Command H Unit := do
  match ← VaultClient.download_object h with
  | some content => call (.publish_object content)
  | none => .pure ()

/-- Refuses to go on unless every object of the tree is, or can be made, local. -/
def ensure_objects_local (tree : Tree H) : Command H Unit := do
  let needed ← foldEach collect_hashes tree.entries []
  let missing ← foldEach missing_local needed []
  if missing = [] then .pure ()
  else do
    let found ← VaultClient.batch_check_objects missing
    let downloadable := missing.filter (fun h => h ∈ found)
    forEach downloadable fetch_object
    let unrecoverable ← foldEach missing_local downloadable (missing.filter (fun h => h ∉ found))
    if unrecoverable = [] then .pure () else .fail (.validation "refusing to materialize a partial tree.")

/-- Unreachable server: every object must be here before anything is written. -/
def check_restorable (tree : Tree H) (verify : Bool) : Command H Bool := do
  if ← VaultClient.server_available then .pure true
  else do
    let missing ← tree_missing_objects tree verify
    if missing = [] then .pure false
    else .fail (.missing_object "file(s) can't be restored, their objects are missing or corrupt and the server is unreachable")

def restore_entry (verify : Bool) (idx : Index H) (item : Path × TreeEntry H) : Command H (Index H) := do
  let info := item.2
  let added := idx.add_split_entry item.1 info.hash info.size 0 info.type (pointer_of item.1 info.type) info.layers info.chunks
  materialize_file item.1 info.hash info.layers info.chunks verify
  .pure added

def restore_flat (tree : Tree H) (verify : Bool) : Command H (Index H) := do
  let server_up ← check_restorable tree verify
  if server_up then ensure_objects_local tree else .pure ()
  foldEach (restore_entry verify) tree.entries .empty

def restore_legacy (tree : Tree H) : Command H (Index H) :=
  match legacy_items tree with
  | none => .fail .type_error
  | some items => .pure (items.foldl (fun idx item => idx.add_entry item.1 item.2 0 0 .code none) .empty)

def remove_untracked (idx : Index H) (path : Path) : Command H Unit :=
  if idx.entries.contains path then .pure () else call (.remove_file path)

/-- The real size and mtime; the entry is committed, so it is not staged. -/
def clean_entry (file : Option WorkFile) (e : IndexEntry H) : IndexEntry H :=
  match file with
  | some file => {e with size := file.size,mtime_ns := file.mtime_ns,staged := false}
  | none => {e with staged := false}

def restat_entry (idx : Index H) (path : Path) : Command H (Index H) := do
  let file ← call (.stat path)
  .pure {idx with entries := idx.entries.modify path (clean_entry file)}

/-- Makes index and working tree match a tree; the index is saved last. -/
def _materialize_tree (tree : Tree H) (idx : Index H) (verify : Bool) : Command H (Index H) := do
  let restored ← if tree_is_flat tree then restore_flat tree verify else restore_legacy tree
  forEach idx.entries.keys (remove_untracked restored)
  let final ← foldEach restat_entry restored.entries.keys restored
  call (.save_index final)
  .pure final

end AetherVault
