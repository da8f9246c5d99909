import AetherVault.Merkle
import AetherVault.Restore
import AetherVault.Signing

/-! The working tree as a file system, where a directory can stand in a file's place, the object files as they are, damaged or
not, and the restore path of checkout over both. -/
namespace AetherVault.WorkTrees
open Lib Hashing

structure File where
  content : Bytes
  mtime_ns : Nat
  deriving DecidableEq

inductive Node
  | file (file : File)
  | dir
  deriving DecidableEq

/-- What lies below the root of the repository, its `.av` apart. -/
abbrev Disk := Dict Path Node

namespace Disk

def file_at (disk : Disk) (path : Path) : Option File :=
  match disk.get? path with
  | some (.file file) => some file
  | _ => none

def is_dir (disk : Disk) (path : Path) : Bool := disk.get? path = some .dir

/-- The nearest last. -/
def ancestors (path : Path) : List Path := path.inits.filter (· ≠ path)

/-- A file is where `path` needs a directory. -/
def blocked (disk : Disk) (path : Path) : Bool := (ancestors path).any fun parent => (disk.file_at parent).isSome

def mkdir_parents (disk : Disk) (path : Path) : Disk :=
  (ancestors path).foldl (fun disk parent => if disk.contains parent then disk else disk.set parent .dir) disk

def write (disk : Disk) (path : Path) (file : File) : Disk := disk.set path (.file file)

def unlink (disk : Disk) (path : Path) : Disk := if (disk.file_at path).isSome then disk.erase path else disk

def occupied (disk : Disk) (dir : Path) : Bool := disk.keys.any fun path => path ≠ dir && dir.isPrefixOf path

/-- Stops at the first that cannot be removed. -/
def rmdir_empty (disk : Disk) : List Path → Disk
  | [] => disk
  | dir::rest => if !disk.is_dir dir || disk.occupied dir then disk else rmdir_empty (disk.erase dir) rest

/-- Directories that become empty go too, up to the root or an `.av`. -/
def remove_file (disk : Disk) (path : Path) : Disk :=
  if (disk.file_at path).isSome then
    rmdir_empty (disk.erase path) ((ancestors path).reverse.takeWhile fun parent => parent ≠ [] && parent.name ≠ ".av")
  else disk

def remove_file_and_pointer (disk : Disk) (path : Path) : Disk := unlink (disk.remove_file path) path.pointer

end Disk

variable {H : Type} [DecidableEq H] [Hashing H] [HexDigest H]

/-- The object files under their names, whatever they hold. -/
abbrev ObjectFiles (H : Type) [DecidableEq H] := Dict H File

structure Place (H : Type) [DecidableEq H] where
  disk : Disk
  objects : ObjectFiles H

/-- What the registry sends for an object, if it is reached and what comes has the object's hash. -/
abbrev Registry (H : Type) := H → Option Bytes

section
variable (now : Nat) (registry : Registry H)

omit [Hashing H] [HexDigest H]

/-- One shard, from its object file or downloaded into it. -/
def fetch_shard (objects : ObjectFiles H) (h : H) : ObjectFiles H × Option Bytes :=
  match objects.get? h with
  | some file => (objects,some file.content)
  | none => match registry h with
    | some content => (objects.set h ⟨content,now⟩,some content)
    | none => (objects,none)

def fetch_shards (objects : ObjectFiles H) : List H → ObjectFiles H × Option Bytes
  | [] => (objects,some [])
  | h::rest =>
    let one := fetch_shard now registry objects h
    match one.2 with
    | none => (one.1,none)
    | some content =>
      let later := fetch_shards one.1 rest
      (later.1,later.2.map fun others => content ++ others)

end

section
variable (now : Nat) (registry : Registry H) (verify : Bool) (place : Place H) (path : Path)

/-- The file is opened before the first shard is looked for. -/
def reassemble (hash : Digest H) (shards : List H) : Place H × Bool :=
  if place.disk.is_dir path then (place,false)
  else
    let got := fetch_shards now registry place.objects shards
    match got.2 with
    | none => (⟨place.disk.erase path,got.1⟩,false)
    | some content =>
      if verify && decide (hash ≠ .sha (sha256 content)) then (⟨place.disk.erase path,got.1⟩,false)
      else (⟨place.disk.write path ⟨content,now⟩,got.1⟩,true)

/-- `shutil.copy2` copies into a directory, under the name of the object file. -/
def copied_to (disk : Disk) (path : Path) (h : H) : Path :=
  if disk.is_dir path then path ++ [String.ofList ((HexDigest.hexdigest h).toList.drop 2)] else path

def copy_object (h : H) (file : File) : Place H × Bool :=
  let dest := copied_to place.disk path h
  if place.disk.is_dir dest then (place,false) else ({place with disk := place.disk.write dest file},true)

def materialize_whole (h : H) : Place H × Bool :=
  match place.objects.get? h with
  | some file =>
    if verify && decide (sha256 file.content ≠ h) then (place,false) else copy_object place path h file
  | none => match registry h with
    | none => (place,false)
    | some content =>
      if place.disk.is_dir path then (place,false)
      else (⟨place.disk.write path ⟨content,now⟩,place.objects.set h ⟨content,now⟩⟩,true)

/-- Whether the file has been restored; only text can be cut into the name of an object file. -/
def materialize_file (e : TreeEntry H) : Place H × Bool :=
  match e.hash with
  | .size _ => (place,false)
  | .layers _ => (place,false)
  | .chunks _ => (place,false)
  | hash =>
    if place.disk.blocked path then (place,false)
    else
      let place := {place with disk := place.disk.mkdir_parents path}
      if e.layers ≠ [] ∨ e.chunks ≠ [] then reassemble now registry verify place path hash (shards_of e.layers e.chunks)
      else match hash with
        | .sha h => materialize_whole now registry verify place path h
        | _ => (place,false)

end

/-! Before anything is written. -/

def parts_of (e : TreeEntry H) : List H := if e.layers ≠ [] then e.layers.map (·.hash) else e.chunks.map (·.hash)

def entry_missing (objects : ObjectFiles H) (verify : Bool) (e : TreeEntry H) : Bool :=
  if parts_of e ≠ [] then (parts_of e).any fun h => !objects.contains h
  else match e.hash with
    | .sha h => (objects.get? h).all fun file => verify && decide (sha256 file.content ≠ h)
    | _ => true

def tree_missing_objects (objects : ObjectFiles H) (tree : Tree H) (verify : Bool) : List Path :=
  (tree.entries.filter fun item => entry_missing objects verify item.2).map Prod.fst

def entry_hashes (e : TreeEntry H) : List H :=
  let parts := e.layers.map (·.hash) ++ e.chunks.map (·.hash)
  if parts ≠ [] then parts else match e.hash with
    | .sha h => [h]
    | _ => []

/-- What is missing is downloaded; whether all of it has come. -/
def ensure_objects_local (now : Nat) (registry : Registry H) (objects : ObjectFiles H) (tree : Tree H) : ObjectFiles H × Bool :=
  let missing := (tree.entries.flatMap fun item => entry_hashes item.2).filter fun h => !objects.contains h
  let after := missing.foldl (fun objects h => (registry h).elim objects fun content => objects.set h ⟨content,now⟩) objects
  (after,missing.all after.contains && tree.entries.all fun item => entry_hashes item.2 ≠ [])

/-- The object files as a restore finds them, and whether it may go on; `none` for a registry that is not reached. -/
def prepare (now : Nat) (server : Option (Registry H)) (objects : ObjectFiles H) (tree : Tree H) (verify : Bool) : ObjectFiles H × Bool :=
  match server with
  | none => (objects,(tree_missing_objects objects tree verify).isEmpty)
  | some registry => ensure_objects_local now registry objects tree

/-! Trees. -/

structure Repo (H : Type) [DecidableEq H] extends Place H where
  index : Index H
  head : Head H

/-- One file after the other, up to the first that fails. -/
def restore_files (now : Nat) (registry : Registry H) (verify : Bool) (place : Place H) : List (Path × TreeEntry H) → Place H × Bool
  | [] => (place,true)
  | item::rest =>
    let one := materialize_file now registry verify place item.1 item.2
    if one.2 then restore_files now registry verify one.1 rest else one

/-- The entry as it is once its file has been restored. -/
def settled_entry (disk : Disk) (path : Path) (e : IndexEntry H) : IndexEntry H :=
  match disk.file_at path with
  | some file => {e with size := file.content.length,mtime_ns := file.mtime_ns,staged := false}
  | none => {e with staged := false}

/-- What the new index no longer has is deleted, and the entries that stay take what is on disk. -/
def settle (repo : Repo H) (entries : Dict Path (IndexEntry H)) : Repo H :=
  let disk := (repo.index.entries.keys.filter fun path => !entries.contains path).foldl Disk.remove_file_and_pointer repo.disk
  {repo with disk := disk,index := ⟨entries.map (settled_entry disk),[]⟩}

def tree_index_entry (path : Path) (e : TreeEntry H) : IndexEntry H :=
  ⟨e.hash,e.size,0,e.type,true,pointer_of path e.type,e.layers,e.chunks⟩

/-- An exception comes before the index is saved. -/
def _materialize_tree (now : Nat) (server : Option (Registry H)) (verify : Bool) (repo : Repo H) (tree : Tree H) : Repo H × Bool :=
  if tree_is_flat tree then
    let prepared := prepare now server repo.objects tree verify
    if !prepared.2 then ({repo with objects := prepared.1},false)
    else
      let restored := restore_files now (server.getD fun _ => none) verify ⟨repo.disk,prepared.1⟩ tree.entries
      let repo := {repo with toPlace := restored.1}
      if restored.2 then (settle repo (tree.map tree_index_entry),true) else (repo,false)
  else match legacy_items tree with
    | none => (repo,false)
    | some items =>
      (settle repo (items.foldl (fun idx item => idx.add_entry item.1 item.2 0 0 .code none) Index.empty).entries,true)

def dirty_entry (disk : Disk) (path : Path) (e : IndexEntry H) : Bool :=
  (disk.file_at path).all fun file => e.staged || !(file.content.length == e.size && file.mtime_ns == e.mtime_ns)

/-- An untracked file that the tree would overwrite with other content. -/
def overwritten (repo : Repo H) (path : Path) (e : TreeEntry H) : Bool :=
  !repo.index.entries.contains path && (repo.disk.file_at path).any fun file => decide (Digest.sha (sha256 file.content) ≠ e.hash)

def _collect_dirty_paths (repo : Repo H) (target_tree : Tree H) : List Path :=
  ((target_tree.entries.filter fun item => overwritten repo item.1 item.2).map Prod.fst) ++
    (repo.index.entries.entries.filter fun item => dirty_entry repo.disk item.1 item.2).map Prod.fst

/-- `target` is the commit's tree and `head` what HEAD becomes; whether the checkout has gone through. -/
def checkout (now : Nat) (server : Option (Registry H)) (force : Bool) (repo : Repo H) (target : Tree H) (head : Head H) : Repo H × Bool :=
  if !force && !(_collect_dirty_paths repo target).isEmpty then (repo,false)
  else
    let done := _materialize_tree now server true repo target
    if done.2 then ({done.1 with head := head},true) else done

end AetherVault.WorkTrees
