import AetherVault.Staging
import AetherVault.Lib.Program
import Mathlib.Data.List.Sort

/-! The state a command acts on (the working tree, `.av` and the registry) and the
operations it is made of. A choice resolves what the code does not decide: what
becomes of a request, clock values, and whether the registry turns a commit down. -/
namespace AetherVault
open Lib Hashing

structure CommitData (H : Type) where
  parents : List H
  message : String
  timestamp : Nat
  tree : Tree H
  deriving DecidableEq

/-- The canonical sorted-keys JSON that a commit's hash covers. -/
class Canonical (H : Type) where
  canonical_commit_bytes : CommitData H → Bytes

inductive Head (H : Type)
  | branch (name : String)
  | detached (h : H)
  deriving DecidableEq

structure QueueEntry (H : Type) where
  commit_hash : H
  ref_name : Option String
  deriving DecidableEq

structure StashEntry (H : Type) where
  rel_path : Path
  hash : Digest H
  size : Nat
  type : FileType
  layers : List (Layer H)
  chunks : List (Chunk H)
  pointer : Option Path
  was_staged : Bool
  deriving DecidableEq

/-- `.av/lock` and `.av/queue.lock`. -/
inductive LockName
  | repo
  | queue
  deriving DecidableEq

/-- A lock is free, or held by a process some number of times. -/
abbrev Locks := LockName → Option (Nat × Nat)

variable {H : Type} [DecidableEq H] [Hashing H] [Canonical H]

def commit_hash (data : CommitData H) : H := sha256 (Canonical.canonical_commit_bytes data)

/-- A serialization for the ideal digest: every byte of a part is marked, so that parts can be told apart. -/
def marked (bytes : Bytes) : Bytes := bytes.flatMap fun b => [2,b]

def letters (text : String) : Bytes := text.toList.map fun c => UInt8.ofNat c.toNat

def serialized (item : Path × TreeEntry Name) : Bytes :=
  marked (letters item.1.text) ++ match item.2.hash with
    | .sha h => 3::marked h.bytes
    | _ => [4]

instance : Canonical Name where
  canonical_commit_bytes data :=
    data.parents.flatMap (fun parent => 1::marked parent.bytes) ++ 0::marked (letters data.message) ++
      List.replicate data.timestamp 5 ++ data.tree.entries.flatMap (fun item => 6::serialized item)

structure Repo (H : Type) [DecidableEq H] [Hashing H] where
  files : Dict Path WorkFile
  index : Index H
  head : Head H
  /-- a branch created before the first commit is an empty file -/
  refs : Dict String (Option H)
  commits : Dict H (CommitData H)
  objects : Objects H
  pending_push : List (QueueEntry H)
  stashes : List (Nat × List (StashEntry H))
  locks : Locks

structure Server (H : Type) [DecidableEq H] [Hashing H] where
  objects : Objects H
  commits : Dict H (CommitData H)
  refs : Dict String H
  /-- `AV_MAX_UPLOAD_BYTES`, zero for no limit -/
  max_upload_bytes : Nat

/-- `link` is false from the first request that failed on, until a command starts. -/
structure World (H : Type) [DecidableEq H] [Hashing H] where
  repo : Repo H
  server : Server H
  link : Bool

/-- `_init_repo_structure`: an empty `main`, checked out. -/
def Repo.init : Repo H where
  files := ∅
  index := .empty
  head := .branch "main"
  refs := Dict.empty.set "main" none
  commits := ∅
  objects := .empty
  pending_push := []
  stashes := []
  locks := fun _ => none

def Server.empty (max_upload_bytes : Nat) : Server H := ⟨.empty,∅,∅,max_upload_bytes⟩

/-! A reader of the old `{code, artifacts}` shape meets a tree with a file of that
name at its root, and takes the fields of that file's entry for paths. -/

def tree_is_flat (tree : Tree H) : Bool := !(tree.contains ["code"] || tree.contains ["artifacts"])

/-- The items of `tree["code"]`, read as paths and hashes. -/
def legacy_code (tree : Tree H) : List (Path × Digest H) :=
  match tree.get? ["code"] with
  | none => []
  | some e => [(["hash"],e.hash),(["size"],.size e.size),(["type"],.kind e.type),
      (["layers"],.layers e.layers),(["chunks"],.chunks e.chunks)]

/-- The items of `tree["artifacts"]` are no dictionaries, so indexing one raises. -/
def legacy_items (tree : Tree H) : Option (List (Path × Digest H)) :=
  if tree.contains ["artifacts"] then none else some (legacy_code tree)

/-! The registry, as far as clients see it. -/

namespace Server

def upload_object (server : Server H) (h : H) (content : Bytes) : Nat × Server H :=
  if server.objects.exists? h then (409,server)
  else if server.max_upload_bytes > 0 ∧ content.length > server.max_upload_bytes then (413,server)
  else if sha256 content ≠ h then (400,server)
  else (201,{server with objects := server.objects.publish content})

def check_objects_batch (server : Server H) (hashes : List H) : List H := hashes.filter server.objects.exists?

/-- `rejected`: a limit of the endpoint or a constraint of the database. -/
def push_commit (server : Server H) (rejected : Bool) (h : H) (data : CommitData H) : Nat × Server H :=
  if server.commits.contains h then (409,server)
  else if tree_is_flat data.tree = false ∧ legacy_items data.tree = none then (500,server)
  else if rejected then (422,server)
  else (201,{server with commits := server.commits.set h data})

/-- The row is served as it was stored, a tree of the old shape flattened. -/
def get_commit (server : Server H) (h : H) : Option (CommitData H) :=
  (server.commits.get? h).map fun data =>
    if tree_is_flat data.tree then data
    else {data with tree := Dict.ofList ((legacy_code data.tree).map fun item => (item.1,⟨item.2,0,.code,[],[]⟩))}

def listing (server : Server H) : List (H × CommitData H) :=
  server.commits.entries.insertionSort fun a b => b.2.timestamp ≤ a.2.timestamp

/-- A page of the listing with its trees resolved, and where the next page begins. -/
def list_commits (server : Server H) (limit offset : Nat) : List (H × CommitData H) × Option Nat :=
  (((server.listing.drop offset).take limit).filterMap fun item => (server.get_commit item.1).map (item.1,·),
    if offset + limit < server.listing.length then some (offset + limit) else none)

/-- `none` when the compare-and-swap is lost. -/
def update_ref (server : Server H) (ref_name : String) (h : H) (expected_hash : Option H) : Bool × Server H :=
  if expected_hash.isSome ∧ server.refs.get? ref_name ≠ expected_hash then (false,server)
  else (true,{server with refs := server.refs.set ref_name h})

end Server

inductive Net
  | answered
  | refused
  | lost
  | unanswered
  deriving DecidableEq

structure Choice where
  net : Net
  rejected : Bool
  clock : Nat

inductive Reply (α : Type)
  | answered (a : α)
  | unauthorized
  | unreachable

structure RefReply (H : Type) where
  updated : Bool
  current : Option H

inductive Op (H : Type) : Type → Type
  | stat (path : Path) : Op H (Option WorkFile)
  | working_files : Op H (List Path)
  | write_file (path : Path) (content : Bytes) : Op H Bool
  | remove_file (path : Path) : Op H Unit
  | stage (path : Path) (file_type : FileType) (existing : Option (IndexEntry H)) (attr_flags : List String) :
      Op H (Option (Option (StageResult H)))
  | load_index : Op H (Index H)
  | save_index (idx : Index H) : Op H Unit
  | read_head : Op H (Head H)
  | write_head (head : Head H) : Op H Unit
  | read_ref (name : String) : Op H (Option (Option H))
  | write_ref (name : String) (h : Option H) : Op H Unit
  | read_commit (h : H) : Op H (Option (CommitData H))
  | write_commit (h : H) (data : CommitData H) : Op H Unit
  /-- the commit files as a walk finds them; files are only ever added -/
  | load_commits : Op H (Dict H (CommitData H))
  | read_object (h : H) : Op H (Option Bytes)
  | publish_object (content : Bytes) : Op H Unit
  | load_pending_push : Op H (List (QueueEntry H))
  | save_pending_push (pending : List (QueueEntry H)) : Op H Unit
  | acquire (lock : LockName) : Op H Bool
  | release (lock : LockName) : Op H Unit
  | save_stash (entries : List (StashEntry H)) : Op H Unit
  | read_stash (id : Option Nat) : Op H (Option (Nat × List (StashEntry H)))
  | delete_stash (id : Nat) : Op H Unit
  | now : Op H Nat
  | server_available : Op H Bool
  | batch_check (hashes : List H) : Op H (Reply (List H))
  | upload (h : H) (content : Bytes) : Op H (Reply Nat)
  | download (h : H) : Op H (Reply (Option Bytes))
  | push_commit (h : H) (data : CommitData H) : Op H (Reply Nat)
  | get_commit (h : H) : Op H (Reply (Option (CommitData H)))
  | update_ref (ref_name : String) (h : H) (expected_hash : Option H) : Op H (Reply (RefReply H))
  | get_ref (ref_name : String) : Op H (Reply (Option H))
  | list_refs : Op H (Reply (Dict String H))
  | list_commits (limit offset : Nat) : Op H (Reply (List (H × CommitData H) × Option Nat))

/-- The configuration of a repository. -/
structure Env where
  staging : StageEnv
  project_id : String
  flags_for : Path → List String

namespace World

/-- A request takes effect when it is answered, and when only its answer is lost. -/
def request {α : Type} (w : World H) (c : Choice) (effect : Server H → α × Server H) : Reply α × World H :=
  match c.net with
  | .answered => (.answered (effect w.server).1,{w with server := (effect w.server).2})
  | .refused => (.unauthorized,{w with link := false})
  | .lost => (.unreachable,{w with link := false})
  | .unanswered => (.unreachable,{w with server := (effect w.server).2,link := false})

def acquire (w : World H) (me : Nat) (lock : LockName) : Bool × World H :=
  match w.repo.locks lock with
  | none => (true,{w with repo := {w.repo with locks := Function.update w.repo.locks lock (some (me,1))}})
  | some (owner,depth) =>
    if owner = me then
      (true,{w with repo := {w.repo with locks := Function.update w.repo.locks lock (some (me,depth+1))}})
    else (false,w)

def release (w : World H) (me : Nat) (lock : LockName) : World H :=
  match w.repo.locks lock with
  | none => w
  | some (owner,depth) =>
    if owner = me then
      {w with repo := {w.repo with
        locks := Function.update w.repo.locks lock (if depth ≤ 1 then none else some (me,depth-1))}}
    else w

def write_file (w : World H) (path : Path) (content : Bytes) (clock : Nat) : Bool × World H :=
  match FileData.ofBytes? content with
  | none => (false,w)
  | some data => (true,{w with repo := {w.repo with files := w.repo.files.set path ⟨data,clock⟩}})

/-- The file's own mtime and content; `none` when there is no such file. -/
def stage (w : World H) (env : Env) (path : Path) (file_type : FileType) (existing : Option (IndexEntry H))
    (attr_flags : List String) : Option (Option (StageResult H)) × World H :=
  match w.repo.files.get? path with
  | none => (none,w)
  | some file =>
    let done := _compute_stage_result env.staging w.repo.objects file path file_type existing attr_flags
    (some done.2,{w with repo := {w.repo with objects := done.1}})

def exec (env : Env) (me : Nat) (β : Type) (c : Choice) (o : Op H β) (w : World H) : β × World H :=
  match β,o with
  | _,.stat path => (w.repo.files.get? path,w)
  | _,.working_files => (w.repo.files.keys,w)
  | _,.write_file path content => w.write_file path content c.clock
  | _,.remove_file path => ((),{w with repo := {w.repo with files := w.repo.files.erase path}})
  | _,.stage path file_type existing attr_flags => w.stage env path file_type existing attr_flags
  | _,.load_index => (w.repo.index,w)
  | _,.save_index idx => ((),{w with repo := {w.repo with index := idx}})
  | _,.read_head => (w.repo.head,w)
  | _,.write_head head => ((),{w with repo := {w.repo with head := head}})
  | _,.read_ref name => (w.repo.refs.get? name,w)
  | _,.write_ref name h => ((),{w with repo := {w.repo with refs := w.repo.refs.set name h}})
  | _,.read_commit h => (w.repo.commits.get? h,w)
  | _,.write_commit h data => ((),{w with repo := {w.repo with commits := w.repo.commits.set h data}})
  | _,.load_commits => (w.repo.commits,w)
  | _,.read_object h => (w.repo.objects.get? h,w)
  | _,.publish_object content => ((),{w with repo := {w.repo with objects := w.repo.objects.publish content}})
  | _,.load_pending_push => (w.repo.pending_push,w)
  | _,.save_pending_push pending => ((),{w with repo := {w.repo with pending_push := pending}})
  | _,.acquire lock => w.acquire me lock
  | _,.release lock => ((),w.release me lock)
  | _,.save_stash entries => ((),{w with repo := {w.repo with stashes := (c.clock,entries)::w.repo.stashes}})
  | _,.read_stash none => (w.repo.stashes.head?,w)
  | _,.read_stash (some id) => (w.repo.stashes.find? (fun s => s.1 == id),w)
  | _,.delete_stash id => ((),{w with repo := {w.repo with stashes := w.repo.stashes.filter (fun s => s.1 != id)}})
  | _,.now => (c.clock,w)
  | _,.server_available => (decide (c.net = .answered),{w with link := w.link && decide (c.net = .answered)})
  | _,.batch_check hashes => w.request c (fun server => (server.check_objects_batch hashes,server))
  | _,.upload h content => w.request c (fun server => server.upload_object h content)
  | _,.download h => w.request c (fun server => (server.objects.get? h,server))
  | _,.push_commit h data => w.request c (fun server => server.push_commit c.rejected h data)
  | _,.get_commit h => w.request c (fun server => (server.get_commit h,server))
  | _,.update_ref ref_name h expected_hash => w.request c (fun server =>
      let done := server.update_ref ref_name h expected_hash
      (⟨done.1,server.refs.get? ref_name⟩,done.2))
  | _,.get_ref ref_name => w.request c (fun server => (server.refs.get? ref_name,server))
  | _,.list_refs => w.request c (fun server => (server.refs,server))
  | _,.list_commits limit offset => w.request c (fun server => (server.list_commits limit offset,server))

end World

end AetherVault
