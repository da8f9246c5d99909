import AetherVault.World
import Mathlib.Data.String.Basic
import Mathlib.Data.List.Sort

/-! The registry from inside: database rows, the files of the object store with their
modification times, the Redis filters, and the statements its handlers are made of. -/
namespace AetherVault
open Lib Hashing

abbrev Tenant := String

/-- `AV_CAS_ISOLATION`. -/
inductive CasIsolation
  | shared
  | isolated
  deriving DecidableEq

/-- `_cas_tenant_id` of a request by a tenant. -/
def CasIsolation.cas_tenant_id : CasIsolation → Tenant → Option Tenant
  | .shared,_ => none
  | .isolated,tenant => some tenant

structure DBObject where
  size : Nat
  created_at : Nat
  deriving DecidableEq

/-- Either `child_tree_hash` or `object_hash` and the fields of the entry are set. -/
inductive TreeNode (H : Type)
  | child_tree_hash (h : H)
  | object_hash (entry : TreeEntry H)
  deriving DecidableEq

structure DBTree (H : Type) where
  tenant_id : Tenant
  tree_hash : H
  path_name : String
  node : TreeNode H
  deriving DecidableEq

structure DBCommit (H : Type) where
  tenant_id : Tenant
  root_tree_hash : H
  deriving DecidableEq

/-- The JSON text of a directory's sorted entries. -/
class TreeContent (H : Type) where
  tree_content : List (String × TreeNode H) → Bytes

variable {H : Type} [DecidableEq H] [Hashing H] [TreeContent H]

def tree_hash (entries : List (String × TreeNode H)) : H := sha256 (TreeContent.tree_content entries)

def node_bytes : String × TreeNode Name → Bytes
  | (name,.child_tree_hash h) => 7::marked (letters name) ++ 8::marked h.bytes
  | (name,.object_hash entry) => 7::marked (letters name) ++ 9::serialized ([],entry)

instance : TreeContent Name := ⟨fun entries => entries.flatMap node_bytes⟩

structure StoredFile where
  content : Bytes
  mtime : Nat
  deriving DecidableEq

/-- An object's place: flat, or under a tenant's own directory. -/
abbrev ObjectKey (H : Type) := Option Tenant × H

/-- Rows that a transaction has deleted and not committed yet. -/
structure Deleting (H : Type) where
  objects : List (Tenant × H)
  trees : List H

structure Registry (H : Type) where
  objects : Dict (Tenant × H) DBObject
  trees : List (DBTree H)
  commits : Dict H (DBCommit H)
  files : Dict (ObjectKey H) StoredFile
  /-- `av:hash_filter`, and one for each tenant under isolation; what was added to each -/
  filters : Option Tenant → List H
  deleting : Nat → Deleting H

/-- Time passes, and a Bloom filter can take a hash for one that was added. -/
structure Moment (H : Type) where
  clock : Nat
  collides : H → Bool

/-- What one request sees and does between two points at which another may run. -/
inductive Query (H : Type) : Type → Type
  | now : Query H Nat
  | bloom_exists (filter : Option Tenant) (hashes : List H) : Query H (List H)
  | bloom_add (filter : Option Tenant) (hashes : List H) : Query H Unit
  | delete_filter (filter : Option Tenant) : Query H Unit
  | reserve_filter (filter : Option Tenant) : Query H Unit
  | select_objects (cas_tenant_id : Option Tenant) (hashes : List H) : Query H (List H)
  /-- false for an `IntegrityError` -/
  | insert_object (tenant_id : Tenant) (h : H) (size : Nat) : Query H Bool
  | stat_file (key : ObjectKey H) : Query H (Option (Nat × Nat))
  | move_file (key : ObjectKey H) (content : Bytes) : Query H Unit
  | unlink_file (key : ObjectKey H) : Query H Bool
  | glob_files : Query H (List (ObjectKey H))
  | select_commit (h : H) : Query H Bool
  | tree_exists (cas_tenant_id : Option Tenant) (h : H) : Query H Bool
  /-- the rows of one push, in one transaction -/
  | insert_commit (rows : List (DBTree H)) (h : H) (row : DBCommit H) : Query H Bool
  | all_trees : Query H (List (DBTree H))
  | all_commits : Query H (List (DBCommit H))
  | all_objects : Query H (List ((Tenant × H) × DBObject))
  /-- a tenant's row, or every tenant's row of that hash -/
  | delete_objects (dead : List (Option Tenant × H)) : Query H Unit
  | delete_trees (dead : List H) : Query H Unit
  | commit : Query H Unit
  | rollback : Query H Unit

namespace Registry

def empty : Registry H := ⟨∅,[],∅,∅,fun _ => [],fun _ => ⟨[],[]⟩⟩

/-- A row of the trees table collides on `(tenant_id, tree_hash, path_name)`. -/
def tree_key_taken (r : Registry H) (row : DBTree H) : Bool :=
  r.trees.any fun other => other.tenant_id == row.tenant_id && other.tree_hash == row.tree_hash &&
    other.path_name == row.path_name

def finish (r : Registry H) (me : Nat) : Registry H :=
  {r with deleting := Function.update r.deleting me ⟨[],[]⟩}

/-- What the transaction of `me` deleted is gone for everyone. -/
def commit (r : Registry H) (me : Nat) : Registry H :=
  finish {r with
    objects := r.objects.filter fun key _ => decide (key ∉ (r.deleting me).objects)
    trees := r.trees.filter fun row => decide (row.tree_hash ∉ (r.deleting me).trees)} me

def insert_object (r : Registry H) (key : Tenant × H) (size clock : Nat) : Bool × Registry H :=
  if r.objects.contains key then (false,r) else (true,{r with objects := r.objects.set key ⟨size,clock⟩})

def insert_commit (r : Registry H) (rows : List (DBTree H)) (h : H) (row : DBCommit H) : Bool × Registry H :=
  if r.commits.contains h || rows.any r.tree_key_taken then (false,r)
  else (true,{r with trees := r.trees ++ rows,commits := r.commits.set h row})

def move_file (r : Registry H) (key : ObjectKey H) (content : Bytes) (clock : Nat) : Registry H :=
  {r with files := r.files.set key ⟨content,clock⟩}

def bloom_add (r : Registry H) (filter : Option Tenant) (hashes : List H) : Registry H :=
  {r with filters := Function.update r.filters filter (r.filters filter ++ hashes)}

/-- The rows a request's existence query is about: every tenant's when the store is shared. -/
def select_objects (r : Registry H) (cas_tenant_id : Option Tenant) (hashes : List H) : List H :=
  (r.objects.keys.filter fun key => hashes.contains key.2 && cas_tenant_id.all (· == key.1)).map Prod.snd

def tree_exists (r : Registry H) (cas_tenant_id : Option Tenant) (h : H) : Bool :=
  r.trees.any fun row => row.tree_hash == h && cas_tenant_id.all (· == row.tenant_id)

def row_among (dead : List (Option Tenant × H)) (key : Tenant × H) : Bool :=
  dead.any fun d => d.2 == key.2 && d.1.all (· == key.1)

def delete_objects (r : Registry H) (me : Nat) (dead : List (Option Tenant × H)) : Registry H :=
  let mine := r.deleting me
  let later := {mine with objects := mine.objects ++ r.objects.keys.filter (row_among dead)}
  {r with deleting := Function.update r.deleting me later}

def delete_trees (r : Registry H) (me : Nat) (dead : List H) : Registry H :=
  let mine := r.deleting me
  let later := {mine with trees := mine.trees ++ (r.trees.map DBTree.tree_hash).filter dead.contains}
  {r with deleting := Function.update r.deleting me later}

def exec (me : Nat) (β : Type) (m : Moment H) (q : Query H β) (r : Registry H) : β × Registry H :=
  match β,q with
  | _,.now => (m.clock,r)
  | _,.bloom_exists filter hashes =>
    (hashes.filter fun h => (r.filters filter).contains h || m.collides h,r)
  | _,.bloom_add filter hashes => ((),r.bloom_add filter hashes)
  | _,.delete_filter filter => ((),{r with filters := Function.update r.filters filter []})
  | _,.reserve_filter _ => ((),r)
  | _,.select_objects cas_tenant_id hashes => (r.select_objects cas_tenant_id hashes,r)
  | _,.insert_object tenant_id h size => r.insert_object (tenant_id,h) size m.clock
  | _,.stat_file key => ((r.files.get? key).map fun file => (file.content.length,file.mtime),r)
  | _,.move_file key content => ((),r.move_file key content m.clock)
  | _,.unlink_file key => (r.files.contains key,{r with files := r.files.erase key})
  | _,.glob_files => (r.files.keys,r)
  | _,.select_commit h => (r.commits.contains h,r)
  | _,.tree_exists cas_tenant_id h => (r.tree_exists cas_tenant_id h,r)
  | _,.insert_commit rows h row => r.insert_commit rows h row
  | _,.all_trees => (r.trees,r)
  | _,.all_commits => (r.commits.entries.map Prod.snd,r)
  | _,.all_objects => (r.objects.entries,r)
  | _,.delete_objects dead => ((),r.delete_objects me dead)
  | _,.delete_trees dead => ((),r.delete_trees me dead)
  | _,.commit => ((),r.commit me)
  | _,.rollback => ((),r.finish me)

/-- A statement waits for the transaction that has deleted a row it is about. -/
def ready (me : Nat) (β : Type) (q : Query H β) (r : Registry H) : Prop :=
  match β,q with
  | _,.insert_object tenant_id h _ => ∀ other, other ≠ me → (tenant_id,h) ∉ (r.deleting other).objects
  | _,.insert_commit rows _ _ => ∀ other, other ≠ me → ∀ row ∈ rows, row.tree_hash ∉ (r.deleting other).trees
  | _,.delete_objects dead => ∀ other, other ≠ me → ∀ key ∈ (r.deleting other).objects, row_among dead key = false
  | _,.delete_trees dead => ∀ other, other ≠ me → ∀ h ∈ (r.deleting other).trees, h ∉ dead
  | _,_ => True

def get_object_path (r : Registry H) (cas_tenant_id : Option Tenant) (h : H) : Option (ObjectKey H) :=
  if cas_tenant_id.isSome && r.files.contains (cas_tenant_id,h) then some (cas_tenant_id,h)
  else if r.files.contains (none,h) then some (none,h) else none

end Registry

end AetherVault
