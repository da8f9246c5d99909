import AetherVault.Registry
import AetherVault.Lib.Search

/-! The registry's handlers: upload, push, the batch existence check and the
mark-and-sweep collection with its rebuild of the Bloom filters. -/
namespace AetherVault
open Lib Hashing
open Lib.Prog (call forEach foldEach leaf)
open Lib.Discipline (Meets)

inductive ServerError
  | too_large
  | hash_mismatch
  | multiple_results_found
  | file_not_found
  | key_error
  | recursion_error
  deriving DecidableEq

def ServerError.status_code : ServerError → Nat
  | .too_large => 413
  | .hash_mismatch => 400
  | _ => 500

structure ServerConfig where
  cas_isolation : CasIsolation
  max_upload_bytes : Nat
  gc_grace_seconds : Nat

abbrev Handler (H : Type) := Prog (Query H) ServerError

variable {H : Type} [DecidableEq H] [Hashing H] [TreeContent H]

/-- `items[i : i + size]` for `i` in `range(0, len(items), size)`. -/
def batches {α : Type} (size : Nat) (items : List α) : List (List α) :=
  (List.range ((items.length + size - 1) / size)).map fun i => (items.drop (i * size)).take size

namespace RedisCache

def tenant_hits (cas_tenant_id : Option Tenant) (hashes : List H) : Handler H (List H) :=
  if cas_tenant_id.isSome then call (.bloom_exists cas_tenant_id hashes) else .pure []

def global_hits (hashes : List H) : Handler H (List H) :=
  if hashes = [] then .pure [] else call (.bloom_exists none hashes)

/-- The tenant's own filter first, then the global one. -/
def check_hash_exists (cas_tenant_id : Option Tenant) (h : H) : Handler H Bool := do
  let own ← tenant_hits cas_tenant_id [h]
  let shared ← global_hits (if own = [] then [h] else [])
  .pure (decide (own ≠ [] ∨ shared ≠ []))

def check_hashes_exist (cas_tenant_id : Option Tenant) (hashes : List H) : Handler H (List H) :=
  foldEach (fun hits chunk => do
    let own ← tenant_hits cas_tenant_id chunk
    let shared ← global_hits (chunk.filter fun h => decide (h ∉ own))
    .pure (hits ++ own ++ shared)) (batches 1000 hashes) []

def add_hashes (hashes : List H) (filter : Option Tenant) : Handler H Unit :=
  forEach (batches 1000 hashes) fun chunk => call (.bloom_add filter chunk)

end RedisCache

open RedisCache

/-- The rows are not asked for hashes that are definitely not stored. -/
def find_objects (cas_tenant_id : Option Tenant) (might_exist : List H) : Handler H (List H) :=
  if might_exist = [] then .pure [] else call (.select_objects cas_tenant_id might_exist)

def check_objects_batch (config : ServerConfig) (tenant : Tenant) (hashes : List H) : Handler H (List H × List H) := do
  let cas_tenant_id := config.cas_isolation.cas_tenant_id tenant
  let existence ← check_hashes_exist cas_tenant_id hashes
  let might_exist := hashes.filter fun h => decide (h ∈ existence)
  let definitely_missing := hashes.filter fun h => decide (h ∉ existence)
  let found ← find_objects cas_tenant_id might_exist
  .pure (found,definitely_missing ++ might_exist.filter fun h => decide (h ∉ found))

/-- A file that is there already is kept, and the body is not read. -/
def store_object (config : ServerConfig) (cas_tenant_id : Option Tenant) (h : H) (content : Bytes) : Handler H Unit := do
  if (← call (.stat_file (cas_tenant_id,h))).isSome then .pure ()
  else if config.max_upload_bytes > 0 ∧ content.length > config.max_upload_bytes then .fail .too_large
  else if sha256 content ≠ h then .fail .hash_mismatch
  else call (.move_file (cas_tenant_id,h) content)

/-- What an upload does once the object is not known to exist. -/
def store_upload (config : ServerConfig) (tenant : Tenant) (h : H) (content : Bytes) : Handler H Nat := do
  let cas_tenant_id := config.cas_isolation.cas_tenant_id tenant
  store_object config cas_tenant_id h content
  match ← call (.stat_file (cas_tenant_id,h)) with
  | none => .fail .file_not_found
  | some stat =>
    let inserted ← call (.insert_object tenant h stat.1)
    call (.bloom_add cas_tenant_id [h])
    .pure (if inserted then 201 else 409)

/-- `declared`: the request has a `Content-Length`. -/
def upload_object (config : ServerConfig) (tenant : Tenant) (h : H) (content : Bytes) (declared : Bool) : Handler H Nat := do
  let cas_tenant_id := config.cas_isolation.cas_tenant_id tenant
  let might_exist ← check_hash_exists cas_tenant_id h
  let rows ← find_objects cas_tenant_id (if might_exist then [h] else [])
  if rows.length > 1 then .fail .multiple_results_found
  else if rows ≠ [] then .pure 409
  else if config.max_upload_bytes > 0 ∧ declared ∧ content.length > config.max_upload_bytes then .pure 413
  else (store_upload config tenant h content).attempt fun e => .pure e.status_code

/-! Commits: a flat tree becomes rows, one directory node at a time. -/

/-- What a name of the directory is so far. -/
inductive DirNode (H : Type)
  | info (entry : TreeEntry H)
  | children (tree : Tree H)

/-- A file below a name that is a file already raises `KeyError`; a file takes the place of a directory. -/
def add_node (nodes : Dict String (DirNode H)) (item : Path × TreeEntry H) : Except ServerError (Dict String (DirNode H)) :=
  match item.1 with
  | [] => .ok nodes
  | [name] => .ok (nodes.set name (.info item.2))
  | name::rest => match nodes.get? name with
    | none => .ok (nodes.set name (.children (Dict.empty.set rest item.2)))
    | some (.children tree) => .ok (nodes.set name (.children (tree.set rest item.2)))
    | some (.info _) => .error .key_error

def dir_nodes (tree_data : Tree H) : Except ServerError (Dict String (DirNode H)) :=
  tree_data.entries.foldlM add_node ∅

def sorted_nodes (nodes : Dict String (DirNode H)) : List (String × DirNode H) :=
  nodes.entries.insertionSort fun a b => a.1 ≤ b.1

/-- The rows that the transaction has added so far are in `added`. -/
def build_merkle_tree (tenant : Tenant) (cas_tenant_id : Option Tenant) :
    Nat → Tree H → List (DBTree H) → Handler H (H × List (DBTree H))
  | 0,_,_ => .fail .recursion_error
  | depth+1,tree_data,added => do
    let nodes ← leaf (dir_nodes tree_data)
    let built ← foldEach (fun acc node => match node.2 with
      | .children tree => do
        let child ← build_merkle_tree tenant cas_tenant_id depth tree acc.2
        .pure (acc.1 ++ [(node.1,.child_tree_hash child.1)],child.2)
      | .info entry => .pure (acc.1 ++ [(node.1,.object_hash entry)],acc.2)) (sorted_nodes nodes) ([],added)
    let root := tree_hash built.1
    let present ← if built.2.any (·.tree_hash == root) then .pure true else call (.tree_exists cas_tenant_id root)
    if present then .pure (root,built.2)
    else .pure (root,built.2 ++ built.1.map fun entry => ⟨tenant,root,entry.1,entry.2⟩)

/-- Levels of directories, the root's included. -/
def tree_depth (tree : Tree H) : Nat := (tree.keys.map List.length).foldl max 1

/-- The tree of the old shape is flattened; `none` where an entry of it is no dictionary. -/
def flat_tree (tree : Tree H) : Option (Tree H) :=
  if tree_is_flat tree then some tree
  else (legacy_items tree).map fun items => Dict.ofList (items.map fun item => (item.1,⟨item.2,0,.code,[],[]⟩))

/-- `rejected`: a limit of the endpoint. -/
def push_commit (config : ServerConfig) (tenant : Tenant) (rejected : Bool) (h : H) (data : CommitData H) : Handler H Nat := do
  if ← call (.select_commit h) then .pure 409
  else if rejected then .pure 422
  else match flat_tree data.tree with
    | none => .pure 500
    | some raw_tree => Prog.attempt (do
        let built ← build_merkle_tree tenant (config.cas_isolation.cas_tenant_id tenant) (tree_depth raw_tree) raw_tree []
        if ← call (.insert_commit built.2 h ⟨tenant,built.1⟩) then .pure 201
        else if ← call (.select_commit h) then .pure 409 else .pure 500) fun e => .pure e.status_code

/-! Trees are read back level by level, for several roots at once. -/

/-- A root, a directory below it, and where that is. -/
abbrev Frontier (H : Type) := H × H × Path

def resolve_row (level : Frontier H) (acc : Dict H (Tree H) × List (Frontier H)) (row : DBTree H) :
    Dict H (Tree H) × List (Frontier H) :=
  let full_path := level.2.2 ++ [row.path_name]
  match row.node with
  | .child_tree_hash h => (acc.1,acc.2 ++ [(level.1,h,full_path)])
  | .object_hash entry => (acc.1.modify level.1 fun tree => tree.set full_path entry,acc.2)

def resolve_level (rows : List (DBTree H)) (acc : Dict H (Tree H) × List (Frontier H)) (level : Frontier H) :
    Dict H (Tree H) × List (Frontier H) :=
  (rows.filter fun row => row.tree_hash == level.2.1).foldl (resolve_row level) acc

/-- `none` when there are levels left. -/
def resolve_levels (rows : List (DBTree H)) : Nat → Dict H (Tree H) → List (Frontier H) → Option (Dict H (Tree H))
  | _,results,[] => some results
  | 0,_,_ => none
  | levels+1,results,frontier =>
    let next := frontier.foldl (resolve_level rows) (results,[])
    resolve_levels rows levels next.1 next.2

def resolve_trees (rows : List (DBTree H)) (levels : Nat) (root_hashes : List H) : Option (Dict H (Tree H)) :=
  resolve_levels rows levels (Dict.ofList (root_hashes.map fun h => (h,∅)))
    ((Dict.ofList (root_hashes.map fun h => (h,()))).keys.map fun h => (h,h,[]))

def resolve_tree (rows : List (DBTree H)) (levels : Nat) (root_hash : H) : Option (Tree H) :=
  (resolve_trees rows levels [root_hash]).map fun results => (results.get? root_hash).getD ∅

/-! Garbage collection. -/

def TreeNode.children : TreeNode H → List H
  | .child_tree_hash h => [h]
  | .object_hash _ => []

/-- The object, the layers and the chunks that a row names. -/
def TreeNode.objects : TreeNode H → List H
  | .child_tree_hash _ => []
  | .object_hash entry =>
    (match entry.hash with
      | .sha h => [h]
      | _ => []) ++ entry.layers.map (·.hash) ++ entry.chunks.map (·.hash)

structure Marked (H : Type) where
  visited : List H
  alive : List H

def rows_of (rows : List (DBTree H)) (h : H) : List (DBTree H) := rows.filter fun row => row.tree_hash == h

def _mark_from_root (rows : List (DBTree H)) (marked : Marked H) (root_hash : H) : Marked H :=
  let visited := Search.search (fun h => (rows_of rows h).flatMap fun row => row.node.children)
    (rows.length + 1) [root_hash] marked.visited
  let fresh := visited.filter fun h => decide (h ∉ marked.visited)
  ⟨visited,marked.alive ++ fresh.flatMap fun h => (rows_of rows h).flatMap fun row => row.node.objects⟩

/-- By tenant: each tenant's commits are followed in its own rows. -/
def mark_alive (tree_rows : List (DBTree H)) (roots : List (DBCommit H)) : Dict Tenant (Marked H) :=
  roots.foldl (fun marks root =>
    let marked := (marks.get? root.tenant_id).getD ⟨[],[]⟩
    marks.set root.tenant_id (_mark_from_root (tree_rows.filter fun row => row.tenant_id == root.tenant_id) marked
      root.root_tree_hash)) ∅

def alive_of (marks : Dict Tenant (Marked H)) (tenant : Tenant) : List H :=
  (marks.get? tenant).elim [] Marked.alive

def alive_hashes (marks : Dict Tenant (Marked H)) : List H := marks.entries.flatMap fun mark => mark.2.alive

def visited_trees (marks : Dict Tenant (Marked H)) : List H := marks.entries.flatMap fun mark => mark.2.visited

/-- What a commit still refers to, of the files under a key or of a tenant's rows. -/
def referenced (marks : Dict Tenant (Marked H)) (key : ObjectKey H) : Bool :=
  match key.1 with
  | none => (alive_hashes marks).contains key.2
  | some tenant => (alive_of marks tenant).contains key.2

/-- Rows that no commit refers to and that are older than the grace period. -/
def dead_objects (cas_isolation : CasIsolation) (marks : Dict Tenant (Marked H)) (gc_cutoff : Nat)
    (objects : List ((Tenant × H) × DBObject)) : List (ObjectKey H) :=
  (objects.filter fun row => !referenced marks (cas_isolation.cas_tenant_id row.1.1,row.1.2) &&
    decide (row.2.created_at < gc_cutoff)).map fun row => (cas_isolation.cas_tenant_id row.1.1,row.1.2)

def purge_file (marks : Dict Tenant (Marked H)) (gc_cutoff : Nat) (count : Nat) (key : ObjectKey H) : Handler H Nat := do
  if referenced marks key then .pure count
  else match ← call (.stat_file key) with
    | none => .pure count
    | some stat =>
      if stat.2 ≥ gc_cutoff then .pure count
      else if ← call (.unlink_file key) then .pure (count + 1)
      else .fail .file_not_found

/-- The flat layout first, then the tenants'. -/
def purge_orphans (marks : Dict Tenant (Marked H)) (gc_cutoff : Nat) : Handler H Nat := do
  let flat ← call .glob_files
  let count ← foldEach (purge_file marks gc_cutoff) (flat.filter fun key => key.1.isNone) 0
  let nested ← call .glob_files
  foldEach (purge_file marks gc_cutoff) (nested.filter fun key => key.1.isSome) count

def rebuild_filter (hashes : List H) (filter : Option Tenant) : Handler H Unit := do
  call (.delete_filter filter)
  call (.reserve_filter filter)
  add_hashes hashes filter

/-- The global filter is emptied first and filled last. -/
def rebuild_filters (cas_isolation : CasIsolation) (marks : Dict Tenant (Marked H)) : Handler H Unit := do
  call (.delete_filter none)
  call (.reserve_filter none)
  forEach (if cas_isolation = .isolated then marks.entries else []) fun mark => rebuild_filter mark.2.alive (some mark.1)
  add_hashes (alive_hashes marks) none

def _GC_DELETE_BATCH : Nat := 500

def delete_dead_objects (dead : List (ObjectKey H)) : Handler H Unit :=
  forEach (batches _GC_DELETE_BATCH dead) fun batch => call (.delete_objects batch)

/-- With nothing visited, no tree is deleted. -/
def delete_dead_trees (marks : Dict Tenant (Marked H)) (tree_rows : List (DBTree H)) : Handler H Unit :=
  if visited_trees marks = [] then .pure ()
  else forEach (batches _GC_DELETE_BATCH ((tree_rows.map DBTree.tree_hash).filter fun h =>
    decide (h ∉ visited_trees marks))) fun batch => call (.delete_trees batch)

/-- The filters are rebuilt only when a file was deleted. -/
def rebuild_after (cas_isolation : CasIsolation) (marks : Dict Tenant (Marked H)) (deleted_count : Nat) : Handler H Unit :=
  if deleted_count = 0 then .pure () else rebuild_filters cas_isolation marks

def sweep (config : ServerConfig) : Handler H Unit := do
  let now ← call .now
  let tree_rows ← call .all_trees
  let roots ← call .all_commits
  let objects ← call .all_objects
  let gc_cutoff := now - config.gc_grace_seconds
  let marks := mark_alive tree_rows roots
  delete_dead_objects (dead_objects config.cas_isolation marks gc_cutoff objects)
  delete_dead_trees marks tree_rows
  let deleted_count ← purge_orphans marks gc_cutoff
  rebuild_after config.cas_isolation marks deleted_count
  call .commit

def run_garbage_collection (config : ServerConfig) : Handler H Nat :=
  Prog.attempt (do
    sweep config
    .pure 200) fun e => do
      call .rollback
      .pure e.status_code

/-- A request with no other beside it. -/
def Registry.alone (me : Nat) (may : ∀ β, Moment H → Query H β → Registry H → Prop) :
    Discipline (Query H) (Registry H) (Moment H) where
  exec := Registry.exec me
  may := may
  inv := fun _ => True
  rely := fun s t => t = s
  pre := fun _ _ _ _ => True

def anytime (β : Type) (_ : Moment H) (_ : Query H β) (_ : Registry H) : Prop := True

section Alone

variable {me : Nat} {may : ∀ β, Moment H → Query H β → Registry H → Prop}

omit [Hashing H] [TreeContent H] in
theorem registry_call {β : Type} {q : Query H β} {r : Registry H}
    {post : Except ServerError β → Registry H → Prop}
    (reached : ∀ m, may β m q r → post (.ok (Registry.exec me β m q r).1) (Registry.exec me β m q r).2) :
    (Registry.alone me may).Meets (call q) post r := by
  refine .call fun m t same _ allowed => ?_
  obtain rfl : t = r := same
  exact ⟨trivial,reached m allowed⟩

omit [Hashing H] [TreeContent H] in
theorem registry_read {α β : Type} {q : Query H β} {r : Registry H} {b : β} {next : β → Handler H α}
    {post : Except ServerError α → Registry H → Prop} (reads : ∀ m, Registry.exec me β m q r = (b,r))
    (later : (Registry.alone me may).Meets (next b) post r) : (Registry.alone me may).Meets (call q >>= next) post r := by
  refine .bind (registry_call fun m _ => ?_)
  rw [reads]
  exact later

omit [Hashing H] [TreeContent H] in
theorem registry_run {α : Type} {p : Handler H α} {r : Registry H}
    {post : Except ServerError α → Registry H → Prop} (met : (Registry.alone me anytime).Meets p post r)
    (policy : Registry H → Moment H) :
    post (p.run (Registry.exec me) policy r).1 (p.run (Registry.exec me) policy r).2 :=
  (Meets.runs (fun _ _ _ _ _ _ _ => trivial) (fun _ => rfl) ((Registry.alone me anytime).runs_of_run policy (fun _ _ _ => true)
    (fun _ _ _ _ => trivial) p r (Prog.checks_true _ _ _ _)) trivial met).2

end Alone

end AetherVault
