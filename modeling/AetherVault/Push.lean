import AetherVault.Client
import AetherVault.Lib.Search

/-! The offline queue and the one path by which commits are written: `_finalize_commit`
persists a commit, queues it, moves the branch, and then delivers it or leaves it to
`flush_pending_push`. -/
namespace AetherVault
open Lib Hashing
open Lib.Prog (call forEach foldEach)

variable {H : Type} [DecidableEq H] [Hashing H] [Canonical H]

def queue_pending_push (h : H) (ref_name : Option String) : Command H Unit :=
  with_lock .queue do
    let pending ← call .load_pending_push
    if pending.any (fun entry => entry.commit_hash == h) then .pure ()
    else call (.save_pending_push (pending ++ [⟨h,ref_name⟩]))

def remove_pending_push (commit_hashes : List H) : Command H (List (QueueEntry H)) :=
  with_lock .queue do
    let pending ← call .load_pending_push
    let remaining := pending.filter (fun entry => entry.commit_hash ∉ commit_hashes)
    call (.save_pending_push remaining)
    .pure remaining

/-! Uploading. -/

/-- The object names of an entry: its shards, or its whole object. -/
def entry_objects (e : TreeEntry H) : Command H (List H) := do
  let parts := e.layers.map (·.hash) ++ e.chunks.map (·.hash)
  if parts ≠ [] then .pure parts else do
    let name ← object_path e.hash
    .pure name.toList

/-- `candidates.setdefault`, for an object that is in the local store. -/
def add_candidate (candidates : List (H × Bytes)) (h : H) : Command H (List (H × Bytes)) := do
  match ← call (.read_object h) with
  | none => .pure candidates
  | some content => .pure (if h ∈ candidates.map Prod.fst then candidates else candidates ++ [(h,content)])

def entry_candidates (candidates : List (H × Bytes)) (item : Path × TreeEntry H) : Command H (List (H × Bytes)) := do
  let names ← entry_objects item.2
  foldEach add_candidate names candidates

/-- Every upload is tried; what is raised is raised once all of them are through. -/
def upload_missing (outcome : Bool × Option (Failure H)) (item : H × Bytes) : Command H (Bool × Option (Failure H)) :=
  (do
    let stored ← VaultClient.upload_object item.1 item.2
    .pure (outcome.1 && stored,outcome.2)).attempt fun e => .pure (outcome.1,some (outcome.2.getD e))

def upload_commit_objects (tree : Tree H) (only_paths : Option (List Path)) : Command H Bool := do
  let scan_items := match only_paths with
    | none => tree.entries
    | some paths => tree.entries.filter (fun item => item.1 ∈ paths)
  let candidates ← foldEach entry_candidates scan_items []
  if candidates = [] then .pure true else do
    let found ← VaultClient.batch_check_objects (candidates.map Prod.fst)
    let missing := candidates.filter (fun item => item.1 ∉ found)
    let outcome ← foldEach upload_missing missing (true,none)
    match outcome.2 with
    | some e => .fail e
    | none => .pure outcome.1

/-! Flushing. -/

def parents_of (commits : Dict H (CommitData H)) (h : H) : List H :=
  match commits.get? h with
  | some data => data.parents
  | none => []

omit [Hashing H] [Canonical H] in
theorem parents_of_absent (commits : Dict H (CommitData H)) (h : H) (absent : h ∉ commits.keys) : parents_of commits h = [] := by
  have none : commits.get? h = none := by
    cases found : commits.get? h with
    | none => rfl
    | some data => exact absurd ((commits.mem_keys h).mpr ⟨data,found⟩) absent
  simp only [parents_of,none]

def walk_fuel (commits : Dict H (CommitData H)) : Nat :=
  1 + Search.weight (parents_of commits) commits.keys []

/-- Is the commit `ref_hash` or one of its ancestors, by the commit files? -/
def _ref_contains (commits : Dict H (CommitData H)) (ref_hash : Option H) (h : H) : Bool :=
  match ref_hash with
  | none => false
  | some tip => Search.reaches (parents_of commits) h (walk_fuel commits) [tip] []

omit [Hashing H] [Canonical H] in
theorem ref_contains_iff (commits : Dict H (CommitData H)) (tip : Option H) (h : H) :
    _ref_contains commits tip h = true ↔ ∃ x, tip = some x ∧ Search.Reach (parents_of commits) x h := by
  cases tip with
  | none => simp [_ref_contains]
  | some x =>
    unfold _ref_contains walk_fuel
    rw [Search.reaches_iff (parents_of commits) commits.keys commits.distinct (parents_of_absent commits) h _ [x] (by simp)]
    simp

def update_queued_ref (ref_name : Option String) (h : H) (parents : List H) : Command H Bool :=
  match ref_name with
  | none => .pure true
  | some name => (VaultClient.update_ref name h parents.head?).attempt fun e =>
      match e with
      | .ref_race current => do
        let commits ← call .load_commits
        .pure (_ref_contains commits current h)
      | other => .fail other

def deliver_queued (entry : QueueEntry H) (data : CommitData H) : Command H Bool := do
  if ← upload_commit_objects data.tree none then
    if ← VaultClient.push_commit entry.commit_hash data then
      update_queued_ref entry.ref_name entry.commit_hash data.parents
    else .pure false
  else .pure false

def flush_entry (delivered : List H) (entry : QueueEntry H) : Command H (List H) := do
  match ← call (.read_commit entry.commit_hash) with
  | none => .pure (delivered ++ [entry.commit_hash])
  | some data =>
    (do
      let done ← deliver_queued entry data
      .pure (if done then delivered ++ [entry.commit_hash] else delivered)).attempt fun e =>
        match e with
        | .authentication => do
          let _ ← remove_pending_push delivered
          .fail .authentication
        | other => .fail other

/-- Retries the queued commits; the ones in `skip` are about to be pushed by the caller. -/
def flush_pending_push (skip : List H) : Command H (List (QueueEntry H)) := do
  let queued ← call .load_pending_push
  let pending := queued.filter (fun entry => entry.commit_hash ∉ skip)
  if pending = [] then call .load_pending_push
  else if ← VaultClient.server_available then do
    let delivered ← foldEach flush_entry pending []
    remove_pending_push delivered
  else call .load_pending_push

/-! Committing. -/

/-- Everything `_finalize_commit` writes under the lock. -/
def persist_writes (h : H) (data : CommitData H) (ref_path : Option String) (remote_ref_name : Option String)
    (idx : Index H) : Command H Unit := do
  call (.write_commit h data)
  queue_pending_push h remote_ref_name
  match ref_path with
  | some branch => call (.write_ref branch (some h))
  | none => call (.write_head (.detached h))
  call (.save_index idx.clear_staged)

def persist_commit (h : H) (data : CommitData H) (ref_path : Option String) (remote_ref_name : Option String)
    (idx : Index H) : Command H Unit := with_lock .repo (persist_writes h data ref_path remote_ref_name idx)

/-- The value the branch is expected to have on the registry. -/
def expected_parent (parents : List H) (remote_ref_name : Option String) : Command H (Option H) :=
  match parents,remote_ref_name with
  | [ours,theirs],some name => do
    let pending ← call .load_pending_push
    let still_queued := (pending.filter (fun entry => entry.ref_name == some name)).map (·.commit_hash)
    .pure (some (if ours ∈ still_queued then theirs else ours))
  | parents,_ => .pure parents.head?

/-- A merge that landed drops its queued parents, unlocked and from its own read. -/
def drop_superseded (parents : List H) (remote_ref_name : Option String) : Command H Unit := do
  let still_pending ← call .load_pending_push
  let remaining := still_pending.filter
    (fun entry => !(entry.ref_name == remote_ref_name && decide (entry.commit_hash ∈ parents)))
  if remaining.length ≠ still_pending.length then call (.save_pending_push remaining) else .pure ()

def land_ref (ref_name : Option String) (h : H) (expected : Option H) : Command H Bool :=
  match ref_name with
  | none => .pure true
  | some name => (VaultClient.update_ref name h expected).attempt fun e =>
      match e with
      | .ref_race _ => .pure false
      | other => .fail other

def push_new (h : H) (data : CommitData H) (remote_ref_name : Option String) (expected : Option H)
    (changed_paths : Option (List Path)) : Command H Unit := do
  if ← upload_commit_objects data.tree changed_paths then
    if ← VaultClient.push_commit h data then
      if ← land_ref remote_ref_name h expected then
        if data.parents.length = 2 ∧ remote_ref_name.isSome then drop_superseded data.parents remote_ref_name else .pure ()
        let _ ← remove_pending_push [h]
        .pure ()
      else queue_pending_push h remote_ref_name
    else queue_pending_push h remote_ref_name
  else queue_pending_push h remote_ref_name

/-- A rejected token queues the commit like any other failed push. -/
def or_queue (push : Command H Unit) (h : H) (remote_ref_name : Option String) : Command H Unit :=
  push.attempt fun e =>
    match e with
    | .authentication => queue_pending_push h remote_ref_name
    | other => .fail other

def deliver_commit (h : H) (data : CommitData H) (remote_ref_name : Option String) (defer_upload : Bool)
    (changed_paths : Option (List Path)) : Command H Unit := do
  let expected ← expected_parent data.parents remote_ref_name
  if defer_upload then queue_pending_push h remote_ref_name
  else do
    (do
      let _ ← flush_pending_push [h]
      .pure ()).attempt fun e =>
        match e with
        | .authentication => .pure ()
        | other => .fail other
    if ← VaultClient.server_available then
      or_queue (push_new h data remote_ref_name expected changed_paths) h remote_ref_name
    else queue_pending_push h remote_ref_name

def remote_ref (env : Env) (branch : String) : String := env.project_id ++ "/" ++ branch

def _finalize_commit (env : Env) (data : CommitData H) (ref_path : Option String) (idx : Index H)
    (defer_upload : Bool) (changed_paths : Option (List Path)) (on_persisted : Command H Unit) : Command H H := do
  let h := commit_hash data
  let remote_ref_name := ref_path.map (remote_ref env)
  persist_commit h data ref_path remote_ref_name idx
  on_persisted
  deliver_commit h data remote_ref_name defer_upload changed_paths
  .pure h

/-- The checked out branch and its tip, as the parents of the next commit. -/
def head_parents : Command H (List H × Option String) := do
  match ← call .read_head with
  | .detached h => .pure ([h],none)
  | .branch name =>
    match ← call (.read_ref name) with
    | some (some h) => .pure ([h],some name)
    | _ => .pure ([],some name)

/-- `none` when nothing is staged. The lock is given up before the network step. -/
def commit_staged (env : Env) (message : String) (defer_upload : Bool) : Command H (Option H) :=
  with_lock .repo do
    let idx ← call .load_index
    let staged_entries := idx.get_staged_entries
    if staged_entries.entries = [] ∧ idx.removed = [] then .pure none
    else do
      let changed_paths := staged_entries.keys
      let (parents,ref_path) ← head_parents
      let timestamp ← call .now
      let h ← _finalize_commit env ⟨parents,message,timestamp,idx.tree⟩ ref_path idx defer_upload (some changed_paths)
        (call (.release .repo))
      .pure (some h)

end AetherVault
