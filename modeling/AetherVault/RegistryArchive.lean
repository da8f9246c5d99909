import AetherVault.SignedCommits
import AetherVault.Lib.OffsetPages
import Mathlib.Data.List.Dedup

/-! `av registry export` and `av registry restore`: the tables of a registry, the archive that is
written of them, and how a restore sends it again, item by item, with a record of what is done. -/
namespace AetherVault.RegistryArchive
open Lib Hashing

/-- A digest can be read back from its text. -/
class HexText (H : Type) extends HexDigest H where
  read : String → Option H
  read_hexdigest : ∀ h, read (hexdigest h) = some h

instance : HexText Name where
  read s := (fromhex s.toList).bind fun bytes => if bytes.head? = some 0 then some ⟨bytes.tail⟩ else none
  read_hexdigest h := by
    change (fromhex (String.ofList (hex (0::h.bytes))).toList).bind _ = _
    rw [String.toList_ofList,fromhex_hex]
    rfl

/-! The tables. -/

structure DBRun (H : Type) where
  project_id : String
  created_by : String
  metrics_summary : Doc
  env_snapshot_id : Option H

def ref_char (c : Char) : Bool := c.isAlphanum || c ∈ ['.','_','/','-']

def segments (name : String) : List (List Char) := name.toList.splitOn '/'

/-- `$` also matches before a line break at the end. -/
def matched_part (name : String) : List Char :=
  if name.toList.getLast? = some '\n' then name.toList.dropLast else name.toList

def validate_ref_name (name : String) : Bool :=
  !(matched_part name).isEmpty && (matched_part name).all ref_char && name.toList.head? != some '/' && !(segments name).contains ['.','.']

structure RefTable (H : Type) where
  rows : Dict String H
  valid : ∀ name h, rows.get? name = some h → validate_ref_name name = true

def RefTable.put {H : Type} (refs : RefTable H) (name : String) (h : H) (valid : validate_ref_name name = true) : RefTable H where
  rows := refs.rows.set name h
  valid := by
    intro other g found
    rw [Dict.get?_set] at found
    split at found
    · rename_i same
      rw [same]
      exact valid
    · exact refs.valid other g found

variable {H : Type} [DecidableEq H] [Hashing H] [TreeContent H] [HexText H]

structure Vault (H : Type) where
  ledger : Ledger H
  runs : Dict String (DBRun H)
  run_commits : List (String × H)
  refs : RefTable H

def Vault.empty : Vault H := ⟨.empty,∅,[],⟨∅,fun _ _ found => absurd found (by simp)⟩⟩

/-- How a registry is set up, and who sends the requests. -/
structure Deployment where
  config : ServerConfig
  limits : PushLimits
  tenant : Tenant
  username : Option String

def status_code : Except ServerError Nat → Nat
  | .ok code => code
  | .error e => e.status_code

section Requests

variable (d : Deployment) (policy : Registry H → Moment H) (v : Vault H)

/-- An open file is sent with its length. -/
def post_object (h : H) (content : Bytes) : Nat × Vault H :=
  let done := (upload_object d.config d.tenant h content true).run (Registry.exec 0) policy v.ledger.registry
  (status_code done.1,{v with ledger := {v.ledger with registry := done.2}})

/-- A run that the registry has not seen is created; the first snapshot linked to a run stays. -/
def link_run (c : Commit H) (run_id : String) : Vault H :=
  let author := stamped_author c.payload.author d.username
  let run : DBRun H := match v.runs.get? run_id with
    | none => ⟨stored_project_id c.payload,or_default (d.username.getD "") author,c.payload.metrics,none⟩
    | some run => {run with metrics_summary := c.payload.metrics.union run.metrics_summary}
  {v with
    runs := v.runs.set run_id {run with env_snapshot_id := run.env_snapshot_id.or c.payload.env_snapshot_id}
    run_commits := v.run_commits ++ [(run_id,c.hash)]}

def post_commit (now : Datetime) (c : Commit H) : Nat × Vault H :=
  let done := v.ledger.push_commit d.config d.limits 0 policy ⟨d.tenant,d.username,now,c⟩
  let stored : Vault H := {v with ledger := done.2}
  (status_code done.1,
    if done.1 = .ok 201 then (linked_run c.payload.run_id).elim stored (link_run d stored c) else stored)

def put_ref (name : String) (h : H) : Nat × Vault H :=
  if valid : validate_ref_name name = true then (200,{v with refs := v.refs.put name h valid}) else (400,v)

end Requests

/-! The archive. -/

/-- What a restore reads of a row of `GET /api/commits`. -/
structure ArchivedCommit (H : Type) where
  hash : H
  message : String
  author : String
  timestamp : String
  parents : List H
  tags : List String
  metrics : Doc
  project_id : String
  project_name : String
  signature : JsonValue
  env_snapshot_id : Option H
  tree : Tree H

def read_hash : JsonValue → Option H
  | .string s => HexText.read s
  | _ => none

def archived (l : Ledger H) (trees_by_root : Dict H (Tree H)) (row : H × CommitColumns H) : ArchivedCommit H where
  hash := row.1
  message := row.2.message
  author := row.2.author
  timestamp := String.ofList row.2.timestamp.isoformat
  parents := (_full_parents row.2.parent_hash row.2.extra_parents).filterMap read_hash
  tags := row.2.tags
  metrics := row.2.metrics
  project_id := row.2.project_id
  project_name := row.2.project_name
  signature := _signature_out row.2.signature
  env_snapshot_id := row.2.env_snapshot_id
  tree := ((l.root row.1).bind trees_by_root.get?).getD ∅

structure Manifest (H : Type) where
  commits : List (ArchivedCommit H)
  refs : Dict String H
  runs : List (String × DBRun H)
  objects : List (H × Bool)

/-- `.restore-state.json` -/
structure Progress (H : Type) where
  completed_objects : List H
  completed_commits : List H
  completed_refs : List String

def Progress.none : Progress H := ⟨[],[],[]⟩

structure Archive (H : Type) where
  manifest : Option (Manifest H)
  shards : Dict H Bytes
  /-- `none` for no file, or for one that does not parse -/
  restore_state : Option (Progress H)

def Archive.fresh : Archive H := ⟨none,∅,none⟩

section Export

variable (d : Deployment) (v : Vault H) (levels : Nat)

def commit_page (offset : Nat) : Option (List (ArchivedCommit H)) :=
  let rows := v.ledger.page ⟨200,offset,none,none⟩
  (resolve_trees v.ledger.registry.trees levels (rows.filterMap fun row => v.ledger.root row.1)).map fun trees_by_root =>
    rows.map (archived v.ledger trees_by_root)

def exported_commits : Option (List (ArchivedCommit H)) :=
  OffsetPages.all_pages 200 (commit_page v levels) (v.ledger.columns.entries.length + 1) 0

/-- `order_by(DBRef.name)` -/
def sorted_refs : List (String × H) := v.refs.rows.entries.insertionSort fun a b => a.1 ≤ b.1

def exported_refs : Option (Dict String H) :=
  (OffsetPages.all_pages 5000 (fun offset => some (((sorted_refs v).drop offset).take 5000))
    (v.refs.rows.entries.length + 1) 0).map Dict.ofList

/-- Of a split entry the parts, of another one the whole file. -/
def entry_hashes (e : TreeEntry H) : List H :=
  if e.layers ≠ [] ∨ e.chunks ≠ [] then e.layers.map Layer.hash ++ e.chunks.map Chunk.hash
  else match e.hash with
    | .sha h => [h]
    | _ => []

def tree_hashes (tree : Tree H) : List H := tree.entries.flatMap fun item => entry_hashes item.2

def _collect_exportable_object_hashes (commits : List (ArchivedCommit H)) : List H :=
  (commits.flatMap fun commit => tree_hashes commit.tree).dedup

/-- `GET /api/objects/{hash}`, verified by the client. -/
def download_object (h : H) : Option Bytes :=
  (((v.ledger.registry.get_object_path (d.config.cas_isolation.cas_tenant_id d.tenant) h).bind v.ledger.registry.files.get?).map
    StoredFile.content).filter fun content => sha256 content = h

/-- A shard that is there already is kept; `got` says which downloads get through. -/
def export_object (got : H → Bool) (acc : Dict H Bytes × List (H × Bool)) (h : H) : Dict H Bytes × List (H × Bool) :=
  if acc.1.contains h then (acc.1,acc.2 ++ [(h,true)])
  else match (download_object d v h).filter fun _ => got h with
    | some content => (acc.1.set h content,acc.2 ++ [(h,true)])
    | none => (acc.1,acc.2 ++ [(h,false)])

/-- An export that comes to its end; `listed` says whether the runs could be read. -/
def registry_export (got : H → Bool) (listed : Bool) (archive : Archive H) : Option (Archive H) :=
  (exported_commits v levels).bind fun commits => (exported_refs v).map fun refs =>
    let done := (_collect_exportable_object_hashes commits).foldl (export_object d v got) (archive.shards,[])
    {archive with
      manifest := some ⟨commits,refs,if listed then v.runs.entries.take 1000 else [],done.2⟩
      shards := done.1}

/-- One that is interrupted after so many objects leaves its shards and no manifest. -/
def interrupted_export (got : H → Bool) (objects : Nat) (archive : Archive H) : Archive H :=
  {archive with shards := ((((exported_commits v levels).elim [] _collect_exportable_object_hashes).take objects).foldl
    (export_object d v got) (archive.shards,[])).1}

end Export

/-! The restore. -/

/-- The payload that is sent for a row: all of it but its timestamp, and a row has no run. -/
def ArchivedCommit.payload (c : ArchivedCommit H) : Commit H where
  payload :=
    { parents := c.parents
      author := c.author
      timestamp := ""
      message := c.message
      tree := c.tree
      tags := c.tags
      metrics := c.metrics
      project_id := c.project_id
      project_name := c.project_name
      run_id := none
      env_snapshot_id := c.env_snapshot_id }
  hash := c.hash
  signature := some c.signature

/-- What becomes of a request: it is answered, something in between answers with another status, or the restore is
interrupted; in the last two the registry may have carried it out. -/
inductive Answer
  | answered
  | turned_down (applied : Bool)
  | interrupted (applied : Bool)
  deriving DecidableEq

structure Choice (H : Type) where
  answer : Answer
  policy : Registry H → Moment H
  now : Datetime

structure Summary where
  objects_uploaded : Nat := 0
  objects_duplicate : Nat := 0
  objects_resumed : Nat := 0
  commits : Nat := 0
  commits_duplicate : Nat := 0
  commits_resumed : Nat := 0
  refs : Nat := 0
  failed : Nat := 0
  deriving DecidableEq

/-- A restore under way: the registry, the record in memory and the one on disk. -/
structure Restoring (H : Type) where
  vault : Vault H
  progress : Progress H
  saved : Option (Progress H)
  summary : Summary

namespace Restoring

def fail (s : Restoring H) : Restoring H := {s with summary := {s.summary with failed := s.summary.failed + 1}}

/-- A request, and what is counted and recorded when its status is one that the loop takes. -/
def send (s : Restoring H) (answer : Answer) (done : Nat × Vault H) (takes : List Nat)
    (mark : Restoring H → Restoring H) : Except (Restoring H) (Restoring H) :=
  match answer with
  | .answered => .ok (if done.1 ∈ takes then mark {s with vault := done.2} else {s with vault := done.2}.fail)
  | .turned_down applied => .ok {s with vault := if applied then done.2 else s.vault}.fail
  | .interrupted applied => .error {s with vault := if applied then done.2 else s.vault}

def saving (s : Restoring H) (progress : Progress H) (summary : Summary) : Restoring H :=
  {s with progress := progress,saved := some progress,summary := summary}

def object_done (h : H) (code : Nat) (s : Restoring H) : Restoring H :=
  s.saving {s.progress with completed_objects := s.progress.completed_objects.insert h}
    {s.summary with
      objects_uploaded := s.summary.objects_uploaded + 1
      objects_duplicate := s.summary.objects_duplicate + if code = 409 then 1 else 0}

def commit_done (h : H) (code : Nat) (s : Restoring H) : Restoring H :=
  s.saving {s.progress with completed_commits := s.progress.completed_commits.insert h}
    {s.summary with
      commits := s.summary.commits + 1
      commits_duplicate := s.summary.commits_duplicate + if code = 409 then 1 else 0}

def ref_done (name : String) (s : Restoring H) : Restoring H :=
  s.saving {s.progress with completed_refs := s.progress.completed_refs.insert name} {s.summary with refs := s.summary.refs + 1}

end Restoring

variable (d : Deployment)

def restore_object (shards : Dict H Bytes) (s : Restoring H) (item : (H × Bool) × Choice H) :
    Except (Restoring H) (Restoring H) :=
  let h := item.1.1
  if h ∈ s.progress.completed_objects then .ok {s with summary := {s.summary with
    objects_uploaded := s.summary.objects_uploaded + 1,objects_resumed := s.summary.objects_resumed + 1}}
  else match shards.get? h with
    | none => .ok s.fail
    | some content =>
      if sha256 content ≠ h then .ok s.fail
      else
        let done := post_object d item.2.policy s.vault h content
        s.send item.2.answer done [201,409] (Restoring.object_done h done.1)

def restore_commit (s : Restoring H) (item : ArchivedCommit H × Choice H) : Except (Restoring H) (Restoring H) :=
  if item.1.hash ∈ s.progress.completed_commits then .ok {s with summary := {s.summary with
    commits := s.summary.commits + 1,commits_resumed := s.summary.commits_resumed + 1}}
  else
    let done := post_commit d item.2.policy s.vault item.2.now item.1.payload
    s.send item.2.answer done [201,409] (Restoring.commit_done item.1.hash done.1)

def restore_ref (s : Restoring H) (item : (String × H) × Choice H) : Except (Restoring H) (Restoring H) :=
  if item.1.1 ∈ s.progress.completed_refs then .ok {s with summary := {s.summary with refs := s.summary.refs + 1}}
  else s.send item.2.answer (put_ref s.vault item.1.1 item.1.2) [200] (Restoring.ref_done item.1.1)

/-- What happens to the requests of each loop, in order. -/
structure Choices (H : Type) where
  objects : Nat → Choice H
  commits : Nat → Choice H
  refs : Nat → Choice H

def with_choices {α : Type} (items : List α) (choices : Nat → Choice H) : List (α × Choice H) :=
  items.zipIdx.map fun item => (item.1,choices item.2)

/-- The three loops: objects, commits, refs. -/
def restore_all (choices : Choices H) (shards : Dict H Bytes) (manifest : Manifest H) (s : Restoring H) :
    Except (Restoring H) (Restoring H) := do
  let objects ← (with_choices manifest.objects choices.objects).foldlM (restore_object d shards) s
  let commits ← (with_choices manifest.commits choices.commits).foldlM (restore_commit d) objects
  (with_choices manifest.refs.entries choices.refs).foldlM restore_ref commits

def Archive.progress (archive : Archive H) (resume : Bool) : Progress H :=
  if resume then archive.restore_state.getD .none else .none

/-- The summary that is reported, if the restore comes to its end, and the registry and the record it leaves. -/
def restore (resume : Bool) (choices : Choices H) (archive : Archive H) (v : Vault H) :
    Option Summary × Vault H × Option (Progress H) :=
  match archive.manifest with
  | none => (none,v,archive.restore_state)
  | some manifest =>
    match restore_all d choices archive.shards manifest ⟨v,archive.progress resume,archive.restore_state,{}⟩ with
    | .ok s => (some s.summary,s.vault,s.saved)
    | .error s => (none,s.vault,s.saved)

end AetherVault.RegistryArchive
