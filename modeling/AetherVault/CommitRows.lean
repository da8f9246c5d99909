import AetherVault.Signing
import AetherVault.TreeStore

/-! Commit rows with all their columns: what a push stores of a payload, what the listing
serves of a row, and what a clone makes of that. -/
namespace AetherVault
open Lib Hashing

variable {H : Type} [DecidableEq H] [Hashing H] [TreeContent H] [HexDigest H]

/-- The columns beside the tenant and the root of the tree; JSON is kept as its text. -/
structure CommitColumns (H : Type) where
  message : String
  author : String
  timestamp : Datetime
  parent_hash : Option H
  extra_parents : Option (List Char)
  tags : List String
  metrics : Doc
  project_id : String
  project_name : String
  signature : Option (List Char)
  env_snapshot_id : Option H

structure PushLimits where
  max_tree_entries : Nat
  max_metrics : Nat
  max_tags : Nat
  max_tag_len : Nat
  max_message_len : Nat

/-- `text or default` -/
def or_default (text default : String) : String := if text = "" then default else text

def stored_project_id (p : Payload H) : String := or_default p.project_id "legacy"

def stored_project_name (p : Payload H) : String := or_default p.project_name "Legacy / Unknown"

def PushLimits.reject (limits : PushLimits) (p : Payload H) : Bool :=
  decide (limits.max_tree_entries < p.tree.entries.length) || decide (limits.max_metrics < p.metrics.entries.length) ||
    decide (limits.max_tags < p.tags.length) || p.tags.any (fun t => decide (limits.max_tag_len < t.length)) ||
    decide (limits.max_message_len < p.message.length) ||
    decide (128 < (stored_project_id p).length) || decide (200 < (stored_project_name p).length)

/-- `none` where the insert time stands in. -/
def commit_ts (raw : String) : Except Raised (Option Datetime) :=
  if raw = "" then .ok none
  else match Datetime.fromisoformat (zulu raw.toList) with
    | none => .ok none
    | some parsed => (canonical_instant parsed.1 parsed.2).map some

/-- A user's name stands in for the default author. -/
def stamped_author (author : String) (username : Option String) : String :=
  if author = "anonymous" then or_default (username.getD "") author else author

def signature_column : Option JsonValue → Option (List Char)
  | some (.dict members) => some (JsonValue.dumps spaced true (.dict members))
  | _ => none

def commit_columns (username : Option String) (now : Datetime) (c : Commit H) : Except Raised (CommitColumns H) :=
  (commit_ts c.payload.timestamp).map fun ts =>
    { message := c.payload.message
      author := stamped_author c.payload.author username
      timestamp := ts.getD now
      parent_hash := c.payload.parents.head?
      extra_parents := if 1 < c.payload.parents.length then
        some (JsonValue.dumps spaced false (.list (c.payload.parents.tail.map hash_json))) else none
      tags := c.payload.tags
      metrics := c.payload.metrics
      project_id := stored_project_id c.payload
      project_name := stored_project_name c.payload
      signature := signature_column c.signature
      env_snapshot_id := c.payload.env_snapshot_id }

/-- The registry with every column of its commit rows. -/
structure Ledger (H : Type) where
  registry : Registry H
  columns : Dict H (CommitColumns H)

namespace Ledger

def empty : Ledger H := ⟨Registry.empty,∅⟩

structure Push (H : Type) where
  tenant : Tenant
  username : Option String
  now : Datetime
  commit : Commit H

def Push.data (push : Push H) : CommitData H :=
  ⟨push.commit.payload.parents,push.commit.payload.message,push.now.instant,push.commit.payload.tree⟩

/-- Where the timestamp overflows, the request fails before anything is stored. -/
def push_commit (config : ServerConfig) (limits : PushLimits) (me : Nat) (policy : Registry H → Moment H) (l : Ledger H)
    (push : Push H) : Except ServerError Nat × Ledger H :=
  let rejected := limits.reject push.commit.payload
  match commit_columns push.username push.now push.commit with
  | .error _ =>
    (.ok (if l.registry.commits.contains push.commit.hash then 409 else if rejected then 422 else 500),l)
  | .ok columns =>
    let done := (AetherVault.push_commit config push.tenant rejected push.commit.hash push.data).run (Registry.exec me) policy
      l.registry
    (done.1,⟨done.2,if done.1 = .ok 201 then l.columns.set push.commit.hash columns else l.columns⟩)

structure Query where
  limit : Nat
  offset : Nat
  project_id : Option String
  tenant : Option Tenant

def rows (l : Ledger H) (q : Query) : List (H × CommitColumns H) :=
  (l.columns.entries.filter fun row => (q.project_id.all fun p => p == "" || p == row.2.project_id) &&
    q.tenant.all fun t => ((l.registry.commits.get? row.1).map DBCommit.tenant_id) == some t).insertionSort
      fun a b => b.2.timestamp.instant ≤ a.2.timestamp.instant

def root (l : Ledger H) (h : H) : Option H := (l.registry.commits.get? h).map DBCommit.root_tree_hash

end Ledger

def _full_parents (parent_hash : Option H) (extra_parents : Option (List Char)) : List JsonValue :=
  (parent_hash.map hash_json).toList ++ match extra_parents.bind JsonValue.loads with
    | some (.list extras) => extras
    | _ => []

def _signature_out (raw : Option (List Char)) : JsonValue :=
  match raw.bind JsonValue.loads with
  | some (.dict members) => .dict members
  | _ => .null

def json_or_null (value : Option JsonValue) : JsonValue := value.getD .null

def commit_dict (h : H) (c : CommitColumns H) (root : Option H) : Doc := Dict.ofList [("hash",hash_json h),
  ("message",.string c.message),("author",.string c.author),("timestamp",.string (String.ofList c.timestamp.isoformat)),
  ("parent_hash",json_or_null (c.parent_hash.map hash_json)),("parents",.list (_full_parents c.parent_hash c.extra_parents)),
  ("root_tree_hash",json_or_null (root.map hash_json)),("tags",.list (c.tags.map .string)),
  ("metrics",.dict c.metrics.entries),("project_id",.string c.project_id),("project_name",.string c.project_name),
  ("signature",_signature_out c.signature),("env_snapshot_id",json_or_null (c.env_snapshot_id.map hash_json))]

def Ledger.row_dict (l : Ledger H) (trees_by_root : Dict H (Tree H)) (row : H × CommitColumns H) : Doc :=
  (commit_dict row.1 row.2 (l.root row.1)).set "tree" (tree_json (((l.root row.1).bind trees_by_root.get?).getD ∅))

def Ledger.page (l : Ledger H) (q : Ledger.Query) : List (H × CommitColumns H) := ((l.rows q).drop q.offset).take q.limit

/-- A page with its trees resolved, and where the next one begins; `none` when there are levels left. -/
def Ledger.list_commits (l : Ledger H) (levels : Nat) (q : Ledger.Query) : Option (List Doc × Option Nat) :=
  (resolve_trees l.registry.trees levels ((l.page q).filterMap fun row => l.root row.1)).map fun trees_by_root =>
    ((l.page q).map (l.row_dict trees_by_root),
      if q.offset + q.limit < (l.rows q).length then some (q.offset + q.limit) else none)

/-! The clone's side. -/

def truthy : JsonValue → Bool
  | .null => false
  | .boolean b => b
  | .number n => ((n.first::n.rest).takeWhile fun c => c ≠ 'e' && c ≠ 'E').any fun c => decide ('1' ≤ c ∧ c ≤ '9')
  | .string s => s != ""
  | .list items => !items.isEmpty
  | .dict members => !members.isEmpty

/-- `row.get(key) or default` -/
def get_or (row : Doc) (key : String) (default : JsonValue) : JsonValue :=
  ((row.get? key).filter truthy).getD default

def row_parents (row : Doc) : JsonValue :=
  let parents := get_or row "parents" (.list [])
  if truthy parents then parents
  else ((row.get? "parent_hash").filter truthy).elim parents fun parent => .list [parent]

/-- `none` for a `KeyError`. -/
def normalize_commit_row (row : Doc) : Option Doc :=
  (row.get? "hash").map fun hash =>
    let normalized : Doc := Dict.ofList [("hash",hash),("parents",row_parents row),
      ("author",get_or row "author" (.string "anonymous")),("timestamp",json_or_null (row.get? "timestamp")),
      ("message",get_or row "message" (.string "")),("tree",get_or row "tree" (.dict [])),
      ("tags",get_or row "tags" (.list [])),("metrics",get_or row "metrics" (.dict [])),
      ("project_id",json_or_null (row.get? "project_id")),("project_name",json_or_null (row.get? "project_name"))]
    set_when (set_when normalized "signature" ((row.get? "signature").filter truthy)) "env_snapshot_id"
      ((row.get? "env_snapshot_id").filter truthy)

end AetherVault
