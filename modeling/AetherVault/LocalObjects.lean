import AetherVault.PromotionGate
import AetherVault.Daemon
import AetherVault.Lib.JsonIndent
import AetherVault.Staging

/-! The object files of a client, each under the name its writer gives it, and the writers:
staging, downloads, environment snapshots and documents. -/
namespace AetherVault.LocalObjects
open Lib Hashing
open Daemon (compact)

variable {H : Type} [DecidableEq H] [Hashing H]

abbrev CasFiles (H : Type) := Dict H Bytes

/-- A name that is taken is left alone. -/
def _atomic_publish_object (files : CasFiles H) (h : H) (written : Bytes) : CasFiles H :=
  if files.contains h then files else files.set h written

/-- What comes back for a name, kept when its digest is that name. -/
def download_object (h : H) (received : Option Bytes) : Option Bytes := received.filter fun content => sha256 content = h

/-- The whole-file branch: a download goes to the working tree, and from there into the store. -/
def materialize_file (files : CasFiles H) (h : H) (received : Option Bytes) (copied : Bytes) : CasFiles H :=
  if files.contains h then files
  else match download_object h received with
    | none => files
    | some _ => files.set h copied

/-! Documents. -/

def object_id (doc : Doc) : H := sha256 (canonical_bytes doc)

def full_bytes (doc : Doc) : Bytes := encode (JsonValue.dumps spaced true (.dict doc.entries))

def write_object (files : CasFiles H) (doc : Doc) : CasFiles H :=
  if files.contains (object_id doc) then files else files.set (object_id doc) (full_bytes doc)

/-! Environment snapshots. -/

/-- `json.loads`, and whether a number equals another under Python's `==`. -/
structure SnapshotTools where
  loads : Bytes → Improvers.Loaded
  equals : Numeral → Nat → Bool

variable (tools : SnapshotTools)

/-- `snap.get("snapshot_version") == 2` -/
def second_version (snap : Doc) : Bool :=
  match snap.get? "snapshot_version" with
  | some (.number n) => tools.equals n 2
  | _ => false

/-- The second version is identified by its `env` alone, the first by all but the time of capture. -/
def canonical_env (snap : Doc) : Doc :=
  match second_version tools snap,snap.get? "env" with
  | true,some (.dict env) => Dict.ofList [("snapshot_version",natural 2),("env",.dict env)]
  | _,_ => snap.erase "captured_at"

def canonical_env_bytes (snap : Doc) : Bytes :=
  encode (JsonValue.dumps compact true (.dict (canonical_env tools snap).entries))

def env_snapshot_id (snap : Doc) : H := sha256 (canonical_env_bytes tools snap)

/-- `push_objects` stores the snapshot of the repository the same way. -/
def _store_snapshot_object (files : CasFiles H) (snap : Doc) : CasFiles H :=
  if files.contains (env_snapshot_id tools snap) then files
  else files.set (env_snapshot_id tools snap) (canonical_env_bytes tools snap)

/-- `json.dumps(snap, indent=2, sort_keys=True)` -/
def indented_bytes (snap : Doc) : Bytes := encode (JsonValue.indented 2 0 (JsonValue.dict snap.entries).arrange)

inductive LocalSnapshot
  | found (snap : Doc)
  | absent
  | raised

def local_snapshot (files : CasFiles H) (sid : H) : LocalSnapshot :=
  match (files.get? sid).map tools.loads with
  | some (.value (.dict members)) => .found (Dict.ofList members)
  | some .raised => .raised
  | _ => .absent

/-- The snapshot in a reply with status 200, when it is the one that was asked for. -/
def replied_snapshot (sid : H) (reply : Option Bytes) : Option Doc :=
  match reply.map tools.loads with
  | some (.value (.dict members)) => (some (Dict.ofList members)).filter fun snap => env_snapshot_id tools snap = sid
  | _ => none

/-- The snapshot that is fetched from the registry and written, when the local store has none to return. -/
def fetched_snapshot (files : CasFiles H) (sid : H) (reply : Option Bytes) : Option Doc :=
  match local_snapshot tools files sid with
  | .absent => replied_snapshot tools sid reply
  | _ => none

def fetch_snapshot_by_id (files : CasFiles H) (sid : H) (reply : Option Bytes) : CasFiles H :=
  match fetched_snapshot tools files sid reply with
  | none => files
  | some snap => files.set sid (indented_bytes snap)

/-! One write to the store after the other. -/

inductive CasWrite (H : Type)
  /-- the digest is taken while the bytes are copied -/
  | publish (content : Bytes)
  /-- the digest is taken in one read and the bytes are copied in another -/
  | publish_reread (hashed copied : Bytes)
  | download (h : H) (received : Option Bytes)
  | materialize (h : H) (received : Option Bytes) (copied : Bytes)
  | write_object (doc : Doc)
  | store_snapshot (snap : Doc)
  | fetch_snapshot (sid : H) (reply : Option Bytes)
  /-- a collection, or a repair that discards what is corrupt -/
  | unlink (h : H)

def step (files : CasFiles H) : CasWrite H → CasFiles H
  | .publish content => _atomic_publish_object files (sha256 content) content
  | .publish_reread hashed copied => _atomic_publish_object files (sha256 hashed) copied
  | .download h received => (download_object h received).elim files (files.set h)
  | .materialize h received copied => materialize_file files h received copied
  | .write_object doc => write_object files doc
  | .store_snapshot snap => _store_snapshot_object tools files snap
  | .fetch_snapshot sid reply => fetch_snapshot_by_id tools files sid reply
  | .unlink h => files.erase h

/-! Staging: which reads of the file its writes come from. -/

/-- The times a file is opened while it is staged. -/
inductive Pass
  | fused_layers
  | split_layers
  | layer (i : Nat)
  | fused_chunks
  | chunk_hashes
  | chunk (i : Nat)
  | hash_file
  | copy_file
  | whole_file

/-- What each of them reads; another program may write the file in between. -/
abbrev Reads := Pass → FileData

def published (objects : Objects H) : List (CasWrite H) := objects.held.entries.map fun item => .publish item.2

/-- The writes, the read that the whole-file digest was taken over, and whether the file was split. -/
structure Cut (H : Type) where
  writes : List (CasWrite H)
  hashed : Option FileData
  split : Bool

/-- What a fused pass publishes; a name that is taken is skipped by each write on its own. -/
def Cut.of_fused {P : Type} (read : FileData) (s : Split H P) : Cut H :=
  ⟨published s.1,s.2.1.map fun _ => read,!s.2.2.isEmpty⟩

/-- The copies of the legacy passes: each part is read again from its own offset. -/
def reread (hashed : FileData) (copied : Nat → FileData) (parts : List (Nat × Nat)) : List (CasWrite H) :=
  parts.zipIdx.map fun item =>
    .publish_reread (slice hashed.bytes item.1.1 item.1.2) (slice (copied item.2).bytes item.1.1 item.1.2)

variable (H) in
def cut_layers (env : StageEnv) (mtime_ns : Nat) (reads : Reads) (rel_path : Path) (attr_flags : List String) : Cut H :=
  match env.native with
  | none => ⟨[],none,false⟩
  | some native =>
    if rel_path.endswith ".safetensors" ∧ "no-layer-split" ∉ attr_flags then
      let fused := Cut.of_fused (reads .fused_layers)
        (fused_layers env native (Objects.empty : Objects H) ⟨reads .fused_layers,mtime_ns⟩ rel_path.text)
      if fused.split then fused
      else match (split_and_hash_safetensors_core native rel_path.text (reads .split_layers) :
          Except String (List (LayerResult H))) with
        | .ok results => ⟨fused.writes ++ reread (reads .split_layers) (fun i => reads (.layer i))
            (results.map fun lr => (lr.offset,lr.size)),fused.hashed,!results.isEmpty⟩
        | .error _ => fused
    else ⟨[],none,false⟩

variable (H) in
def cut_chunks (env : StageEnv) (mtime_ns : Nat) (reads : Reads) (rel_path : Path) (attr_flags : List String) : Cut H :=
  if cdc_eligible env rel_path attr_flags then
    let fused := Cut.of_fused (reads .fused_chunks)
      (fused_chunks env (Objects.empty : Objects H) ⟨reads .fused_chunks,mtime_ns⟩)
    if fused.split then fused
    else match (chunk_and_hash_file_core (reads .chunk_hashes) {} : Except String (List (Chunk H))) with
      | .ok results => ⟨fused.writes ++ reread (reads .chunk_hashes) (fun i => reads (.chunk i))
          (results.map fun cr => (cr.offset,cr.size)),fused.hashed,!results.isEmpty⟩
      | .error _ => fused
  else ⟨[],none,false⟩

variable (H) in
/-- The store's part of `_compute_stage_result`, for a file of the given size and mtime. -/
def stage_writes (env : StageEnv) (size mtime_ns : Nat) (reads : Reads) (rel_path : Path) (file_type : FileType)
    (existing_entry : Option (IndexEntry H)) (attr_flags : List String) : List (CasWrite H) :=
  if existing_entry.any (fun e => size == e.size && mtime_ns == e.mtime_ns) then []
  else if file_type = .artifact ∧ (size : Int) > env.threshold_bytes then
    let layers := cut_layers H env mtime_ns reads rel_path attr_flags
    let chunks := if layers.split then ⟨[],layers.hashed,false⟩ else cut_chunks H env mtime_ns reads rel_path attr_flags
    let hashed := chunks.hashed.getD (reads .hash_file)
    layers.writes ++ chunks.writes ++
      if layers.split || chunks.split then [] else [.publish_reread hashed.bytes (reads .copy_file).bytes]
  else [.publish (reads .whole_file).bytes]

inductive ClientCommand (H : Type)
  | stage (env : StageEnv) (size mtime_ns : Nat) (reads : Reads) (rel_path : Path) (file_type : FileType)
      (existing_entry : Option (IndexEntry H)) (attr_flags : List String)
  | single (write : CasWrite H)

/-- What a command does to the store, in order. -/
def ClientCommand.writes : ClientCommand H → List (CasWrite H)
  | .stage env size mtime_ns reads rel_path file_type existing_entry attr_flags =>
    stage_writes H env size mtime_ns reads rel_path file_type existing_entry attr_flags
  | .single write => [write]

end AetherVault.LocalObjects
