import AetherVault.World
import Mathlib.Data.List.Sort

/-! What every command is built from: the registry client, the repository locks,
and the restore of a file from its object or its shards. -/
namespace AetherVault
open Lib Hashing
open Lib.Prog (call forEach foldEach)

inductive Failure (H : Type)
  | authentication
  | ref_race (current : Option H)
  | repo_locked
  | missing_object (message : String)
  | click (message : String)
  | validation (message : String)
  | merge_conflict (local_tip : Option H) (remote_tip : H)
  | type_error
  | os_error
  | out_of_fuel
  deriving DecidableEq

/-- A command of the client, or a function it calls. -/
abbrev Command (H : Type) := Prog (Op H) (Failure H)

variable {H : Type} [DecidableEq H] [Hashing H] [Canonical H]

/-! The registry client: no answer reads as failure, a rejected token raises. -/

namespace VaultClient

def server_available : Command H Bool := call .server_available

def received {α β : Type} (reply : Reply α) (failed : β) (read : α → Command H β) : Command H β :=
  match reply with
  | .answered a => read a
  | .unauthorized => .fail .authentication
  | .unreachable => .pure failed

def batch_check_objects (hashes : List H) : Command H (List H) :=
  if hashes = [] then .pure []
  else do received (← call (.batch_check hashes)) [] .pure

/-- Only a fresh store counts: an object that is there already answers 409. -/
def upload_object (h : H) (content : Bytes) : Command H Bool := do
  received (← call (.upload h content)) false fun status => .pure (status == 201)

/-- Downloaded bytes are only kept when they hash to the name they were fetched by. -/
def download_object (h : H) : Command H (Option Bytes) := do
  received (← call (.download h)) none fun found => .pure (found.filter fun content => sha256 content == h)

def push_commit (h : H) (data : CommitData H) : Command H Bool := do
  received (← call (.push_commit h data)) false fun status => .pure (status == 201 || status == 409)

def get_commit (h : H) : Command H (Option (CommitData H)) := do
  received (← call (.get_commit h)) none .pure

def update_ref (ref_name : String) (h : H) (expected_hash : Option H) : Command H Bool := do
  received (← call (.update_ref ref_name h expected_hash)) false fun done =>
    if done.updated then .pure true else .fail (.ref_race done.current)

def get_ref (ref_name : String) : Command H (Option H) := do
  received (← call (.get_ref ref_name)) none .pure

def list_refs : Command H (Dict String H) := do
  received (← call .list_refs) ∅ .pure

def list_commits (limit offset : Nat) : Command H (Option (List (H × CommitData H) × Option Nat)) := do
  received (← call (.list_commits limit offset)) none fun page => .pure (some page)

end VaultClient

def with_lock {α : Type} (lock : LockName) (body : Command H α) : Command H α := do
  if ← call (.acquire lock) then
    let result ← body.attempt fun e => do
      call (.release lock)
      .fail e
    call (.release lock)
    .pure result
  else .fail .repo_locked

/-! Reading objects. -/

/-- `objects / h[:2] / h[2:]`: some names are no object's, and only text can be cut. -/
def object_path : Digest H → Command H (Option H)
  | .sha h => .pure (some h)
  | .kind _ => .pure none
  | _ => .fail .type_error

def read_local (name : Option H) : Command H (Option Bytes) :=
  match name with
  | some h => call (.read_object h)
  | none => .pure none

def write_bytes (rel_path : Path) (content : Bytes) : Command H Unit := do
  if ← call (.write_file rel_path content) then .pure () else .fail .os_error

/-- One shard, from the local store or downloaded into it. -/
def fetch_shard (h : H) : Command H (Option Bytes) := do
  match ← call (.read_object h) with
  | some content => .pure (some content)
  | none =>
    if ← VaultClient.server_available then
      match ← VaultClient.download_object h with
      | some content => call (.publish_object content)
      | none => .pure ()
    call (.read_object h)

def append_shard (rel_path : Path) (kind : String) (written : Bytes) (h : H) : Command H Bytes := do
  match ← fetch_shard h with
  | none => .fail (.click s!"Missing {kind} for {rel_path.text}; aborted to avoid a corrupt artifact")
  | some content =>
    write_bytes rel_path (written ++ content)
    .pure (written ++ content)

/-- Appends the shards to the file; a missing one deletes it and aborts. -/
def reassemble (rel_path : Path) (kind : String) (shards : List H) : Command H Bytes := do
  write_bytes rel_path []
  (foldEach (append_shard rel_path kind) shards []).attempt fun e => do
    match e with
    | .click message =>
      call (.remove_file rel_path)
      .fail (.click message)
    | other => .fail other

def ordered_chunks (chunks : List (Chunk H)) : List (Chunk H) := chunks.insertionSort (fun a b => a.offset ≤ b.offset)

def shards_of (layers : List (Layer H)) (chunks : List (Chunk H)) : List H :=
  if layers ≠ [] then layers.map (·.hash) else (ordered_chunks chunks).map (·.hash)

def materialize_whole (rel_path : Path) (h : Digest H) (name : Option H) (verify : Bool) : Command H Unit := do
  match ← read_local name with
  | some content =>
    if verify ∧ Digest.sha (sha256 content) ≠ h then
      .fail (.missing_object s!"Object for {rel_path.text} is corrupt; {rel_path.text} was not touched.")
    else write_bytes rel_path content
  | none =>
    let downloaded ←
      if ← VaultClient.server_available then
        match name with
        | some h => VaultClient.download_object h
        | none => .pure none
      else .pure none
    match downloaded with
    | none => .fail (.missing_object s!"Object for {rel_path.text} is missing; {rel_path.text} was not restored.")
    | some content => do
      write_bytes rel_path content
      call (.publish_object content)

def materialize_file (rel_path : Path) (h : Digest H) (layers : List (Layer H)) (chunks : List (Chunk H))
    (verify : Bool) : Command H Unit := do
  let name ← object_path h
  if layers ≠ [] ∨ chunks ≠ [] then
    let content ← reassemble rel_path (if layers ≠ [] then "layer" else "chunk") (shards_of layers chunks)
    if verify ∧ Digest.sha (sha256 content) ≠ h then do
      call (.remove_file rel_path)
      .fail (.missing_object s!"Reassembled {rel_path.text} does not match its hash.")
    else .pure ()
  else materialize_whole rel_path h name verify

end AetherVault
