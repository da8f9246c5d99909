import AetherVault.ObjectFiles
import AetherVault.CommitRows
import AetherVault.Lib.Runs

/-! The rows of the registry that refer to objects without a commit's tree: the artifacts that are
registered for objects uploaded before, and what runs and commits are linked to. -/
namespace AetherVault.Artifacts
open Lib Hashing

/-- The tables of artifacts, each with one column that holds an object's hash. -/
inductive ArtifactTable
  | improver_versions
  | change_sets
  | policy_packs
  | canary_results
  | eval_suites
  | plans
  | lessons
  | tool_manifests
  | action_logs
  deriving DecidableEq

/-- `manifest_object_id`, `suite_object_id` or `object_id`. -/
structure Artifact (H : Type) where
  tenant_id : Tenant
  object_id : H
  deriving DecidableEq

structure DBRun (H : Type) where
  tenant_id : Tenant
  avh_object_id : Option H
  env_snapshot_id : Option H

structure Shelf (H : Type) where
  ledger : Ledger H
  artifacts : Dict (ArtifactTable × String) (Artifact H)
  runs : Dict String (DBRun H)

namespace Shelf

def empty {H : Type} [DecidableEq H] : Shelf H := ⟨⟨Registry.empty,∅⟩,∅,∅⟩

variable {H : Type} [DecidableEq H]

def registry (s : Shelf H) : Registry H := s.ledger.registry

/-- Two rows of one hash are a 500. -/
def object_exists (config : ServerConfig) (s : Shelf H) (tenant : Tenant) (object_id : H) : Bool :=
  (s.registry.select_objects (config.cas_isolation.cas_tenant_id tenant) [object_id]).length == 1

/-- A route that registers an artifact; `accepted` when the rest of the request passes. What has the id
already stays, be it found or an `IntegrityError`. -/
def create (table : ArtifactTable) (config : ServerConfig) (tenant : Tenant) (id : String) (object_id : H) (accepted : Bool)
    (s : Shelf H) : Shelf H :=
  if accepted && !s.artifacts.contains (table,id) && s.object_exists config tenant object_id then
    {s with artifacts := s.artifacts.set (table,id) ⟨tenant,object_id⟩}
  else s

section Routes

variable (config : ServerConfig) (tenant : Tenant) (id : String) (object_id : H) (accepted : Bool) (s : Shelf H)

def create_improver_version : Shelf H := create .improver_versions config tenant id object_id accepted s

def create_change_set : Shelf H := create .change_sets config tenant id object_id accepted s

def create_policy_pack : Shelf H := create .policy_packs config tenant id object_id accepted s

def report_canary_result : Shelf H := create .canary_results config tenant id object_id accepted s

def create_eval_suite : Shelf H := create .eval_suites config tenant id object_id accepted s

def create_plan : Shelf H := create .plans config tenant id object_id accepted s

def create_lessons : Shelf H := create .lessons config tenant id object_id accepted s

def create_tool_manifest : Shelf H := create .tool_manifests config tenant id object_id accepted s

def create_action_log : Shelf H := create .action_logs config tenant id object_id accepted s

def register : ArtifactTable → Shelf H
  | .improver_versions => create_improver_version config tenant id object_id accepted s
  | .change_sets => create_change_set config tenant id object_id accepted s
  | .policy_packs => create_policy_pack config tenant id object_id accepted s
  | .canary_results => report_canary_result config tenant id object_id accepted s
  | .eval_suites => create_eval_suite config tenant id object_id accepted s
  | .plans => create_plan config tenant id object_id accepted s
  | .lessons => create_lessons config tenant id object_id accepted s
  | .tool_manifests => create_tool_manifest config tenant id object_id accepted s
  | .action_logs => create_action_log config tenant id object_id accepted s

theorem register_eq (table : ArtifactTable) : register config tenant id object_id accepted s table =
    create table config tenant id object_id accepted s := by
  cases table <;> rfl

/-- The suite keeps its tenant; `accepted` when it is not frozen. -/
def update_eval_suite : Shelf H :=
  match s.artifacts.get? (.eval_suites,id) with
  | none => s
  | some row => if accepted && s.object_exists config tenant object_id then
      {s with artifacts := s.artifacts.set (.eval_suites,id) {row with object_id := object_id}} else s

def link_run_avh : Shelf H :=
  match s.runs.get? id with
  | none => s
  | some run => if s.object_exists config tenant object_id then
      {s with runs := s.runs.set id {run with avh_object_id := some object_id}} else s

end Routes

/-- Nothing is asked of the snapshot. -/
def create_run (tenant : Tenant) (id : String) (env_snapshot_id : Option H) (s : Shelf H) : Shelf H :=
  if s.runs.contains id then s else {s with runs := s.runs.set id ⟨tenant,none,env_snapshot_id⟩}

/-- The run that a stored commit names is made, or gets the commit's snapshot if it has none. -/
def link_run (push : Ledger.Push H) (runs : Dict String (DBRun H)) : Dict String (DBRun H) :=
  (linked_run push.commit.payload.run_id).elim runs fun id =>
    let run := (runs.get? id).getD ⟨push.tenant,none,none⟩
    runs.set id {run with env_snapshot_id := run.env_snapshot_id.or push.commit.payload.env_snapshot_id}

end Shelf

variable {H : Type} [DecidableEq H] [Hashing H] [TreeContent H] [HexDigest H]

inductive ShelfMove (H : Type)
  | upload_object (tenant : Tenant) (h : H) (content : Bytes) (declared : Bool) (policy : Registry H → Moment H)
  | push_commit (push : Ledger.Push H) (policy : Registry H → Moment H)
  | register (table : ArtifactTable) (tenant : Tenant) (id : String) (object_id : H) (accepted : Bool)
  | update_eval_suite (tenant : Tenant) (id : String) (object_id : H) (accepted : Bool)
  | create_run (tenant : Tenant) (id : String) (env_snapshot_id : Option H)
  | link_run_avh (tenant : Tenant) (id : String) (object_id : H)
  | run_garbage_collection (policy : Registry H → Moment H)

namespace Shelf

variable (config : ServerConfig) (limits : PushLimits)

def push (pushed : Ledger.Push H) (policy : Registry H → Moment H) (s : Shelf H) : Shelf H :=
  let done := s.ledger.push_commit config limits 0 policy pushed
  {s with ledger := done.2,runs := if done.1 = .ok 201 then link_run pushed s.runs else s.runs}

def with_registry (s : Shelf H) (registry : Registry H) : Shelf H := {s with ledger := {s.ledger with registry := registry}}

def step (s : Shelf H) : ShelfMove H → Shelf H
  | .upload_object tenant h content declared policy =>
    s.with_registry ((AetherVault.upload_object config tenant h content declared).run (Registry.exec 0) policy s.registry).2
  | .push_commit pushed policy => s.push config limits pushed policy
  | .register table tenant id object_id accepted => register config tenant id object_id accepted s table
  | .update_eval_suite tenant id object_id accepted => s.update_eval_suite config tenant id object_id accepted
  | .create_run tenant id env_snapshot_id => s.create_run tenant id env_snapshot_id
  | .link_run_avh tenant id object_id => s.link_run_avh config tenant id object_id
  | .run_garbage_collection policy =>
    s.with_registry ((AetherVault.run_garbage_collection config).run (Registry.exec 0) policy s.registry).2

end Shelf

end AetherVault.Artifacts
