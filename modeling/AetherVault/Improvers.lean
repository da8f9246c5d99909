import AetherVault.PolicyPacks
import AetherVault.Lib.Runs

/-! Improver versions, and how an approved change set is applied: a client looks at the change
set, mints a version of the improver and then asks for the change of status, in three requests. -/
namespace AetherVault.Improvers
open Lib ReadCommit

structure DBImproverVersion where
  id : String
  project_id : String
  manifest_object_id : String
  parent_id : Option String
  created_by : Option String
  created_at : Datetime

structure ImproverBody where
  id : Option String
  project_id : Option String
  manifest_object_id : Option String
  parent_id : Option String

abbrev ImproverVersions := Dict String DBImproverVersion

/-- The id in the answer, and the table; `none` for a 422. -/
def create_improver_version (body : ImproverBody) (now : PackMoment) (improvers : ImproverVersions) :
    Option (String × ImproverVersions) := do
  let improver_id := or_else body.id now.uuid.text
  let project_id ← body.project_id.filter (· ≠ "")
  let manifest_object_id ← require_uploaded_object_id body.manifest_object_id
  if improvers.contains improver_id then some (improver_id,improvers)
  else do
    guard (now.object_exists manifest_object_id)
    some (improver_id,improvers.set improver_id
      ⟨improver_id,project_id,manifest_object_id,body.parent_id,now.identity,now.created_at⟩)

/-- How far an `improver_apply` has come. -/
inductive ApplyCall
  | approved (change_set_id : String) (cs : DBChangeSet)
  | minted (change_set_id new_improver_id : String)
  | sent (change_set_id new_improver_id : String)

def ApplyCall.version : ApplyCall → Option (String × String)
  | approved _ _ => none
  | minted change_set_id new_improver_id => some (change_set_id,new_improver_id)
  | sent change_set_id new_improver_id => some (change_set_id,new_improver_id)

/-- The registry and the calls on it, with the versions that were minted from each change set. -/
structure Workshop where
  server : ReadCommit.Server ChangeSets ChangeSetPlan
  improvers : ImproverVersions
  calls : Dict Nat ApplyCall
  minted : List (String × String)

def Workshop.empty : Workshop := ⟨⟨∅,∅⟩,∅,∅,[]⟩

/-- What a client brings to the request that mints. -/
structure Minting where
  new_id : Uuid
  project_id : String
  /-- the parent's row was asked for and came -/
  parent_found : Bool
  empty_manifest_object_id : String

/-- A step of a call, or of any request about the status of a change set. -/
inductive ApplyMove
  | get_change_set (call : Nat) (change_set_id : String)
  /-- `answered` when the call receives what the server replies -/
  | create_improver (call : Nat) (minting : Minting) (now : PackMoment) (answered : Bool)
  | transition (call : Nat)
  /-- a request of the call does not reach the server -/
  | fail (call : Nat)
  | status (move : Move ChangeSetRequest Datetime)

/-- `_parent_manifest_object_id(…) or _empty_manifest_object_id(…)` -/
def manifest_object_id (improvers : ImproverVersions) (cs : DBChangeSet) (minting : Minting) : String :=
  let parent := (cs.improver_id.filter (· ≠ "")).bind improvers.get?
  or_else ((parent.filter fun _ => minting.parent_found).map DBImproverVersion.manifest_object_id) minting.empty_manifest_object_id

def improver_body (improvers : ImproverVersions) (cs : DBChangeSet) (minting : Minting) : ImproverBody :=
  ⟨some minting.new_id.text,some minting.project_id,some (manifest_object_id improvers cs minting),cs.improver_id⟩

namespace Workshop

/-- The versions minted from a change set, in their order. -/
def versions (s : Workshop) (change_set_id : String) : List String :=
  (s.minted.filter fun version => version.1 = change_set_id).map Prod.snd

def became_applied (s : Workshop) (change_set_id : String) : Prop := .applied ∈ s.server.shared.path change_set_id

def get_change_set (s : Workshop) (call : Nat) (change_set_id : String) : Workshop :=
  match s.server.shared.rows.get? change_set_id with
  | none => s
  | some cs => if cs.status = .approved ∧ s.calls.get? call = none then
      {s with calls := s.calls.set call (.approved change_set_id cs)} else s

/-- The id that an approved call's request is answered with, if it is, and whether it is a new one. -/
def mints (s : Workshop) (cs : DBChangeSet) (minting : Minting) (now : PackMoment) : Option (String × ImproverVersions) :=
  create_improver_version (improver_body s.improvers cs minting) now s.improvers

def create_improver (s : Workshop) (call : Nat) (minting : Minting) (now : PackMoment) (answered : Bool) : Workshop :=
  match s.calls.get? call with
  | some (.approved change_set_id cs) => match s.mints cs minting now with
    | none => {s with calls := s.calls.erase call}
    | some (id,improvers) =>
      {s with improvers := improvers
              calls := if answered then s.calls.set call (.minted change_set_id id) else s.calls.erase call
              minted := if s.improvers.contains id then s.minted else s.minted ++ [(change_set_id,id)]}
  | _ => s

/-- The server looks at the change set for the call's request, or refuses it. -/
def transition (s : Workshop) (call : Nat) : Workshop :=
  match s.calls.get? call with
  | some (.minted change_set_id id) =>
    if s.server.pending.contains call then s
    else
      let server := change_sets.step s.server (.read call (.update_change_set_status change_set_id (some .applied)))
      {s with server := server
              calls := if server.pending.contains call then s.calls.set call (.sent change_set_id id) else s.calls.erase call}
  | _ => s

def fail (s : Workshop) (call : Nat) : Workshop :=
  match s.calls.get? call with
  | some (.sent _ _) => s
  | _ => {s with calls := s.calls.erase call}

/-- A call is over when its last request is. -/
def settle (calls : Dict Nat ApplyCall) (call : Nat) : Dict Nat ApplyCall :=
  match calls.get? call with
  | some (.sent _ _) => calls.erase call
  | _ => calls

def status (s : Workshop) (move : Move ChangeSetRequest Datetime) : Workshop :=
  {s with server := change_sets.step s.server move
          calls := match move with
            | .read _ _ => s.calls
            | .commit call _ => settle s.calls call
            | .abandon call => settle s.calls call}

def step (s : Workshop) : ApplyMove → Workshop
  | .get_change_set call change_set_id => s.get_change_set call change_set_id
  | .create_improver call minting now answered => s.create_improver call minting now answered
  | .transition call => s.transition call
  | .fail call => s.fail call
  | .status move => s.status move

end Workshop

end AetherVault.Improvers
