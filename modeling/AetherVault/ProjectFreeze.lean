import AetherVault.CommitRows
import AetherVault.Improvers

/-! The per-project freeze: what the routes of improver versions, change sets and policy packs write while
`set_freeze_state` has frozen the project. -/
namespace AetherVault
open Lib ReadCommit Hashing

structure DBProjectFreeze where
  frozen : Bool
  reason : Option String
  frozen_by : Option String
  frozen_at : Option Datetime
  updated_at : Datetime

structure FreezeBody where
  frozen : Option JsonValue
  reason : Option String

/-- The tables that the routes read and write; freezes by project. -/
structure Governance where
  improvers : Improvers.ImproverVersions
  change_sets : ChangeSets
  packs : PolicyPacks
  freezes : Dict String DBProjectFreeze

inductive GovernanceRequest
  | create_improver_version (body : Improvers.ImproverBody) (now : PackMoment)
  | change_set (request : ChangeSetRequest)
  | create_policy_pack (body : PolicyPackBody) (now : PackMoment)
  | set_freeze_state (project_id : String) (body : FreezeBody) (identity : Option String)

/-- What a request that passed its checks writes; a freeze with whether it found a row. -/
inductive GovernancePlan
  | improver (row : Improvers.DBImproverVersion)
  | change_set (plan : ChangeSetPlan)
  | pack (row : DBPolicyPack)
  | freeze (project_id : String) (found frozen : Bool) (reason identity : Option String)

/-- The row that `create_improver_version` adds. -/
def new_improver (body : Improvers.ImproverBody) (now : PackMoment) (improvers : Improvers.ImproverVersions) :
    Option Improvers.DBImproverVersion := do
  let made ← Improvers.create_improver_version body now improvers
  guard (!improvers.contains made.1)
  made.2.get? made.1

/-- A new row keeps the reason in any case, an old one only while it is frozen. -/
def freeze_row (found frozen : Bool) (reason identity : Option String) (now : Datetime) : DBProjectFreeze where
  frozen := frozen
  reason := if found && !frozen then none else reason
  frozen_by := if frozen then identity else none
  frozen_at := if frozen then some now else none
  updated_at := now

namespace Governance

/-- `row.frozen`; a project without a row is not. -/
def frozen (s : Governance) (project_id : String) : Bool := (s.freezes.get? project_id).any DBProjectFreeze.frozen

variable (H : Type) [Hashing H] [HexDigest H]

def plan (request : GovernanceRequest) (s : Governance) : Option GovernancePlan :=
  match request with
  | .create_improver_version body now => (new_improver body now s.improvers).map .improver
  | .change_set request => (request.plan s.change_sets).map .change_set
  | .create_policy_pack body now => (create_policy_pack H body now s.packs).map .pack
  | .set_freeze_state project_id body identity =>
    some (.freeze project_id (s.freezes.contains project_id) (body.frozen.any truthy) body.reason identity)

/-- A key that is taken by now is an `IntegrityError`. -/
def write (plan : GovernancePlan) (now : Datetime) (s : Governance) : Governance :=
  match plan with
  | .improver row => if s.improvers.contains row.id then s else {s with improvers := s.improvers.set row.id row}
  | .change_set plan => {s with change_sets := plan.write now s.change_sets}
  | .pack row => if s.packs.any fun pack => pack.id == row.id then s else {s with packs := s.packs ++ [row]}
  | .freeze project_id found frozen reason identity =>
    if !found && s.freezes.contains project_id then s
    else {s with freezes := s.freezes.set project_id (freeze_row found frozen reason identity now)}

def governance : Protocol Governance GovernanceRequest GovernancePlan Datetime where
  plan := plan H
  write := write
  waits _ _ := false

variable {H}

/-- What a freeze of the project rules out. -/
inductive Written (s s' : Governance) (project_id : String) : Prop
  | improver (id : String) (row : Improvers.DBImproverVersion) (absent : s.improvers.get? id = none)
      (made : s'.improvers.get? id = some row) (owned : row.project_id = project_id)
  | change_set (id : String) (row : DBChangeSet) (absent : s.change_sets.rows.get? id = none)
      (made : s'.change_sets.rows.get? id = some row) (owned : row.project_id = project_id)
  | pack (row : DBPolicyPack) (absent : ∀ other ∈ s.packs, other.id ≠ row.id) (made : row ∈ s'.packs) (owned : row.project_id = project_id)
  | status (id : String) (row row' : DBChangeSet) (was : s.change_sets.rows.get? id = some row)
      (became : s'.change_sets.rows.get? id = some row') (changed : row'.status ≠ row.status)
      (counts : row'.status ∈ [.approved,.applied]) (owned : row'.project_id = project_id)

/-- A step from a state in which a project is frozen writes nothing of it. -/
def Enforced (s s' : Governance) : Prop := ∀ project_id, s.frozen project_id = true → ¬Written s s' project_id

/-- The project for which the plan would write a row or a status that a freeze rules out, as the tables are. -/
def target (s : Governance) (now : Datetime) : GovernancePlan → Option String
  | .improver row => if s.improvers.contains row.id then none else some row.project_id
  | .change_set (.insert row) => if s.change_sets.rows.contains (row now).id then none else some (row now).project_id
  | .change_set (.set_status cs_id _ new_status) => ((s.change_sets.rows.get? cs_id).filter fun row =>
      new_status ≠ row.status && new_status ∈ [.approved,.applied]).map DBChangeSet.project_id
  | .pack row => if s.packs.any fun pack => pack.id == row.id then none else some row.project_id
  | .freeze _ _ _ _ _ => none

/-- The request's project is not frozen when it commits. -/
def Unfrozen (plan : GovernancePlan) (now : Datetime) (s : Governance) : Prop :=
  ∀ project_id, s.target now plan = some project_id → s.frozen project_id = false

variable {s : Governance} {project_id : String}

/-- Where one table changes, what is written is in that table. -/
theorem written_improvers {improvers : Improvers.ImproverVersions} (written : Written s {s with improvers := improvers} project_id) :
    ∃ id row, s.improvers.get? id = none ∧ improvers.get? id = some row ∧ row.project_id = project_id := by
  cases written with
  | improver id row absent made owned => exact ⟨id,row,absent,made,owned⟩
  | change_set id row absent made owned => rw [absent] at made; contradiction
  | pack row absent made owned => exact absurd rfl (absent row made)
  | status id row row' was became changed counts owned =>
    rw [was] at became
    cases became
    contradiction

theorem written_packs {packs : PolicyPacks} (written : Written s {s with packs := packs} project_id) :
    ∃ row, (∀ other ∈ s.packs, other.id ≠ row.id) ∧ row ∈ packs ∧ row.project_id = project_id := by
  cases written with
  | improver id row absent made owned => rw [absent] at made; contradiction
  | change_set id row absent made owned => rw [absent] at made; contradiction
  | pack row absent made owned => exact ⟨row,absent,made,owned⟩
  | status id row row' was became changed counts owned =>
    rw [was] at became
    cases became
    contradiction

theorem written_change_sets {change_sets : ChangeSets} (written : Written s {s with change_sets := change_sets} project_id) :
    ∃ id row', change_sets.rows.get? id = some row' ∧ row'.project_id = project_id ∧ (s.change_sets.rows.get? id = none ∨
      ∃ row, s.change_sets.rows.get? id = some row ∧ row'.status ≠ row.status ∧ row'.status ∈ [.approved,.applied]) := by
  cases written with
  | improver id row absent made owned => rw [absent] at made; contradiction
  | change_set id row absent made owned => exact ⟨id,row,made,owned,Or.inl absent⟩
  | pack row absent made owned => exact absurd rfl (absent row made)
  | status id row row' was became changed counts owned => exact ⟨id,row',became,owned,Or.inr ⟨row,was,changed,counts⟩⟩

theorem not_written (s : Governance) (project_id : String) : ¬Written s s project_id := by
  intro written
  obtain ⟨id,row,absent,made,-⟩ := written_improvers written
  rw [absent] at made
  contradiction

theorem not_written_freezes (freezes : Dict String DBProjectFreeze) : ¬Written s {s with freezes := freezes} project_id := by
  intro written
  cases written with
  | improver id row absent made owned => exact not_written s project_id (.improver id row absent made owned)
  | change_set id row absent made owned => exact not_written s project_id (.change_set id row absent made owned)
  | pack row absent made owned => exact not_written s project_id (.pack row absent made owned)
  | status id row row' was became changed counts owned =>
    exact not_written s project_id (.status id row row' was became changed counts owned)

theorem insert_written_iff (row : Datetime → DBChangeSet) (now : Datetime) :
    Written s (write (.change_set (.insert row)) now s) project_id ↔ s.target now (.change_set (.insert row)) = some project_id := by
  cases taken : s.change_sets.rows.contains (row now).id with
  | true =>
    have wrote : write (.change_set (.insert row)) now s = s := by simp [write,ChangeSetPlan.write,taken]
    rw [wrote]
    exact iff_of_false (not_written s project_id) (by simp [target,taken])
  | false =>
    have wrote : write (.change_set (.insert row)) now s = {s with change_sets := ⟨s.change_sets.rows.set (row now).id (row now),
        s.change_sets.committed ++ [((row now).id,(row now).status)]⟩} := by simp [write,ChangeSetPlan.write,taken]
    have aimed : s.target now (.change_set (.insert row)) = some (row now).project_id := by simp [target,taken]
    have free := (Dict.contains_false _ _).mp taken
    rw [wrote,aimed,Option.some.injEq]
    constructor
    · intro written
      obtain ⟨id,row',made,owned,before⟩ := written_change_sets written
      rw [Dict.get?_set] at made
      split at made
      · cases made
        exact owned
      · cases before with
        | inl absent =>
          rw [absent] at made
          contradiction
        | inr changed =>
          obtain ⟨old,was,differs,-⟩ := changed
          rw [was] at made
          cases made
          contradiction
    · intro owned
      exact .change_set (row now).id (row now) free (Dict.get?_set_same _ _ _) owned

theorem status_written_iff (cs_id : String) (read new_status : ChangeSetStatus) (now : Datetime) :
    Written s (write (.change_set (.set_status cs_id read new_status)) now s) project_id ↔
      s.target now (.change_set (.set_status cs_id read new_status)) = some project_id := by
  cases found : s.change_sets.rows.get? cs_id with
  | none =>
    have wrote : write (.change_set (.set_status cs_id read new_status)) now s = s := by simp [write,ChangeSetPlan.write,found]
    rw [wrote]
    exact iff_of_false (not_written s project_id) (by simp [target,found])
  | some row =>
    have wrote : write (.change_set (.set_status cs_id read new_status)) now s = {s with change_sets :=
        ⟨s.change_sets.rows.set cs_id {row with status := new_status,updated_at := now},s.change_sets.committed ++ [(cs_id,new_status)]⟩} := by
      simp [write,ChangeSetPlan.write,found]
    rw [wrote,target,found]
    simp only [Option.map_eq_some_iff,Option.filter_eq_some_iff,Option.some.injEq,Bool.and_eq_true,decide_eq_true_eq]
    constructor
    · intro written
      obtain ⟨id,row',made,owned,before⟩ := written_change_sets written
      rw [Dict.get?_set] at made
      split at made
      · rename_i same
        cases made
        cases before with
        | inl absent =>
          rw [same,found] at absent
          contradiction
        | inr changed =>
          obtain ⟨old,was,differs,counts⟩ := changed
          rw [same,found] at was
          cases was
          exact ⟨row,⟨rfl,differs,counts⟩,owned⟩
      · cases before with
        | inl absent =>
          rw [absent] at made
          contradiction
        | inr changed =>
          obtain ⟨old,was,differs,-⟩ := changed
          rw [was] at made
          cases made
          contradiction
    · intro reached
      obtain ⟨old,⟨rfl,differs,counts⟩,owned⟩ := reached
      exact .status cs_id row _ found (Dict.get?_set_same _ _ _) differs counts owned

/-- A commit writes what a freeze of the project rules out exactly when the project is its target. -/
theorem written_iff (plan : GovernancePlan) (now : Datetime) (s : Governance) :
    Written s (write plan now s) project_id ↔ s.target now plan = some project_id := by
  cases plan with
  | improver row =>
    cases taken : s.improvers.contains row.id with
    | true =>
      have wrote : write (.improver row) now s = s := by simp [write,taken]
      rw [wrote]
      exact iff_of_false (not_written s project_id) (by simp [target,taken])
    | false =>
      have wrote : write (.improver row) now s = {s with improvers := s.improvers.set row.id row} := by simp [write,taken]
      have aimed : s.target now (.improver row) = some row.project_id := by simp [target,taken]
      rw [wrote,aimed,Option.some.injEq]
      constructor
      · intro written
        obtain ⟨id,row',absent,made,owned⟩ := written_improvers written
        rw [Dict.get?_set] at made
        split at made
        · cases made
          exact owned
        · rw [absent] at made
          contradiction
      · intro owned
        exact .improver row.id row ((Dict.contains_false _ _).mp taken) (Dict.get?_set_same _ _ _) owned
  | change_set plan =>
    cases plan with
    | insert row => exact insert_written_iff row now
    | set_status cs_id read new_status => exact status_written_iff cs_id read new_status now
  | pack row =>
    cases taken : s.packs.any fun pack => pack.id == row.id with
    | true =>
      have wrote : write (.pack row) now s = s := by rw [write,taken,if_pos rfl]
      rw [wrote]
      exact iff_of_false (not_written s project_id) (by rw [target,taken,if_pos rfl]; simp)
    | false =>
      have wrote : write (.pack row) now s = {s with packs := s.packs ++ [row]} := by
        rw [write,taken,if_neg Bool.false_ne_true]
      have aimed : s.target now (.pack row) = some row.project_id := by rw [target,taken,if_neg Bool.false_ne_true]
      rw [wrote,aimed,Option.some.injEq]
      constructor
      · intro written
        obtain ⟨row',absent,made,owned⟩ := written_packs written
        cases List.mem_append.mp made with
        | inl before => exact absurd rfl (absent row' before)
        | inr added => rwa [List.mem_singleton.mp added] at owned
      · intro owned
        refine .pack row (fun other before same => ?_) (List.mem_append_right _ (List.mem_singleton.mpr rfl)) owned
        have free := List.any_eq_false.mp taken other before
        exact free (by simpa using same)
  | freeze of_project found frozen reason identity =>
    refine iff_of_false ?_ (by rw [target]; simp)
    rw [write]
    split
    · exact not_written s project_id
    · exact not_written_freezes _

/-- A project is frozen and a client that does not ask first proposes a change set of it. -/
def proposed_while_frozen : List (Move GovernanceRequest Datetime) :=
  [.read 1 (.set_freeze_state "p" ⟨some (.boolean true),some "incident"⟩ (some "admin")),.commit 1 ChangeSets.noon,
    .read 2 (.change_set (.create_change_set none "cs" (fun _ => true) ⟨none,some "p",none,some ChangeSets.digest,none⟩)),
    .commit 2 ChangeSets.noon]

end Governance

end AetherVault
