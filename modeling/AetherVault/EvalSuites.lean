import AetherVault.ChangeSets

/-! Eval suites: a frozen suite is not to be changed. An update checks that when it reads the
suite, and commits later. -/
namespace AetherVault
open Lib ReadCommit

structure DBEvalSuite where
  id : String
  project_id : String
  object_id : String
  name : Option String
  frozen : Bool
  blind : Bool
  created_by : Option String
  created_at : Datetime
  updated_at : Datetime

structure EvalSuiteBody where
  id : Option String
  project_id : Option String
  object_id : Option String
  name : Option String
  blind : Bool

/-- The members that the body of an update has. -/
structure EvalSuiteUpdate where
  object_id : Option (Option String)
  name : Option (Option String)
  blind : Option Bool

inductive EvalSuiteRequest
  | create_eval_suite (identity : Option String) (uuid : String) (object_exists : String → Bool) (body : EvalSuiteBody)
  | update_eval_suite (suite_id : String) (object_exists : String → Bool) (body : EvalSuiteUpdate)
  | freeze_eval_suite (suite_id : String)

/-- The columns that a request sets: of an update, those that differ from the row it read. -/
inductive EvalSuitePlan
  | insert (row : Datetime → DBEvalSuite)
  | update (suite_id : String) (object_id : Option String) (name : Option (Option String)) (blind : Option Bool)
  | freeze (suite_id : String)

abbrev EvalSuites := Dict String DBEvalSuite

/-- The object of the body, when it has one: `none` for a 422. -/
def new_object_id (object_exists : String → Bool) : Option (Option String) → Option (Option String)
  | none => some none
  | some object_id => ((require_uploaded_object_id object_id).filter object_exists).map some

/-- `none` for a 404, a 409, a 422 or an answer that writes nothing. -/
def EvalSuiteRequest.plan (rows : EvalSuites) : EvalSuiteRequest → Option EvalSuitePlan
  | create_eval_suite identity uuid object_exists body => do
    let suite_id := or_else body.id uuid
    let project_id ← body.project_id.filter (· ≠ "")
    let object_id ← require_uploaded_object_id body.object_id
    guard (!rows.contains suite_id)
    guard (object_exists object_id)
    some (.insert fun now => ⟨suite_id,project_id,object_id,body.name,false,body.blind,identity,now,now⟩)
  | update_eval_suite suite_id object_exists body => do
    let row ← rows.get? suite_id
    guard (!row.frozen)
    let object_id ← new_object_id object_exists body.object_id
    some (.update suite_id (object_id.filter (· ≠ row.object_id)) (body.name.filter (· ≠ row.name)) (body.blind.filter (· ≠ row.blind)))
  | freeze_eval_suite suite_id => do
    let row ← rows.get? suite_id
    some (.freeze row.id)

def EvalSuitePlan.write (plan : EvalSuitePlan) (now : Datetime) (rows : EvalSuites) : EvalSuites :=
  match plan with
  | insert row => if rows.contains (row now).id then rows else rows.set (row now).id (row now)
  | update suite_id object_id name blind => (rows.get? suite_id).elim rows fun row => rows.set suite_id {row with
      object_id := object_id.getD row.object_id,name := name.getD row.name,blind := blind.getD row.blind,updated_at := now}
  | freeze suite_id => (rows.get? suite_id).elim rows fun row => rows.set suite_id {row with frozen := true,updated_at := now}

def eval_suites : Protocol EvalSuites EvalSuiteRequest EvalSuitePlan Datetime where
  plan request rows := request.plan rows
  write := EvalSuitePlan.write
  waits _ _ := false

namespace EvalSuites

/-- What a frozen suite is to keep. -/
structure SameSuite (row next : DBEvalSuite) : Prop where
  frozen : next.frozen = true
  name : next.name = row.name
  object_id : next.object_id = row.object_id
  blind : next.blind = row.blind

/-- Every suite that is frozen is still there, frozen and unchanged. -/
def Immutable (rows later : EvalSuites) : Prop := ∀ suite_id row, rows.get? suite_id = some row → row.frozen = true →
  ∃ next, later.get? suite_id = some next ∧ SameSuite row next

/-- An update finds the suite not frozen yet, or sets nothing but what the suite was frozen with. -/
def BeforeFreeze (plan : EvalSuitePlan) (_ : Datetime) (rows : EvalSuites) : Prop :=
  match plan with
  | .update suite_id object_id name blind => ∀ row, rows.get? suite_id = some row → row.frozen = true →
      (∀ value ∈ object_id, value = row.object_id) ∧ (∀ value ∈ name, value = row.name) ∧ ∀ value ∈ blind, value = row.blind
  | _ => True

theorem Immutable.refl (rows : EvalSuites) : Immutable rows rows := fun _ row found frozen => ⟨row,found,frozen,rfl,rfl,rfl⟩

theorem Immutable.trans {rows later last : EvalSuites} (first : Immutable rows later) (second : Immutable later last) :
    Immutable rows last := by
  intro suite_id row found frozen
  obtain ⟨next,there,same⟩ := first suite_id row found frozen
  obtain ⟨final,kept,still⟩ := second suite_id next there same.frozen
  exact ⟨final,kept,still.frozen,still.name.trans same.name,still.object_id.trans same.object_id,still.blind.trans same.blind⟩

theorem immutable_set_iff (rows : EvalSuites) (suite_id : String) (next : DBEvalSuite) : Immutable rows (rows.set suite_id next) ↔
    ∀ row, rows.get? suite_id = some row → row.frozen = true → SameSuite row next := by
  constructor
  · intro immutable row found frozen
    obtain ⟨other,there,same⟩ := immutable suite_id row found frozen
    rw [Dict.get?_set_same] at there
    cases there
    exact same
  · intro same other row found frozen
    by_cases here : other = suite_id
    · subst here
      exact ⟨next,Dict.get?_set_same _ _ _,same row found frozen⟩
    · exact ⟨row,by rw [Dict.get?_set_other _ _ _ _ here]; exact found,frozen,rfl,rfl,rfl⟩

theorem getD_eq_iff {α : Type} (value : Option α) (old : α) : value.getD old = old ↔ ∀ set ∈ value, set = old := by
  cases value <;> simp

theorem write_immutable_iff (plan : EvalSuitePlan) (now : Datetime) (rows : EvalSuites) :
    Immutable rows (plan.write now rows) ↔ BeforeFreeze plan now rows := by
  cases plan with
  | insert row =>
    simp only [BeforeFreeze,iff_true,EvalSuitePlan.write]
    split
    · exact .refl rows
    · rename_i free
      rw [immutable_set_iff]
      intro old found
      rw [(Dict.contains_false _ _).mp (by simpa using free)] at found
      contradiction
  | update suite_id object_id name blind =>
    simp only [BeforeFreeze,EvalSuitePlan.write]
    cases found : rows.get? suite_id with
    | none => simpa using Immutable.refl rows
    | some row =>
      rw [Option.elim_some,immutable_set_iff,found]
      simp only [Option.some.injEq,forall_eq']
      apply imp_congr_right
      intro frozen
      rw [← getD_eq_iff,← getD_eq_iff,← getD_eq_iff]
      constructor
      · intro same
        exact ⟨same.object_id,same.name,same.blind⟩
      · intro same
        exact ⟨frozen,same.2.1,same.1,same.2.2⟩
  | freeze suite_id =>
    simp only [BeforeFreeze,iff_true,EvalSuitePlan.write]
    cases found : rows.get? suite_id with
    | none => exact .refl rows
    | some row =>
      rw [Option.elim_some,immutable_set_iff,found]
      simp only [Option.some.injEq,forall_eq']
      intro frozen
      exact ⟨rfl,rfl,rfl,rfl⟩

/-- A frozen suite never changes again exactly when every update commits before the freeze. -/
theorem frozen_suite_immutable_iff (moves : List (Move EvalSuiteRequest Datetime)) :
    (∀ before between after, moves = before ++ between ++ after →
      Immutable (eval_suites.run ∅ before).shared (eval_suites.run ∅ (before ++ between)).shared) ↔
    eval_suites.Every ∅ BeforeFreeze moves :=
  Protocol.related_iff (R := Immutable) (I := fun _ => True) (A := fun _ => True) (fun rows _ => .refl rows) (fun _ _ _ => .trans)
    (fun _ _ _ _ _ => trivial) (fun _ _ _ _ _ => trivial) (fun plan now rows _ _ => write_immutable_iff plan now rows) trivial moves

section Overtaken

open ChangeSets (noon digest)

def registered : List (Move EvalSuiteRequest Datetime) :=
  [.read 1 (.create_eval_suite none "suite" (fun _ => true) ⟨none,some "p",some digest,some "held-out",true⟩),.commit 1 noon,
    .read 2 (.update_eval_suite "suite" (fun _ => true) ⟨none,none,some false⟩),.read 3 (.freeze_eval_suite "suite"),.commit 3 noon]

/-- The update read the suite before the freeze and commits after it. -/
theorem frozen_suite_unblinded : ¬ ∀ before between : List (Move EvalSuiteRequest Datetime),
    Immutable (eval_suites.run ∅ before).shared (eval_suites.run ∅ (before ++ between)).shared := by
  intro all
  have frozen : ((eval_suites.run ∅ registered).shared.get? "suite").map (fun row => (row.frozen,row.blind)) = some (true,true) := by
    decide +kernel
  have unblinded : ((eval_suites.run ∅ (registered ++ [.commit 2 noon])).shared.get? "suite").map DBEvalSuite.blind = some false := by
    decide +kernel
  obtain ⟨row,found,was⟩ := Option.map_eq_some_iff.mp frozen
  obtain ⟨next,there,same⟩ := all registered [.commit 2 noon] "suite" row found (congrArg Prod.fst was)
  have blind : row.blind = true := congrArg Prod.snd was
  rw [there,Option.map_some,same.blind,blind] at unblinded
  simp at unblinded

end Overtaken

end EvalSuites

end AetherVault
