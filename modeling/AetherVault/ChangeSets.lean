import AetherVault.Lib.Datetime
import AetherVault.Lib.ReadCommit
import Mathlib.Data.List.Chain

/-! Change sets: proposals whose status moves along a table of transitions. A request checks the
move from the status it read; by its commit another may have moved the change set. -/
namespace AetherVault
open Lib ReadCommit

inductive ChangeSetStatus
  | proposed
  | approved
  | applied
  | rejected
  | rolled_back
  deriving DecidableEq

def CHANGE_SET_TRANSITIONS : ChangeSetStatus → List ChangeSetStatus
  | .proposed => [.approved,.rejected]
  | .approved => [.applied,.rejected]
  | .applied => [.rolled_back]
  | .rejected => []
  | .rolled_back => []

structure DBChangeSet where
  id : String
  project_id : String
  improver_id : Option String
  object_id : String
  status : ChangeSetStatus
  risk : Option String
  created_by : Option String
  created_at : Datetime
  updated_at : Datetime

def object_digit (c : Char) : Bool := ('a' ≤ c && c ≤ 'f') || ('0' ≤ c && c ≤ '9')

/-- `^[a-f0-9]{64}$`, where the end may be before a last line break. -/
def is_object_id (object_id : String) : Bool :=
  let cs := object_id.toList
  (cs.length == 64 && cs.all object_digit) || (cs.length == 65 && cs.dropLast.all object_digit && cs.getLast? == some '\n')

def require_uploaded_object_id (object_id : Option String) : Option String := object_id.filter is_object_id

structure ChangeSetBody where
  id : Option String
  project_id : Option String
  improver_id : Option String
  object_id : Option String
  risk : Option String

inductive ChangeSetRequest
  | create_change_set (identity : Option String) (uuid : String) (object_exists : String → Bool) (body : ChangeSetBody)
  /-- with no status where the body names none of the five -/
  | update_change_set_status (cs_id : String) (new_status : Option ChangeSetStatus)

/-- What a request that passed its checks writes; a change of status with the status it read. -/
inductive ChangeSetPlan
  | insert (row : Datetime → DBChangeSet)
  | set_status (cs_id : String) (read new_status : ChangeSetStatus)

/-- The table, with the statuses that the commits have given the change sets. -/
structure ChangeSets where
  rows : Dict String DBChangeSet
  committed : List (String × ChangeSetStatus)

instance : EmptyCollection ChangeSets := ⟨⟨∅,[]⟩⟩

def or_else (value : Option String) (default : String) : String := (value.filter (· ≠ "")).getD default

/-- `none` for a 404, a 422 or an answer that writes nothing. -/
def ChangeSetRequest.plan (s : ChangeSets) : ChangeSetRequest → Option ChangeSetPlan
  | create_change_set identity uuid object_exists body => do
    let cs_id := or_else body.id uuid
    let project_id ← body.project_id.filter (· ≠ "")
    let object_id ← require_uploaded_object_id body.object_id
    guard (!s.rows.contains cs_id)
    guard (object_exists object_id)
    guard (body.risk.all fun risk => risk ∈ ["low","medium","high"])
    some (.insert fun now => ⟨cs_id,project_id,body.improver_id,object_id,.proposed,body.risk,identity,now,now⟩)
  | update_change_set_status cs_id new_status => do
    let row ← s.rows.get? cs_id
    let new_status ← new_status.filter fun status => status ∈ CHANGE_SET_TRANSITIONS row.status
    some (.set_status cs_id row.status new_status)

/-- An id that is taken by now is an `IntegrityError`. -/
def ChangeSetPlan.write (plan : ChangeSetPlan) (now : Datetime) (s : ChangeSets) : ChangeSets :=
  match plan with
  | insert row => if s.rows.contains (row now).id then s
      else ⟨s.rows.set (row now).id (row now),s.committed ++ [((row now).id,(row now).status)]⟩
  | set_status cs_id _ new_status => (s.rows.get? cs_id).elim s fun row =>
      ⟨s.rows.set cs_id {row with status := new_status,updated_at := now},s.committed ++ [(cs_id,new_status)]⟩

def change_sets : Protocol ChangeSets ChangeSetRequest ChangeSetPlan Datetime where
  plan request s := request.plan s
  write := ChangeSetPlan.write
  waits _ _ := false

namespace ChangeSets

/-- The statuses that one change set has had, in the order of the commits. -/
def path (s : ChangeSets) (cs_id : String) : List ChangeSetStatus :=
  (s.committed.filter fun entry => entry.1 = cs_id).map Prod.snd

/-- A path in the table of transitions, and what the table says of it. -/
structure Lawful (path : List ChangeSetStatus) : Prop where
  starts : path.head?.all (· = .proposed) = true
  follows : path.IsChain fun status next => next ∈ CHANGE_SET_TRANSITIONS status
  rejected_final : ∀ before after, path = before ++ .rejected::after → .applied ∉ after
  applied_approved : ∀ before after, path = before ++ .applied::after → before.getLast? = some .approved

/-- The change set still has the status that the request read, or it is rejected and has only been proposed or approved. -/
def InTime (plan : ChangeSetPlan) (_ : Datetime) (s : ChangeSets) : Prop :=
  match plan with
  | .insert _ => True
  | .set_status cs_id read new_status => ∀ row, s.rows.get? cs_id = some row →
      row.status = read ∨ (new_status = .rejected ∧ row.status ∈ [.proposed,.approved])

def Allowed : ChangeSetPlan → Prop
  | .insert row => ∀ now, (row now).status = .proposed
  | .set_status _ read new_status => new_status ∈ CHANGE_SET_TRANSITIONS read

/-- The table has the last status that was committed. -/
def Recorded (s : ChangeSets) : Prop := ∀ cs_id, (s.path cs_id).getLast? = (s.rows.get? cs_id).map DBChangeSet.status

variable {s : ChangeSets}

theorem path_append (s : ChangeSets) (rows : Dict String DBChangeSet) (changed cs_id : String) (status : ChangeSetStatus) :
    path ⟨rows,s.committed ++ [(changed,status)]⟩ cs_id = s.path cs_id ++ (if changed = cs_id then [status] else []) := by
  unfold path
  by_cases same : changed = cs_id <;> simp [same]

theorem Recorded.write (recorded : s.Recorded) (plan : ChangeSetPlan) (now : Datetime) : (plan.write now s).Recorded := by
  have updated : ∀ (key : String) (row : DBChangeSet),
      Recorded ⟨s.rows.set key row,s.committed ++ [(key,row.status)]⟩ := by
    intro key row cs_id
    rw [path_append,Dict.get?_set]
    by_cases same : key = cs_id
    · simp [same]
    · simpa [same,Ne.symm same] using recorded cs_id
  cases plan with
  | insert row =>
    simp only [ChangeSetPlan.write]
    split
    · exact recorded
    · exact updated _ _
  | set_status cs_id read new_status =>
    simp only [ChangeSetPlan.write]
    cases s.rows.get? cs_id with
    | none => exact recorded
    | some row => exact updated cs_id {row with status := new_status,updated_at := now}

theorem plan_allowed (request : ChangeSetRequest) (s : ChangeSets) (plan : ChangeSetPlan) (planned : request.plan s = some plan) :
    Allowed plan := by
  cases request with
  | create_change_set identity uuid object_exists body =>
    simp only [ChangeSetRequest.plan,Option.bind_eq_bind,Option.bind_eq_some_iff] at planned
    obtain ⟨project_id,-,object_id,-,-,-,-,-,-,-,made⟩ := planned
    cases made
    intro now
    rfl
  | update_change_set_status cs_id new_status =>
    simp only [ChangeSetRequest.plan,Option.bind_eq_bind,Option.bind_eq_some_iff] at planned
    obtain ⟨row,-,status,passed,made⟩ := planned
    cases made
    have legal : status ∈ CHANGE_SET_TRANSITIONS row.status := by simpa using (Option.filter_eq_some_iff.mp passed).2
    exact legal

theorem Lawful.of_chain {path : List ChangeSetStatus} (starts : path.head?.all (· = .proposed) = true)
    (follows : path.IsChain fun status next => next ∈ CHANGE_SET_TRANSITIONS status) : Lawful path := by
  constructor
  · exact starts
  · exact follows
  · intro before after split
    rw [split] at follows
    cases after with
    | nil => simp
    | cons next after =>
      have impossible := (List.isChain_append_cons_cons.mp follows).2.1
      simp [CHANGE_SET_TRANSITIONS] at impossible
  · intro before after split
    rw [split] at follows starts
    cases last : before.getLast? with
    | none =>
      rw [List.getLast?_eq_none_iff.mp last] at starts
      simp at starts
    | some status =>
      have allowed := (List.isChain_append.mp follows).2.2 status last .applied rfl
      cases status <;> simp_all [CHANGE_SET_TRANSITIONS]

theorem lawful_nil : Lawful [] := .of_chain rfl .nil

theorem lawful_proposed : Lawful [.proposed] := .of_chain rfl (List.isChain_singleton _)

theorem lawful_concat_iff {path : List ChangeSetStatus} (lawful : Lawful path) {status : ChangeSetStatus}
    (last : path.getLast? = some status) (next : ChangeSetStatus) :
    Lawful (path ++ [next]) ↔ next ∈ CHANGE_SET_TRANSITIONS status := by
  constructor
  · intro longer
    exact (List.isChain_append.mp longer.follows).2.2 status last next rfl
  · intro allowed
    apply Lawful.of_chain
    · cases path with
      | nil => contradiction
      | cons first rest => exact lawful.starts
    · apply List.isChain_append.mpr
      refine ⟨lawful.follows,List.isChain_singleton _,?_⟩
      intro status' last' next' first
      rw [last] at last'
      cases last'
      cases first
      exact allowed

/-- Of the moves that were allowed from the status read, only a rejection may still be from another. -/
theorem still_allowed_iff {read new_status : ChangeSetStatus} (allowed : new_status ∈ CHANGE_SET_TRANSITIONS read)
    (status : ChangeSetStatus) : new_status ∈ CHANGE_SET_TRANSITIONS status ↔
      status = read ∨ (new_status = .rejected ∧ status ∈ [.proposed,.approved]) := by
  cases read <;> cases status <;> cases new_status <;> simp_all [CHANGE_SET_TRANSITIONS]

theorem write_lawful_iff (recorded : s.Recorded) (lawful : ∀ cs_id, Lawful (s.path cs_id)) (plan : ChangeSetPlan)
    (allowed : Allowed plan) (now : Datetime) :
    (∀ cs_id, Lawful ((plan.write now s).path cs_id)) ↔ InTime plan now s := by
  cases plan with
  | insert row =>
    simp only [InTime,iff_true]
    intro cs_id
    simp only [ChangeSetPlan.write]
    split
    · exact lawful cs_id
    · rename_i free
      rw [path_append]
      split
      · rename_i same
        subst same
        have absent : s.rows.get? (row now).id = none := (Dict.contains_false _ _).mp (by simpa using free)
        have empty : s.path (row now).id = [] := List.getLast?_eq_none_iff.mp (by rw [recorded,absent]; rfl)
        rw [empty,allowed now]
        exact lawful_proposed
      · simpa using lawful cs_id
  | set_status cs_id read new_status =>
    simp only [InTime,ChangeSetPlan.write]
    cases found : s.rows.get? cs_id with
    | none => simpa using lawful
    | some row =>
      have last : (s.path cs_id).getLast? = some row.status := by rw [recorded,found]; rfl
      have here := lawful_concat_iff (lawful cs_id) last new_status
      simp only [Option.elim_some,Option.some.injEq,forall_eq']
      rw [← still_allowed_iff allowed,← here]
      constructor
      · intro all
        have mine := all cs_id
        rwa [path_append,if_pos rfl] at mine
      · intro mine other
        rw [path_append]
        split
        · rename_i same
          subst same
          exact mine
        · simpa using lawful other

/-- The statuses of every change set follow the table throughout a run exactly when every request commits in time. -/
theorem change_set_path_lawful_iff (moves : List (Move ChangeSetRequest Datetime)) :
    (∀ before after, moves = before ++ after → ∀ cs_id, Lawful ((change_sets.run ∅ before).shared.path cs_id)) ↔
      change_sets.Every ∅ InTime moves :=
  Protocol.always_iff (I := Recorded) (A := Allowed) (G := fun s => ∀ cs_id, Lawful (s.path cs_id))
    (fun request _ plan _ planned => plan_allowed request _ plan planned)
    (fun plan now _ _ recorded => recorded.write plan now)
    (fun plan now _ allowed recorded lawful => write_lawful_iff recorded lawful plan allowed now)
    (fun _ => rfl) (fun cs_id => show Lawful (path ∅ cs_id) from lawful_nil) moves

section Raced

def noon : Datetime := ⟨2026,2,1,12,0,0,0,rfl⟩

def digest : String := String.ofList (List.replicate 64 'a')

/-- The change set is approved; one request applies it and another, which read it before, rejects it after. -/
def raced : List (Move ChangeSetRequest Datetime) :=
  [.read 1 (.create_change_set none "cs" (fun _ => true) ⟨none,some "p",none,some digest,none⟩),.commit 1 noon,
    .read 2 (.update_change_set_status "cs" (some .approved)),.commit 2 noon,
    .read 3 (.update_change_set_status "cs" (some .rejected)),.read 4 (.update_change_set_status "cs" (some .applied)),
    .commit 3 noon,.commit 4 noon]

theorem rejected_then_applied : ¬ ∀ (moves : List (Move ChangeSetRequest Datetime)) (cs_id : String),
    Lawful ((change_sets.run ∅ moves).shared.path cs_id) := by
  intro all
  have path : (change_sets.run ∅ raced).shared.path "cs" = [.proposed,.approved,.rejected,.applied] := by decide +kernel
  have final := (all raced "cs").rejected_final [.proposed,.approved] [.applied] path
  simp at final

end Raced

end ChangeSets

end AetherVault
