import AetherVault.EvalSuites
import AetherVault.Signing
import Mathlib.Data.List.Sort

/-! Eval results: those of a blind suite are recorded without their scores being shown, until a
scorer reveals them. -/
namespace AetherVault
open Lib

structure DBEvalResult where
  id : Nat
  project_id : String
  suite_id : String
  run_id : Option String
  score : Option JsonValue
  details : Option JsonValue
  revealed : Bool
  scored_by : Option String
  created_at : Option Datetime

structure EvalDatabase where
  suites : EvalSuites
  results : List DBEvalResult
  last_id : Nat

/-- The scopes of a caller: every one when the token has none of its own. -/
def effective_scopes (scopes : Option (List String)) : List String := (scopes.filter (· ≠ [])).getD ["*"]

def has_scope (scope : String) (scopes : Option (List String)) : Bool :=
  "*" ∈ effective_scopes scopes || scope ∈ effective_scopes scopes

structure EvalResultBody where
  project_id : Option String
  suite_id : Option String
  run_id : Option String
  score : Option JsonValue
  details : Option JsonValue

/-- `none` for a 403 or a 422. -/
def create_eval_result (scopes : Option (List String)) (identity : Option String) (now : Datetime) (body : EvalResultBody)
    (db : EvalDatabase) : Option EvalDatabase := do
  guard (has_scope "scorer" scopes)
  let project_id ← body.project_id.filter (· ≠ "")
  let suite_id ← body.suite_id.filter (· ≠ "")
  let suite ← db.suites.get? suite_id
  some {db with last_id := db.last_id + 1,results := db.results ++
    [⟨db.last_id + 1,project_id,suite_id,body.run_id,body.score,body.details,!suite.blind,identity,some now⟩]}

def text_or_null (value : Option String) : JsonValue := value.elim .null .string

def eval_result_to_dict (r : DBEvalResult) (redact : Bool) : JsonValue :=
  if redact && !r.revealed then
    .dict [("id",natural r.id),("project_id",.string r.project_id),("suite_id",.string r.suite_id),("run_id",text_or_null r.run_id),
      ("revealed",.boolean false),("score",.null),("details",.null)]
  else
    .dict [("id",natural r.id),("project_id",.string r.project_id),("suite_id",.string r.suite_id),("run_id",text_or_null r.run_id),
      ("revealed",.boolean r.revealed),("score",r.score.getD .null),("details",r.details.getD .null),
      ("scored_by",text_or_null r.scored_by),
      ("created_at",text_or_null (r.created_at.map fun created_at => String.ofList created_at.isoformat))]

structure EvalResultQuery where
  project_id : Option String
  suite_id : Option String
  run_id : Option String
  limit : Nat
  offset : Nat

def EvalResultQuery.selects (q : EvalResultQuery) (r : DBEvalResult) : Bool :=
  (q.project_id.filter (· ≠ "")).all (· == r.project_id) && (q.suite_id.filter (· ≠ "")).all (· == r.suite_id) &&
    (q.run_id.filter (· ≠ "")).all fun run_id => r.run_id == some run_id

/-- `created_at DESC`, where no time comes first. -/
def newer (r other : DBEvalResult) : Bool :=
  match r.created_at,other.created_at with
  | none,_ => true
  | some _,none => false
  | some created_at,some created_at' => decide (created_at'.instant ≤ created_at.instant)

def EvalResultQuery.rows (q : EvalResultQuery) (results : List DBEvalResult) : List DBEvalResult :=
  (((results.filter q.selects).insertionSort fun r other => newer r other = true).drop q.offset).take q.limit

structure EvalResultPage where
  eval_results : List JsonValue
  total : Nat
  limit : Nat
  offset : Nat

/-- Rows of one time come in the order of the table. -/
def list_eval_results (scopes : Option (List String)) (q : EvalResultQuery) (db : EvalDatabase) : EvalResultPage :=
  let redact := !("*" ∈ effective_scopes scopes || "scorer" ∈ effective_scopes scopes)
  ⟨(q.rows db.results).map fun r => eval_result_to_dict r redact,(db.results.filter q.selects).length,q.limit,q.offset⟩

/-- `none` for a 403 or a 404. -/
def reveal_eval_result (scopes : Option (List String)) (result_id : Nat) (db : EvalDatabase) : Option EvalDatabase := do
  guard (has_scope "scorer" scopes)
  guard (db.results.any fun r => r.id == result_id)
  some {db with results := db.results.map fun r => if r.id = result_id then {r with revealed := true} else r}

namespace DBEvalResult

/-- The result without what is hidden of it. -/
def blank (r : DBEvalResult) : DBEvalResult := if r.revealed then r else {r with score := none,details := none}

@[simp] theorem blank_created_at (r : DBEvalResult) : r.blank.created_at = r.created_at := by
  unfold blank
  split <;> rfl

theorem blank_selects (q : EvalResultQuery) (r : DBEvalResult) : q.selects r.blank = q.selects r := by
  unfold blank
  split <;> rfl

theorem blank_newer (r other : DBEvalResult) : newer r.blank other.blank = newer r other := by simp [newer]

theorem blank_to_dict (r : DBEvalResult) : eval_result_to_dict r.blank true = eval_result_to_dict r true := by
  cases shown : r.revealed <;> simp [eval_result_to_dict,blank,shown]

end DBEvalResult

theorem filter_blank (q : EvalResultQuery) (results : List DBEvalResult) :
    (results.map DBEvalResult.blank).filter q.selects = (results.filter q.selects).map DBEvalResult.blank := by
  rw [List.filter_map]
  congr 1
  apply List.filter_congr
  intro r _
  exact DBEvalResult.blank_selects q r

/-- What is hidden has no part in what is selected, in its order or in the page. -/
theorem rows_blank (q : EvalResultQuery) (results : List DBEvalResult) :
    q.rows (results.map DBEvalResult.blank) = (q.rows results).map DBEvalResult.blank := by
  have sorted : ((results.filter q.selects).insertionSort fun r other => newer r other = true).map DBEvalResult.blank =
      ((results.filter q.selects).map DBEvalResult.blank).insertionSort fun r other => newer r other = true := by
    apply List.map_insertionSort
    intro r _ other _
    rw [DBEvalResult.blank_newer]
  unfold EvalResultQuery.rows
  rw [filter_blank,← sorted,← List.map_drop,← List.map_take]

namespace EvalDatabase

/-- A result that is not revealed, of a suite that is blind. -/
def Hides (suites : EvalSuites) (r : DBEvalResult) : Prop :=
  r.revealed = false ∧ ∃ suite, suites.get? r.suite_id = some suite ∧ suite.blind = true

/-- Two rows of one result: only its score and details differ, and only where they are hidden. -/
structure SameResult (suites : EvalSuites) (r other : DBEvalResult) : Prop where
  shown : other = {r with score := other.score,details := other.details}
  equal : ¬ Hides suites r → other = r

structure DiffersHidden (db other : EvalDatabase) : Prop where
  suites : other.suites = db.suites
  last_id : other.last_id = db.last_id
  results : List.Forall₂ (SameResult db.suites) db.results other.results

variable {db other : EvalDatabase}

theorem SameResult.blank_eq {suites : EvalSuites} {r r' : DBEvalResult} (same : SameResult suites r r') : r'.blank = r.blank := by
  by_cases hidden : Hides suites r
  · rw [same.shown]
    simp [DBEvalResult.blank,hidden.1]
  · rw [same.equal hidden]

theorem DiffersHidden.blank_eq (differs : DiffersHidden db other) :
    other.results.map DBEvalResult.blank = db.results.map DBEvalResult.blank := by
  have rows := differs.results
  generalize db.results = results,other.results = results' at rows
  induction rows with
  | nil => rfl
  | cons same _ ih => rw [List.map_cons,List.map_cons,same.blank_eq,ih]

/-- What is recorded of a blind suite keeps two such databases alike, whatever the scores. -/
theorem DiffersHidden.create (differs : DiffersHidden db other) {scopes : Option (List String)} {identity : Option String} {now : Datetime}
    {body body' : EvalResultBody} (alike : body' = {body with score := body'.score,details := body'.details})
    (blind : ∀ suite_id suite, body.suite_id = some suite_id → db.suites.get? suite_id = some suite → suite.blind = true)
    {done : EvalDatabase} (created : create_eval_result scopes identity now body db = some done) :
    ∃ done', create_eval_result scopes identity now body' other = some done' ∧ DiffersHidden done done' := by
  simp only [create_eval_result,Option.bind_eq_bind,Option.bind_eq_some_iff] at created
  obtain ⟨_,allowed,project_id,project,suite_id,suite_of,suite,found,made⟩ := created
  cases made
  have of_suite := blind suite_id suite (Option.filter_eq_some_iff.mp suite_of).1 found
  refine ⟨{other with last_id := db.last_id + 1,results := other.results ++
    [⟨db.last_id + 1,project_id,suite_id,body.run_id,body'.score,body'.details,!suite.blind,identity,some now⟩]},?_,?_⟩
  · rw [alike]
    simp only [create_eval_result,Option.bind_eq_bind,allowed,project,suite_of,differs.suites,found,differs.last_id,Option.bind_some]
  · constructor
    · exact differs.suites
    · rfl
    · apply List.rel_append differs.results
      apply List.Forall₂.cons _ .nil
      constructor
      · rfl
      · intro shown
        exact absurd ⟨by simp [of_suite],suite,found,of_suite⟩ shown

/-- What is hidden makes no difference to a caller without the scope, whatever is asked for. -/
theorem list_eval_results_noninterference (differs : DiffersHidden db other) (scopes : Option (List String))
    (denied : has_scope "scorer" scopes = false) (q : EvalResultQuery) :
    list_eval_results scopes q other = list_eval_results scopes q db := by
  have redact : (!("*" ∈ effective_scopes scopes || "scorer" ∈ effective_scopes scopes)) = true := by
    unfold has_scope at denied
    rw [denied]
    rfl
  have pages : ∀ results : List DBEvalResult, (q.rows results).map (fun r => eval_result_to_dict r true) =
      (q.rows (results.map DBEvalResult.blank)).map fun r => eval_result_to_dict r true := by
    intro results
    rw [rows_blank,List.map_map]
    apply List.map_congr_left
    intro r _
    exact (DBEvalResult.blank_to_dict r).symm
  have totals : ∀ results : List DBEvalResult, (results.filter q.selects).length =
      ((results.map DBEvalResult.blank).filter q.selects).length := by
    intro results
    rw [filter_blank,List.length_map]
  unfold list_eval_results
  simp only [redact]
  rw [pages,totals,differs.blank_eq,← pages,← totals]

theorem denied_writes_nothing {scopes : Option (List String)} (denied : has_scope "scorer" scopes = false) (identity : Option String)
    (now : Datetime) (body : EvalResultBody) (result_id : Nat) (db : EvalDatabase) :
    create_eval_result scopes identity now body db = none ∧ reveal_eval_result scopes result_id db = none := by
  unfold create_eval_result reveal_eval_result
  rw [denied]
  exact ⟨rfl,rfl⟩

section Blind

open ChangeSets (noon digest)

def blind_suite : EvalSuites := Dict.ofList [("suite",⟨"suite","p",digest,none,true,true,none,noon,noon⟩)]

def scored (score : Nat) : EvalDatabase := ⟨blind_suite,[⟨1,"p","suite",none,some (natural score),none,false,none,some noon⟩],1⟩

theorem noninterference_blind_suite : list_eval_results (some ["eval:write"]) ⟨some "p",none,none,50,0⟩ (scored 9) =
    list_eval_results (some ["eval:write"]) ⟨some "p",none,none,50,0⟩ (scored 3) := by
  apply @list_eval_results_noninterference (scored 3)
  · exact ⟨rfl,rfl,.cons ⟨rfl,fun shown => absurd ⟨rfl,⟨"suite","p",digest,none,true,true,none,noon,noon⟩,rfl,rfl⟩ shown⟩ .nil⟩
  · decide

end Blind

end EvalDatabase

end AetherVault
