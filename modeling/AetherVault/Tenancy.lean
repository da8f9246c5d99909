import AetherVault.CommitRows
import AetherVault.Lib.OwnedRows

/-! Requests of one tenant to a registry that several share, without row-level security: a guard
looks at one project of the request, and the handler goes to the rows that the body, the path or
an id names. The rows are those with a project; logs, objects and identities have none. -/
namespace AetherVault.Tenancy
open Lib OwnedRows

inductive Table
  | commits
  | runs
  | refs
  | improver_versions
  | change_sets
  | policy_packs
  | canary_results
  | project_freeze
  | eval_suites
  | eval_results
  | eval_adapters
  | tasks
  | plans
  | budgets
  | causal_links
  | strategy_entries
  | lessons
  | reviews
  | critiques
  | blackboard_entries
  | sandbox_jobs
  | tool_manifests
  | action_logs
  | webhooks
  deriving DecidableEq

inductive Method
  | GET
  | POST
  | PUT
  | PATCH
  | DELETE
  deriving DecidableEq

/-- What a row says besides its project is left to the type `α`. -/
abbrev ProjectRows (α : Type) := Dict (Table × String) (Row String α)

/-- The project of a ref, from its name. -/
def ref_project (ref_name : String) : Option String :=
  if '/' ∈ ref_name.toList then some (String.ofList (ref_name.toList.takeWhile (· ≠ '/'))) else none

/-- Two tables have the project in their keys. -/
structure Placed {α : Type} (rows : ProjectRows α) : Prop where
  freeze : ∀ project_id row, rows.get? (.project_freeze,project_id) = some row → row.owner = some project_id
  refs : ∀ ref_name row, rows.get? (.refs,ref_name) = some row → row.owner = ref_project ref_name

/-- The tenants that own the projects, and the rows of the projects. -/
structure Registry (α : Type) where
  projects : Dict String String
  rows : ProjectRows α
  named : projects.get? "" = none
  placed : Placed rows

/-- Handlers that make a row in the body's project, under a new id or the body's. -/
inductive Registration
  | create_run
  | create_improver_version
  | create_change_set
  | create_policy_pack
  | report_canary_result
  | create_eval_suite
  | create_eval_result
  | create_eval_adapter
  | create_task
  | create_plan
  | create_budget
  | create_causal_link
  | create_strategy_entry
  | create_lessons
  | post_blackboard_entry
  | create_sandbox_job
  | create_tool_manifest
  | create_action_log

def Registration.table : Registration → Table
  | create_run => .runs
  | create_improver_version => .improver_versions
  | create_change_set => .change_sets
  | create_policy_pack => .policy_packs
  | report_canary_result => .canary_results
  | create_eval_suite => .eval_suites
  | create_eval_result => .eval_results
  | create_eval_adapter => .eval_adapters
  | create_task => .tasks
  | create_plan => .plans
  | create_budget => .budgets
  | create_causal_link => .causal_links
  | create_strategy_entry => .strategy_entries
  | create_lessons => .lessons
  | post_blackboard_entry => .blackboard_entries
  | create_sandbox_job => .sandbox_jobs
  | create_tool_manifest => .tool_manifests
  | create_action_log => .action_logs

/-- Handlers that change the row with the path's id. -/
inductive RowUpdate
  | set_run_policy_outcome
  | set_run_integrity_signals
  | link_run_plan
  | link_run_budget
  | link_run_avh
  | complete_run
  | fail_run
  | stop_run
  | update_change_set_status
  | update_eval_suite
  | freeze_eval_suite
  | reveal_eval_result
  | update_task_status
  | consume_budget
  | resolve_critique
  | waive_critique
  | resolve_blackboard_entry
  | update_sandbox_job_status
  | cancel_sandbox_job_record
  | enable_webhook
  | test_webhook
  deriving DecidableEq

def RowUpdate.table : RowUpdate → Table
  | set_run_policy_outcome => .runs
  | set_run_integrity_signals => .runs
  | link_run_plan => .runs
  | link_run_budget => .runs
  | link_run_avh => .runs
  | complete_run => .runs
  | fail_run => .runs
  | stop_run => .runs
  | update_change_set_status => .change_sets
  | update_eval_suite => .eval_suites
  | freeze_eval_suite => .eval_suites
  | reveal_eval_result => .eval_results
  | update_task_status => .tasks
  | consume_budget => .budgets
  | resolve_critique => .critiques
  | waive_critique => .critiques
  | resolve_blackboard_entry => .blackboard_entries
  | update_sandbox_job_status => .sandbox_jobs
  | cancel_sandbox_job_record => .sandbox_jobs
  | enable_webhook => .webhooks
  | test_webhook => .webhooks

/-- Handlers that make a row in the project of what it is about. -/
inductive Remark
  | create_review
  | create_critique

def Remark.table : Remark → Table
  | create_review => .reviews
  | create_critique => .critiques

inductive TargetType
  | change_set
  | improver

def TargetType.table : TargetType → Table
  | change_set => .change_sets
  | improver => .improver_versions

/-- A route with what its handler is asked for. `none` for the fields is an answer that writes nothing: a check of the body or of
other rows has failed. -/
inductive Route (α : Type)
  /-- a GET, or a handler whose rows have no project -/
  | elsewhere (method : Method) (path_project_id : Option String)
  | register (handler : Registration) (id : String) (fields : ProjectRows α → Option α)
  | update (handler : RowUpdate) (id : String) (fields : ProjectRows α → α → Option α)
  | remark (handler : Remark) (target_type : TargetType) (target_id id : String) (fields : ProjectRows α → Option α)
  | set_freeze_state (project_id : String) (fields : Option α → α)
  | create_webhook (id : String) (fields : Option α)
  | delete_webhook (webhook_id : String)
  | update_ref (ref_name : String) (fields : Option α → Option α)
  /-- with the run that the commit is filed into -/
  | push_commit (commit_hash : String) (fields : Option α) (run : Option (String × (Option α → α)))

namespace Route

variable {α : Type}

def method : Route α → Method
  | elsewhere method _ => method
  | update handler _ _ => if handler = .update_eval_suite then .PUT else .POST
  | delete_webhook _ => .DELETE
  | update_ref _ _ => .PUT
  | _ => .POST

def path_project_id : Route α → Option String
  | elsewhere _ path_project_id => path_project_id
  | set_freeze_state project_id _ => some project_id
  | _ => none

end Route

structure Request (α : Type) where
  route : Route α
  query_project_id : Option String
  /-- of a body that is a dictionary -/
  body_project_id : Option JsonValue

variable {α : Type}

def text? : JsonValue → Option String
  | .string text => some text
  | _ => none

namespace Request

/-- The project that the guard looks at. -/
def guarded_project (r : Request α) : Option String :=
  let project_id := (r.route.path_project_id.filter (· ≠ "")).or r.query_project_id
  let project_id := if project_id.isNone && r.route.method ∈ [.POST,.PUT,.PATCH] then r.body_project_id.bind text? else project_id
  project_id.filter (· ≠ "")

/-- `body.get("project_id")` where a project is required: none of the columns takes anything but a text. -/
def required_project (r : Request α) : Option String := (r.body_project_id.filter truthy).bind text?

/-- The optional field of `WebhookCreate`; `none` for a 422. -/
def webhook_project (r : Request α) : Option (Option String) :=
  match r.body_project_id with
  | none => some none
  | some .null => some none
  | some (.string project_id) => some (some project_id)
  | _ => none

/-- `commit_data.get("project_id") or "legacy"`; `none` for a 422. -/
def commit_project (r : Request α) : Option String :=
  (text? ((r.body_project_id.filter truthy).getD (.string "legacy"))).filter fun project_id => project_id.length ≤ 128

end Request

/-- A row that there is keeps its id: `{"status": "exists"}`, or an `IntegrityError`. -/
def new_row (fields : Option α) : Option α → Change α
  | none => fields.elim .keep .put
  | some _ => .keep

def set_fields (fields : Option α) : Change α := fields.elim .keep .put

/-- The rows that the handler goes to. -/
def Request.edits (r : Request α) (rows : ProjectRows α) : List (Edit (Table × String) String α) :=
  match r.route with
  | .elsewhere _ _ => []
  | .register handler id fields =>
    r.required_project.toList.map fun project_id => ⟨(handler.table,id),some project_id,new_row (fields rows)⟩
  | .update handler id fields => [⟨(handler.table,id),none,fun found => set_fields (found.bind (fields rows))⟩]
  | .remark handler target_type target_id id fields =>
    (rows.get? (target_type.table,target_id)).toList.map fun target => ⟨(handler.table,id),target.owner,new_row (fields rows)⟩
  | .set_freeze_state project_id fields => [⟨(.project_freeze,project_id),some project_id,fun found => .put (fields found)⟩]
  | .create_webhook id fields => r.webhook_project.toList.map fun project_id => ⟨(.webhooks,id),project_id,new_row fields⟩
  | .delete_webhook webhook_id => [⟨(.webhooks,webhook_id),none,fun _ => .drop⟩]
  | .update_ref ref_name fields => [⟨(.refs,ref_name),ref_project ref_name,fun found => set_fields (fields found)⟩]
  | .push_commit commit_hash fields run =>
    if rows.contains (.commits,commit_hash) || fields.isNone then []
    else r.commit_project.toList.flatMap fun project_id =>
      ⟨(.commits,commit_hash),some project_id,new_row fields⟩::
        run.toList.map fun filed => ⟨(.runs,filed.1),some project_id,fun found => .put (filed.2 found)⟩

/-- `_enforce_project_tenant`: the projects after it, with an unseen one claimed, or `none` for its 403 and 404. -/
def enforce_project_tenant (tenant_id : String) (r : Request α) (projects : Dict String String) : Option (Dict String String) :=
  match r.guarded_project with
  | none => some projects
  | some project_id =>
    match projects.get? project_id with
    | none => some (projects.set project_id tenant_id)
    | some owner => if owner = tenant_id then some projects else none

variable {tenant_id : String} {r : Request α} {rows : ProjectRows α} {projects allowed : Dict String String}

theorem guarded_named {project_id : String} (guarded : r.guarded_project = some project_id) : project_id ≠ "" := by
  unfold Request.guarded_project at guarded
  simpa using (Option.filter_eq_some_iff.mp guarded).2

theorem enforce_named (named : projects.get? "" = none) (passed : enforce_project_tenant tenant_id r projects = some allowed) :
    allowed.get? "" = none := by
  unfold enforce_project_tenant at passed
  split at passed
  · rwa [← Option.some.inj passed]
  · rename_i project_id guarded
    split at passed
    · rw [← Option.some.inj passed,Dict.get?_set_other _ _ _ _ (guarded_named guarded).symm]
      exact named
    · split at passed
      · rwa [← Option.some.inj passed]
      · contradiction

/-- An edit of the two tables makes rows of the project in the key. -/
def Fits (edit : Edit (Table × String) String α) : Prop :=
  (edit.key.1 = .project_freeze → edit.owner = some edit.key.2) ∧ (edit.key.1 = .refs → edit.owner = ref_project edit.key.2)

theorem Placed.apply (placed : Placed rows) {edit : Edit (Table × String) String α} (fits : Fits edit) : Placed (edit.apply rows) := by
  have kept : ∀ key row, (edit.apply rows).get? key = some row → rows.get? key = some row ∨
      key = edit.key ∧ row.owner = edit.owner_in rows := by
    intro key row found
    by_cases here : key = edit.key
    · subst here
      unfold Edit.apply at found
      split at found
      · exact .inl found
      · rw [Dict.get?_set_same] at found
        exact .inr ⟨rfl,by rw [← Option.some.inj found]⟩
      · rw [Dict.get?_erase,if_pos rfl] at found
        contradiction
    · rw [apply_elsewhere here] at found
      exact .inl found
  constructor
  · intro project_id row found
    cases kept _ row found with
    | inl before => exact placed.freeze project_id row before
    | inr made =>
      obtain ⟨here,owner⟩ := made
      rw [owner]
      unfold Edit.owner_in
      rw [← here]
      cases there : rows.get? (.project_freeze,project_id) with
      | none => simpa [← here] using fits.1 (by rw [← here])
      | some old => exact placed.freeze project_id old there
  · intro ref_name row found
    cases kept _ row found with
    | inl before => exact placed.refs ref_name row before
    | inr made =>
      obtain ⟨here,owner⟩ := made
      rw [owner]
      unfold Edit.owner_in
      rw [← here]
      cases there : rows.get? (.refs,ref_name) with
      | none => simpa [← here] using fits.2 (by rw [← here])
      | some old => exact placed.refs ref_name old there

theorem Placed.apply_all (placed : Placed rows) {edits : List (Edit (Table × String) String α)} (fits : ∀ edit ∈ edits, Fits edit) :
    Placed (edits.foldl Edit.apply rows) := by
  induction edits generalizing rows with
  | nil => exact placed
  | cons edit edits ih =>
    rw [List.foldl_cons]
    exact ih (placed.apply (fits edit List.mem_cons_self)) fun later among => fits later (List.mem_cons_of_mem _ among)

theorem Registration.fits (handler : Registration) (id : String) (owner : Option String) (change : Option α → Change α) :
    Fits ⟨(handler.table,id),owner,change⟩ := by
  cases handler <;> simp [Fits,Registration.table]

theorem RowUpdate.fits (handler : RowUpdate) (id : String) (owner : Option String) (change : Option α → Change α) :
    Fits ⟨(handler.table,id),owner,change⟩ := by
  cases handler <;> simp [Fits,RowUpdate.table]

theorem Remark.fits (handler : Remark) (id : String) (owner : Option String) (change : Option α → Change α) :
    Fits ⟨(handler.table,id),owner,change⟩ := by
  cases handler <;> simp [Fits,Remark.table]

theorem edits_fit (r : Request α) (rows : ProjectRows α) : ∀ edit ∈ r.edits rows, Fits edit := by
  intro edit among
  unfold Request.edits at among
  cases route : r.route with
  | elsewhere method path_project_id =>
    simp only [route] at among
    contradiction
  | register handler id fields =>
    simp only [route] at among
    obtain ⟨project_id,_,rfl⟩ := List.mem_map.mp among
    exact handler.fits id _ _
  | update handler id fields =>
    simp only [route] at among
    rw [List.mem_singleton.mp among]
    exact handler.fits id _ _
  | remark handler target_type target_id id fields =>
    simp only [route] at among
    obtain ⟨target,_,rfl⟩ := List.mem_map.mp among
    exact handler.fits id _ _
  | set_freeze_state project_id fields =>
    simp only [route] at among
    rw [List.mem_singleton.mp among]
    simp [Fits]
  | create_webhook id fields =>
    simp only [route] at among
    obtain ⟨project_id,_,rfl⟩ := List.mem_map.mp among
    simp [Fits]
  | delete_webhook webhook_id =>
    simp only [route] at among
    rw [List.mem_singleton.mp among]
    simp [Fits]
  | update_ref ref_name fields =>
    simp only [route] at among
    rw [List.mem_singleton.mp among]
    simp [Fits]
  | push_commit commit_hash fields run =>
    simp only [route] at among
    split at among
    · contradiction
    · obtain ⟨project_id,_,made⟩ := List.mem_flatMap.mp among
      cases List.mem_cons.mp made with
      | inl commit =>
        rw [commit]
        simp [Fits]
      | inr filed =>
        obtain ⟨run,_,rfl⟩ := List.mem_map.mp filed
        simp [Fits]

/-- A request of a principal of a tenant. -/
def serve (tenant_id : String) (r : Request α) (registry : Registry α) : Registry α :=
  match passed : enforce_project_tenant tenant_id r registry.projects with
  | none => registry
  | some projects => {
      projects := projects
      rows := (r.edits registry.rows).foldl Edit.apply registry.rows
      named := enforce_named registry.named passed
      placed := registry.placed.apply_all (edits_fit r registry.rows)}

def Registry.Foreign (registry : Registry α) (tenant_id project_id : String) : Prop :=
  ∃ owner, registry.projects.get? project_id = some owner ∧ owner ≠ tenant_id

/-- A project has the owner and the rows that it had. -/
structure Untouched (project_id : String) (before after : Registry α) : Prop where
  owner : after.projects.get? project_id = before.projects.get? project_id
  rows : ∀ key, seen after.rows project_id key = seen before.rows project_id key

def Theirs (foreign : String → Prop) (row : Row String α) : Prop := ∃ project_id, row.owner = some project_id ∧ foreign project_id

/-- The request keeps out of other tenants' projects, or asks for nothing new there. -/
def Request.KeepsOut (foreign : String → Prop) (r : Request α) (rows : ProjectRows α) : Prop :=
  match r.route with
  | .elsewhere _ _ => True
  | .register handler id fields => ∀ project_id, r.required_project = some project_id → foreign project_id →
      rows.contains (handler.table,id) = true ∨ fields rows = none
  | .update handler id fields => ∀ row, rows.get? (handler.table,id) = some row → Theirs foreign row →
      ∀ next, fields rows row.fields = some next → next = row.fields
  | .remark handler target_type target_id id fields => ∀ target, rows.get? (target_type.table,target_id) = some target →
      Theirs foreign target → rows.contains (handler.table,id) = true ∨ fields rows = none
  | .set_freeze_state _ _ => True
  | .create_webhook id fields => ∀ project_id, r.webhook_project = some (some project_id) → foreign project_id →
      rows.contains (.webhooks,id) = true ∨ fields = none
  | .delete_webhook webhook_id => ∀ row, rows.get? (.webhooks,webhook_id) = some row → ¬ Theirs foreign row
  | .update_ref ref_name fields => ∀ project_id, ref_project ref_name = some project_id → foreign project_id →
      ∀ next, fields ((rows.get? (.refs,ref_name)).map Row.fields) = some next →
        (rows.get? (.refs,ref_name)).map Row.fields = some next
  | .push_commit commit_hash fields run => rows.contains (.commits,commit_hash) = true ∨ fields = none ∨
      ∀ project_id, r.commit_project = some project_id → ¬ foreign project_id ∧ ∀ filed, run = some filed →
        ∀ row, rows.get? (.runs,filed.1) = some row → Theirs foreign row → filed.2 (some row.fields) = row.fields

variable {registry : Registry α} {foreign : String → Prop}

theorem edits_apart (r : Request α) (rows : ProjectRows α) : ((r.edits rows).map Edit.key).Nodup := by
  have one : ∀ {β : Type} (found : Option β) (edit : β → Edit (Table × String) String α),
      ((found.toList.map edit).map Edit.key).Nodup := by
    intro β found edit
    cases found <;> simp
  unfold Request.edits
  cases r.route with
  | elsewhere method path_project_id => simp
  | register handler id fields => exact one _ _
  | update handler id fields => simp
  | remark handler target_type target_id id fields => exact one _ _
  | set_freeze_state project_id fields => simp
  | create_webhook id fields => exact one _ _
  | delete_webhook webhook_id => simp
  | update_ref ref_name fields => simp
  | push_commit commit_hash fields run =>
    dsimp only
    split
    · simp
    · cases r.commit_project with
      | none => simp
      | some project_id => cases run <;> simp

theorem enforce_denies_iff (r : Request α) (registry : Registry α) : enforce_project_tenant tenant_id r registry.projects = none ↔
    ∃ project_id, r.guarded_project = some project_id ∧ registry.Foreign tenant_id project_id := by
  unfold enforce_project_tenant Registry.Foreign
  cases r.guarded_project with
  | none => simp
  | some project_id =>
    cases owned : registry.projects.get? project_id with
    | none => simp [owned]
    | some owner => by_cases own : owner = tenant_id <;> simp [owned,own]

/-- Whatever the guard lets through, no other tenant's project changes hands. -/
theorem enforce_owner (passed : enforce_project_tenant tenant_id r registry.projects = some projects) {project_id : String}
    (theirs : registry.Foreign tenant_id project_id) : projects.get? project_id = registry.projects.get? project_id := by
  obtain ⟨owner,owned,_⟩ := theirs
  unfold enforce_project_tenant at passed
  split at passed
  · rw [Option.some.inj passed]
  · rename_i guarded _
    split at passed
    · rename_i unseen
      rw [← Option.some.inj passed]
      apply Dict.get?_set_other
      intro same
      rw [same,unseen] at owned
      contradiction
    · split at passed
      · rw [Option.some.inj passed]
      · contradiction

theorem enforce_guarded (passed : enforce_project_tenant tenant_id r registry.projects = some projects) {project_id : String}
    (guarded : r.guarded_project = some project_id) : ¬ registry.Foreign tenant_id project_id := by
  intro theirs
  rw [(enforce_denies_iff r registry).mpr ⟨project_id,guarded,theirs⟩] at passed
  contradiction

theorem serve_denied (denied : enforce_project_tenant tenant_id r registry.projects = none) : serve tenant_id r registry = registry := by
  unfold serve
  split
  · rfl
  · rename_i passed
    rw [denied] at passed
    contradiction

theorem serve_passed (passed : enforce_project_tenant tenant_id r registry.projects = some projects) :
    (serve tenant_id r registry).projects = projects ∧
    (serve tenant_id r registry).rows = (r.edits registry.rows).foldl Edit.apply registry.rows := by
  unfold serve
  split
  · rename_i denied
    rw [passed] at denied
    contradiction
  · rename_i other
    rw [passed,Option.some.injEq] at other
    exact ⟨other.symm,rfl⟩

theorem untouched_iff (passed : enforce_project_tenant tenant_id r registry.projects = some projects) {project_id : String}
    (theirs : registry.Foreign tenant_id project_id) : Untouched project_id registry (serve tenant_id r registry) ↔
      ∀ edit ∈ r.edits registry.rows, edit.owner_in registry.rows = some project_id → edit.Idle registry.rows := by
  obtain ⟨same_projects,same_rows⟩ := serve_passed passed
  rw [← seen_all_iff (edits_apart r registry.rows)]
  constructor
  · intro untouched key
    rw [← same_rows]
    exact untouched.rows key
  · intro same
    constructor
    · rw [same_projects]
      exact enforce_owner passed theirs
    · rw [same_rows]
      exact same

/-- Where the handler goes to no project but the one that the guard looked at, other tenants' projects stay as they were. -/
theorem guarded_untouched (goes : ∀ edit ∈ r.edits registry.rows, ∀ project_id, edit.owner_in registry.rows = some project_id →
    r.guarded_project = some project_id) {project_id : String} (theirs : registry.Foreign tenant_id project_id) :
    Untouched project_id registry (serve tenant_id r registry) := by
  cases passed : enforce_project_tenant tenant_id r registry.projects with
  | none =>
    rw [serve_denied passed]
    exact ⟨rfl,fun _ => rfl⟩
  | some projects =>
    rw [untouched_iff passed theirs]
    intro edit among its
    exact absurd theirs (enforce_guarded passed (goes edit among project_id its))

/-! What it takes for one edit to leave others' rows alone. -/

/-- An edit asks for nothing new in a row of a foreign project. -/
def Spares (foreign : String → Prop) (rows : ProjectRows α) (edit : Edit (Table × String) String α) : Prop :=
  ∀ project_id, edit.owner_in rows = some project_id → foreign project_id → edit.Idle rows

theorem spares_new_row {key : Table × String} {owner : Option String} {fields : Option α} :
    Spares foreign rows ⟨key,owner,new_row fields⟩ ↔
      ∀ project_id, owner = some project_id → foreign project_id → rows.contains key = true ∨ fields = none := by
  unfold Spares Edit.owner_in Edit.Idle Dict.contains
  cases rows.get? key with
  | none => cases fields <;> simp [new_row]
  | some row => simp [new_row]

theorem spares_update {key : Table × String} {fields : α → Option α} :
    Spares foreign rows ⟨key,none,fun found => set_fields (found.bind fields)⟩ ↔
      ∀ row, rows.get? key = some row → Theirs foreign row → ∀ next, fields row.fields = some next → next = row.fields := by
  unfold Spares Edit.owner_in Edit.Idle Theirs
  cases rows.get? key with
  | none => simp
  | some row =>
    cases asked : fields row.fields with
    | none => simp [set_fields,asked]
    | some next => simp [set_fields,asked,eq_comm]

theorem forall_toList_map {β γ : Type} {found : Option β} {make : β → γ} {P : γ → Prop} :
    (∀ made ∈ found.toList.map make, P made) ↔ ∀ value, found = some value → P (make value) := by
  cases found <;> simp

theorem spares_push {commit_hash project_id : String} {fields : α} (new : rows.contains (.commits,commit_hash) = false) :
    Spares foreign rows ⟨(.commits,commit_hash),some project_id,new_row (some fields)⟩ ↔ ¬ foreign project_id := by
  rw [spares_new_row]
  simp [new]

theorem spares_filed {run_id project_id : String} {fields : Option α → α} (own : ¬ foreign project_id) :
    Spares foreign rows ⟨(.runs,run_id),some project_id,fun found => .put (fields found)⟩ ↔
      ∀ row, rows.get? (.runs,run_id) = some row → Theirs foreign row → fields (some row.fields) = row.fields := by
  unfold Spares Edit.owner_in Edit.Idle Theirs
  cases rows.get? (.runs,run_id) with
  | none => simp [own]
  | some row => simp [eq_comm]

/-- The rows that the handler goes to are spared exactly when the request keeps out of them. -/
theorem spares_iff (passed : enforce_project_tenant tenant_id r registry.projects = some projects) :
    (∀ edit ∈ r.edits registry.rows, Spares (registry.Foreign tenant_id) registry.rows edit) ↔
      r.KeepsOut (registry.Foreign tenant_id) registry.rows := by
  unfold Request.edits Request.KeepsOut
  cases route : r.route with
  | elsewhere method path_project_id => simp
  | register handler id fields =>
    simp only
    rw [forall_toList_map]
    simp only [spares_new_row,Option.some.injEq,forall_eq']
  | update handler id fields =>
    simp only [List.mem_singleton,forall_eq]
    exact spares_update
  | remark handler target_type target_id id fields =>
    simp only
    rw [forall_toList_map]
    simp only [spares_new_row,Theirs]
    constructor
    · intro spared target found its_project
      obtain ⟨project_id,its,theirs⟩ := its_project
      exact spared target found project_id its theirs
    · intro keeps target found project_id its theirs
      exact keeps target found ⟨project_id,its,theirs⟩
  | set_freeze_state project_id fields =>
    simp only [List.mem_singleton,forall_eq,iff_true]
    intro other its theirs
    -- the project in the path is the one that the guard looked at
    have same : other = project_id := by
      unfold Edit.owner_in at its
      cases found : registry.rows.get? (.project_freeze,project_id) with
      | none => simpa [found,eq_comm] using its
      | some row =>
        rw [found,Option.elim_some,registry.placed.freeze project_id row found] at its
        exact (Option.some.inj its).symm
    subst same
    have named : other ≠ "" := by
      intro empty
      obtain ⟨owner,owned,_⟩ := theirs
      rw [empty,registry.named] at owned
      contradiction
    have guarded : r.guarded_project = some other := by
      simp [Request.guarded_project,route,Route.path_project_id,Option.filter,named]
    exact absurd theirs (enforce_guarded passed guarded)
  | create_webhook id fields =>
    simp only
    rw [forall_toList_map]
    simp only [spares_new_row]
    constructor
    · intro spared project_id its
      exact spared (some project_id) its project_id rfl
    · intro keeps owner its project_id same
      rw [same] at its
      exact keeps project_id its
  | delete_webhook webhook_id =>
    simp only [List.mem_singleton,forall_eq]
    unfold Spares Edit.owner_in Edit.Idle Theirs
    cases registry.rows.get? (.webhooks,webhook_id) with
    | none => simp
    | some row => simp
  | update_ref ref_name fields =>
    simp only [List.mem_singleton,forall_eq]
    have owner : Edit.owner_in ⟨(Table.refs,ref_name),ref_project ref_name,fun found => set_fields (fields found)⟩ registry.rows =
        ref_project ref_name := by
      unfold Edit.owner_in
      cases found : registry.rows.get? (.refs,ref_name) with
      | none => simp
      | some row => simpa [found] using registry.placed.refs ref_name row found
    unfold Spares
    rw [owner]
    unfold Edit.Idle
    cases asked : fields ((registry.rows.get? (.refs,ref_name)).map Row.fields) with
    | none => simp [set_fields,asked]
    | some next => simp [set_fields,asked]
  | push_commit commit_hash fields run =>
    simp only
    cases there : registry.rows.contains (.commits,commit_hash) with
    | true => simp
    | false =>
      cases fields with
      | none => simp
      | some fields =>
        simp only [Option.isNone_some,Bool.or_self,Bool.false_eq_true,if_false,false_or,reduceCtorEq]
        cases r.commit_project with
        | none => simp
        | some project_id =>
          simp only [Option.toList_some,List.flatMap_cons,List.flatMap_nil,List.append_nil,List.forall_mem_cons,spares_push there,
            forall_toList_map,Option.some.injEq,forall_eq']
          apply and_congr_right
          intro own
          apply forall_congr'
          intro filed
          rw [spares_filed own]

section Spent

/-- A budget of another tenant, with the steps that are used up. -/
def shared_registry : Registry Nat where
  projects := Dict.ofList [("ours","a"),("theirs","b")]
  rows := Dict.ofList [((.budgets,"budget"),⟨some "theirs",0⟩)]
  named := by decide
  placed := by
    have no_row : ∀ table key, table ≠ Table.budgets →
        (Dict.ofList [((Table.budgets,"budget"),(⟨some "theirs",0⟩ : Row String Nat))]).get? (table,key) = none := by
      intro table key differ
      change (Dict.empty.set (Table.budgets,"budget") _).get? (table,key) = none
      rw [Dict.get?_set_other _ _ _ _ (by simp [differ]),Dict.get?_empty]
    constructor
    · intro project_id row found
      rw [no_row .project_freeze project_id (by decide)] at found
      contradiction
    · intro ref_name row found
      rw [no_row .refs ref_name (by decide)] at found
      contradiction

def consume_steps : Request Nat := ⟨.update .consume_budget "budget" fun _ used => some (used + 5),none,none⟩

end Spent

end AetherVault.Tenancy
