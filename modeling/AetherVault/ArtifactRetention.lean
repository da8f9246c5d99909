import AetherVault.Artifacts
import AetherVault.CommitListing

/-! What a collection leaves of the objects that rows refer to: those that a commit reaches
as well, and those that are younger than the grace period. -/
namespace AetherVault.Artifacts
open Lib Hashing
open Lib.Prog (Only call)
open Lib.Discipline (Meets)

variable {H : Type} [DecidableEq H]

/-! What one collection keeps. -/

section Collection

variable (config : ServerConfig) (r t : Registry H) (clock : Nat) (tenant : Tenant) (h : H)

/-- The rows that an existence check of the tenant finds. -/
def Visible (key : Tenant × H) : Prop := key.2 = h ∧ (config.cas_isolation.cas_tenant_id tenant).all (· == key.1) = true

/-- Neither the object's rows nor the file that is served for it are deleted. -/
structure Kept : Prop where
  rows : ∀ key, Visible config tenant h key → r.objects.contains key = true → t.objects.contains key = true
  file : ∀ key, r.get_object_path (config.cas_isolation.cas_tenant_id tenant) h = some key → t.files.contains key = true

/-- A commit reaches it, or it is too young to be collected. -/
structure Sheltered : Prop where
  rows : referenced (mark_alive r.trees (r.commits.entries.map Prod.snd)) (config.cas_isolation.cas_tenant_id tenant,h) = true ∨
    ∀ key row, Visible config tenant h key → r.objects.get? key = some row → clock - config.gc_grace_seconds ≤ row.created_at
  file : ∀ key file, r.get_object_path (config.cas_isolation.cas_tenant_id tenant) h = some key → r.files.get? key = some file →
    referenced (mark_alive r.trees (r.commits.entries.map Prod.snd)) key = true ∨ clock - config.gc_grace_seconds ≤ file.mtime

variable {config r t clock tenant h}

theorem mem_dead_objects {cas_isolation : CasIsolation} {marks : Dict Tenant (Marked H)} {gc_cutoff : Nat}
    {objects : List ((Tenant × H) × DBObject)} {d : ObjectKey H} : d ∈ dead_objects cas_isolation marks gc_cutoff objects ↔
      ∃ key row, (key,row) ∈ objects ∧ referenced marks (cas_isolation.cas_tenant_id key.1,key.2) = false ∧
        row.created_at < gc_cutoff ∧ d = (cas_isolation.cas_tenant_id key.1,key.2) := by
  unfold dead_objects
  simp only [List.mem_map,List.mem_filter,Bool.and_eq_true,Bool.not_eq_true',decide_eq_true_eq,Prod.exists]
  constructor
  · intro dead
    obtain ⟨owner,hash,row,⟨member,unmarked,old⟩,rfl⟩ := dead
    exact ⟨owner,hash,row,member,unmarked,old,rfl⟩
  · intro dead
    obtain ⟨owner,hash,row,member,unmarked,old,rfl⟩ := dead
    exact ⟨owner,hash,row,⟨member,unmarked,old⟩,rfl⟩

/-- A row is deleted with any other that the same check finds. -/
theorem dead_row_iff {key : Tenant × H} (visible : Visible config tenant h key) : dead_row config r clock key = true ↔
    referenced (mark_alive r.trees (r.commits.entries.map Prod.snd)) (config.cas_isolation.cas_tenant_id tenant,h) = false ∧
      ∃ other row, Visible config tenant h other ∧ r.objects.get? other = some row ∧
        row.created_at < clock - config.gc_grace_seconds := by
  obtain ⟨hash,owner⟩ := visible
  subst hash
  unfold dead_row Registry.row_among Visible
  rw [List.any_eq_true]
  simp only [mem_dead_objects,Bool.and_eq_true,beq_iff_eq]
  cases isolation : config.cas_isolation with
  | shared =>
    simp only [CasIsolation.cas_tenant_id,Option.all_none,and_true]
    constructor
    · intro among
      obtain ⟨d,⟨other,row,member,unmarked,old,rfl⟩,same,-⟩ := among
      dsimp only at same
      rw [same] at unmarked
      exact ⟨unmarked,other,row,same,(r.objects.mem_entries _ _).mp member,old⟩
    · intro dead
      obtain ⟨unmarked,other,row,same,found,old⟩ := dead
      refine ⟨_,⟨other,row,(r.objects.mem_entries _ _).mpr found,?_,old,rfl⟩,same,rfl⟩
      rw [same]
      exact unmarked
  | isolated =>
    rw [isolation] at owner
    simp only [CasIsolation.cas_tenant_id,Option.all_some,beq_iff_eq] at owner ⊢
    subst owner
    constructor
    · intro among
      obtain ⟨d,⟨other,row,member,unmarked,old,rfl⟩,same,owned⟩ := among
      dsimp only [Option.all_some] at same owned
      rw [beq_iff_eq] at owned
      rw [same,owned] at unmarked
      exact ⟨unmarked,other,row,⟨same,owned.symm⟩,(r.objects.mem_entries _ _).mp member,old⟩
    · intro dead
      obtain ⟨unmarked,other,row,⟨same,owned⟩,found,old⟩ := dead
      refine ⟨_,⟨other,row,(r.objects.mem_entries _ _).mpr found,?_,old,rfl⟩,same,by simp [owned]⟩
      rw [same,← owned]
      exact unmarked

theorem get_object_path_holds {cas_tenant_id : Option Tenant} {key : ObjectKey H} (served : r.get_object_path cas_tenant_id h = some key) :
    ∃ file, r.files.get? key = some file := by
  unfold Registry.get_object_path at served
  split at served
  · rename_i own
    cases served
    exact (r.files.contains_iff _).mp (Bool.and_eq_true_iff.mp own).2
  · split at served
    · rename_i flat
      cases served
      exact (r.files.contains_iff _).mp flat
    · contradiction

theorem kept_iff (collected : Collected config clock r t) : Kept config r t tenant h ↔ Sheltered config r clock tenant h := by
  have row_after (key : Tenant × H) (visible : Visible config tenant h key) (there : r.objects.contains key = true) :
      t.objects.contains key = true ↔ dead_row config r clock key = false := by
    obtain ⟨row,found⟩ := (r.objects.contains_iff key).mp there
    unfold Dict.contains
    rw [collected.objects,found]
    cases dead_row config r clock key <;> simp [Option.filter]
  constructor
  · intro kept
    constructor
    · by_contra exposed
      rw [not_or] at exposed
      obtain ⟨unmarked,old⟩ := exposed
      push Not at old
      obtain ⟨key,row,visible,found,old⟩ := old
      have there := (r.objects.contains_iff key).mpr ⟨row,found⟩
      have alive := (row_after key visible there).mp (kept.rows key visible there)
      rw [(dead_row_iff visible).mpr ⟨by simpa using unmarked,key,row,visible,found,old⟩] at alive
      contradiction
    · intro key file served found
      obtain ⟨stays,after⟩ := (t.files.contains_iff key).mp (kept.file key served)
      rw [collected.files,found,Option.filter_eq_some_iff] at after
      obtain ⟨same,spared⟩ := after
      cases same
      simpa [spared_file] using spared
  · intro sheltered
    constructor
    · intro key visible there
      rw [row_after key visible there]
      by_contra dead
      obtain ⟨unmarked,other,row,seen,found,old⟩ := (dead_row_iff visible).mp (by simpa using dead)
      cases sheltered.rows with
      | inl marked =>
        rw [unmarked] at marked
        contradiction
      | inr young =>
        have := young other row seen found
        omega
    · intro key served
      obtain ⟨file,found⟩ := get_object_path_holds served
      have spared : spared_file (mark_alive r.trees (r.commits.entries.map Prod.snd)) (clock - config.gc_grace_seconds) key file = true := by
        simpa [spared_file] using sheltered.file key file served found
      unfold Dict.contains
      rw [collected.files,found]
      simp [Option.filter,spared]

end Collection

/-! Requests, one after another. -/

section Requests

variable [Hashing H] {config : ServerConfig} {me : Nat}

/-- A statement that deletes no row. -/
def Filing (β : Type) (q : Query H β) : Prop :=
  match q with
  | .delete_objects _ | .delete_trees _ | .commit => False
  | _ => True

/-- No deletion is open, and the rows that were there are. -/
structure Grows (me : Nat) (r t : Registry H) : Prop where
  idle : t.deleting me = ⟨[],[]⟩
  rows : ∀ key, r.objects.contains key = true → t.objects.contains key = true

omit [Hashing H] in
theorem Grows.exec {r t : Registry H} (grows : Grows me r t) {β : Type} {q : Query H β} (filing : Filing β q) (m : Moment H) :
    Grows me r (Registry.exec me β m q t).2 := by
  have same {u : Registry H} (deleting : u.deleting = t.deleting) (objects : u.objects = t.objects) : Grows me r u :=
    ⟨deleting ▸ grows.idle,objects ▸ grows.rows⟩
  cases q with
  | insert_object tenant_id h size =>
    unfold Registry.exec Registry.insert_object
    dsimp only
    split
    · exact grows
    · exact ⟨grows.idle,fun key there => Dict.contains_set _ _ _ (grows.rows key there)⟩
  | insert_commit rows h row =>
    unfold Registry.exec Registry.insert_commit
    dsimp only
    split
    · exact grows
    · exact same rfl rfl
  | delete_objects _ => exact filing.elim
  | delete_trees _ => exact filing.elim
  | commit => exact filing.elim
  | rollback => exact ⟨by simp [Registry.exec,Registry.finish],grows.rows⟩
  | _ => exact same rfl rfl

omit [Hashing H] in
theorem Grows.run {α : Type} {p : Handler H α} (only : p.Only Filing) (policy : Registry H → Moment H) {r t : Registry H}
    (grows : Grows me r t) : Grows me r (p.run (Registry.exec me) policy t).2 := by
  induction p generalizing t with
  | pure a => exact grows
  | fail e => exact grows
  | op q next ih => exact ih _ (only.2 _) (grows.exec only.1 _)

omit [DecidableEq H] [Hashing H] in
theorem filing_of_storing (β : Type) (q : Query H β) (storing : q.Storing) : Filing β q := by
  cases q with
  | insert_object _ _ _ => exact storing.elim
  | delete_objects _ => exact storing.elim
  | delete_trees _ => exact storing.elim
  | commit => exact storing.elim
  | _ => trivial

theorem upload_filing (config : ServerConfig) (tenant : Tenant) (h : H) (content : Bytes) (declared : Bool) :
    (upload_object config tenant h content declared).Only Filing := by
  have uploads : (store_upload config tenant h content).Only Filing := by
    apply Only.bind ((store_object_storing _ _ _).mono filing_of_storing)
    intro _
    apply Only.bind (.call trivial)
    intro stat
    cases stat with
    | none => trivial
    | some stat =>
      apply Only.bind (.call trivial)
      intro inserted
      exact (Only.call trivial).bind fun _ => trivial
  apply Only.bind ((check_hash_exists_storing _ _).mono filing_of_storing)
  intro might_exist
  apply Only.bind ((find_objects_storing _ _).mono filing_of_storing)
  intro rows
  split
  · trivial
  · split
    · trivial
    · split
      · trivial
      · exact uploads.attempt fun e => trivial

omit [Hashing H] in
/-- A collection with no request beside it. -/
theorem collection_run (policy : Registry H → Moment H) {r : Registry H} (idle : r.deleting me = ⟨[],[]⟩) :
    ((run_garbage_collection config).run (Registry.exec me) policy r).2.deleting me = ⟨[],[]⟩ ∧
      Collected config (policy r).clock r ((run_garbage_collection config).run (Registry.exec me) policy r).2 := by
  let chosen (β : Type) (m : Moment H) (_ : Query H β) (t : Registry H) : Prop := m = policy t
  have ran := (Registry.alone me chosen).runs_of_run policy (fun _ _ _ => true) (fun _ _ _ _ => rfl)
    (run_garbage_collection config) r (Prog.checks_true _ _ _ _)
  obtain ⟨-,-,rows,m,now,collected⟩ := Meets.runs (fun _ _ _ _ _ _ _ => trivial) (fun _ => rfl) ran trivial
    (collection_alone idle)
  have same : m = policy r := now
  subst same
  exact ⟨rows ▸ idle,collected⟩

end Requests

/-! Runs. -/

namespace Shelf

variable [Hashing H] [TreeContent H] [HexDigest H] (config : ServerConfig) (limits : PushLimits)

/-- A row of an artifact, of a run or of a commit has the object's hash. -/
def Refers (s : Shelf H) (tenant : Tenant) (h : H) : Prop :=
  (∃ key row, s.artifacts.get? key = some row ∧ row.tenant_id = tenant ∧ row.object_id = h) ∨
  (∃ id run, s.runs.get? id = some run ∧ run.tenant_id = tenant ∧ (run.avh_object_id = some h ∨ run.env_snapshot_id = some h)) ∨
  ∃ commit row columns, s.registry.commits.get? commit = some row ∧ s.ledger.columns.get? commit = some columns ∧
    row.tenant_id = tenant ∧ columns.env_snapshot_id = some h

/-- A collection deletes no object that a row refers to. -/
def Keeps (s : Shelf H) : ShelfMove H → Prop
  | .run_garbage_collection policy => ∀ tenant h, s.Refers tenant h →
      Kept config s.registry (s.step config limits (.run_garbage_collection policy)).registry tenant h
  | _ => True

/-- A collection finds every object that a row refers to reached by a commit, or young. -/
def Timely (s : Shelf H) : ShelfMove H → Prop
  | .run_garbage_collection policy => ∀ tenant h, s.Refers tenant h →
      Sheltered config s.registry (policy s.registry).clock tenant h
  | _ => True

def Idle (s : Shelf H) : Prop := s.registry.deleting 0 = ⟨[],[]⟩

variable {config limits} {s : Shelf H}

theorem push_registry (pushed : Ledger.Push H) (policy : Registry H → Moment H) :
    (s.push config limits pushed policy).registry.deleting = s.registry.deleting ∧
      (s.push config limits pushed policy).registry.objects = s.registry.objects := by
  unfold push registry
  cases Ledger.push_commit_cases config limits 0 policy s.ledger pushed with
  | inl refused =>
    dsimp only
    rw [refused.1]
    exact ⟨rfl,rfl⟩
  | inr stored =>
    obtain ⟨columns,raw,listing,created,dirs,-,-,-,-,-,-,-,same⟩ := stored
    dsimp only
    rw [same]
    exact ⟨rfl,rfl⟩

theorem Idle.step (idle : s.Idle) (m : ShelfMove H) : (s.step config limits m).Idle := by
  unfold Idle at *
  cases m with
  | upload_object tenant h content declared policy =>
    exact (Grows.run (upload_filing config tenant h content declared) policy ⟨idle,fun _ there => there⟩).idle
  | push_commit pushed policy =>
    have same : (s.push config limits pushed policy).registry.deleting = s.registry.deleting :=
      (push_registry pushed policy).1
    change (s.push config limits pushed policy).registry.deleting 0 = _
    rw [same]
    exact idle
  | register table tenant id object_id accepted =>
    change (register config tenant id object_id accepted s table).registry.deleting 0 = _
    rw [register_eq]
    unfold create
    split <;> exact idle
  | update_eval_suite tenant id object_id accepted =>
    change (s.update_eval_suite config tenant id object_id accepted).registry.deleting 0 = _
    unfold update_eval_suite
    split
    · exact idle
    · split <;> exact idle
  | create_run tenant id env_snapshot_id =>
    change (s.create_run tenant id env_snapshot_id).registry.deleting 0 = _
    unfold create_run
    split <;> exact idle
  | link_run_avh tenant id object_id =>
    change (s.link_run_avh config tenant id object_id).registry.deleting 0 = _
    unfold link_run_avh
    split
    · exact idle
    · split <;> exact idle
  | run_garbage_collection policy => exact (collection_run policy idle).1

theorem keeps_iff_timely (idle : s.Idle) (m : ShelfMove H) : s.Keeps config limits m ↔ s.Timely config m := by
  cases m with
  | run_garbage_collection policy =>
    have collected : Collected config (policy s.registry).clock s.registry
        ((run_garbage_collection config).run (Registry.exec 0) policy s.registry).2 := (collection_run policy idle).2
    unfold Keeps Timely
    constructor
    · intro keeps tenant h refers
      exact (kept_iff collected).mp (keeps tenant h refers)
    · intro timely tenant h refers
      exact (kept_iff collected).mpr (timely tenant h refers)
  | _ => exact Iff.rfl

/-- The collections of a run delete no object that a row refers to exactly when each finds every such object
reached by a commit, or younger than the grace period. -/
theorem collections_keep_iff (config : ServerConfig) (limits : PushLimits) (moves : List (ShelfMove H)) :
    Runs.Every (step config limits) (Keeps config limits) empty moves ↔ Runs.Every (step config limits) (Timely config) empty moves :=
  Runs.every_congr (I := Idle) (fun _ m idle => idle.step m) (fun _ m idle => keeps_iff_timely idle m)
    (show Idle (empty : Shelf H) from rfl) moves

end Shelf

/-! A plan whose object no commit reaches. -/

section Unreached

open Artifacts.Shelf

def no_limits : PushLimits := ⟨0,0,0,0,0⟩

def plan_object : Name := ⟨[1]⟩

def registered : List (ShelfMove Name) :=
  [.upload_object "default" plan_object [1] false (at_time 100),.register .plans "default" "plan" plan_object true]

/-- With a grace period of 20, a collection at 200. -/
theorem plan_object_collected : ¬∀ moves : List (ShelfMove Name),
    Runs.Every (step sample_config no_limits) (Keeps sample_config no_limits) empty moves := by
  intro all
  let before : Shelf Name := registered.foldl (step sample_config no_limits) empty
  have refers : before.Refers "default" plan_object := by
    left
    exact ⟨(.plans,"plan"),⟨"default",plan_object⟩,by decide +kernel,rfl,rfl⟩
  have kept := all (registered ++ [.run_garbage_collection (at_time 200)]) registered _ [] rfl "default" plan_object refers
  have stays := kept.rows ("default",plan_object) ⟨rfl,rfl⟩ (by decide +kernel)
  have gone : (step sample_config no_limits before (.run_garbage_collection (at_time 200))).registry.objects.contains
      ("default",plan_object) = false := by decide +kernel
  rw [gone] at stays
  contradiction

end Unreached

end AetherVault.Artifacts
