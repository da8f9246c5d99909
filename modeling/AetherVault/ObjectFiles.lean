import AetherVault.Collection
import AetherVault.TreeStore

/-! Rows and files of the object store: between requests every row has its file,
as long as collections spare the files of the rows they spare. -/
namespace AetherVault
open Lib Hashing
open Lib.Prog (call forEach foldEach leaf Only)
open Lib.Discipline (Meets Accepts Steps Runs)

variable {H : Type} [DecidableEq H]

/-- Every object that has a row can be downloaded by the row's tenant. -/
def Agreement (config : ServerConfig) (r : Registry H) : Prop :=
  ∀ key row, r.objects.get? key = some row →
    (r.get_object_path (config.cas_isolation.cas_tenant_id key.1) key.2).isSome = true

theorem get_object_path_isSome (r : Registry H) (cas_tenant_id : Option Tenant) (h : H) :
    (r.get_object_path cas_tenant_id h).isSome = true ↔
      ∃ place file, (place = (cas_tenant_id,h) ∨ place = (none,h)) ∧ r.files.get? place = some file := by
  have held (place : ObjectKey H) : r.files.contains place = true ↔ ∃ file, r.files.get? place = some file :=
    r.files.contains_iff place
  unfold Registry.get_object_path
  cases cas_tenant_id with
  | none => simp [held]
  | some tenant =>
    by_cases own : r.files.contains (some tenant,h) = true
    · simp [own]
      exact Or.inl ((held _).mp own)
    · have gone : r.files.get? (some tenant,h) = none := by simpa [Dict.contains] using own
      simp [own,held,gone]

/-- Each row that a collection spares although no commit refers to it has a file that the
collection spares too. -/
def Covered (config : ServerConfig) (r : Registry H) (clock : Nat) : Prop :=
  let marks := mark_alive r.trees (r.commits.entries.map Prod.snd)
  ∀ key row, r.objects.get? key = some row → dead_row config r clock key = false →
    referenced marks (config.cas_isolation.cas_tenant_id key.1,key.2) = false →
    ∃ place file, (place = (config.cas_isolation.cas_tenant_id key.1,key.2) ∨ place = (none,key.2)) ∧
      r.files.get? place = some file ∧ spared_file marks (clock - config.gc_grace_seconds) place file = true

theorem referenced_flat {marks : Dict Tenant (Marked H)} {cas_tenant_id : Option Tenant} {h : H} {place : ObjectKey H}
    (held : referenced marks (cas_tenant_id,h) = true) (either : place = (cas_tenant_id,h) ∨ place = (none,h)) :
    referenced marks place = true := by
  rcases either with rfl | rfl
  · exact held
  · cases cas_tenant_id with
    | none => exact held
    | some tenant =>
      simp only [referenced,alive_of,alive_hashes,List.contains_iff_mem] at held ⊢
      cases found : marks.get? tenant with
      | none => simp [found] at held
      | some marked =>
        rw [found] at held
        exact List.mem_flatMap.mpr ⟨(tenant,marked),(marks.mem_entries _ _).mpr found,held⟩

/-- A collection keeps the agreement exactly when it finds the rows it spares covered. -/
theorem collected_agreement {config : ServerConfig} {clock : Nat} {r t : Registry H} (collected : Collected config clock r t)
    (agreement : Agreement config r) : Agreement config t ↔ Covered config r clock := by
  constructor
  · intro after key row found alive unreferenced
    have kept : t.objects.get? key = some row := by simp [collected.objects,found,alive]
    obtain ⟨place,file,either,stays⟩ := (get_object_path_isSome t _ _).mp (after key row kept)
    rw [collected.files,Option.filter_eq_some_iff] at stays
    exact ⟨place,file,either,stays.1,stays.2⟩
  · intro covered key row kept
    rw [collected.objects,Option.filter_eq_some_iff] at kept
    obtain ⟨found,alive⟩ := kept
    simp only [Bool.not_eq_true'] at alive
    have stays : ∃ place file, (place = (config.cas_isolation.cas_tenant_id key.1,key.2) ∨ place = (none,key.2)) ∧
        r.files.get? place = some file ∧ spared_file (mark_alive r.trees (r.commits.entries.map Prod.snd))
          (clock - config.gc_grace_seconds) place file = true := by
      by_cases held : referenced (mark_alive r.trees (r.commits.entries.map Prod.snd))
          (config.cas_isolation.cas_tenant_id key.1,key.2) = true
      · obtain ⟨place,file,either,there⟩ := (get_object_path_isSome r _ _).mp (agreement key row found)
        exact ⟨place,file,either,there,by simp [spared_file,referenced_flat held either]⟩
      · exact covered key row found alive (by simpa using held)
    obtain ⟨place,file,either,there,spared⟩ := stays
    refine (get_object_path_isSome t _ _).mpr ⟨place,file,either,?_⟩
    rw [collected.files,Option.filter_eq_some_iff]
    exact ⟨there,spared⟩

variable [Hashing H]

/-! Uploads and pushes, to their end or cut short. -/

/-- A row is only inserted for a file that is there, and nothing is deleted. -/
def storing (config : ServerConfig) (me : Nat) : Discipline (Query H) (Registry H) (Moment H) where
  exec := Registry.exec me
  may := anytime
  inv := fun r => Agreement config r ∧ r.deleting me = ⟨[],[]⟩
  rely := fun s t => t = s
  pre := fun _ _ q r => match q with
    | .insert_object tenant h _ => r.files.contains (config.cas_isolation.cas_tenant_id tenant,h) = true
    | .unlink_file _ | .delete_objects _ | .delete_trees _ | .commit => False
    | _ => True

/-- Queries that `storing` asks nothing of. -/
def Query.Storing (β : Type) (q : Query H β) : Prop :=
  match q with
  | .insert_object _ _ _ | .unlink_file _ | .delete_objects _ | .delete_trees _ | .commit => False
  | _ => True

omit [Hashing H] in
theorem storing_keeps (config : ServerConfig) (me : Nat) : (storing (H := H) config me).Keeps := by
  rintro β m q r ⟨agreement,idle⟩ - required
  have same {t : Registry H} (objects : t.objects = r.objects) (files : t.files = r.files) (rows : t.deleting = r.deleting) :
      Agreement config t ∧ t.deleting me = ⟨[],[]⟩ := by
    refine ⟨fun key row found => ?_,rows ▸ idle⟩
    rw [get_object_path_isSome,files,← get_object_path_isSome]
    exact agreement key row (objects ▸ found)
  cases q with
  | insert_object tenant h size =>
    obtain ⟨file,there⟩ := (r.files.contains_iff _).mp required
    unfold storing Registry.exec Registry.insert_object
    dsimp only
    split
    · exact ⟨agreement,idle⟩
    · refine ⟨fun key row found => ?_,idle⟩
      change (r.objects.set (tenant,h) ⟨size,m.clock⟩).get? key = some row at found
      rw [get_object_path_isSome]
      rw [Dict.get?_set] at found
      split at found
      · rename_i mine
        subst key
        exact ⟨_,file,Or.inl rfl,there⟩
      · exact (get_object_path_isSome r _ _).mp (agreement key row found)
  | move_file place content =>
    refine ⟨fun key row found => ?_,idle⟩
    obtain ⟨at_place,file,either,there⟩ := (get_object_path_isSome r _ _).mp (agreement key row found)
    refine (get_object_path_isSome _ _ _).mpr ?_
    change ∃ place' file', _ ∧ (r.files.set place ⟨content,m.clock⟩).get? place' = some file'
    by_cases here : at_place = place
    · exact ⟨at_place,⟨content,m.clock⟩,either,by simp [here]⟩
    · exact ⟨at_place,file,either,by rw [Dict.get?_set_other _ _ _ _ here,there]⟩
  | insert_commit rows h row =>
    unfold storing Registry.exec Registry.insert_commit
    dsimp only
    split
    · exact ⟨agreement,idle⟩
    · exact same rfl rfl rfl
  | rollback =>
    refine ⟨agreement,?_⟩
    simp [storing,Registry.exec,Registry.finish]
  | unlink_file key => exact absurd required id
  | delete_objects dead => exact absurd required id
  | delete_trees dead => exact absurd required id
  | commit => exact absurd required id
  | _ => exact same rfl rfl rfl

variable {config : ServerConfig} {me : Nat}

omit [Hashing H] in
theorem storing_accepts {α : Type} {p : Handler H α} (only : p.Only Query.Storing) : (storing config me).Accepts p := by
  refine .of_only only fun β m q r allowed _ _ => ?_
  cases q <;> first | exact trivial | exact absurd allowed id

omit [DecidableEq H] [Hashing H] in
theorem tenant_hits_storing (cas_tenant_id : Option Tenant) (hashes : List H) :
    (RedisCache.tenant_hits cas_tenant_id hashes).Only Query.Storing := by
  unfold RedisCache.tenant_hits
  split
  · exact .call trivial
  · trivial

omit [DecidableEq H] [Hashing H] in
theorem global_hits_storing (hashes : List H) : (RedisCache.global_hits hashes).Only Query.Storing := by
  unfold RedisCache.global_hits
  split
  · trivial
  · exact .call trivial

omit [DecidableEq H] [Hashing H] in
theorem check_hash_exists_storing (cas_tenant_id : Option Tenant) (h : H) :
    (RedisCache.check_hash_exists cas_tenant_id h).Only Query.Storing :=
  .bind (tenant_hits_storing _ _) fun _ => .bind (global_hits_storing _) fun _ => trivial

omit [DecidableEq H] [Hashing H] in
theorem find_objects_storing (cas_tenant_id : Option Tenant) (hashes : List H) :
    (find_objects cas_tenant_id hashes).Only Query.Storing := by
  unfold find_objects
  split
  · trivial
  · exact .call trivial

theorem store_object_storing (cas_tenant_id : Option Tenant) (h : H) (content : Bytes) :
    (store_object config cas_tenant_id h content).Only Query.Storing := by
  refine .bind (.call trivial) fun found => ?_
  split
  · trivial
  · split
    · trivial
    · split
      · trivial
      · exact .call trivial

theorem upload_storing (tenant : Tenant) (h : H) (content : Bytes) (declared : Bool) :
    (storing config me).Accepts (upload_object config tenant h content declared) := by
  have adds (inserted : Bool) : (do
      call (.bloom_add (config.cas_isolation.cas_tenant_id tenant) [h])
      .pure (if inserted then 201 else 409) : Handler H Nat).Only Query.Storing := .bind (.call trivial) fun _ => trivial
  have uploads : (storing config me).Accepts (store_upload config tenant h content) := by
    refine .bind (storing_accepts (store_object_storing _ _ _)) fun _ r => .bind (.call fun m t _ _ _ => ⟨trivial,?_⟩)
    cases there : t.files.get? (config.cas_isolation.cas_tenant_id tenant,h) with
    | none =>
      have answer : (Registry.exec me _ m (.stat_file (config.cas_isolation.cas_tenant_id tenant,h)) t) = (none,t) := by
        simp [Registry.exec,there]
      simp only [storing,answer]
      trivial
    | some file =>
      have answer : (Registry.exec me _ m (.stat_file (config.cas_isolation.cas_tenant_id tenant,h)) t) =
          (some (file.content.length,file.mtime),t) := by simp [Registry.exec,there]
      simp only [storing,answer]
      refine .bind (.call fun m u same _ _ => ⟨?_,?_⟩)
      · obtain rfl : u = t := same
        exact (u.files.contains_iff _).mpr ⟨file,there⟩
      · exact storing_accepts (adds _) _
  refine .bind (storing_accepts (check_hash_exists_storing _ _)) fun might_exist => .bind (storing_accepts (find_objects_storing _ _)) fun rows => ?_
  split
  · exact .fail _
  · split
    · exact .pure _
    · split
      · exact .pure _
      · exact .attempt uploads fun e => .pure _

section Push

variable [TreeContent H]

theorem build_storing (tenant : Tenant) (cas_tenant_id : Option Tenant) (depth : Nat) (tree : Tree H)
    (added : List (DBTree H)) : (build_merkle_tree tenant cas_tenant_id depth tree added).Only Query.Storing := by
  induction depth generalizing tree added with
  | zero => trivial
  | succ depth ih =>
    rw [build_merkle_tree_eq]
    refine .bind ?_ fun nodes => .bind (.foldEach (fun acc node => ?_) _ _) fun built => ?_
    · cases dir_nodes tree <;> trivial
    · unfold build_node
      split
      · exact .bind (ih _ _) fun child => trivial
      · trivial
    · unfold build_root
      extract_lets root done
      have ends (present : Bool) : (done present).Only Query.Storing := by
        unfold done
        split <;> trivial
      split
      · exact .bind trivial ends
      · exact .bind (.call trivial) ends

theorem push_storing (tenant : Tenant) (rejected : Bool) (h : H) (data : CommitData H) :
    (push_commit config tenant rejected h data).Only Query.Storing := by
  refine .bind (.call trivial) fun known => ?_
  split
  · trivial
  · split
    · trivial
    · split
      · trivial
      · refine .attempt (.bind (build_storing _ _ _ _ _) fun built => .bind (.call trivial) fun inserted => ?_) fun e => trivial
        split
        · trivial
        · refine .bind (.call trivial) fun again => ?_
          split <;> trivial

end Push

/-! Runs: uploads and pushes with no other request beside them, whole or cut off by a
client that goes away, and collections at any times. -/

/-- Only the moment at which a collection reads the clock is restricted. -/
def covered (config : ServerConfig) (β : Type) (m : Moment H) (q : Query H β) (r : Registry H) : Prop :=
  match q with
  | .now => Covered config r m.clock
  | _ => True

inductive Turn [TreeContent H] (config : ServerConfig) (me : Nat)
    (may : ∀ β, Moment H → Query H β → Registry H → Prop) : Registry H → Registry H → Prop
  | upload (tenant : Tenant) (h : H) (content : Bytes) (declared : Bool) {rest : Handler H Nat} {r t : Registry H}
      (cut : (Registry.alone me anytime).Steps (upload_object config tenant h content declared,r) (rest,t)) :
      Turn config me may r t
  | push (tenant : Tenant) (rejected : Bool) (h : H) (data : CommitData H) {rest : Handler H Nat} {r t : Registry H}
      (cut : (Registry.alone me anytime).Steps (push_commit config tenant rejected h data,r) (rest,t)) :
      Turn config me may r t
  | collect {done : Except ServerError Nat} {r t : Registry H}
      (ran : (Registry.alone me may).Runs (run_garbage_collection config) r done t) : Turn config me may r t

omit [Hashing H] in
theorem collection_alone {may : ∀ β, Moment H → Query H β → Registry H → Prop} {r : Registry H}
    (idle : r.deleting me = ⟨[],[]⟩) : (Registry.alone me may).Meets (run_garbage_collection config) (fun done t =>
      done = .ok 200 ∧ t.deleting = r.deleting ∧ ∃ m, may _ m .now r ∧ Collected config m.clock r t) r := by
  refine .attempt (.bind ((sweep_alone config idle).mono ?_))
  rintro done t ⟨rfl,collected⟩
  exact ⟨rfl,collected⟩

theorem turn_agreement [TreeContent H] {r t : Registry H} (turn : Turn config me (covered config) r t)
    (so_far : Agreement config r ∧ r.deleting me = ⟨[],[]⟩) : Agreement config t ∧ t.deleting me = ⟨[],[]⟩ := by
  have stored {α : Type} {p rest : Handler H α} {t : Registry H} (accepts : (storing config me).Accepts p)
      (cut : (Registry.alone me anytime).Steps (p,r) (rest,t)) : Agreement config t ∧ t.deleting me = ⟨[],[]⟩ := by
    have exec : (storing (H := H) config me).exec = (Registry.alone me anytime).exec := rfl
    have steps : (storing config me).Steps (p,r) (rest,t) := Steps.of_same exec (fun _ _ _ _ => id) cut
    exact (Meets.steps (storing_keeps config me) (fun _ => rfl) steps so_far (accepts r)).1
  cases turn with
  | upload tenant h content declared cut => exact stored (upload_storing tenant h content declared) cut
  | push tenant rejected h data cut => exact stored (storing_accepts (push_storing tenant rejected h data)) cut
  | collect ran =>
    obtain ⟨-,-,rows,m,allowed,collected⟩ := Meets.runs (fun _ _ _ _ _ _ _ => trivial) (fun _ => rfl) ran trivial
      (collection_alone so_far.2)
    exact ⟨(collected_agreement collected so_far.1).mpr allowed,rows ▸ so_far.2⟩

/-- In every run of uploads and pushes, finished or cut short, and of collections each of
which finds a file that it spares for every row it spares: each object with a row has its
file, so what the existence check finds can be downloaded. -/
theorem rows_have_files [TreeContent H] (config : ServerConfig) (me : Nat) (start r : Registry H)
    (agreement : Agreement config start) (idle : start.deleting me = ⟨[],[]⟩)
    (run : Relation.ReflTransGen (Turn config me (covered config)) start r) :
    Agreement config r ∧ ∀ tenant h, h ∈ r.select_objects (config.cas_isolation.cas_tenant_id tenant) [h] →
      (r.get_object_path (config.cas_isolation.cas_tenant_id tenant) h).isSome = true := by
  have kept : Agreement config r ∧ r.deleting me = ⟨[],[]⟩ := by
    induction run with
    | refl => exact ⟨agreement,idle⟩
    | tail _ turn ih => exact turn_agreement turn ih
  refine ⟨kept.1,fun tenant h found => ?_⟩
  obtain ⟨key,member,rfl⟩ := List.mem_map.mp found
  obtain ⟨listed,visible⟩ := List.mem_filter.mp member
  obtain ⟨row,stored⟩ := (r.objects.mem_keys key).mp listed
  have path := kept.1 key row stored
  cases isolation : config.cas_isolation with
  | shared => simpa [isolation,CasIsolation.cas_tenant_id] using path
  | isolated =>
    obtain rfl : tenant = key.1 := by simpa [isolation,CasIsolation.cas_tenant_id] using visible
    simpa [isolation,CasIsolation.cas_tenant_id] using path

/-! An object that is uploaded at 100, and a collection at 110 with a grace period of 20. -/

def sample_config : ServerConfig := ⟨.shared,0,20⟩

def at_time (clock : Nat) (_ : Registry Name) : Moment Name := ⟨clock,fun _ => false⟩

def sample_upload : Handler Name Nat := upload_object sample_config "default" ⟨[1]⟩ [1] false

def uploaded (r : Registry Name) : Registry Name := (sample_upload.run (Registry.exec 0) (at_time 100) r).2

def collected (r : Registry Name) : Registry Name :=
  ((run_garbage_collection sample_config).run (Registry.exec 0) (at_time 110) r).2

theorem uploaded_turn {may : ∀ β, Moment Name → Query Name β → Registry Name → Prop} (r : Registry Name) :
    Turn sample_config 0 may r (uploaded r) :=
  .upload "default" (⟨[1]⟩ : Name) [1] false ((Registry.alone 0 anytime).runs_of_run (at_time 100) (fun _ _ _ => true)
    (fun _ _ _ _ => trivial) sample_upload r (Prog.checks_true _ _ _ _))

def young_files (β : Type) (_ : Query Name β) (r : Registry Name) : Bool :=
  r.objects.keys.all fun key => (r.files.get? (none,key.2)).any fun file => decide (90 ≤ file.mtime)

theorem young_files_fair (β : Type) (q : Query Name β) (r : Registry Name) (young : young_files β q r = true) :
    covered sample_config β (at_time 110 r) q r := by
  cases q with
  | now =>
    intro key row found _ _
    have there := List.all_eq_true.mp young key ((r.objects.mem_keys key).mpr ⟨row,found⟩)
    cases file : r.files.get? (none,key.2) with
    | none => simp [file] at there
    | some stored =>
      refine ⟨(none,key.2),stored,Or.inr rfl,file,?_⟩
      simp only [file,Option.any_some,decide_eq_true_eq] at there
      simp [spared_file,sample_config,at_time,there]
  | _ => trivial

theorem rows_have_files_uploaded : Agreement sample_config (collected (uploaded .empty)) :=
  (rows_have_files sample_config 0 .empty _ (by intro key row found; simp [Registry.empty] at found) rfl
    (.tail (.single (uploaded_turn .empty)) (.collect ((Registry.alone 0 (covered sample_config)).runs_of_run (at_time 110)
      young_files young_files_fair (run_garbage_collection sample_config) _ (by decide))))).1

/-- An upload at 0 whose client goes away once the file is in place. -/
def abandoned : Handler Name Nat × Registry Name := sample_upload.runFor (Registry.exec 0) (at_time 0) 3 .empty

theorem abandoned_turn : Turn sample_config 0 anytime .empty abandoned.2 :=
  .upload "default" (⟨[1]⟩ : Name) [1] false
    ((Registry.alone 0 anytime).steps_of_runFor (at_time 0) (fun _ _ _ => trivial) 3 sample_upload .empty)

/-- The next upload keeps the old file, and the collection deletes it and keeps the row. -/
theorem kept_file_collected :
    ∃ r : Registry Name, Relation.ReflTransGen (Turn sample_config 0 anytime) .empty r ∧
      (r.objects.get? ("default",⟨[1]⟩)).isSome = true ∧ r.get_object_path none ⟨[1]⟩ = none ∧
      ¬Agreement sample_config r := by
  refine ⟨collected (uploaded abandoned.2),?_,by decide,by decide,fun agreement => ?_⟩
  · have ran := (Registry.alone 0 anytime).runs_of_run (at_time 110) (fun _ _ _ => true) (fun _ _ _ _ => trivial)
      (run_garbage_collection sample_config) (uploaded abandoned.2) (Prog.checks_true _ _ _ _)
    exact .tail (.tail (.single abandoned_turn) (uploaded_turn _)) (.collect ran)
  · exact absurd (agreement ("default",⟨[1]⟩) ⟨1,100⟩ (by decide)) (by decide)

end AetherVault
