import AetherVault.Handlers

/-! What a garbage collection with no request beside it leaves of rows, files and
trees, exactly, and that it does not fail. -/
namespace AetherVault
open Lib
open Lib.Prog (call forEach foldEach)
open Lib.Discipline (Meets)

variable {H : Type} [DecidableEq H]

theorem mem_batches {α : Type} {size : Nat} (positive : 0 < size) {items : List α} {x : α} :
    (∃ batch ∈ batches size items, x ∈ batch) ↔ x ∈ items := by
  constructor
  · rintro ⟨batch,member,inside⟩
    obtain ⟨i,-,rfl⟩ := List.mem_map.mp member
    exact List.mem_of_mem_drop (List.mem_of_mem_take inside)
  · intro member
    obtain ⟨k,bound,rfl⟩ := List.getElem_of_mem member
    refine ⟨(items.drop (k / size * size)).take size,List.mem_map.mpr ⟨k / size,List.mem_range.mpr ?_,rfl⟩,?_⟩
    · rw [Nat.lt_iff_add_one_le,Nat.le_div_iff_mul_le positive]
      have := Nat.div_mul_le_self k size
      rw [Nat.add_mul]
      omega
    · have split := Nat.div_add_mod k size
      rw [Nat.mul_comm] at split
      have short := Nat.mod_lt k positive
      refine List.mem_of_getElem (i := k % size) (h := by simp only [List.length_take,List.length_drop]; omega) ?_
      simp [List.getElem_take,List.getElem_drop,split]

def Registry.with_deleting (r : Registry H) (me : Nat) (rows : Deleting H) : Registry H :=
  {r with deleting := Function.update r.deleting me rows}

def Registry.with_files (r : Registry H) (files : Dict (ObjectKey H) StoredFile) : Registry H := {r with files := files}

def Registry.with_filters (r : Registry H) (filters : Option Tenant → List H) : Registry H := {r with filters := filters}

section Alone

variable {me : Nat} {may : ∀ β, Moment H → Query H β → Registry H → Prop} {r : Registry H}

/-- The batches of one `DELETE` mark every row that one of them names. -/
theorem delete_objects_alone {rows : Deleting H} (dead : List (ObjectKey H)) :
    (Registry.alone me may).Meets (delete_dead_objects dead)
      (fun done t => done = .ok () ∧ ∃ L, t = r.with_deleting me {rows with objects := L} ∧
        ∀ key, key ∈ L ↔ key ∈ rows.objects ∨ key ∈ r.objects.keys ∧ Registry.row_among dead key = true)
      (r.with_deleting me rows) := by
  have positive : 0 < _GC_DELETE_BATCH := by decide
  have among (key : Tenant × H) : Registry.row_among dead key = true ↔
      ∃ batch ∈ batches _GC_DELETE_BATCH dead, Registry.row_among batch key = true := by
    simp only [Registry.row_among,List.any_eq_true]
    constructor
    · rintro ⟨d,member,same⟩
      obtain ⟨batch,inside,within⟩ := (mem_batches positive).mpr member
      exact ⟨batch,inside,d,within,same⟩
    · rintro ⟨batch,inside,d,within,same⟩
      exact ⟨d,(mem_batches positive).mp ⟨batch,inside,within⟩,same⟩
  refine .forEach _ (J := fun rest t => ∃ L, t = r.with_deleting me {rows with objects := L} ∧
    ∀ key, (key ∈ L ∨ key ∈ r.objects.keys ∧ ∃ batch ∈ rest, Registry.row_among batch key = true) ↔
      key ∈ rows.objects ∨ key ∈ r.objects.keys ∧ Registry.row_among dead key = true) ?_ ?_ ?_
  · exact ⟨rows.objects,rfl,fun key => by rw [among]⟩
  · rintro batch rest t ⟨L,rfl,covered⟩
    refine registry_call fun m _ => ⟨L ++ r.objects.keys.filter (Registry.row_among batch),?_,fun key => ?_⟩
    · simp [Registry.exec,Registry.delete_objects,Registry.with_deleting]
    · rw [← covered]
      simp only [List.mem_append,List.mem_filter,List.mem_cons,exists_eq_or_imp]
      tauto
  · rintro t ⟨L,rfl,covered⟩
    exact ⟨rfl,L,rfl,fun key => by simpa using covered key⟩

theorem delete_trees_alone {rows : Deleting H} (marks : Dict Tenant (Marked H)) (tree_rows : List (DBTree H)) :
    (Registry.alone me may).Meets (delete_dead_trees marks tree_rows)
      (fun done t => done = .ok () ∧ ∃ L, t = r.with_deleting me {rows with trees := L}) (r.with_deleting me rows) := by
  unfold delete_dead_trees
  split
  · exact ⟨rfl,rows.trees,rfl⟩
  · refine .forEach _ (J := fun rest t => ∃ L, t = r.with_deleting me {rows with trees := L}) ⟨rows.trees,rfl⟩ ?_ ?_
    · rintro batch rest t ⟨L,rfl⟩
      refine registry_call fun m _ => ⟨L ++ (r.trees.map DBTree.tree_hash).filter batch.contains,?_⟩
      simp [Registry.exec,Registry.delete_trees,Registry.with_deleting]
    · rintro t ⟨L,rfl⟩
      exact ⟨rfl,L,rfl⟩

/-- What the sweep of the files spares. -/
def spared_file (marks : Dict Tenant (Marked H)) (gc_cutoff : Nat) (key : ObjectKey H) (file : StoredFile) : Bool :=
  referenced marks key || decide (gc_cutoff ≤ file.mtime)

/-- One file is swept unless it is spared, and the others stay. -/
def Purged (marks : Dict Tenant (Marked H)) (gc_cutoff : Nat) (key : ObjectKey H)
    (before after : Dict (ObjectKey H) StoredFile) : Prop :=
  ∀ k, after.get? k = if k = key then (before.get? key).filter (spared_file marks gc_cutoff key) else before.get? k

theorem Purged.refl {marks : Dict Tenant (Marked H)} {gc_cutoff : Nat} {key : ObjectKey H}
    {files : Dict (ObjectKey H) StoredFile} (spared : (files.get? key).all (spared_file marks gc_cutoff key) = true) :
    Purged marks gc_cutoff key files files := by
  intro k
  split
  · rename_i here
    subst k
    cases found : files.get? key with
    | none => rfl
    | some file =>
      have kept : spared_file marks gc_cutoff key file = true := by simpa [found] using spared
      simp [Option.filter,kept]
  · rfl

theorem purge_file_alone (marks : Dict Tenant (Marked H)) (gc_cutoff count : Nat) (key : ObjectKey H) :
    (Registry.alone me may).Meets (purge_file marks gc_cutoff count key) (fun done t => (∃ n, done = .ok n) ∧
      ∃ files, t = r.with_files files ∧ Purged marks gc_cutoff key r.files files) r := by
  unfold purge_file
  by_cases held : referenced marks key = true
  · rw [if_pos held]
    refine ⟨⟨count,rfl⟩,r.files,rfl,.refl ?_⟩
    cases r.files.get? key <;> simp [spared_file,held]
  · rw [if_neg held]
    refine registry_read (b := (r.files.get? key).map fun file => (file.content.length,file.mtime)) (fun m => rfl) ?_
    cases there : r.files.get? key with
    | none => exact ⟨⟨count,rfl⟩,r.files,rfl,.refl (by simp [there])⟩
    | some file =>
      dsimp only [Option.map_some]
      by_cases young : file.mtime ≥ gc_cutoff
      · rw [if_pos young]
        exact ⟨⟨count,rfl⟩,r.files,rfl,.refl (by simp [there,spared_file,young])⟩
      · rw [if_neg young]
        refine .bind (registry_call fun m _ => ?_)
        have gone : Registry.exec me _ m (.unlink_file key) r = (true,r.with_files (r.files.erase key)) := by
          simp [Registry.exec,Registry.with_files,Dict.contains,there]
        rw [gone]
        refine ⟨⟨count + 1,rfl⟩,_,rfl,fun k => ?_⟩
        have swept : spared_file marks gc_cutoff key file = false := by simp [spared_file,held,not_le.mp young]
        simp [Dict.get?_erase,there,Option.filter,swept]

theorem purge_pass_alone (marks : Dict Tenant (Marked H)) (gc_cutoff : Nat) (keys : List (ObjectKey H)) (count : Nat) :
    (Registry.alone me may).Meets (foldEach (purge_file marks gc_cutoff) keys count) (fun done t => (∃ n, done = .ok n) ∧
      ∃ files, t = r.with_files files ∧ ∀ k, files.get? k =
        if k ∈ keys then (r.files.get? k).filter (spared_file marks gc_cutoff k) else r.files.get? k) r := by
  refine .foldEach keys count (J := fun rest _ t => ∃ before files, keys = before ++ rest ∧ t = r.with_files files ∧
    ∀ k, files.get? k = if k ∈ before then (r.files.get? k).filter (spared_file marks gc_cutoff k) else r.files.get? k)
    ?_ ?_ ?_
  · exact ⟨[],r.files,rfl,rfl,by simp⟩
  · rintro key rest acc t ⟨before,files,whole,rfl,swept⟩
    refine (purge_file_alone marks gc_cutoff acc key).mono ?_
    rintro done t ⟨⟨n,rfl⟩,later,rfl,purged⟩
    refine ⟨before ++ [key],later,by simp [whole],rfl,fun k => ?_⟩
    rw [purged k]
    change (if k = key then (files.get? key).filter _ else files.get? k) = _
    by_cases here : k = key
    · subst k
      rw [if_pos rfl,if_pos (by simp),swept key]
      split
      · rw [Option.filter_filter]
        simp
      · rfl
    · simp [here,swept k]
  · rintro acc t ⟨before,files,whole,rfl,swept⟩
    obtain rfl : keys = before := by simpa using whole
    exact ⟨⟨acc,rfl⟩,files,rfl,swept⟩

theorem purge_orphans_alone (marks : Dict Tenant (Marked H)) (gc_cutoff : Nat) :
    (Registry.alone me may).Meets (purge_orphans marks gc_cutoff) (fun done t => (∃ n, done = .ok n) ∧
      ∃ files, t = r.with_files files ∧ ∀ k, files.get? k = (r.files.get? k).filter (spared_file marks gc_cutoff k)) r := by
  refine registry_read (b := r.files.keys) (fun m => rfl) (.bind ((purge_pass_alone marks gc_cutoff _ 0).mono ?_))
  rintro done t ⟨⟨count,rfl⟩,first,rfl,flat⟩
  refine registry_read (b := first.keys) (fun m => rfl) ((purge_pass_alone marks gc_cutoff _ count).mono ?_)
  rintro done t ⟨counted,files,rfl,nested⟩
  refine ⟨counted,files,rfl,fun k => ?_⟩
  rw [nested k]
  change (if _ then (first.get? k).filter _ else first.get? k) = _
  rw [flat k]
  have listed {d : Dict (ObjectKey H) StoredFile} {file : StoredFile} (found : d.get? k = some file) : k ∈ d.keys :=
    (d.mem_keys k).mpr ⟨file,found⟩
  cases found : r.files.get? k with
  | none => simp
  | some file =>
    obtain ⟨tenant,h⟩ := k
    cases tenant with
    | none => simp [listed found]
    | some tenant =>
      have same : first.get? (some tenant,h) = some file := by rw [flat]; simp [found]
      simp [listed same]

/-! Filters come and go; nothing else is touched. -/

theorem add_hashes_alone (hashes : List H) (filter : Option Tenant) {filters : Option Tenant → List H} :
    (Registry.alone me may).Meets (RedisCache.add_hashes hashes filter) (fun done t => done = .ok () ∧
      ∃ filters, t = r.with_filters filters) (r.with_filters filters) := by
  refine .forEach _ (J := fun _ t => ∃ filters, t = r.with_filters filters) ⟨_,rfl⟩ ?_ ?_
  · rintro chunk rest t ⟨filters,rfl⟩
    exact registry_call fun m _ => ⟨_,rfl⟩
  · rintro t ⟨filters,rfl⟩
    exact ⟨rfl,filters,rfl⟩

theorem rebuild_filter_alone (hashes : List H) (filter : Option Tenant) {filters : Option Tenant → List H} :
    (Registry.alone me may).Meets (rebuild_filter hashes filter) (fun done t => done = .ok () ∧
      ∃ filters, t = r.with_filters filters) (r.with_filters filters) := by
  refine .bind (registry_call fun m _ => .bind (registry_call fun m _ => ?_))
  exact add_hashes_alone hashes filter

theorem rebuild_filters_alone (cas_isolation : CasIsolation) (marks : Dict Tenant (Marked H)) :
    (Registry.alone me may).Meets (rebuild_filters cas_isolation marks) (fun done t => done = .ok () ∧
      ∃ filters, t = r.with_filters filters) r := by
  refine .bind (registry_call fun m _ => .bind (registry_call fun m _ => ?_))
  refine .bind (.forEach _ (J := fun _ t => ∃ filters, t = r.with_filters filters) ⟨_,rfl⟩ ?_ ?_)
  · rintro mark rest t ⟨filters,rfl⟩
    refine (rebuild_filter_alone mark.2.alive (some mark.1)).mono ?_
    rintro done t ⟨rfl,filters,rfl⟩
    exact ⟨filters,rfl⟩
  · rintro t ⟨filters,rfl⟩
    exact add_hashes_alone _ none

/-- The rows that a collection deletes: a dead row of the same hash takes the others with it. -/
def dead_row (config : ServerConfig) (r : Registry H) (clock : Nat) (key : Tenant × H) : Bool :=
  Registry.row_among (dead_objects config.cas_isolation (mark_alive r.trees (r.commits.entries.map Prod.snd))
    (clock - config.gc_grace_seconds) r.objects.entries) key

/-- What a collection that reads the clock at `clock` leaves. -/
structure Collected (config : ServerConfig) (clock : Nat) (r t : Registry H) : Prop where
  objects : ∀ key, t.objects.get? key = (r.objects.get? key).filter fun _ => !dead_row config r clock key
  files : ∀ key, t.files.get? key = (r.files.get? key).filter
    (spared_file (mark_alive r.trees (r.commits.entries.map Prod.snd)) (clock - config.gc_grace_seconds) key)
  commits : t.commits = r.commits
  trees : ∃ dead : List H, t.trees = r.trees.filter fun row => decide (row.tree_hash ∉ dead)

theorem rebuild_after_alone (cas_isolation : CasIsolation) (marks : Dict Tenant (Marked H)) (deleted_count : Nat) :
    (Registry.alone me may).Meets (rebuild_after cas_isolation marks deleted_count) (fun done t => done = .ok () ∧
      ∃ filters, t = r.with_filters filters) r := by
  unfold rebuild_after
  split
  · exact ⟨rfl,r.filters,rfl⟩
  · exact rebuild_filters_alone cas_isolation marks

theorem registry_now {α : Type} {next : Nat → Handler H α} {post : Except ServerError α → Registry H → Prop}
    (later : ∀ m, may _ m .now r → (Registry.alone me may).Meets (next m.clock) post r) :
    (Registry.alone me may).Meets (call .now >>= next) post r :=
  .bind (registry_call fun m allowed => later m allowed)

theorem sweep_alone (config : ServerConfig) (idle : r.deleting me = ⟨[],[]⟩) :
    (Registry.alone me may).Meets (sweep config) (fun done t => done = .ok () ∧ t.deleting = r.deleting ∧
      ∃ m, may _ m .now r ∧ Collected config m.clock r t) r := by
  have start : r.with_deleting me ⟨[],[]⟩ = r := by simp [Registry.with_deleting,← idle]
  refine registry_now fun m allowed => ?_
  refine registry_read (fun m => rfl) (registry_read (fun m => rfl) (registry_read (fun m => rfl) ?_))
  have begun : (Registry.alone me may).Meets (delete_dead_objects _) _ (r.with_deleting me ⟨[],[]⟩) :=
    delete_objects_alone (dead_objects config.cas_isolation (mark_alive r.trees (r.commits.entries.map Prod.snd))
      (m.clock - config.gc_grace_seconds) r.objects.entries)
  rw [start] at begun
  refine .bind (begun.mono ?_)
  rintro done t ⟨rfl,dead,rfl,among⟩
  refine .bind ((delete_trees_alone _ _).mono ?_)
  rintro done t ⟨rfl,trees,rfl⟩
  refine .bind ((purge_orphans_alone _ _).mono ?_)
  rintro done t ⟨⟨n,rfl⟩,files,rfl,purged⟩
  refine .bind ((rebuild_after_alone _ _ _).mono ?_)
  rintro done t ⟨rfl,filters,rfl⟩
  refine registry_call fun _ _ => ⟨rfl,?_,m,allowed,?_,purged,rfl,trees,?_⟩
  · simp [Registry.exec,Registry.commit,Registry.finish,Registry.with_filters,Registry.with_files,Registry.with_deleting,
      ← idle]
  · intro key
    have gone : (key ∈ dead) ↔ key ∈ r.objects.keys ∧ dead_row config r m.clock key = true := by
      simpa [dead_row] using among key
    have kept : (Registry.exec me Unit ‹_› .commit (((r.with_deleting me ⟨dead,trees⟩).with_files files).with_filters
        filters)).2.objects.get? key = (r.objects.get? key).filter fun _ => decide (key ∉ dead) := by
      simp [Registry.exec,Registry.commit,Registry.finish,Registry.with_filters,Registry.with_files,
        Registry.with_deleting,Dict.get?_filter]
    rw [kept]
    cases found : r.objects.get? key with
    | none => rfl
    | some row =>
      have held : key ∈ r.objects.keys := (r.objects.mem_keys key).mpr ⟨row,found⟩
      simp [gone,held]
  · simp [Registry.exec,Registry.commit,Registry.finish,Registry.with_filters,Registry.with_files,Registry.with_deleting]

end Alone

end AetherVault
