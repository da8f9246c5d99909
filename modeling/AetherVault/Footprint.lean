import AetherVault.Merge

/-! What the helpers of the commands leave alone. A quiet operation writes no index,
HEAD, ref, commit or stash, does not touch the queue and lands nothing on a branch; it
may read, send and fetch objects, and write the working tree. -/
namespace AetherVault
open Lib Hashing
open Lib.Prog (Only call forEach foldEach)

variable {H : Type} [DecidableEq H] [Hashing H]

def Op.Quiet (β : Type) (o : Op H β) : Prop :=
  match β,o with
  | _,.save_index _ => False
  | _,.write_head _ => False
  | _,.write_ref _ _ => False
  | _,.write_commit _ _ => False
  | _,.load_pending_push => False
  | _,.save_pending_push _ => False
  | _,.acquire .queue => False
  | _,.release .queue => False
  | _,.save_stash _ => False
  | _,.delete_stash _ => False
  | _,.push_commit _ _ => False
  | _,.update_ref _ _ _ => False
  | _,_ => True

/-- Quiet, and the working tree is left alone too. -/
def Op.Fetching (β : Type) (o : Op H β) : Prop :=
  match β,o with
  | _,.write_file _ _ => False
  | _,.remove_file _ => False
  | _,o => o.Quiet

omit [DecidableEq H] [Hashing H] in
theorem Op.Fetching.quiet (β : Type) (o : Op H β) (fetching : Op.Fetching β o) : Op.Quiet β o := by
  cases o <;> first | exact fetching | exact fetching.elim

/-- What is stored under a name stays stored. -/
def Objects.Within (before after : Objects H) : Prop := ∀ h b, before.get? h = some b → after.get? h = some b

theorem Objects.Within.refl (objects : Objects H) : objects.Within objects := fun _ _ found => found

theorem Objects.Within.trans {a b c : Objects H} (first : a.Within b) (later : b.Within c) : a.Within c :=
  fun h content found => later h content (first h content found)

theorem Objects.publish_within (objects : Objects H) (b : Bytes) : objects.Within (objects.publish b) :=
  fun _ _ found => objects.publish_keeps b found

theorem Objects.publishAll_within (objects : Objects H) (blobs : List Bytes) : objects.Within (objects.publishAll blobs) :=
  fun _ _ found => objects.publishAll_keeps blobs found

/-- Two states that differ as far as quiet operations make a difference. -/
structure Quietly (w t : World H) : Prop where
  index : t.repo.index = w.repo.index
  head : t.repo.head = w.repo.head
  refs : t.repo.refs = w.repo.refs
  commits : t.repo.commits = w.repo.commits
  objects : w.repo.objects.Within t.repo.objects
  pending_push : t.repo.pending_push = w.repo.pending_push
  stashes : t.repo.stashes = w.repo.stashes
  queue_lock : t.repo.locks .queue = w.repo.locks .queue
  server_objects : w.server.objects.Within t.server.objects
  server_commits : t.server.commits = w.server.commits
  server_refs : t.server.refs = w.server.refs
  limit : t.server.max_upload_bytes = w.server.max_upload_bytes

theorem Quietly.refl (w : World H) : Quietly w w :=
  ⟨rfl,rfl,rfl,rfl,.refl _,rfl,rfl,rfl,.refl _,rfl,rfl,rfl⟩

theorem Quietly.trans {a b c : World H} (first : Quietly a b) (later : Quietly b c) : Quietly a c where
  index := later.index.trans first.index
  head := later.head.trans first.head
  refs := later.refs.trans first.refs
  commits := later.commits.trans first.commits
  objects := first.objects.trans later.objects
  pending_push := later.pending_push.trans first.pending_push
  stashes := later.stashes.trans first.stashes
  queue_lock := later.queue_lock.trans first.queue_lock
  server_objects := first.server_objects.trans later.server_objects
  server_commits := later.server_commits.trans first.server_commits
  server_refs := later.server_refs.trans first.server_refs
  limit := later.limit.trans first.limit

theorem stage_within (w : World H) (env : Env) (path : Path) (file_type : FileType) (existing : Option (IndexEntry H))
    (attr_flags : List String) :
    ∃ blobs, (w.stage env path file_type existing attr_flags).2 =
      {w with repo := {w.repo with objects := w.repo.objects.publishAll blobs}} := by
  unfold World.stage
  cases w.repo.files.get? path with
  | none => exact ⟨[],rfl⟩
  | some file =>
    dsimp only
    cases made : (_compute_stage_result env.staging w.repo.objects file path file_type existing attr_flags).2 with
    | none =>
      refine ⟨[],?_⟩
      unfold _compute_stage_result at made ⊢
      split at made
      · rename_i same
        rw [if_pos same]
        rfl
      · split at made <;> contradiction
    | some result =>
      obtain ⟨blobs,-,-,-,store,-⟩ := _compute_stage_result_shape made
      exact ⟨blobs,by rw [store]⟩

theorem upload_object_within (server : Server H) (h : H) (content : Bytes) :
    (server.upload_object h content).2 = server ∨
      (server.upload_object h content).2 = {server with objects := server.objects.publish content} := by
  unfold Server.upload_object
  split
  · exact Or.inl rfl
  · split
    · exact Or.inl rfl
    · split
      · exact Or.inl rfl
      · exact Or.inr rfl

theorem request_quietly {α : Type} (w : World H) (c : Choice) (effect : Server H → α × Server H)
    (objects : w.server.objects.Within (effect w.server).2.objects)
    (rest : (effect w.server).2.commits = w.server.commits ∧ (effect w.server).2.refs = w.server.refs ∧
      (effect w.server).2.max_upload_bytes = w.server.max_upload_bytes) : Quietly w (w.request c effect).2 := by
  unfold World.request
  cases c.net with
  | answered => exact {Quietly.refl w with
      server_objects := objects,server_commits := rest.1,server_refs := rest.2.1,limit := rest.2.2}
  | refused => exact {Quietly.refl w with}
  | lost => exact {Quietly.refl w with}
  | unanswered => exact {Quietly.refl w with
      server_objects := objects,server_commits := rest.1,server_refs := rest.2.1,limit := rest.2.2}

theorem acquire_repo (w : World H) (me : Nat) :
    ∃ locks : Locks, locks .queue = w.repo.locks .queue ∧
      (w.acquire me .repo).2 = {w with repo := {w.repo with locks := locks}} := by
  unfold World.acquire
  cases w.repo.locks .repo with
  | none => exact ⟨_,by simp,rfl⟩
  | some holder =>
    dsimp only
    split
    · exact ⟨_,by simp,rfl⟩
    · exact ⟨_,rfl,rfl⟩

theorem release_repo (w : World H) (me : Nat) :
    ∃ locks : Locks, locks .queue = w.repo.locks .queue ∧
      w.release me .repo = {w with repo := {w.repo with locks := locks}} := by
  unfold World.release
  cases w.repo.locks .repo with
  | none => exact ⟨_,rfl,rfl⟩
  | some holder =>
    dsimp only
    split
    · exact ⟨_,by simp,rfl⟩
    · exact ⟨_,rfl,rfl⟩

theorem exec_quiet (env : Env) (me : Nat) (β : Type) (c : Choice) (o : Op H β) (w : World H) (quiet : Op.Quiet β o) :
    Quietly w (World.exec env me β c o w).2 := by
  have sent (objects : Objects H) (within : w.server.objects.Within objects) (α : Type) (answer : α) :
      Quietly w (w.request c fun server => (answer,{server with objects := objects})).2 :=
    request_quietly w c _ within ⟨rfl,rfl,rfl⟩
  cases o with
  | stage path file_type existing attr_flags =>
    obtain ⟨blobs,result⟩ := stage_within w env path file_type existing attr_flags
    simp only [World.exec]
    rw [result]
    exact {Quietly.refl w with objects := w.repo.objects.publishAll_within blobs}
  | write_file path content =>
    simp only [World.exec,World.write_file]
    cases FileData.ofBytes? content with
    | none => exact .refl w
    | some data => exact {Quietly.refl w with}
  | publish_object content => exact {Quietly.refl w with objects := w.repo.objects.publish_within content}
  | acquire lock =>
    cases lock with
    | queue => exact quiet.elim
    | repo =>
      obtain ⟨locks,same,result⟩ := acquire_repo w me
      simp only [World.exec]
      rw [result]
      exact {Quietly.refl w with queue_lock := same}
  | release lock =>
    cases lock with
    | queue => exact quiet.elim
    | repo =>
      obtain ⟨locks,same,result⟩ := release_repo w me
      simp only [World.exec]
      rw [result]
      exact {Quietly.refl w with queue_lock := same}
  | upload h content =>
    refine request_quietly w c _ ?_ ?_
    · rcases upload_object_within w.server h content with same | stored
      · rw [same]
        exact .refl _
      · rw [stored]
        exact w.server.objects.publish_within content
    · rcases upload_object_within w.server h content with same | stored
      · rw [same]
        exact ⟨rfl,rfl,rfl⟩
      · rw [stored]
        exact ⟨rfl,rfl,rfl⟩
  | read_stash id => cases id <;> exact .refl w
  | server_available => exact {Quietly.refl w with}
  | remove_file path => exact {Quietly.refl w with}
  | batch_check hashes => exact request_quietly w c _ (.refl _) ⟨rfl,rfl,rfl⟩
  | download h => exact request_quietly w c _ (.refl _) ⟨rfl,rfl,rfl⟩
  | get_commit h => exact request_quietly w c _ (.refl _) ⟨rfl,rfl,rfl⟩
  | get_ref ref_name => exact request_quietly w c _ (.refl _) ⟨rfl,rfl,rfl⟩
  | list_refs => exact request_quietly w c _ (.refl _) ⟨rfl,rfl,rfl⟩
  | list_commits limit offset => exact request_quietly w c _ (.refl _) ⟨rfl,rfl,rfl⟩
  | save_index idx => exact quiet.elim
  | write_head head => exact quiet.elim
  | write_ref name h => exact quiet.elim
  | write_commit h data => exact quiet.elim
  | save_pending_push pending => exact quiet.elim
  | save_stash entries => exact quiet.elim
  | delete_stash id => exact quiet.elim
  | push_commit h data => exact quiet.elim
  | update_ref ref_name h expected_hash => exact quiet.elim
  | stat path => exact .refl w
  | working_files => exact .refl w
  | load_index => exact .refl w
  | read_head => exact .refl w
  | read_ref name => exact .refl w
  | read_commit h => exact .refl w
  | load_commits => exact .refl w
  | read_object h => exact .refl w
  | load_pending_push => exact quiet.elim
  | now => exact .refl w

/-! The quiet helpers. -/

omit [DecidableEq H] [Hashing H] in
theorem received_only {P : ∀ β, Op H β → Prop} {α β : Type} (reply : Reply α) (failed : β) {read : α → Command H β}
    (only : ∀ a, (read a).Only P) : (VaultClient.received reply failed read).Only P := by
  cases reply with
  | answered a => exact only a
  | unauthorized => trivial
  | unreachable => trivial

omit [DecidableEq H] [Hashing H] in
theorem read_local_fetching (name : Option H) : (read_local name).Only Op.Fetching := by
  cases name with
  | none => trivial
  | some h => exact .call trivial

omit [DecidableEq H] [Hashing H] in
theorem object_path_only {P : ∀ β, Op H β → Prop} (h : Digest H) : (object_path h).Only P := by
  cases h <;> trivial

theorem download_object_fetching (h : H) : (VaultClient.download_object h).Only Op.Fetching :=
  .bind (.call trivial) fun reply => received_only reply none fun _ => trivial

omit [DecidableEq H] [Hashing H] in
theorem upload_object_quiet (h : H) (content : Bytes) : (VaultClient.upload_object h content).Only Op.Quiet :=
  .bind (.call trivial) fun reply => received_only reply false fun _ => trivial

omit [DecidableEq H] [Hashing H] in
theorem batch_check_objects_fetching (hashes : List H) : (VaultClient.batch_check_objects hashes).Only Op.Fetching := by
  unfold VaultClient.batch_check_objects
  split
  · trivial
  · exact .bind (.call trivial) fun reply => received_only reply [] fun _ => trivial

omit [DecidableEq H] [Hashing H] in
theorem write_bytes_quiet (rel_path : Path) (content : Bytes) : (write_bytes (H := H) rel_path content).Only Op.Quiet := by
  refine .bind (.call trivial) fun written => ?_
  split <;> trivial

theorem fetch_shard_fetching (h : H) : (fetch_shard h).Only Op.Fetching := by
  refine .bind (.call trivial) fun found => ?_
  cases found with
  | some content => trivial
  | none =>
    refine .bind (.call trivial) fun available => ?_
    split
    · refine .bind (download_object_fetching h) fun downloaded => ?_
      cases downloaded with
      | none => exact .call trivial
      | some content => exact .bind (.call trivial) fun _ => .call trivial
    · exact .call trivial

theorem append_shard_quiet (rel_path : Path) (kind : String) (written : Bytes) (h : H) :
    (append_shard rel_path kind written h).Only Op.Quiet := by
  refine .bind ((fetch_shard_fetching h).mono Op.Fetching.quiet) fun found => ?_
  cases found with
  | none => trivial
  | some content => exact .bind (write_bytes_quiet rel_path _) fun _ => trivial

theorem reassemble_quiet (rel_path : Path) (kind : String) (shards : List H) :
    (reassemble rel_path kind shards).Only Op.Quiet := by
  refine .bind (write_bytes_quiet rel_path []) fun _ => .attempt (.foldEach (append_shard_quiet rel_path kind) _ _) ?_
  intro e
  cases e with
  | click message => exact .bind (.call trivial) fun _ => trivial
  | _ => trivial

theorem materialize_whole_quiet (rel_path : Path) (h : Digest H) (name : Option H) (verify : Bool) :
    (materialize_whole rel_path h name verify).Only Op.Quiet := by
  refine .bind ((read_local_fetching name).mono Op.Fetching.quiet) fun found => ?_
  cases found with
  | some content =>
    dsimp only
    split
    · trivial
    · exact write_bytes_quiet rel_path content
  | none =>
    refine .bind (.call trivial) fun available => ?_
    split
    · cases name with
      | none => trivial
      | some h =>
        refine .bind ((download_object_fetching h).mono Op.Fetching.quiet) fun fetched => ?_
        cases fetched with
        | none => trivial
        | some content => exact .bind (write_bytes_quiet rel_path content) fun _ => .call trivial
    · trivial

theorem materialize_file_quiet (rel_path : Path) (h : Digest H) (layers : List (Layer H)) (chunks : List (Chunk H))
    (verify : Bool) : (materialize_file rel_path h layers chunks verify).Only Op.Quiet := by
  refine .bind (object_path_only h) fun name => ?_
  split
  · refine .bind (reassemble_quiet rel_path _ _) fun content => ?_
    split
    · exact .bind (.call trivial) fun _ => trivial
    · trivial
  · exact materialize_whole_quiet rel_path h name verify

omit [DecidableEq H] [Hashing H] in
theorem entry_objects_only {P : ∀ β, Op H β → Prop} (e : TreeEntry H) : (entry_objects e).Only P := by
  unfold entry_objects
  dsimp only
  split
  · trivial
  · exact .bind (object_path_only e.hash) fun _ => trivial

omit [Hashing H] in
theorem upload_commit_objects_quiet (tree : Tree H) (only_paths : Option (List Path)) :
    (upload_commit_objects tree only_paths).Only Op.Quiet := by
  have candidate (candidates : List (H × Bytes)) (h : H) : (add_candidate candidates h).Only Op.Quiet := by
    refine .bind (.call trivial) fun found => ?_
    cases found <;> trivial
  have entry (candidates : List (H × Bytes)) (item : Path × TreeEntry H) :
      (entry_candidates candidates item).Only Op.Quiet :=
    .bind (entry_objects_only item.2) fun names => .foldEach candidate names candidates
  have upload (outcome : Bool × Option (Failure H)) (item : H × Bytes) : (upload_missing outcome item).Only Op.Quiet :=
    .attempt (.bind (upload_object_quiet item.1 item.2) fun _ => trivial) fun _ => trivial
  refine .bind (.foldEach entry _ _) fun candidates => ?_
  split
  · trivial
  · refine .bind ((batch_check_objects_fetching _).mono Op.Fetching.quiet) fun found => .bind (.foldEach upload _ _) fun outcome => ?_
    split <;> trivial

omit [DecidableEq H] [Hashing H] in
theorem head_parents_quiet : (head_parents (H := H)).Only Op.Quiet := by
  refine .bind (.call trivial) fun head => ?_
  cases head with
  | detached h => trivial
  | branch name =>
    refine .bind (.call trivial) fun tip => ?_
    split <;> trivial

omit [DecidableEq H] [Hashing H] in
theorem resolve_head_tree_quiet : (resolve_head_tree (H := H)).Only Op.Quiet := by
  refine .bind head_parents_quiet fun head => ?_
  rcases head with ⟨_ | ⟨h,others⟩,ref_path⟩
  · trivial
  · refine .bind (.call trivial) fun found => ?_
    cases found with
    | none => trivial
    | some data =>
      dsimp only
      split
      · trivial
      · split <;> trivial

omit [DecidableEq H] [Hashing H] in
theorem compute_status_quiet (idx : Index H) : (compute_status idx).Only Op.Quiet := by
  refine .foldEach (fun status item => .bind (.call trivial) fun found => ?_) _ _
  cases found with
  | none => trivial
  | some file =>
    dsimp only
    split
    · trivial
    · split <;> trivial

theorem collect_dirty_paths_quiet (idx : Index H) (tree : Tree H) : (_collect_dirty_paths idx tree).Only Op.Quiet := by
  refine .bind (.foldEach (fun dirty item => .bind (.call trivial) fun found => ?_) _ _) fun overwritten =>
    .foldEach (fun dirty item => .bind (.call trivial) fun found => ?_) _ _
  · cases found with
    | none => trivial
    | some file =>
      dsimp only
      split <;> trivial
  · cases found with
    | none => trivial
    | some file =>
      dsimp only
      split <;> trivial

theorem tree_missing_objects_fetching (tree : Tree H) (verify : Bool) : (tree_missing_objects tree verify).Only Op.Fetching := by
  have shard (missing : Bool) (h : H) : (missing_shard missing h).Only Op.Fetching := .bind (.call trivial) fun _ => trivial
  have whole (missing : List Path) (item : Path × TreeEntry H) (absent : Bool) :
      Only Op.Fetching (.pure (if absent then missing ++ [item.1] else missing) : Command H (List Path)) := trivial
  refine .foldEach (fun missing item => ?_) _ _
  unfold missing_entry
  extract_lets parts
  split
  · exact .bind (.foldEach shard _ _) (whole missing item)
  · refine .bind (object_path_only item.2.hash) fun name => .bind (read_local_fetching name) fun found => ?_
    cases found <;> trivial

theorem ensure_objects_local_fetching (tree : Tree H) : (ensure_objects_local tree).Only Op.Fetching := by
  have absent (missing : List H) (h : H) : (missing_local missing h).Only Op.Fetching := .bind (.call trivial) fun _ => trivial
  have collected (hashes : List H) (item : Path × TreeEntry H) : (collect_hashes hashes item).Only Op.Fetching := by
    refine .bind (entry_objects_only item.2) fun names => ?_
    split <;> trivial
  have fetched (h : H) : (fetch_object h).Only Op.Fetching := by
    refine .bind (download_object_fetching h) fun found => ?_
    cases found with
    | none => trivial
    | some content => exact .call trivial
  refine .bind (.foldEach collected _ _) fun needed => .bind (.foldEach absent _ _) fun missing => ?_
  split
  · trivial
  · refine .bind (batch_check_objects_fetching missing) fun found => .bind (.forEach fetched _) fun _ =>
      .bind (.foldEach absent _ _) fun unrecoverable => ?_
    split <;> trivial

theorem ensure_objects_local_quiet (tree : Tree H) : (ensure_objects_local tree).Only Op.Quiet :=
  (ensure_objects_local_fetching tree).mono Op.Fetching.quiet

theorem check_restorable_fetching (tree : Tree H) (verify : Bool) : (check_restorable tree verify).Only Op.Fetching := by
  refine .bind (.call trivial) fun available => ?_
  split
  · trivial
  · refine .bind (tree_missing_objects_fetching tree verify) fun missing => ?_
    split <;> trivial

theorem restore_flat_quiet (tree : Tree H) (verify : Bool) : (restore_flat tree verify).Only Op.Quiet := by
  refine .bind ((check_restorable_fetching tree verify).mono Op.Fetching.quiet) fun server_up => ?_
  have entry (idx : Index H) (item : Path × TreeEntry H) : (restore_entry verify idx item).Only Op.Quiet :=
    .bind (materialize_file_quiet _ _ _ _ _) fun _ => trivial
  have restored := Only.foldEach entry tree.entries Index.empty
  dsimp only
  split
  · exact .bind (ensure_objects_local_quiet tree) fun _ => restored
  · exact restored

omit [DecidableEq H] [Hashing H] in
theorem restat_quiet (idx : Index H) (paths : List Path) : (foldEach restat_entry paths idx).Only Op.Quiet := by
  have entry (idx : Index H) (path : Path) : (restat_entry idx path).Only Op.Quiet := .bind (.call trivial) fun _ => trivial
  exact .foldEach entry _ _

omit [DecidableEq H] [Hashing H] in
theorem remove_untracked_quiet (idx : Index H) (paths : List Path) :
    (forEach paths (remove_untracked idx)).Only Op.Quiet := by
  refine .forEach (fun path => ?_) _
  unfold remove_untracked
  split
  · trivial
  · exact .call trivial

/-- The restore writes the index once, last. -/
theorem materialize_tree_only {P : ∀ β, Op H β → Prop} (quiet : ∀ β o, Op.Quiet β o → P β o)
    (save : ∀ idx, P _ (.save_index idx)) (tree : Tree H) (idx : Index H) (verify : Bool) :
    (_materialize_tree tree idx verify).Only P := by
  have written (restored : Index H) : Only P (do
      forEach idx.entries.keys (remove_untracked restored)
      let final ← foldEach restat_entry restored.entries.keys restored
      call (.save_index final)
      .pure final : Command H (Index H)) :=
    .bind ((remove_untracked_quiet restored _).mono quiet) fun _ => .bind ((restat_quiet restored _).mono quiet)
      fun final => .bind (.call (save final)) fun _ => trivial
  unfold _materialize_tree
  split
  · exact .bind ((restore_flat_quiet tree verify).mono quiet) written
  · refine .bind ?_ written
    unfold restore_legacy
    split <;> trivial

/-! A commit that is served has a tree of the new shape. -/

theorem get_commit_flat {server : Server H} {h : H} {data : CommitData H} (served : server.get_commit h = some data) :
    tree_is_flat data.tree = true := by
  obtain ⟨stored,-,rfl⟩ := Option.map_eq_some_iff.mp served
  split
  · assumption
  · have absent : ∀ name : String, name = "code" ∨ name = "artifacts" →
        (Dict.ofList ((legacy_code stored.tree).map fun item => (item.1,⟨item.2,0,.code,[],[]⟩)) : Tree H).contains [name] = false := by
      intro name which
      rw [Dict.contains_false]
      by_contra present
      obtain ⟨entry,found⟩ := Option.ne_none_iff_exists'.mp present
      obtain ⟨item,member,same⟩ := List.mem_map.mp (Dict.get?_ofList found)
      unfold legacy_code at member
      split at member
      · contradiction
      · simp at member
        rcases member with rfl | rfl | rfl | rfl | rfl <;> rcases which with rfl | rfl <;> simp at same
    simp [tree_is_flat,absent]

/-! Delivery: what is sent, and the queue, besides the quiet operations. -/

def Op.Sending (β : Type) (o : Op H β) : Prop :=
  match β,o with
  | _,.save_index _ => False
  | _,.write_head _ => False
  | _,.write_ref _ _ => False
  | _,.write_commit _ _ => False
  | _,.save_stash _ => False
  | _,.delete_stash _ => False
  | _,_ => True

omit [DecidableEq H] [Hashing H] in
theorem Op.Quiet.sending (β : Type) (o : Op H β) (quiet : Op.Quiet β o) : Op.Sending β o := by
  cases o <;> trivial

omit [DecidableEq H] [Hashing H] in
theorem with_lock_only {P : ∀ β, Op H β → Prop} {α : Type} {lock : LockName} {body : Command H α}
    (only : body.Only P) (acquire : P _ (.acquire lock)) (release : P _ (.release lock)) :
    (with_lock lock body).Only P := by
  refine .bind (.call acquire) fun held => ?_
  split
  · refine .bind (.attempt only fun e => .bind (.call release) fun _ => trivial) fun _ => ?_
    exact .bind (.call release) fun _ => trivial
  · trivial

omit [Hashing H] in
theorem queue_pending_push_only {P : ∀ β, Op H β → Prop} (h : H) (ref_name : Option String)
    (load : P _ .load_pending_push) (save : ∀ pending, P _ (.save_pending_push pending))
    (acquire : P _ (.acquire .queue)) (release : P _ (.release .queue)) : (queue_pending_push h ref_name).Only P := by
  refine with_lock_only (.bind (.call load) fun pending => ?_) acquire release
  split
  · trivial
  · exact .call (save _)

omit [Hashing H] in
theorem remove_pending_push_only {P : ∀ β, Op H β → Prop} (commit_hashes : List H)
    (load : P _ .load_pending_push) (save : ∀ pending, P _ (.save_pending_push pending))
    (acquire : P _ (.acquire .queue)) (release : P _ (.release .queue)) : (remove_pending_push commit_hashes).Only P :=
  with_lock_only (.bind (.call load) fun _ => .bind (.call (save _)) fun _ => trivial) acquire release

omit [Hashing H] in
theorem queue_pending_push_sending (h : H) (ref_name : Option String) : (queue_pending_push h ref_name).Only Op.Sending :=
  queue_pending_push_only h ref_name trivial (fun _ => trivial) trivial trivial

omit [Hashing H] in
theorem remove_pending_push_sending (commit_hashes : List H) : (remove_pending_push commit_hashes).Only Op.Sending :=
  remove_pending_push_only commit_hashes trivial (fun _ => trivial) trivial trivial

omit [DecidableEq H] [Hashing H] in
theorem push_commit_sending (h : H) (data : CommitData H) : (VaultClient.push_commit h data).Only Op.Sending := by
  refine .bind (.call trivial) fun reply => (received_only reply false fun status => ?_).mono Op.Quiet.sending
  trivial

omit [DecidableEq H] [Hashing H] in
theorem update_ref_sending (ref_name : String) (h : H) (expected : Option H) :
    (VaultClient.update_ref ref_name h expected).Only Op.Sending := by
  refine .bind (.call trivial) fun _ => (received_only _ false fun done => ?_).mono Op.Quiet.sending
  split <;> trivial

omit [Hashing H] in
theorem upload_commit_objects_sending (tree : Tree H) (only_paths : Option (List Path)) :
    (upload_commit_objects tree only_paths).Only Op.Sending :=
  (upload_commit_objects_quiet tree only_paths).mono Op.Quiet.sending

omit [Hashing H] in
theorem deliver_queued_sending (entry : QueueEntry H) (data : CommitData H) :
    (deliver_queued entry data).Only Op.Sending := by
  refine .bind (upload_commit_objects_sending data.tree none) fun uploaded => ?_
  split
  · refine .bind (push_commit_sending _ _) fun pushed => ?_
    split
    · unfold update_queued_ref
      split
      · trivial
      · refine .attempt (update_ref_sending _ _ _) fun e => ?_
        cases e with
        | ref_race current => exact .bind (.call trivial) fun _ => trivial
        | _ => trivial
    · trivial
  · trivial

omit [Hashing H] in
theorem flush_entry_sending (delivered : List H) (entry : QueueEntry H) : (flush_entry delivered entry).Only Op.Sending := by
  refine .bind (.call trivial) fun found => ?_
  cases found with
  | none => trivial
  | some data =>
    refine .attempt (.bind (deliver_queued_sending entry data) fun _ => trivial) fun e => ?_
    cases e with
    | authentication => exact .bind (remove_pending_push_sending delivered) fun _ => trivial
    | _ => trivial

omit [Hashing H] in
theorem flush_pending_push_sending (skip : List H) : (flush_pending_push skip).Only Op.Sending := by
  refine .bind (.call trivial) fun queued => ?_
  extract_lets pending
  split
  · exact .call trivial
  · refine .bind (.call trivial) fun available => ?_
    split
    · exact .bind (.foldEach flush_entry_sending _ []) remove_pending_push_sending
    · exact .call trivial

omit [Hashing H] in
theorem push_new_sending (h : H) (data : CommitData H) (remote_ref_name : Option String) (expected : Option H)
    (changed_paths : Option (List Path)) : (push_new h data remote_ref_name expected changed_paths).Only Op.Sending := by
  have queued := queue_pending_push_sending h remote_ref_name
  have landed : (land_ref remote_ref_name h expected).Only Op.Sending := by
    unfold land_ref
    split
    · trivial
    · refine .attempt (update_ref_sending _ _ _) fun e => ?_
      cases e <;> trivial
  have dropped : (drop_superseded data.parents remote_ref_name).Only Op.Sending := by
    refine .bind (.call trivial) fun pending => ?_
    dsimp only
    split
    · exact .call trivial
    · trivial
  have last := (remove_pending_push_sending [h]).bind (f := fun _ => (.pure () : Command H Unit)) fun _ => trivial
  refine .bind (upload_commit_objects_sending data.tree changed_paths) fun uploaded => ?_
  split
  · refine .bind (push_commit_sending h data) fun pushed => ?_
    split
    · refine .bind landed fun on_branch => ?_
      split
      · split
        · exact .bind dropped fun _ => last
        · exact last
      · exact queued
    · exact queued
  · exact queued

omit [Hashing H] in
theorem deliver_commit_sending (h : H) (data : CommitData H) (remote_ref_name : Option String) (defer_upload : Bool)
    (changed_paths : Option (List Path)) :
    (deliver_commit h data remote_ref_name defer_upload changed_paths).Only Op.Sending := by
  have queued := queue_pending_push_sending h remote_ref_name
  have expected : (expected_parent data.parents remote_ref_name).Only Op.Sending := by
    unfold expected_parent
    split
    · exact .bind (.call trivial) fun _ => trivial
    · trivial
  refine .bind expected fun expected => ?_
  split
  · exact queued
  · refine .bind (.attempt (.bind (flush_pending_push_sending [h]) fun _ => trivial) fun e => ?_) fun _ => ?_
    · cases e <;> trivial
    · refine .bind (.call trivial) fun available => ?_
      split
      · refine .attempt (push_new_sending h data remote_ref_name expected changed_paths) fun e => ?_
        cases e <;> first | exact queued | trivial
      · exact queued

end AetherVault
