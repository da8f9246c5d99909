import AetherVault.Footprint

/-! Which commits a client stores and pushes. Given a property that the commit files
and the registry only hold commits of, every commit a command writes, pushes or puts
on a branch is one it read, or one it has just made. -/
namespace AetherVault
open Lib Hashing
open Lib.Prog (Only call forEach foldEach)
open Lib.Discipline (Accepts)

variable {H : Type} [DecidableEq H] [Hashing H]

/-- Operations that store no commit and move no branch of the registry. -/
def Op.Harmless (β : Type) (o : Op H β) : Prop :=
  match β,o with
  | _,.write_commit _ _ => False
  | _,.push_commit _ _ => False
  | _,.update_ref _ _ _ => False
  | _,_ => True

omit [DecidableEq H] [Hashing H] in
theorem Op.Quiet.harmless (β : Type) (o : Op H β) (quiet : Op.Quiet β o) : Op.Harmless β o := by
  cases o <;> trivial

theorem exec_harmless (env : Env) (me : Nat) (β : Type) (c : Choice) (o : Op H β) (w : World H)
    (harmless : Op.Harmless β o) :
    (World.exec env me β c o w).2.repo.commits = w.repo.commits ∧
      (World.exec env me β c o w).2.server.commits = w.server.commits ∧
      (World.exec env me β c o w).2.server.refs = w.server.refs := by
  have calm (quiet : Op.Quiet β o) := exec_quiet env me β c o w quiet
  have queue_kept : (World.exec env me _ c (.acquire .queue) w).2.repo.commits = w.repo.commits ∧
      (World.exec env me _ c (.acquire .queue) w).2.server = w.server := by
    simp only [World.exec,World.acquire]
    split
    · exact ⟨rfl,rfl⟩
    · split <;> exact ⟨rfl,rfl⟩
  have queue_freed : (World.exec env me _ c (.release .queue) w).2.repo.commits = w.repo.commits ∧
      (World.exec env me _ c (.release .queue) w).2.server = w.server := by
    simp only [World.exec,World.release]
    split
    · exact ⟨rfl,rfl⟩
    · split <;> exact ⟨rfl,rfl⟩
  cases o with
  | save_index idx => exact ⟨rfl,rfl,rfl⟩
  | write_head head => exact ⟨rfl,rfl,rfl⟩
  | write_ref name h => exact ⟨rfl,rfl,rfl⟩
  | load_pending_push => exact ⟨rfl,rfl,rfl⟩
  | save_pending_push pending => exact ⟨rfl,rfl,rfl⟩
  | save_stash entries => exact ⟨rfl,rfl,rfl⟩
  | delete_stash id => exact ⟨rfl,rfl,rfl⟩
  | write_commit h data => exact harmless.elim
  | push_commit h data => exact harmless.elim
  | update_ref ref_name h expected => exact harmless.elim
  | acquire lock =>
    cases lock with
    | queue => exact ⟨queue_kept.1,by rw [queue_kept.2],by rw [queue_kept.2]⟩
    | repo => exact ⟨(calm trivial).commits,(calm trivial).server_commits,(calm trivial).server_refs⟩
  | release lock =>
    cases lock with
    | queue => exact ⟨queue_freed.1,by rw [queue_freed.2],by rw [queue_freed.2]⟩
    | repo => exact ⟨(calm trivial).commits,(calm trivial).server_commits,(calm trivial).server_refs⟩
  | _ => exact ⟨(calm trivial).commits,(calm trivial).server_commits,(calm trivial).server_refs⟩

/-- The values a branch may be expected to have when a commit with these parents is put on it. -/
def Expected (parents : List H) : Option H → Prop
  | none => parents = []
  | some parent => parent ∈ parents

omit [DecidableEq H] [Hashing H] in
theorem expected_head (parents : List H) : Expected parents parents.head? := by
  cases parents <;> simp [Expected]

/-- `P` holds of every commit that can be read, and is all a store, a push or a branch asks for. -/
structure Vets {σ : Type} (D : Discipline (Op H) σ Choice) (P : H → CommitData H → Prop) : Prop where
  harmless : ∀ β c (o : Op H β) s, o.Harmless → D.inv s → D.may _ c o s → D.pre _ c o s
  read : ∀ c s h data, D.inv s → (D.exec _ c (.read_commit h) s).1 = some data → P h data
  served : ∀ c s h data, D.inv s → (D.exec _ c (.get_commit h) s).1 = .answered (some data) → P h data
  write : ∀ c s h data, P h data → D.pre _ c (.write_commit h data) s
  push : ∀ c s h data, P h data → D.pre _ c (.push_commit h data) s
  ref : ∀ c s ref_name h data expected, P h data → Expected data.parents expected →
    D.pre _ c (.update_ref ref_name h expected) s

section Vets

variable {σ : Type} {D : Discipline (Op H) σ Choice} {P : H → CommitData H → Prop} (vets : Vets D P)
include vets

omit [DecidableEq H] [Hashing H] in
theorem Vets.only {α : Type} {p : Command H α} (only : p.Only Op.Harmless) : D.Accepts p :=
  .of_only only fun β c o s harmless invariant allowed => vets.harmless β c o s harmless invariant allowed

omit [DecidableEq H] [Hashing H] in
theorem Vets.quiet {α : Type} {p : Command H α} (only : p.Only Op.Quiet) : D.Accepts p :=
  vets.only (only.mono Op.Quiet.harmless)

omit [DecidableEq H] [Hashing H] in
theorem Vets.call {β : Type} (o : Op H β) (harmless : Op.Harmless β o) : D.Accepts (call o : Command H β) :=
  vets.only (.call harmless)

omit [DecidableEq H] [Hashing H] in
theorem Vets.with_lock {α : Type} {lock : LockName} {body : Command H α} (accepted : D.Accepts body) :
    D.Accepts (with_lock lock body) := by
  refine (vets.call (.acquire lock) trivial).bind fun held => ?_
  split
  · refine .bind (.attempt accepted fun e => (vets.call (.release lock) trivial).bind fun _ => .fail e) fun result => ?_
    exact (vets.call (.release lock) trivial).bind fun _ => .pure result
  · exact .fail _

omit [Hashing H] in
theorem Vets.queue (h : H) (ref_name : Option String) : D.Accepts (queue_pending_push h ref_name) :=
  vets.only (queue_pending_push_only h ref_name trivial (fun _ => trivial) trivial trivial)

omit [Hashing H] in
theorem Vets.dequeue (commit_hashes : List H) : D.Accepts (remove_pending_push commit_hashes) :=
  vets.only (remove_pending_push_only commit_hashes trivial (fun _ => trivial) trivial trivial)

omit [DecidableEq H] [Hashing H] in
theorem Vets.push_commit {h : H} {data : CommitData H} (good : P h data) : D.Accepts (VaultClient.push_commit h data) := by
  refine .op fun c s _ _ => ⟨vets.push c s h data good,vets.quiet ?_⟩
  exact received_only _ false fun _ => trivial

omit [DecidableEq H] [Hashing H] in
theorem Vets.update_ref {h : H} {data : CommitData H} {expected : Option H} (ref_name : String) (good : P h data)
    (fits : Expected data.parents expected) : D.Accepts (VaultClient.update_ref ref_name h expected) := by
  refine .op fun c s _ _ => ⟨vets.ref c s ref_name h data expected good fits,vets.quiet ?_⟩
  refine received_only _ false fun done => ?_
  split <;> trivial

omit [Hashing H] in
theorem Vets.deliver_queued {entry : QueueEntry H} {data : CommitData H} (good : P entry.commit_hash data) :
    D.Accepts (deliver_queued entry data) := by
  refine (vets.quiet (upload_commit_objects_quiet data.tree none)).bind fun uploaded => ?_
  split
  · refine (vets.push_commit good).bind fun pushed => ?_
    split
    · unfold update_queued_ref
      split
      · exact .pure true
      · refine (vets.update_ref _ good (expected_head data.parents)).attempt fun e => ?_
        cases e with
        | ref_race current => exact vets.only (.bind (.call trivial) fun _ => trivial)
        | _ => exact .fail _
    · exact .pure false
  · exact .pure false

omit [Hashing H] in
theorem Vets.flush_entry (delivered : List H) (entry : QueueEntry H) : D.Accepts (flush_entry delivered entry) := by
  refine .op fun c s invariant allowed => ⟨vets.harmless _ c _ s trivial invariant allowed,?_⟩
  cases found : (D.exec _ c (.read_commit entry.commit_hash) s).1 with
  | none => exact .pure _
  | some data =>
    refine .attempt ((vets.deliver_queued (vets.read c s _ data invariant found)).bind fun done => .pure _) fun e => ?_
    cases e with
    | authentication => exact (vets.dequeue delivered).bind fun _ => .fail _
    | _ => exact .fail _

omit [Hashing H] in
theorem Vets.flush_pending_push (skip : List H) : D.Accepts (flush_pending_push skip) := by
  have load := vets.call .load_pending_push trivial
  refine load.bind fun queued => ?_
  extract_lets pending
  split
  · exact load
  · refine (vets.call .server_available trivial).bind fun available => ?_
    split
    · exact (Accepts.foldEach vets.flush_entry _ []).bind fun delivered => vets.dequeue delivered
    · exact load

omit [Hashing H] in
theorem Vets.persist_commit {h : H} {data : CommitData H} (good : P h data) (ref_path remote_ref_name : Option String)
    (idx : Index H) : D.Accepts (persist_commit h data ref_path remote_ref_name idx) := by
  refine vets.with_lock (.op fun c s _ _ => ⟨vets.write c s h data good,?_⟩)
  refine (vets.queue h remote_ref_name).bind fun _ => vets.only ?_
  cases ref_path with
  | none => exact .bind (.call trivial) fun _ => .call trivial
  | some branch => exact .bind (.call trivial) fun _ => .call trivial

omit [Hashing H] in
theorem Vets.expected_parent {α : Type} (parents : List H) (remote_ref_name : Option String) {f : Option H → Command H α}
    (later : ∀ expected, Expected parents expected → D.Accepts (f expected)) :
    D.Accepts (expected_parent parents remote_ref_name >>= f) := by
  unfold AetherVault.expected_parent
  split
  · rename_i ours theirs name
    refine .op fun c s invariant allowed => ⟨vets.harmless _ c _ s trivial invariant allowed,later _ ?_⟩
    simp only [Expected,List.mem_cons,List.not_mem_nil,or_false]
    split
    · exact Or.inr rfl
    · exact Or.inl rfl
  · exact later _ (expected_head _)

omit [Hashing H] in
theorem Vets.push_new {h : H} {data : CommitData H} {expected : Option H} (good : P h data)
    (fits : Expected data.parents expected) (remote_ref_name : Option String) (changed_paths : Option (List Path)) :
    D.Accepts (push_new h data remote_ref_name expected changed_paths) := by
  have queued := vets.queue h remote_ref_name
  refine (vets.quiet (upload_commit_objects_quiet data.tree changed_paths)).bind fun uploaded => ?_
  split
  · refine (vets.push_commit good).bind fun pushed => ?_
    split
    · have landed : D.Accepts (land_ref remote_ref_name h expected) := by
        unfold land_ref
        split
        · exact .pure true
        · refine (vets.update_ref _ good fits).attempt fun e => ?_
          cases e <;> first | exact .pure false | exact .fail _
      have dropped : D.Accepts (drop_superseded data.parents remote_ref_name) := by
        refine vets.only (.bind (.call trivial) fun pending => ?_)
        dsimp only
        split
        · exact .call trivial
        · trivial
      refine landed.bind fun on_branch => ?_
      split
      · have last : D.Accepts (do
            let _ ← remove_pending_push [h]
            .pure ()) := (vets.dequeue [h]).bind fun _ => .pure ()
        split
        · exact dropped.bind fun _ => last
        · exact last
      · exact queued
    · exact queued
  · exact queued

omit [Hashing H] in
theorem Vets.deliver_commit {h : H} {data : CommitData H} (good : P h data) (remote_ref_name : Option String)
    (defer_upload : Bool) (changed_paths : Option (List Path)) :
    D.Accepts (deliver_commit h data remote_ref_name defer_upload changed_paths) := by
  have queued := vets.queue h remote_ref_name
  refine vets.expected_parent data.parents remote_ref_name fun expected fits => ?_
  split
  · exact queued
  · refine .bind (.attempt ((vets.flush_pending_push [h]).bind fun _ => .pure ()) fun e => ?_) fun _ => ?_
    · cases e <;> first | exact .pure () | exact .fail _
    · refine (vets.call .server_available trivial).bind fun available => ?_
      split
      · refine .attempt (vets.push_new good fits remote_ref_name changed_paths) fun e => ?_
        cases e <;> first | exact queued | exact .fail _
      · exact queued

theorem Vets.finalize_commit [Canonical H] (env : Env) {data : CommitData H} (good : P (commit_hash data) data)
    (ref_path : Option String) (idx : Index H) (defer_upload : Bool) (changed_paths : Option (List Path))
    {on_persisted : Command H Unit} (accepted : D.Accepts on_persisted) :
    D.Accepts (_finalize_commit env data ref_path idx defer_upload changed_paths on_persisted) :=
  (vets.persist_commit good ref_path _ idx).bind fun _ => accepted.bind fun _ =>
    (vets.deliver_commit good _ defer_upload changed_paths).bind fun _ => .pure _

omit [DecidableEq H] [Hashing H] in
theorem Vets.find_commit (h : H) : D.Accepts (find_commit h) := by
  refine (vets.call (.read_commit h) trivial).bind fun found => ?_
  cases found with
  | some data => exact .pure _
  | none =>
    refine (vets.call .server_available trivial).bind fun available => ?_
    split
    · rw [VaultClient.get_commit,Prog.bind_eq,Prog.bind_eq,Prog.bind_assoc]
      refine .op fun c s invariant allowed => ⟨vets.harmless _ c _ s trivial invariant allowed,?_⟩
      cases reply : (D.exec _ c (.get_commit h) s).1 with
      | unauthorized => exact .fail _
      | unreachable => exact .pure _
      | answered served =>
        cases served with
        | none => exact .pure _
        | some data =>
          refine .op fun c' t _ _ => ⟨vets.write c' t h data (vets.served c s h data invariant reply),?_⟩
          exact .pure _
    · exact .pure _

end Vets

end AetherVault
