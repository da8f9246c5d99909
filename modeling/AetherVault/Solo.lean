import AetherVault.MergeLaws
import AetherVault.PullHistory
import AetherVault.Restored

/-! The commands of one process with no other in its way: what it may count on between two
operations, what it finds at HEAD, and what a commit that is fetched or a tree that is brought
back leaves of the repository. -/
namespace AetherVault.Solo
open Lib Hashing
open Lib.Prog (Only call forEach foldEach)
open Lib.Discipline (Meets)

variable {H : Type} [DecidableEq H] [Hashing H]

def at_head (repo : Repo H) : Option H :=
  match repo.head with
  | .detached h => some h
  | .branch name => (repo.refs.get? name).join

def head_tree (repo : Repo H) : Tree H := tree_of repo.commits (at_head repo)

/-! Operations that write neither the index, HEAD, a ref, a commit nor a stash. -/

/-- No other process is in a lock, if none was. -/
structure Aside (me : Nat) (w t : World H) : Prop where
  index : t.repo.index = w.repo.index
  head : t.repo.head = w.repo.head
  refs : t.repo.refs = w.repo.refs
  commits : t.repo.commits = w.repo.commits
  stashes : t.repo.stashes = w.repo.stashes
  objects : w.repo.objects.Within t.repo.objects
  unlocked : ∀ lock, w.Unlocked me lock → t.Unlocked me lock

theorem Aside.refl (me : Nat) (w : World H) : Aside me w w := ⟨rfl,rfl,rfl,rfl,rfl,.refl _,fun _ free => free⟩

theorem Aside.trans {me : Nat} {a b c : World H} (first : Aside me a b) (later : Aside me b c) : Aside me a c where
  index := later.index.trans first.index
  head := later.head.trans first.head
  refs := later.refs.trans first.refs
  commits := later.commits.trans first.commits
  stashes := later.stashes.trans first.stashes
  objects := first.objects.trans later.objects
  unlocked lock free := later.unlocked lock (first.unlocked lock free)

theorem Aside.at_head {me : Nat} {w t : World H} (aside : Aside me w t) : at_head t.repo = at_head w.repo := by
  simp only [Solo.at_head,aside.head,aside.refs]

theorem Aside.head_tree {me : Nat} {w t : World H} (aside : Aside me w t) : head_tree t.repo = head_tree w.repo := by
  simp only [Solo.head_tree,aside.at_head,aside.commits]

theorem update_unlocked {w : World H} {me : Nat} {other : LockName} (lock : LockName) {holder : Option (Nat × Nat)}
    (mine : ∀ owner depth, holder = some (owner,depth) → owner = me) (free : w.Unlocked me other) :
    (w.with_locks (Function.update w.repo.locks lock holder)).Unlocked me other := by
  intro owner depth found
  have held : Function.update w.repo.locks lock holder other = some (owner,depth) := found
  by_cases same : other = lock
  · subst other
    rw [Function.update_self] at held
    exact mine owner depth held
  · rw [Function.update_of_ne same] at held
    exact free owner depth held

theorem acquire_unlocked (w : World H) (me : Nat) (lock other : LockName) (free : w.Unlocked me other) :
    (w.acquire me lock).2.Unlocked me other := by
  unfold World.acquire
  cases w.repo.locks lock with
  | none => exact update_unlocked lock (by simp_all) free
  | some held =>
    dsimp only
    split
    · exact update_unlocked lock (by simp_all) free
    · exact free

theorem release_unlocked (w : World H) (me : Nat) (lock other : LockName) (free : w.Unlocked me other) :
    (w.release me lock).Unlocked me other := by
  unfold World.release
  cases w.repo.locks lock with
  | none => exact free
  | some held =>
    dsimp only
    split
    · refine update_unlocked lock ?_ free
      intro owner depth left
      split at left
      · contradiction
      · exact (Prod.mk.inj (Option.some.inj left)).1.symm
    · exact free

theorem exec_unlocked (env : Env) (me : Nat) (β : Type) (c : Choice) (o : Op H β) (w : World H) (lock : LockName)
    (free : w.Unlocked me lock) : (World.exec env me β c o w).2.Unlocked me lock := by
  have sent {α : Type} (effect : Server H → α × Server H) : (w.request c effect).2.Unlocked me lock := by
    unfold World.Unlocked
    rw [(request_server w c effect).1]
    exact free
  cases o with
  | acquire other => exact acquire_unlocked w me other lock free
  | release other => exact release_unlocked w me other lock free
  | stage path file_type existing attr_flags =>
    obtain ⟨blobs,staged⟩ := stage_within w env path file_type existing attr_flags
    simp only [World.exec,staged]
    exact free
  | write_file path content =>
    simp only [World.exec,World.write_file]
    cases FileData.ofBytes? content <;> exact free
  | read_stash id => cases id <;> exact free
  | batch_check => exact sent _
  | upload => exact sent _
  | download => exact sent _
  | push_commit => exact sent _
  | get_commit => exact sent _
  | update_ref => exact sent _
  | get_ref => exact sent _
  | list_refs => exact sent _
  | list_commits => exact sent _
  | _ => exact free

theorem exec_sending (env : Env) (me : Nat) (β : Type) (c : Choice) (o : Op H β) (w : World H) (sending : Op.Sending β o) :
    Aside me w (World.exec env me β c o w).2 := by
  have unlocked lock := exec_unlocked env me β c o w lock
  have calm (quiet : Op.Quiet β o) : Aside me w (World.exec env me β c o w).2 :=
    have same := exec_quiet env me β c o w quiet
    ⟨same.index,same.head,same.refs,same.commits,same.stashes,same.objects,unlocked⟩
  have moved (same : ∃ locks, (World.exec env me β c o w).2 = w.with_locks locks) : Aside me w (World.exec env me β c o w).2 := by
    obtain ⟨locks,result⟩ := same
    rw [result] at unlocked ⊢
    exact ⟨rfl,rfl,rfl,rfl,rfl,.refl _,unlocked⟩
  have sent {α : Type} {effect : Server H → α × Server H}
      (result : (World.exec env me β c o w).2 = (w.request c effect).2) : Aside me w (World.exec env me β c o w).2 := by
    have same := (request_server w c effect).1
    rw [← result] at same
    refine ⟨?_,?_,?_,?_,?_,?_,unlocked⟩ <;> rw [same]
    exact .refl _
  cases o with
  | save_index => exact sending.elim
  | write_head => exact sending.elim
  | write_ref => exact sending.elim
  | write_commit => exact sending.elim
  | save_stash => exact sending.elim
  | delete_stash => exact sending.elim
  | acquire lock =>
    refine moved ?_
    rcases acquire_result w me lock with ⟨locks,taken⟩ | ⟨failed,-⟩
    · exact ⟨locks,congrArg Prod.snd taken⟩
    · exact ⟨w.repo.locks,congrArg Prod.snd failed⟩
  | release lock => exact moved (release_result w me lock)
  | load_pending_push => exact ⟨rfl,rfl,rfl,rfl,rfl,.refl _,unlocked⟩
  | save_pending_push => exact ⟨rfl,rfl,rfl,rfl,rfl,.refl _,unlocked⟩
  | push_commit => exact sent rfl
  | update_ref => exact sent rfl
  | _ => exact calm trivial

def with_index (w : World H) (idx : Index H) : World H := {w with repo := {w.repo with index := idx}}

section Alone

variable {env : Env} {me : Nat} {may : ∀ β, Choice → Op H β → World H → Prop} {w : World H}

theorem sending_meets {α : Type} {p : Command H α} (only : p.Only Op.Sending) {s : World H} (aside : Aside me w s) :
    (alone env me may).Meets p (fun _ t => Aside me w t) s := by
  have accepts : (alone env me may).Accepts p := .of_only only fun _ _ _ _ _ _ _ => trivial
  refine (Meets.within (R := Aside me) only (fun _ _ _ => Aside.trans) ?_ ?_ aside (accepts s)).mono fun _ _ both => both.2
  · intro a b same
    exact same ▸ .refl me a
  · intro β c o a sending _ _ _
    exact exec_sending env me β c o a sending

theorem sending_call {β : Type} {o : Op H β} {post : Except (Failure H) β → World H → Prop} (sending : Op.Sending β o)
    (reached : ∀ b t, Aside me w t → post (.ok b) t) : (alone env me may).Meets (call o) post w :=
  alone_call fun c _ => reached _ _ (exec_sending env me β c o w sending)

/-- A lock that no one else holds is taken; what is under it may rely on that no less than on the rest. -/
theorem locked_meets {α : Type} {lock : LockName} {body : Command H α} {post : Except (Failure H) α → World H → Prop}
    (unlocked : w.Unlocked me lock)
    (inside : ∀ t, Aside me w t → t.repo.files = w.repo.files →
      (alone env me may).Meets body (fun r u => ∀ v, Aside me u v → post r v) t) :
    (alone env me may).Meets (with_lock lock body) post w := by
  refine .bind (alone_call fun c _ => ?_)
  have taken := exec_sending env me _ c (.acquire lock) w trivial
  have answer : World.exec env me _ c (.acquire lock) w = w.acquire me lock := rfl
  rw [answer] at taken ⊢
  obtain ⟨held,files⟩ : (w.acquire me lock).1 = true ∧ (w.acquire me lock).2.repo.files = w.repo.files := by
    rcases acquire_result w me lock with ⟨locks,result⟩ | ⟨-,other⟩
    · rw [result]
      exact ⟨rfl,rfl⟩
    · exact absurd unlocked other
  simp only [held,if_true]
  refine .bind (.attempt ((inside _ taken files).mono fun r u reached => ?_))
  cases r with
  | ok a => exact .bind (alone_call fun c _ => reached _ (exec_sending env me _ c (.release lock) u trivial))
  | error e => exact .bind (alone_call fun c _ => reached _ (exec_sending env me _ c (.release lock) u trivial))

theorem queue_meets (h : H) (ref_name : Option String) (unlocked : w.Unlocked me .queue) :
    (alone env me may).Meets (queue_pending_push h ref_name) (fun r t => r = .ok () ∧ Aside me w t) w := by
  refine locked_meets unlocked fun t aside _ => alone_read (fun c => rfl) ?_
  split
  · exact fun v after => ⟨rfl,aside.trans after⟩
  · refine sending_call ?_ fun _ u stored v after => ⟨rfl,(aside.trans stored).trans after⟩
    exact trivial

/-! What a command finds at HEAD. -/

def branch_of (head : Head H) : Option String :=
  match head with
  | .branch name => some name
  | .detached _ => none

theorem head_parents_alone : (alone env me may).Meets head_parents
    (fun r t => t = w ∧ r = .ok ((at_head w.repo).toList,branch_of w.repo.head)) w := by
  refine alone_read (fun c => rfl) ?_
  cases at_branch : w.repo.head with
  | detached h => exact ⟨rfl,by simp [at_head,branch_of,at_branch]⟩
  | branch name =>
    refine alone_read (fun c => rfl) ?_
    cases found : w.repo.refs.get? name with
    | none => exact ⟨rfl,by simp [at_head,branch_of,at_branch,found]⟩
    | some tip =>
      cases tip with
      | none => exact ⟨rfl,by simp [at_head,branch_of,at_branch,found]⟩
      | some h => exact ⟨rfl,by simp [at_head,branch_of,at_branch,found]⟩

/-- Every reader takes the tree as it is, or refuses it. -/
def Readable (tree : Tree H) : Prop := tree_is_flat tree = true ∨ legacy_items tree = none

theorem resolve_head_tree_alone : (alone env me may).Meets resolve_head_tree
    (fun r t => t = w ∧ ∀ tree, r = .ok tree → Readable (head_tree w.repo) → tree = head_tree w.repo) w := by
  refine .bind (head_parents_alone.mono ?_)
  rintro r t ⟨rfl,rfl⟩
  cases tip : at_head t.repo with
  | none =>
    refine ⟨rfl,fun tree read _ => ?_⟩
    obtain rfl := Except.ok.inj read
    simp [head_tree,tip,tree_of]
  | some h =>
    refine alone_read (fun c => rfl) ?_
    cases found : t.repo.commits.get? h with
    | none =>
      refine ⟨rfl,fun tree read _ => ?_⟩
      obtain rfl := Except.ok.inj read
      simp [head_tree,tip,tree_of,found]
    | some data =>
      have here : head_tree t.repo = data.tree := by simp [head_tree,tip,tree_of,found]
      rw [here]
      dsimp only
      split
      · refine ⟨rfl,fun tree read _ => ?_⟩
        exact (Except.ok.inj read).symm
      · rename_i old
        cases items : legacy_items data.tree with
        | none => exact ⟨rfl,fun tree impossible => by contradiction⟩
        | some items' =>
          refine ⟨rfl,fun tree _ readable => ?_⟩
          rcases readable with flat | refused
          · exact absurd flat old
          · simp [items] at refused

/-! What it finds of the working tree. -/

/-- Nothing is there that a checkout of the tree would overwrite. -/
structure Clean (repo : Repo H) (tree : Tree H) : Prop where
  untracked : ∀ path e file, tree.get? path = some e → repo.files.get? path = some file →
    repo.index.entries.contains path = true ∨ Digest.sha (sha256 file.data.bytes) = e.hash
  tracked : ∀ path e, repo.index.entries.get? path = some e →
    ∃ file, repo.files.get? path = some file ∧ e.staged = false ∧ compare_meta file e = true

theorem Clean.of_same {repo other : Repo H} {tree : Tree H} (clean : Clean repo tree) (files : repo.files = other.files)
    (index : repo.index = other.index) : Clean other tree where
  untracked path e file held there := by
    rw [← index]
    exact clean.untracked path e file held (files ▸ there)
  tracked path e held := by
    rw [← files]
    exact clean.tracked path e (index ▸ held)

theorem collect_dirty_paths_alone (tree : Tree H) : (alone env me may).Meets (_collect_dirty_paths w.repo.index tree)
    (fun r t => t = w ∧ ∃ dirty, r = .ok dirty ∧ (dirty = [] → Clean w.repo tree)) w := by
  refine .bind (.foldEach (J := fun rest dirty t => t = w ∧ ∃ done, tree.entries = done ++ rest ∧ (dirty = [] →
    ∀ item ∈ done, ∀ file, w.repo.files.get? item.1 = some file →
      w.repo.index.entries.contains item.1 = true ∨ Digest.sha (sha256 file.data.bytes) = item.2.hash)) _ _
    ⟨rfl,[],rfl,by simp⟩ ?_ ?_)
  · rintro item rest dirty t ⟨rfl,done,split,clean⟩
    refine alone_read (fun c => rfl) ?_
    cases found : t.repo.files.get? item.1 with
    | none =>
      refine ⟨rfl,done ++ [item],by simp [split],fun nothing other member file there => ?_⟩
      rcases List.mem_append.mp member with early | last
      · exact clean nothing other early file there
      · rw [List.mem_singleton.mp last,found] at there
        contradiction
    | some file =>
      dsimp only
      split
      · exact ⟨rfl,done ++ [item],by simp [split],by simp⟩
      · rename_i harmless
        refine ⟨rfl,done ++ [item],by simp [split],fun nothing other member here there => ?_⟩
        rcases List.mem_append.mp member with early | last
        · exact clean nothing other early here there
        · rw [List.mem_singleton.mp last] at there ⊢
          obtain rfl := Option.some.inj (found.symm.trans there)
          simp only [Bool.not_eq_true',ne_eq,not_and,not_not] at harmless
          cases tracked : t.repo.index.entries.contains item.1 with
          | true => exact .inl rfl
          | false => exact .inr (harmless tracked)
  · rintro overwritten t ⟨rfl,done,split,clean⟩
    rw [List.append_nil] at split
    refine .foldEach (J := fun rest dirty u => u = t ∧ ∃ passed, t.repo.index.entries.entries = passed ++ rest ∧
      (dirty = [] → overwritten = [] ∧ ∀ item ∈ passed,
        ∃ file, t.repo.files.get? item.1 = some file ∧ item.2.staged = false ∧ compare_meta file item.2 = true)) _ _
      ⟨rfl,[],rfl,fun nothing => ⟨nothing,by simp⟩⟩ ?_ ?_
    · rintro item rest dirty u ⟨rfl,passed,divided,tracked⟩
      refine alone_read (fun c => rfl) ?_
      cases found : u.repo.files.get? item.1 with
      | none => exact ⟨rfl,passed ++ [item],by simp [divided],by simp⟩
      | some file =>
        dsimp only
        split
        · exact ⟨rfl,passed ++ [item],by simp [divided],by simp⟩
        · rename_i as_is
          refine ⟨rfl,passed ++ [item],by simp [divided],fun nothing => ⟨(tracked nothing).1,fun other member => ?_⟩⟩
          rcases List.mem_append.mp member with early | last
          · exact (tracked nothing).2 other early
          · rw [List.mem_singleton.mp last]
            exact ⟨file,found,by simpa using as_is⟩
    · rintro dirty u ⟨rfl,passed,divided,tracked⟩
      rw [List.append_nil] at divided
      refine ⟨rfl,dirty,rfl,fun nothing => ⟨fun path e file held there => ?_,fun path e held => ?_⟩⟩
      · exact clean (tracked nothing).1 (path,e) (split ▸ (tree.mem_entries _ _).mpr held) file there
      · exact (tracked nothing).2 (path,e) (divided ▸ (Dict.mem_entries _ _ _).mpr held)

/-- A tracked file that is staged, or is not what was tracked. -/
def Dirty (repo : Repo H) (path : Path) : Prop :=
  ∃ e file, repo.index.entries.get? path = some e ∧ repo.files.get? path = some file ∧
    (e.staged = true ∨ compare_meta file e = false)

theorem compute_status_alone : (alone env me may).Meets (compute_status w.repo.index) (fun r t => t = w ∧
    ∃ status, r = .ok status ∧ ∀ path ∈ status.staged ++ status.modified, Dirty w.repo path) w := by
  refine .foldEach (J := fun rest status t => t = w ∧ (∃ done, w.repo.index.entries.entries = done ++ rest) ∧
    ∀ path ∈ status.staged ++ status.modified, Dirty w.repo path) _ _ ⟨rfl,⟨[],rfl⟩,by simp⟩ ?_ ?_
  · rintro item rest status t ⟨rfl,⟨done,split⟩,dirty⟩
    have later : ∃ done, t.repo.index.entries.entries = done ++ rest := ⟨done ++ [item],by simp [split]⟩
    have tracked : t.repo.index.entries.get? item.1 = some item.2 := (Dict.mem_entries _ _ _).mp (by rw [split]; simp)
    refine alone_read (fun c => rfl) ?_
    cases found : t.repo.files.get? item.1 with
    | none => exact ⟨rfl,later,dirty⟩
    | some file =>
      have grows {status' : Status} (only : ∀ path ∈ status'.staged ++ status'.modified,
          path ∈ status.staged ++ status.modified ∨ path = item.1)
          (changed : item.2.staged = true ∨ compare_meta file item.2 = false) :
          ∀ path ∈ status'.staged ++ status'.modified, Dirty t.repo path := by
        intro path member
        rcases only path member with before | here
        · exact dirty path before
        · exact here ▸ ⟨item.2,file,tracked,found,changed⟩
      dsimp only
      split
      · rename_i staged
        refine ⟨rfl,later,grows (fun path member => ?_) (.inl staged)⟩
        simp only [List.mem_append,List.mem_singleton] at member ⊢
        tauto
      · split
        · exact ⟨rfl,later,dirty⟩
        · rename_i differs
          refine ⟨rfl,later,grows (fun path member => ?_) (.inr (by simpa using differs))⟩
          simp only [List.mem_append,List.mem_singleton] at member ⊢
          tauto
  · rintro status t ⟨rfl,-,dirty⟩
    exact ⟨rfl,status,rfl,dirty⟩

def stash_of (repo : Repo H) (stash_id : Option Nat) : Option (Nat × List (StashEntry H)) :=
  match stash_id with
  | none => repo.stashes.head?
  | some id => repo.stashes.find? (fun s => s.1 == id)

/-! Fetching a commit that is not here. -/

/-- As before, but for the file of a commit that was not here. -/
structure Fetched (me : Nat) (h : H) (w t : World H) : Prop where
  files : t.repo.files = w.repo.files
  index : t.repo.index = w.repo.index
  head : t.repo.head = w.repo.head
  refs : t.repo.refs = w.repo.refs
  stashes : t.repo.stashes = w.repo.stashes
  objects : w.repo.objects.Within t.repo.objects
  unlocked : ∀ lock, w.Unlocked me lock → t.Unlocked me lock
  commits : t.repo.commits = w.repo.commits ∨ w.repo.commits.get? h = none ∧
    ∃ data, tree_is_flat data.tree = true ∧ t.repo.commits = w.repo.commits.set h data

theorem Aside.fetched {w t : World H} (aside : Aside me w t) (files : t.repo.files = w.repo.files) (h : H) : Fetched me h w t :=
  ⟨files,aside.index,aside.head,aside.refs,aside.stashes,aside.objects,aside.unlocked,.inl aside.commits⟩

theorem Fetched.trans {h : H} {a b c : World H} (first : Fetched me h a b) (later : Fetched me h b c) : Fetched me h a c where
  files := later.files.trans first.files
  index := later.index.trans first.index
  head := later.head.trans first.head
  refs := later.refs.trans first.refs
  stashes := later.stashes.trans first.stashes
  objects := first.objects.trans later.objects
  unlocked lock free := later.unlocked lock (first.unlocked lock free)
  commits := by
    rcases first.commits with same | ⟨absent,data,flat,written⟩
    · rw [← same]
      exact later.commits
    · rcases later.commits with same | ⟨impossible,-⟩
      · exact .inr ⟨absent,data,flat,same.trans written⟩
      · simp [written] at impossible

theorem Fetched.at_head {h : H} {w t : World H} (fetched : Fetched me h w t) : at_head t.repo = at_head w.repo := by
  simp only [Solo.at_head,fetched.head,fetched.refs]

/-- What was here is as it was; a commit that was not is read as it was written. -/
theorem Fetched.found {h g : H} {w t : World H} (fetched : Fetched me h w t) {data : CommitData H}
    (held : t.repo.commits.get? g = some data) :
    w.repo.commits.get? g = some data ∨ g = h ∧ w.repo.commits.get? h = none ∧ tree_is_flat data.tree = true := by
  rcases fetched.commits with same | ⟨absent,fresh,flat,written⟩
  · exact .inl (same ▸ held)
  · rw [written,Dict.get?_set] at held
    split at held
    · obtain rfl := Option.some.inj held
      exact .inr ⟨‹_›,absent,flat⟩
    · exact .inl held

theorem Fetched.keeps {h g : H} {w t : World H} (fetched : Fetched me h w t) {data : CommitData H}
    (held : w.repo.commits.get? g = some data) : t.repo.commits.get? g = some data := by
  rcases fetched.commits with same | ⟨absent,fresh,-,written⟩
  · rw [same]
    exact held
  · have away : g ≠ h := by
      rintro rfl
      simp [absent] at held
    rw [written,Dict.get?_set_other _ _ _ _ away]
    exact held

theorem find_commit_alone (h : H) : (alone env me may).Meets (find_commit h) (fun r t => Fetched me h w t ∧
    ∀ data, r = .ok (some data) → t.repo.commits.get? h = some data) w := by
  refine alone_read (fun c => rfl) ?_
  cases here : w.repo.commits.get? h with
  | some data =>
    exact ⟨(Aside.refl me w).fetched rfl h,fun other found => by
      obtain rfl := Option.some.inj (Except.ok.inj found)
      exact here⟩
  | none =>
    refine .bind (alone_call fun c _ => ?_)
    have asked := exec_sending env me _ c .server_available w trivial
    dsimp only
    split
    · refine .bind (.bind (alone_call fun d _ => ?_))
      have served := exec_sending env me _ d (.get_commit h) (World.exec env me _ c .server_available w).2 trivial
      have aside := asked.trans served
      have result : World.exec env me _ d (.get_commit h) (World.exec env me _ c .server_available w).2 =
        (World.exec env me _ c .server_available w).2.request d fun server => (server.get_commit h,server) := rfl
      rw [result] at aside ⊢
      unfold World.request at aside ⊢
      cases net : d.net with
      | answered =>
        simp only [net] at aside ⊢
        cases answer : (World.exec env me _ c .server_available w).2.server.get_commit h with
        | none => exact ⟨aside.fetched rfl h,by simp⟩
        | some data =>
          refine .bind (alone_call fun e _ => ⟨?_,fun other found => ?_⟩)
          · exact ⟨rfl,aside.index,aside.head,aside.refs,aside.stashes,aside.objects,aside.unlocked,.inr ⟨here,data,get_commit_flat answer,rfl⟩⟩
          · obtain rfl := Option.some.inj (Except.ok.inj found)
            exact Dict.get?_set_same _ _ _
      | refused =>
        simp only [net] at aside ⊢
        exact ⟨aside.fetched rfl h,by simp⟩
      | lost =>
        simp only [net] at aside ⊢
        exact ⟨aside.fetched rfl h,by simp⟩
      | unanswered =>
        simp only [net] at aside ⊢
        exact ⟨aside.fetched rfl h,by simp⟩
    · exact ⟨asked.fetched rfl h,by simp⟩

def target_of (repo : Repo H) (target : Target H) : Option H :=
  match target with
  | .branch name => (repo.refs.get? name).join
  | .commit h => some h

theorem resolve_target_alone (target : Target H) : (alone env me may).Meets (resolve_target target) (fun r t => t = w ∧
    ∃ ref_name, r = .ok (target_of w.repo target,ref_name) ∧
      ∀ name h, ref_name = some name → target_of w.repo target = some h → w.repo.refs.get? name = some (some h)) w := by
  cases target with
  | commit h => exact ⟨rfl,none,rfl,by simp⟩
  | branch name =>
    refine alone_read (fun c => rfl) ?_
    cases found : w.repo.refs.get? name with
    | none => exact ⟨rfl,none,by simp [target_of,found],by simp⟩
    | some tip =>
      refine ⟨rfl,some name,by simp [target_of,found],fun other h same aim => ?_⟩
      obtain rfl := Option.some.inj same
      rw [found]
      exact congrArg some (by simpa [target_of,found] using aim)

/-- What a checkout makes of HEAD. -/
def landing (ref_name : Option String) (h : H) : Head H :=
  match ref_name with
  | some name => .branch name
  | none => .detached h

theorem landing_tip {repo : Repo H} {h : H} {ref_name : Option String}
    (at_ref : ∀ name, ref_name = some name → repo.refs.get? name = some (some h)) :
    at_head {repo with head := landing ref_name h} = some h := by
  cases ref_name with
  | none => rfl
  | some name => simp [at_head,landing,at_ref name rfl]

omit [Hashing H] in
/-- A commit that has been gone through to find the base is here. -/
theorem forward_present {commits : Dict H (CommitData H)} {ours theirs : H} (base : find_merge_base commits ours theirs = some ours)
    (apart : theirs ≠ ours) : ∃ data, commits.get? theirs = some data := by
  by_contra absent
  have none : commits.get? theirs = none := by
    cases found : commits.get? theirs with
    | none => rfl
    | some data => exact absurd ⟨data,found⟩ absent
  have rootless : parents_of commits theirs = [] := by simp [parents_of,none]
  have fuel : ∃ n, walk_fuel commits = n + 1 := ⟨_,Nat.add_comm 1 _⟩
  obtain ⟨n,fuel⟩ := fuel
  unfold find_merge_base at base
  rw [fuel] at base
  simp only [nearest,List.not_mem_nil,if_false] at base
  split at base
  · exact apart (Option.some.inj base)
  · rw [rootless] at base
    cases n <;> simp [nearest] at base

omit [Hashing H] in
theorem merged_flat {base_tree ours_tree theirs_tree merged : Tree H} {policy : Option AetherVault.Policy}
    (made : merged_tree base_tree ours_tree theirs_tree policy = some merged) (ours : tree_is_flat ours_tree = true)
    (theirs : tree_is_flat theirs_tree = true) : tree_is_flat merged = true := by
  simp only [tree_is_flat,Bool.not_eq_true',Bool.or_eq_false_iff] at ours theirs ⊢
  constructor
  · by_contra held
    rcases merged_tree_from made (by simpa using held) with left | right
    · simp [ours.1] at left
    · simp [theirs.1] at right
  · by_contra held
    rcases merged_tree_from made (by simpa using held) with left | right
    · simp [ours.2] at left
    · simp [theirs.2] at right

/-! Bringing a tree back. -/

/-- What has to agree of two entries for a path. -/
structure Recorded (H : Type) where
  hash : Digest H
  type : FileType
  layers : List (Layer H)
  chunks : List (Chunk H)
  deriving DecidableEq

def recorded (e : TreeEntry H) : Recorded H := ⟨e.hash,e.type,e.layers,e.chunks⟩

/-- An index that has the entries of a tree. -/
structure Mirrors (tree : Tree H) (idx : Index H) : Prop where
  entries : ∀ path e, idx.entries.get? path = some e → (tree.get? path).map recorded = some (recorded e.tree_entry)
  paths : ∀ path, tree.contains path = true → idx.entries.contains path = true

omit [DecidableEq H] [Hashing H] in
theorem Mirrors.cleared {tree : Tree H} {idx : Index H} (mirrors : Mirrors tree idx) : Mirrors tree idx.clear_staged where
  entries path e found := by
    obtain ⟨old,before,rfl⟩ := Option.map_eq_some_iff.mp ((Dict.get?_map _ _ _).symm.trans found)
    exact mirrors.entries path old before
  paths path held := by
    simpa [Index.clear_staged,Dict.contains] using mirrors.paths path held

omit [Hashing H] in
theorem tree_mirrors (idx : Index H) : Mirrors idx.tree idx where
  entries path e found := by simp [Index.tree,found]
  paths path held := by simpa [Index.tree,Dict.contains] using held

/-- The entries of a tree that the index has so far. -/
structure Restoring (tree : Tree H) (done : List (Path × TreeEntry H)) (idx : Index H) : Prop where
  entries : ∀ path e, idx.entries.get? path = some e → (tree.get? path).map recorded = some (recorded e.tree_entry)
  held : ∀ item ∈ done, idx.entries.contains item.1 = true

theorem restore_entry_alone {tree : Tree H} {done : List (Path × TreeEntry H)} {idx : Index H} {item : Path × TreeEntry H}
    (verify : Bool) (restoring : Restoring tree done idx) (member : item ∈ tree.entries) :
    (alone env me may).Meets (restore_entry verify idx item)
      (fun r t => Aside me w t ∧ ∀ next, r = .ok next → Restoring tree (done ++ [item]) next) w := by
  have quiet := (materialize_file_quiet item.1 item.2.hash item.2.layers item.2.chunks verify).mono Op.Quiet.sending
  refine .bind ((sending_meets quiet (.refl me w)).mono fun r t aside => ?_)
  cases r with
  | error e => exact ⟨aside,fun next impossible => by contradiction⟩
  | ok _ =>
    refine ⟨aside,fun next ended => ?_⟩
    obtain rfl := Except.ok.inj ended
    have here : tree.get? item.1 = some item.2 := (tree.mem_entries _ _).mp member
    constructor
    · intro path e found
      rw [Index.add_split_entry_get] at found
      split at found
      · rename_i same
        obtain rfl := Option.some.inj found
        rw [same,here]
        rfl
      · exact restoring.entries path e found
    · intro other held
      rw [Dict.contains,Index.add_split_entry_get]
      split
      · rfl
      · rename_i away
        rcases List.mem_append.mp held with early | last
        · exact restoring.held other early
        · exact absurd (by rw [List.mem_singleton.mp last]) away

theorem restore_flat_alone (tree : Tree H) (verify : Bool) : (alone env me may).Meets (restore_flat tree verify)
    (fun r t => Aside me w t ∧ ∀ idx, r = .ok idx → Mirrors tree idx) w := by
  have entries (s : World H) (aside : Aside me w s) : (alone env me may).Meets (foldEach (restore_entry verify) tree.entries .empty)
      (fun r t => Aside me w t ∧ ∀ idx, r = .ok idx → Mirrors tree idx) s := by
    refine .foldEach (J := fun rest idx t => Aside me w t ∧ ∃ done, tree.entries = done ++ rest ∧ Restoring tree done idx) _ _
      ⟨aside,[],rfl,by simp [Index.empty],by simp⟩ ?_ ?_
    · rintro item rest idx t ⟨before,done,split,restoring⟩
      refine (restore_entry_alone verify restoring (by simp [split])).mono ?_
      rintro r u ⟨moved,restored⟩
      cases r with
      | error e => exact ⟨before.trans moved,fun idx impossible => by contradiction⟩
      | ok next => exact ⟨before.trans moved,done ++ [item],by simp [split],restored next rfl⟩
    · rintro idx t ⟨before,done,split,restoring⟩
      refine ⟨before,fun final ended => ?_⟩
      obtain rfl := Except.ok.inj ended
      rw [List.append_nil] at split
      refine ⟨restoring.entries,fun path held => ?_⟩
      obtain ⟨e,found⟩ := (Dict.contains_iff _ _).mp held
      exact restoring.held (path,e) (split ▸ (tree.mem_entries _ _).mpr found)
  have checking := ((check_restorable_fetching tree verify).mono Op.Fetching.quiet).mono Op.Quiet.sending
  refine .bind ((sending_meets checking (.refl me w)).mono fun r t checked => ?_)
  cases r with
  | error e => exact ⟨checked,fun idx impossible => by contradiction⟩
  | ok server_up =>
    cases server_up with
    | false => exact entries t checked
    | true =>
      have ensuring := (ensure_objects_local_quiet tree).mono Op.Quiet.sending
      refine .bind ((sending_meets ensuring checked).mono fun r u ensured => ?_)
      cases r with
      | error e => exact ⟨ensured,fun idx impossible => by contradiction⟩
      | ok _ => exact entries u ensured

omit [DecidableEq H] [Hashing H] in
theorem clean_entry_mirrors {tree : Tree H} {idx : Index H} (mirrors : Mirrors tree idx) (path : Path) (file : Option WorkFile) :
    Mirrors tree {idx with entries := idx.entries.modify path (clean_entry file)} where
  entries other e found := by
    rw [Dict.get?_modify] at found
    split at found
    · rename_i same
      obtain ⟨old,before,rfl⟩ := Option.map_eq_some_iff.mp found
      have kept : recorded (clean_entry file old).tree_entry = recorded old.tree_entry := by cases file <;> rfl
      rw [same,kept]
      exact mirrors.entries path old before
    · exact mirrors.entries other e found
  paths other held := by
    have before := mirrors.paths other held
    rw [Dict.contains] at before ⊢
    rw [Dict.get?_modify]
    split
    · rename_i same
      simpa [same] using before
    · exact before

/-- The restored index mirrors the tree and is saved last; nothing is written when the restore fails. -/
theorem materialize_tree_alone {tree : Tree H} (readable : Readable tree) (idx : Index H) (verify : Bool) :
    (alone env me may).Meets (_materialize_tree tree idx verify) (fun r t => (∃ e, r = .error e) ∧ Aside me w t ∨
      ∃ u final, r = .ok final ∧ t = with_index u final ∧ Aside me w u ∧ Mirrors tree final) w := by
  unfold _materialize_tree
  split
  · refine .bind ((restore_flat_alone tree verify).mono ?_)
    rintro r t ⟨aside,mirrors⟩
    cases r with
    | error e => exact .inl ⟨⟨e,rfl⟩,aside⟩
    | ok restored =>
      have removing := (remove_untracked_quiet restored idx.entries.keys).mono Op.Quiet.sending
      refine .bind ((sending_meets removing aside).mono fun r u removed => ?_)
      cases r with
      | error e => exact .inl ⟨⟨e,rfl⟩,removed⟩
      | ok _ =>
        refine .bind (.foldEach (J := fun _ final v => v = u ∧ Mirrors tree final) _ _ ⟨rfl,mirrors restored rfl⟩ ?_ ?_)
        · rintro path rest final v ⟨rfl,so_far⟩
          exact alone_read (fun c => rfl) ⟨rfl,clean_entry_mirrors so_far path _⟩
        · rintro final v ⟨rfl,so_far⟩
          exact .bind (alone_call fun c _ => .inr ⟨v,final,rfl,rfl,removed,so_far⟩)
  · rename_i old
    have refused := readable.resolve_left old
    unfold restore_legacy
    rw [refused]
    exact .inl ⟨⟨_,rfl⟩,.refl me w⟩

/-! Staging. -/

/-- Two indexes that differ at one path at most. -/
structure Elsewhere (path : Path) (idx next : Index H) : Prop where
  entries : ∀ other, other ≠ path → next.entries.get? other = idx.entries.get? other
  removed : ∀ other ∈ idx.removed, other ≠ path → other ∈ next.removed

theorem stage_one_file_alone (idx : Index H) (path : Path) : (alone env me may).Meets (stage_one_file env idx path)
    (fun r t => Aside me w t ∧ ∀ next, r = .ok next → Elsewhere path idx next) w := by
  have itself : Elsewhere path idx idx := ⟨fun _ _ => rfl,fun _ member _ => member⟩
  refine .bind (alone_call fun c _ => ?_)
  have moved := exec_sending env me _ c (.stage path (Index.classify_file path) (idx.entries.get? path) (env.flags_for path)) w trivial
  have answer : World.exec env me _ c (.stage path (Index.classify_file path) (idx.entries.get? path) (env.flags_for path)) w =
    w.stage env path (Index.classify_file path) (idx.entries.get? path) (env.flags_for path) := rfl
  rw [answer] at moved ⊢
  unfold World.stage at moved ⊢
  cases found : w.repo.files.get? path with
  | none =>
    rw [found] at moved
    exact ⟨moved,fun next impossible => by contradiction⟩
  | some file =>
    rw [found] at moved
    dsimp only at moved ⊢
    cases made : (_compute_stage_result env.staging w.repo.objects file path (Index.classify_file path) (idx.entries.get? path)
        (env.flags_for path)).2 with
    | none =>
      refine ⟨moved,fun next ended => ?_⟩
      obtain rfl := Except.ok.inj ended
      exact itself
    | some result =>
      obtain ⟨_,_,_,_,_,_,at_path,-⟩ := _compute_stage_result_shape made
      refine ⟨moved,fun next ended => ?_⟩
      obtain rfl := Except.ok.inj ended
      constructor
      · intro other away
        rw [apply_stage_result_get,if_neg (by rwa [at_path])]
      · intro other member away
        exact (List.mem_erase_of_ne (by rwa [at_path])).mpr member

end Alone

theorem alone_runs {env : Env} {α : Type} {p : Command H α} {post : Except (Failure H) α → World H → Prop}
    {r : Except (Failure H) α} (met : (alone env me at_will).Meets p post w) (ran : (alone env me at_will).Runs p w r t) : post r t :=
  (Meets.runs (fun _ _ _ _ _ _ _ => trivial) (fun _ => rfl) ran trivial met).2

end AetherVault.Solo
