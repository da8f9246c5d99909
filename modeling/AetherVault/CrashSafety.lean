import AetherVault.PendingQueue

/-! Crash safety of committing. The commit is written, then queued, then the branch
moves: whatever prefix of the writes is executed, what a local branch reaches is there
and will be delivered, unless a merge drops a parent that the registry never stored. -/
namespace AetherVault
open Lib Hashing
open Lib.Prog (Only call forEach foldEach)
open Lib.Discipline (Meets)

variable {H : Type} [DecidableEq H] [Hashing H] [Canonical H]

/-- A commit may leave the queue once the registry has stored it; no one else is at work. -/
def stored_aim : Aim H where
  assigned _ _ := True
  publishing _ _ _ := True
  onward a b := ∀ h, a.commits.contains h = true → b.commits.contains h = true
  sole := True
  done server h := server.commits.contains h = true
  same commits _ h found := by rwa [commits]
  trans first later h found := later h (first h found)
  pushing server rejected h data other found := by
    rcases push_commit_stored server rejected h data with same | landed
    · rwa [same]
    · rw [landed]
      exact Dict.contains_set _ h data found
  moving _ _ h found := by rwa [update_ref_commits]
  stays_stored onward found := onward _ found
  stays_done onward done := onward _ done
  stored done := done
  apart _ stored := stored
  arrived _ _ stored _ := by rwa [update_ref_commits]
  contained _ stored _ _ := stored
  inherited _ _ _ _ stored := stored

/-- Every commit reached from `h` has its file, and the registry holds it or it is queued. -/
def Recoverable (s : Site H) (h : H) : Prop :=
  ∀ a, Search.Reach (parents_of s.repo.commits) h a → s.repo.commits.contains a = true ∧
    (s.server.commits.contains a = true ∨ ∃ e ∈ s.queue, e.commit_hash = a)

def OnBranch (s : Site H) (h : H) : Prop :=
  ∃ branch tip, s.repo.refs.get? branch = some (some tip) ∧ Search.Reach (parents_of s.repo.commits) tip h

/-- What a crash must not break: it holds of every local branch. -/
def Safe (s : Site H) : Prop := ∀ branch h, s.repo.refs.get? branch = some (some h) → Recoverable s h

/-- Committing, under the condition that a queue write made outside the lock, as a merge
that landed makes it, only drops commits that the registry has stored. -/
def committing (env : Env) (i : Nat) : Discipline (Op H) (Site H) Choice where
  exec := Site.exec env i
  may := fun β _ o s => match β,o with
    | _,.save_pending_push pending =>
      ¬s.Holds i → ∀ e ∈ s.queue, e ∉ pending → s.server.commits.contains e.commit_hash = true
    | _,_ => True
  inv := fun s => s.Sound stored_aim ∧ Safe s
  rely := fun s t => t = s
  pre := fun β c o s => (queueing stored_aim env i).pre β c o s ∧ match β,o with
    | _,.write_commit h data => OnBranch s h → ∀ parent ∈ data.parents, Recoverable s parent
    | _,.write_ref _ (some h) => Recoverable s h
    | _,_ => True

theorem committing_orderly {env : Env} {i : Nat} {β : Type} {c : Choice} {o : Op H β} {s : Site H}
    (allowed : (committing env i).may β c o s) : orderly stored_aim i β c o s := by
  cases o with
  | save_pending_push pending =>
    exact ⟨fun _ _ => trivial,fun unheld e member absent => ⟨Or.inl trivial,allowed unheld e member absent⟩⟩
  | update_ref ref_name h expected => exact ⟨trivial,fun _ => trivial⟩
  | write_head head => cases head <;> trivial
  | _ => trivial

/-! What keeps a commit recoverable. -/

theorem Recoverable.stays {s t : Site H} {h : H} (recoverable : Recoverable s h) (same : t.repo.commits = s.repo.commits)
    (moved : Advances stored_aim s t) : Recoverable t h := by
  intro a path
  rw [same] at path ⊢
  obtain ⟨filed,waits⟩ := recoverable a path
  refine ⟨filed,?_⟩
  have waiting : Waiting stored_aim a s := Or.symm waits
  rcases waiting.stays moved with queued | stored
  · exact Or.inr queued
  · exact Or.inl stored

omit [Canonical H] in
theorem Recoverable.parent {s : Site H} {h parent : H} (recoverable : Recoverable s h)
    (edge : parent ∈ parents_of s.repo.commits h) : Recoverable s parent :=
  fun a path => recoverable a (.head edge path)

omit [Canonical H] in
/-- A commit file whose parents are recoverable breaks no history it becomes part of. -/
theorem Recoverable.write {s : Site H} {h x : H} {data : CommitData H} (recoverable : Recoverable s x)
    (parents : ∀ parent ∈ data.parents, Recoverable s parent) :
    Recoverable {s with repo := {s.repo with commits := s.repo.commits.set h data}} x := by
  intro a path
  have reached : Recoverable s a := by
    induction path with
    | refl => exact recoverable
    | tail _ edge ih =>
      rename_i child parent _
      by_cases new : child = h
      · subst child
        simp only [parents_of,Dict.get?_set_same] at edge
        exact parents _ edge
      · simp only [parents_of,Dict.get?_set_other _ _ _ _ new] at edge
        exact ih.parent edge
  obtain ⟨filed,waits⟩ := reached a .refl
  exact ⟨Dict.contains_set _ h data filed,waits⟩

omit [Canonical H] in
theorem Recoverable.beside {s : Site H} {h x : H} {data : CommitData H} (recoverable : Recoverable s x)
    (apart : ¬Search.Reach (parents_of s.repo.commits) x h) :
    Recoverable {s with repo := {s.repo with commits := s.repo.commits.set h data}} x := by
  intro a path
  have reached : Search.Reach (parents_of s.repo.commits) x a := by
    induction path with
    | refl => exact .refl
    | tail _ edge ih =>
      rename_i child parent _
      have other : child ≠ h := fun same => apart (same ▸ ih)
      simp only [parents_of,Dict.get?_set_other _ _ _ _ other] at edge
      exact ih.tail edge
  obtain ⟨filed,waits⟩ := recoverable a reached
  exact ⟨Dict.contains_set _ h data filed,waits⟩

theorem Recoverable.top {s : Site H} {h : H} {data : CommitData H} (held : s.repo.commits.get? h = some data)
    (parents : ∀ parent ∈ data.parents, Recoverable s parent) (waits : Waiting stored_aim h s) : Recoverable s h := by
  intro a path
  rcases Relation.ReflTransGen.cases_head path with rfl | ⟨parent,edge,rest⟩
  · exact ⟨(s.repo.commits.contains_iff h).mpr ⟨data,held⟩,Or.symm waits⟩
  · rw [parents_of,held] at edge
    exact parents parent edge a rest

/-! What one operation changes. -/

/-- Operations that write no commit file and move no local branch. -/
def Op.Plain (β : Type) (o : Op H β) : Prop :=
  match β,o with
  | _,.write_commit _ _ => False
  | _,.write_ref _ _ => False
  | _,_ => True

omit [Canonical H] in
theorem world_plain (env : Env) (me : Nat) (β : Type) (c : Choice) (o : Op H β) (w : World H) (plain : Op.Plain β o) :
    (World.exec env me β c o w).2.repo.commits = w.repo.commits ∧ (World.exec env me β c o w).2.repo.refs = w.repo.refs := by
  have calm (quiet : Op.Quiet β o) : (World.exec env me β c o w).2.repo.commits = w.repo.commits ∧
      (World.exec env me β c o w).2.repo.refs = w.repo.refs :=
    ⟨(exec_quiet env me β c o w quiet).commits,(exec_quiet env me β c o w quiet).refs⟩
  have lock_kept (lock : LockName) : (w.acquire me lock).2.repo.commits = w.repo.commits ∧
      (w.acquire me lock).2.repo.refs = w.repo.refs := by
    unfold World.acquire
    split
    · exact ⟨rfl,rfl⟩
    · split <;> exact ⟨rfl,rfl⟩
  have lock_freed (lock : LockName) : (w.release me lock).repo.commits = w.repo.commits ∧
      (w.release me lock).repo.refs = w.repo.refs := by
    unfold World.release
    split
    · exact ⟨rfl,rfl⟩
    · split <;> exact ⟨rfl,rfl⟩
  have sent {α : Type} (effect : Server H → α × Server H) : (w.request c effect).2.repo = w.repo := (request_server _ c effect).1
  cases o with
  | write_commit h data => exact plain.elim
  | write_ref name h => exact plain.elim
  | save_index idx => exact ⟨rfl,rfl⟩
  | write_head head => exact ⟨rfl,rfl⟩
  | load_pending_push => exact ⟨rfl,rfl⟩
  | save_pending_push pending => exact ⟨rfl,rfl⟩
  | save_stash entries => exact ⟨rfl,rfl⟩
  | delete_stash id => exact ⟨rfl,rfl⟩
  | acquire lock => exact lock_kept lock
  | release lock => exact lock_freed lock
  | push_commit h data => exact ⟨congrArg Repo.commits (sent _),congrArg Repo.refs (sent _)⟩
  | update_ref ref_name h expected => exact ⟨congrArg Repo.commits (sent _),congrArg Repo.refs (sent _)⟩
  | _ => exact calm trivial

omit [Canonical H] in
theorem exec_plain {env : Env} {i : Nat} {β : Type} (c : Choice) (o : Op H β) (s : Site H) (plain : Op.Plain β o) :
    (Site.exec env i β c o s).2.repo.commits = s.repo.commits ∧ (Site.exec env i β c o s).2.repo.refs = s.repo.refs :=
  world_plain env i β c o ⟨s.repo,s.server,true⟩ plain

theorem committing_keeps (env : Env) (i : Nat) : (committing env i : Discipline (Op H) (Site H) Choice).Keeps := by
  rintro β c o s ⟨sound,safe⟩ allowed ⟨required,history⟩
  have kept := exec_kept sound i c o (committing_orderly allowed) required
  refine ⟨kept.sound,?_⟩
  have plain (plain : Op.Plain β o) : Safe (Site.exec env i β c o s).2 := by
    obtain ⟨commits,refs⟩ : (Site.exec env i β c o s).2.repo.commits = s.repo.commits ∧
        (Site.exec env i β c o s).2.repo.refs = s.repo.refs := exec_plain c o s plain
    intro branch h tip
    rw [refs] at tip
    exact (safe branch h tip).stays commits kept.advances
  cases o with
  | write_commit h data =>
    intro branch tip found
    by_cases reached : Search.Reach (parents_of s.repo.commits) tip h
    · exact (safe branch tip found).write (history ⟨branch,tip,found,reached⟩)
    · exact (safe branch tip found).beside reached
  | write_ref name h =>
    intro branch tip found
    simp only [committing,Site.exec,World.exec,Dict.get?_set] at found
    split at found
    · cases h with
      | none => simp at found
      | some h =>
        obtain rfl := Option.some.inj (Option.some.inj found)
        exact history
    · exact safe branch tip found
  | _ => exact plain trivial

/-! `_finalize_commit` under the condition. -/

section Finalize

variable {env : Env} {i : Nat} {s : Site H}

omit [Hashing H] [Canonical H] [DecidableEq H] in
theorem Op.Sending.plain (β : Type) (o : Op H β) (sending : Op.Sending β o) : Op.Plain β o := by
  cases o <;> trivial

/-- What holds of delivery for any aim holds of it here, and it writes no commit file. -/
theorem committing_sending {α : Type} {p : Command H α} {post : Except (Failure H) α → Site H → Prop}
    (only : p.Only Op.Sending) (does : Does stored_aim env i p post s) (free : ¬s.Holds i) :
    (committing env i).Meets p (fun r t => ((post r t ∧ ¬t.Holds i) ∧ Advances stored_aim s t) ∧
      t.repo.commits = s.repo.commits) s := by
  have met : (committing env i).Meets p (fun r t => (post r t ∧ ¬t.Holds i) ∧ Advances stored_aim s t) s := by
    refine (does free).transfer (D := queueing stored_aim env i) only rfl ?_ (fun _ both => both.1)
      (fun _ _ _ _ allowed => committing_orderly allowed) ?_
    · exact fun a b same => same ▸ .refl i a
    · intro β c o a sending _ required
      cases o <;> first | exact ⟨required,trivial⟩ | exact sending.elim
  exact met.within (D := committing env i) (R := fun a b => b.repo.commits = a.repo.commits) only
    (fun _ _ _ first later => later.trans first) (fun _ _ same => by rw [same])
    (fun _ c o a sending _ _ _ => (exec_plain c o a (Op.Sending.plain _ o sending)).1) rfl

theorem committing_call {β : Type} {o : Op H β} {post : Except (Failure H) β → Site H → Prop}
    (required : ∀ c, (committing env i).pre β c o s)
    (reached : ∀ c, post (.ok (Site.exec env i β c o s).1) (Site.exec env i β c o s).2) :
    (committing env i).Meets (call o) post s := by
  refine .call fun c t same _ _ => ?_
  obtain rfl : t = s := same
  exact ⟨required c,reached c⟩

theorem committing_aside {β : Type} {o : Op H β} {h : H} (plain : Op.Plain β o) (aside : Op.Aside β o)
    (free : ¬s.Holds i) (filed : s.repo.commits.contains h = true) : (committing env i).Meets (call o : Command H β)
      (fun r t => (∃ a, r = .ok a) ∧ t.repo.commits.contains h = true ∧ ¬t.Holds i) s := by
  refine committing_call (fun c => ?_) fun c => ⟨⟨_,rfl⟩,?_,?_⟩
  · cases o <;> first | exact ⟨trivial,trivial⟩ | exact aside.elim | exact plain.elim
  · rwa [(exec_plain c o s plain).1]
  · rwa [exec_steady_holds c o (Op.Aside.steady _ o aside)]

theorem persist_writes_committing {data : CommitData H} (ref_path remote_ref_name : Option String) (idx : Index H)
    (parents : ref_path.isSome = true ∨ OnBranch s (commit_hash data) → ∀ parent ∈ data.parents, Recoverable s parent)
    (free : ¬s.Holds i) :
    (committing env i).Meets (persist_writes (commit_hash data) data ref_path remote_ref_name idx)
      (fun r t => (r = .ok () → t.repo.commits.contains (commit_hash data) = true) ∧ ¬t.Holds i) s := by
  refine .bind (committing_call (fun c => ⟨genuine_new data,fun on => parents (Or.inr on)⟩) fun c => ?_)
  generalize written : (Site.exec env i _ c (.write_commit (commit_hash data) data) s).2 = t
  have held : t.repo.commits.get? (commit_hash data) = some data := by
    subst t
    exact Dict.get?_set_same _ _ _
  have filed : t.repo.commits.contains (commit_hash data) = true := (Dict.contains_iff _ _).mpr ⟨data,held⟩
  have history (on : ref_path.isSome = true) : ∀ parent ∈ data.parents, Recoverable t parent := by
    subst t
    exact fun parent member => (parents (Or.inl on) parent member).write (parents (Or.inl on))
  have unheld : ¬t.Holds i := by
    subst t
    exact free
  refine .bind ((committing_sending (queue_pending_push_sending _ remote_ref_name)
    (queue_pending_push_does _ remote_ref_name filed) unheld).mono fun r u reached => ?_)
  obtain ⟨⟨⟨waits,unheld⟩,moved⟩,same⟩ := reached
  have filed := moved.filed _ filed
  cases r with
  | error e => exact ⟨by simp,unheld⟩
  | ok _ =>
    have top (on : ref_path.isSome = true) : Recoverable u (commit_hash data) :=
      .top (by rw [same]; exact held) (fun parent member => (history on parent member).stays same moved) (waits rfl)
    have saved (v : Site H) (filed : v.repo.commits.contains (commit_hash data) = true) (unheld : ¬v.Holds i) :
        (committing env i).Meets (call (.save_index idx.clear_staged) : Command H Unit)
          (fun r t => (r = .ok () → t.repo.commits.contains (commit_hash data) = true) ∧ ¬t.Holds i) v :=
      (committing_aside (o := .save_index idx.clear_staged) trivial trivial unheld filed).mono fun _ _ last => ⟨fun _ => last.2.1,last.2.2⟩
    cases ref_path with
    | some branch =>
      refine .bind (committing_call (fun c => ⟨trivial,top rfl⟩) fun c => ?_)
      exact saved _ filed unheld
    | none =>
      refine .bind ((committing_aside (o := .write_head (.detached (commit_hash data))) trivial trivial unheld filed).mono
        fun r v last => ?_)
      obtain ⟨⟨_,rfl⟩,filed,unheld⟩ := last
      exact saved v filed unheld

theorem persist_commit_committing {data : CommitData H} (ref_path remote_ref_name : Option String) (idx : Index H)
    (parents : ref_path.isSome = true ∨ OnBranch s (commit_hash data) → ∀ parent ∈ data.parents, Recoverable s parent)
    (free : ¬s.Holds i) :
    (committing env i).Meets (persist_commit (commit_hash data) data ref_path remote_ref_name idx)
      (fun r t => (r = .ok () → t.repo.commits.contains (commit_hash data) = true) ∧ ¬t.Holds i) s := by
  have freed {u : Site H} (unheld : ¬u.Holds i) (c : Choice) : ¬(Site.exec env i _ c (.release .repo) u).2.Holds i := by
    rwa [exec_steady_holds (H := H) c (.release .repo) trivial]
  refine .bind (committing_call (fun c => ⟨trivial,trivial⟩) fun c => ?_)
  generalize locked : (Site.exec env i _ c (.acquire .repo) s).2 = t
  have unheld : ¬t.Holds i := by
    subst t
    rwa [exec_steady_holds (H := H) c (.acquire .repo) trivial]
  have history (on : ref_path.isSome = true ∨ OnBranch t (commit_hash data)) :
      ∀ parent ∈ data.parents, Recoverable t parent := by
    subst t
    have same := exec_aside env i _ c (.acquire .repo) s trivial
    have refs : (Site.exec env i _ c (.acquire .repo) s).2.repo.refs = s.repo.refs := (exec_plain c (.acquire .repo) s trivial).2
    refine fun parent member => (parents (on.imp_right ?_) parent member).stays same.commits (same.relies i).toAdvances
    rintro ⟨branch,tip,found,path⟩
    exact ⟨branch,tip,by rwa [refs] at found,by rwa [same.commits] at path⟩
  dsimp only
  split
  · refine .bind (.attempt ((persist_writes_committing ref_path remote_ref_name idx history unheld).mono fun r u reached => ?_))
    cases r with
    | ok _ =>
      refine .bind (committing_call (fun c => ⟨trivial,trivial⟩) fun c => ⟨fun _ => ?_,freed reached.2 c⟩)
      rw [(exec_plain c (.release .repo) u trivial).1]
      exact reached.1 rfl
    | error e =>
      refine .bind (committing_call (fun c => ⟨trivial,trivial⟩) fun c => ⟨by simp,freed reached.2 c⟩)
  · exact ⟨by simp,unheld⟩

/-- Every prefix of committing keeps the local branches safe. -/
theorem finalize_commit_committing {data : CommitData H} (ref_path : Option String) (idx : Index H) (defer_upload : Bool)
    (changed_paths : Option (List Path)) {on_persisted : Command H Unit} (quiet : on_persisted.Only Op.Quiet)
    (parents : ref_path.isSome = true ∨ OnBranch s (commit_hash data) → ∀ parent ∈ data.parents, Recoverable s parent)
    (free : ¬s.Holds i) :
    (committing env i).Meets (_finalize_commit env data ref_path idx defer_upload changed_paths on_persisted)
      (fun _ _ => True) s := by
  refine .bind ((persist_commit_committing ref_path (ref_path.map (remote_ref env)) idx parents free).mono ?_)
  rintro r t ⟨filed,still⟩
  cases r with
  | error e => trivial
  | ok _ =>
    refine .bind ((committing_sending (quiet.mono Op.Quiet.sending) (Does.quiet quiet) still).mono ?_)
    rintro r u ⟨⟨⟨_,still⟩,moved⟩,_⟩
    cases r with
    | error e => trivial
    | ok _ =>
      have delivered : Does stored_aim env i (deliver_commit (commit_hash data) data (ref_path.map (remote_ref env))
          defer_upload changed_paths) _ u :=
        deliver_commit_does (genuine_new data) (moved.filed _ (filed rfl)) (fun _ => trivial) defer_upload changed_paths
      refine .bind ((committing_sending (deliver_commit_sending _ _ _ _ _) delivered still).mono fun r v _ => ?_)
      cases r <;> trivial

end Finalize

/-- Wherever `_finalize_commit` is cut off: if what local branches reach was recoverable,
so were the parents of a commit that becomes part of a branch, and a merge that landed
only drops parents that the registry has stored, then all a local branch reaches has its
commit file and is held by the registry or still queued. -/
theorem commit_crash_safe (env : Env) (i : Nat) (s : Site H) (sound : s.Sound stored_aim) (safe : Safe s)
    (free : ¬s.Holds i) (data : CommitData H) (ref_path : Option String) (idx : Index H) (defer_upload : Bool)
    (changed_paths : Option (List Path)) (on_persisted : Command H Unit) (quiet : on_persisted.Only Op.Quiet)
    (parents : ref_path.isSome = true ∨ OnBranch s (commit_hash data) → ∀ parent ∈ data.parents, Recoverable s parent)
    (rest : Command H H) (t : Site H) (cut : (committing env i).Steps
      (_finalize_commit env data ref_path idx defer_upload changed_paths on_persisted,s) (rest,t)) : Safe t :=
  (Meets.steps (committing_keeps env i) (fun _ => rfl) cut ⟨sound,safe⟩
    (finalize_commit_committing ref_path idx defer_upload changed_paths quiet parents free)).1.2

/-! A first commit, and the merge that drops a parent. -/

def finalize_on_main (data : CommitData Name) : Command Name Name :=
  _finalize_commit desk data (some "main") .empty false none (.pure ())

/-- The site at the end of the command, all of its requests answered. -/
def finalized (data : CommitData Name) (s : Site Name) : Except (Failure Name) Name × Site Name :=
  (finalize_on_main data).run (Site.exec desk 1) (fun _ => answered) s

def locked_check (β : Type) (o : Op Name β) (s : Site Name) : Bool :=
  match β,o with
  | _,.save_pending_push _ => (s.repo.locks .queue).any (fun holder => holder.1 == 1)
  | _,_ => true

theorem commit_crash_safe_first : Safe (finalized (first_commit "a") (.start 0)).2 := by
  refine commit_crash_safe desk 1 (.start 0) (start_sound _ 0) ?_ ?_ (first_commit "a") (some "main") .empty false none
    (.pure ()) trivial ?_ (Prog.leaf (finalized (first_commit "a") (.start 0)).1) _ ?_
  · intro branch h found
    have entry := (Dict.mem_entries _ _ _).mpr found
    simp [Site.start,Repo.init,Dict.set,Dict.assign] at entry
  · rintro ⟨depth,held⟩
    simp [Site.start,Repo.init] at held
  · intro _ parent member
    simp [first_commit] at member
  · refine (committing desk 1).runs_of_run (fun _ => answered) locked_check ?_ (finalize_on_main (first_commit "a"))
      (.start 0) (by decide)
    intro β o s passed
    cases o with
    | save_pending_push pending =>
      simp only [locked_check,Option.any_eq_true,beq_iff_eq] at passed
      obtain ⟨⟨owner,depth⟩,holder,mine⟩ := passed
      exact fun unheld => absurd ⟨depth,by rw [← mine]; exact holder⟩ unheld
    | _ => trivial

theorem recoverable_root {s : Site Name} {h : Name} (alone : parents_of s.repo.commits h = [])
    (filed : s.repo.commits.contains h = true)
    (waits : s.server.commits.contains h = true ∨ ∃ e ∈ s.queue, e.commit_hash = h) : Recoverable s h := by
  intro a path
  rcases Relation.ReflTransGen.cases_head path with rfl | ⟨parent,edge,-⟩
  · exact ⟨filed,waits⟩
  · simp [alone] at edge

/-- In a state that processes reach, the merge of two recoverable commits is cut off at
its very end, and the branch reaches a commit that no one will ever deliver. -/
theorem merged_parent_stranded :
    ∃ (processes : Processes Name) (data : CommitData Name) (rest : Command Name Name) (t : Site Name),
      Works desk lawless beside (.start 1) processes ∧ Safe processes.state ∧
        (∀ parent ∈ data.parents, Recoverable processes.state parent) ∧
        (lawless 1).Steps (finalize_on_main data,processes.state) (rest,t) ∧ ¬Safe t := by
  have oversized_waits : Recoverable before_merge.state (commit_hash oversized_commit) :=
    recoverable_root (by decide) (by decide) (Or.inr (by decide))
  refine ⟨before_merge,merge_commit,Prog.leaf (finalized merge_commit before_merge.state).1,
    (finalized merge_commit before_merge.state).2,before_merge_reached,?_,?_,?_,?_⟩
  · intro branch h found
    have entry := (Dict.mem_entries _ _ _).mpr found
    have only : before_merge.state.repo.refs.entries = [("main",some (commit_hash oversized_commit))] := by decide
    rw [only] at entry
    simp only [List.mem_singleton,Prod.mk.injEq,Option.some.injEq] at entry
    exact entry.2 ▸ oversized_waits
  · intro parent member
    simp only [merge_commit,List.mem_cons,List.not_mem_nil,or_false] at member
    rcases member with rfl | rfl
    · exact oversized_waits
    · exact recoverable_root (by decide) (by decide) (Or.inl (by decide))
  · exact (lawless 1).runs_of_run (fun _ => answered) (fun _ _ _ => true) (fun _ _ _ _ => trivial) _ _ (by decide)
  · intro safe
    have reached : Search.Reach (parents_of (finalized merge_commit before_merge.state).2.repo.commits)
        (commit_hash merge_commit) (commit_hash oversized_commit) := .single (by decide)
    have held := (safe "main" (commit_hash merge_commit) (by decide) _ reached).2
    exact absurd held (by decide)

end AetherVault
