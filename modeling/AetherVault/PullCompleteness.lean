import AetherVault.PullHistory

/-! What a clone holds: after any run of clones and pulls in which none leaves out part of
what it was to fetch, the whole history of all that is here. -/
namespace AetherVault
open Lib Hashing
open Lib.Prog (Only call forEach foldEach)
open Lib.Discipline (Meets)

variable {H : Type} [DecidableEq H] [Hashing H]

/-! `clone` -/

section Clone

variable {env : Env} {me : Nat} {may : ∀ β, Choice → Op H β → World H → Prop} {w : World H}

def World.serves (w : World H) (h : H) : Prop := w.server.commits.contains h = true

/-- The tip is one that the registry has, and what is counted is here. -/
structure Cloning (w t : World H) (so_far : Cloned H) : Prop where
  tip : ∀ h, so_far.tip_hash = some h → w.serves h
  counted : 0 < so_far.count → ∃ g, t.repo.commits.contains g = true

theorem clone_row_meets {so_far : Cloned H} {row : H × CommitData H} {s : World H} (fresh : w.repo.commits = ∅)
    (served : w.server.get_commit row.1 = some row.2) (cloning : Cloning w s so_far) :
    (copying env me may w.serves w).Meets (clone_row so_far row) (fun r t => ∃ later, r = .ok later ∧ Cloning w t later) s := by
  have serves : w.serves row.1 := by
    obtain ⟨data,found,-⟩ := Option.map_eq_some_iff.mp served
    exact (Dict.contains_iff _ _).mpr ⟨data,found⟩
  refine .bind (copying_call fun c _ _ => ⟨⟨serves,by simp [fresh,Dict.contains],served⟩,_,rfl,?_,?_⟩)
  · intro h same
    dsimp only at same
    split at same
    · cases before : so_far.tip_hash with
      | none =>
        rw [before] at same
        exact Option.some.inj same ▸ serves
      | some tip =>
        rw [before] at same
        exact cloning.tip h (before.trans same)
    · exact cloning.tip h same
  · exact fun _ => ⟨row.1,by simp [World.exec,Dict.contains]⟩

theorem clone_pages_meets {fuel offset : Nat} {so_far : Cloned H} {s : World H} (fresh : w.repo.commits = ∅)
    (cloning : Cloning w s so_far) :
    (copying env me may w.serves w).Meets (clone_pages fuel offset so_far)
      (fun r t => ∀ later, r = .ok later → Cloning w t later) s := by
  induction fuel generalizing offset so_far s with
  | zero => exact fun _ same => by cases same
  | succ fuel ih =>
    have linked {t : World H} (linked : Linked s t) : Cloning w t so_far := by
      refine ⟨cloning.tip,?_⟩
      rw [linked.1]
      exact cloning.counted
    refine copying_request (·.list_commits page_size offset) (fun c => rfl) (fun c => trivial) (fun copied => ?_) ?_ ?_
    · rw [copied.page]
      refine .bind (.foldEach _ _ (J := fun rows so_far t => Cloning w t so_far ∧
        ∀ row ∈ rows, w.server.get_commit row.1 = some row.2) ⟨cloning,fun row member => (mem_page.mp member).2⟩ ?_ ?_)
      · intro row rest so_far t so
        refine (clone_row_meets fresh (so.2 row (by simp)) so.1).mono fun r u ended => ?_
        obtain ⟨later,rfl,cloning⟩ := ended
        exact ⟨cloning,fun other member => so.2 other (by simp [member])⟩
      · intro so_far t so
        dsimp only
        split
        · split
          · exact fun later same => Except.ok.inj same ▸ so.1
          · exact ih so.1
        · exact fun later same => Except.ok.inj same ▸ so.1
    · exact fun c t _ _ same later done => Except.ok.inj done ▸ linked same
    · exact fun c t _ _ same later done => by cases done

theorem clone_project_meets {fuel : Nat} {refs : Dict String H} {s : World H} (fresh : w.repo.commits = ∅)
    (served : ∀ name h, refs.get? name = some h → w.serves h) :
    (copying env me may w.serves w).Meets (clone_project env fuel refs) (fun _ _ => True) s := by
  have start : Cloning w s ⟨(pick_default_branch env refs).bind fun name => refs.get? (remote_ref env name),none,0⟩ := by
    refine ⟨fun h same => ?_,by simp⟩
    obtain ⟨name,-,found⟩ := Option.bind_eq_some_iff.mp same
    exact served _ h found
  refine .bind ((clone_pages_meets fresh start).mono fun r t ended => ?_)
  cases r with
  | error e => trivial
  | ok cloned =>
    have cloning := ended cloned rfl
    dsimp only
    split
    · trivial
    · rename_i some_rows
      obtain ⟨g,held⟩ := cloning.counted (by omega)
      refine .bind (copying_call fun c _ _ => ⟨fun h tip => Or.inr ⟨cloning.tip h tip,g,held,by simp [fresh,Dict.contains]⟩,?_⟩)
      refine .bind (copying_call fun c _ _ => ⟨trivial,?_⟩)
      refine .bind ((copying_restoring ((ensure_objects_local_quiet _).mono Op.Quiet.restoring)).mono fun r t _ => ?_)
      cases r with
      | error e => trivial
      | ok _ =>
        refine copying_read (fun c => rfl) (fun c => trivial) fun _ => ?_
        refine .bind ((copying_restoring (materialize_tree_only Op.Quiet.restoring Op.restoring_save _ _ _)).mono fun r t _ => ?_)
        cases r <;> trivial

theorem clone_meets (dag : w.server.Dag) (fresh : w.repo.commits = ∅) {fuel : Nat} :
    (copying env me may w.serves w).Meets (clone env fuel) (fun _ _ => True) w := by
  refine .bind (copying_call fun c _ _ => ⟨trivial,?_⟩)
  dsimp only
  split
  · refine copying_request (·.refs) (fun c => rfl) (fun c => trivial) (fun copied => ?_) ?_ ?_
    · apply clone_project_meets fresh
      intro name h found
      rw [copied.server_refs] at found
      exact dag.tips name h found
    · exact fun c t _ _ _ => clone_project_meets fresh (by simp)
    · exact fun c t _ _ _ => trivial
  · trivial

end Clone

/-! Runs of clones and pulls. -/

/-- The clone holds the whole history of what it holds and of what its branches are at, as the registry has it. -/
structure Whole (w : World H) : Prop where
  dag : w.server.Dag
  copies : ∀ h data, w.repo.commits.get? h = some data →
    ∃ row, w.server.commits.get? h = some row ∧ data.parents = row.parents
  closed : Chain.ClosedStore (parents_of w.server.commits) fun h => w.repo.commits.contains h = true
  tips : ∀ name h, w.repo.refs.get? name = some (some h) → w.repo.commits.contains h = true

/-- Every commit that is here is here with its parents, and branches are at commits that are here. -/
structure Rooted (w : World H) : Prop where
  dag : w.server.Dag
  closed : Chain.ClosedStore (parents_of w.repo.commits) fun h => w.repo.commits.contains h = true
  tips : ∀ name h, w.repo.refs.get? name = some (some h) → w.repo.commits.contains h = true

theorem whole_iff (w : World H) : Whole w ↔ Rooted w ∧ ∀ h data, w.repo.commits.get? h = some data →
    ∃ row, w.server.commits.get? h = some row ∧ data.parents = row.parents := by
  have same (copies : ∀ h data, w.repo.commits.get? h = some data →
      ∃ row, w.server.commits.get? h = some row ∧ data.parents = row.parents) (h : H) (held : w.repo.commits.contains h = true) :
      parents_of w.repo.commits h = parents_of w.server.commits h := by
    obtain ⟨data,found⟩ := (Dict.contains_iff _ _).mp held
    obtain ⟨row,stored,same⟩ := copies h data found
    simp only [parents_of,found,stored,same]
  constructor
  · intro whole
    refine ⟨⟨whole.dag,fun h held p parent => ?_,whole.tips⟩,whole.copies⟩
    rw [same whole.copies h held] at parent
    exact whole.closed h held p parent
  · intro both
    refine ⟨both.1.dag,both.2,fun h held p parent => ?_,both.1.tips⟩
    rw [← same both.2 h held] at parent
    exact both.1.closed h held p parent

/-- A pull that stores anything stores all that it was to fetch, each with its further parents here or fetched as well. -/
def pulls_whole (env : Env) (w t : World H) : Prop :=
  t.repo.commits = w.repo.commits ∨ ∀ h, w.Fetches env h → t.repo.commits.contains h = true ∧
    ∀ p ∈ parents_of w.server.commits h, w.repo.commits.contains p = true ∨ w.Fetches env p

/-- A clone that stores anything stores all there is. -/
def clones_whole (w t : World H) : Prop :=
  t.repo.commits = ∅ ∨ ∀ h, w.server.commits.contains h = true → t.repo.commits.contains h = true

/-- A pull or a clone, run to its end or cut short, or what else happens: others push, and commands move
branches among the commits that are here. -/
inductive Sync (env : Env) (me : Nat) (pulled cloned : World H → World H → Prop) : World H → World H → Prop
  | pull {w t : World H} {rest : Command H Pulled} (fuel : Nat) (force : Bool)
      (cut : (alone env me at_will).Steps (pull env fuel force,w) (rest,t)) (allowed : pulled w t) : Sync env me pulled cloned w t
  | clone {w t : World H} {rest : Command H Unit} (fuel : Nat)
      (cut : (alone env me at_will).Steps (clone env fuel,w.fresh) (rest,t)) (allowed : cloned w t) :
      Sync env me pulled cloned w t
  | elsewhere {w t : World H} (dag : t.server.Dag)
      (grown : ∀ h row, w.server.commits.get? h = some row → t.server.commits.get? h = some row)
      (commits : t.repo.commits = w.repo.commits)
      (tips : ∀ name h, t.repo.refs.get? name = some (some h) → t.repo.commits.contains h = true) :
      Sync env me pulled cloned w t

theorem Server.Dag.same {server later : Server H} (dag : server.Dag) (commits : later.commits = server.commits)
    (refs : later.refs = server.refs) : later.Dag := by
  obtain ⟨parents,acyclic,tips⟩ := dag
  rw [← commits] at parents acyclic tips
  rw [← refs] at tips
  exact ⟨parents,acyclic,tips⟩

omit [Hashing H] in
theorem contains_of_kept {before after : Dict H (CommitData H)}
    (kept : ∀ h data, before.get? h = some data → after.get? h = some data) {h : H} (held : before.contains h = true) :
    after.contains h = true := by
  obtain ⟨data,found⟩ := (Dict.contains_iff _ _).mp held
  exact (Dict.contains_iff _ _).mpr ⟨data,kept h data found⟩

section Steps

variable {env : Env} {me : Nat} {target : H → Prop} {w t : World H}

theorem Whole.copied_copies (whole : Whole w) (copied : Copied target w t) (h : H) (data : CommitData H)
    (found : t.repo.commits.get? h = some data) :
    ∃ row, t.server.commits.get? h = some row ∧ data.parents = row.parents := by
  rw [copied.server_commits]
  rcases copied.copies h data found with old | ⟨-,served⟩
  · exact whole.copies h data old
  · obtain ⟨row,stored,same⟩ := Option.map_eq_some_iff.mp served
    refine ⟨row,stored,?_⟩
    rw [← same]
    split <;> rfl

theorem Rooted.pull (rooted : Rooted w) (copied : Copied (w.Fetches env) w t) (pulled : pulls_whole env w t) : Rooted t := by
  refine ⟨rooted.dag.same copied.server_commits copied.server_refs,fun h held p parent => ?_,fun name h tip => ?_⟩
  · obtain ⟨data,found⟩ := (Dict.contains_iff _ _).mp held
    have named : p ∈ data.parents := by simpa only [parents_of,found] using parent
    rcases copied.copies h data found with old | ⟨fetched,served⟩
    · apply contains_of_kept copied.kept
      apply rooted.closed h ((Dict.contains_iff _ _).mpr ⟨data,old⟩) p
      simpa only [parents_of,old] using named
    · rcases pulled with same | all
      · rw [same] at held parent ⊢
        exact rooted.closed h held p parent
      · rcases (all h fetched).2 p (by rwa [get_commit_parents served]) with here | fetches
        · exact contains_of_kept copied.kept here
        · exact (all p fetches).1
  · rcases copied.tips name h tip with old | held | ⟨fetched,g,held,fresh⟩
    · exact contains_of_kept copied.kept (rooted.tips name h old)
    · exact held
    · rcases pulled with same | all
      · rw [same,fresh] at held
        cases held
      · exact (all h fetched).1

theorem Rooted.fresh (dag : w.server.Dag) : Rooted w.fresh := by
  refine ⟨dag,fun h held => ?_,fun name h tip => ?_⟩
  · simp [World.fresh,Repo.init,Dict.contains] at held
  · simp only [World.fresh,Repo.init,Dict.get?_set] at tip
    split at tip <;> simp at tip

theorem Rooted.clone (dag : w.server.Dag) (copied : Copied w.fresh.serves w.fresh t) (cloned : clones_whole w t) : Rooted t := by
  have empty : w.fresh.repo.commits = ∅ := rfl
  refine ⟨dag.same copied.server_commits copied.server_refs,fun h held p parent => ?_,fun name h tip => ?_⟩
  · rcases cloned with none | all
    · simp [none,Dict.contains] at held
    · obtain ⟨data,found⟩ := (Dict.contains_iff _ _).mp held
      rcases copied.copies h data found with old | ⟨-,served⟩
      · simp [empty] at old
      · have named : parents_of w.server.commits h = data.parents := get_commit_parents served
        apply all p
        apply dag.next (h := h)
        rw [named]
        simpa only [parents_of,found] using parent
  · rcases copied.tips name h tip with old | held | ⟨served,g,held,-⟩
    · exact absurd ((Rooted.fresh dag).tips name h old) (by simp [empty,Dict.contains])
    · exact held
    · rcases cloned with none | all
      · simp [none,Dict.contains] at held
      · exact all h served

theorem Rooted.elsewhere (rooted : Rooted w) (dag : t.server.Dag) (commits : t.repo.commits = w.repo.commits)
    (tips : ∀ name h, t.repo.refs.get? name = some (some h) → t.repo.commits.contains h = true) : Rooted t := by
  refine ⟨dag,?_,tips⟩
  rw [commits]
  exact rooted.closed

theorem Sync.rooted (step : Sync env me (pulls_whole env) clones_whole w t) (rooted : Rooted w) : Rooted t := by
  cases step with
  | pull fuel force cut pulled => exact rooted.pull (copying_steps cut (pull_meets rooted.dag)).1 pulled
  | clone fuel cut cloned =>
    have dag : w.fresh.server.Dag := rooted.dag
    exact Rooted.clone rooted.dag (copying_steps cut (clone_meets dag rfl)).1 cloned
  | elsewhere dag grown commits tips => exact rooted.elsewhere dag commits tips

theorem Sync.whole (step : Sync env me (pulls_whole env) clones_whole w t) (whole : Whole w) : Whole t := by
  obtain ⟨rooted,copies⟩ := (whole_iff w).mp whole
  refine (whole_iff t).mpr ⟨step.rooted rooted,?_⟩
  cases step with
  | pull fuel force cut pulled => exact whole.copied_copies (copying_steps cut (pull_meets rooted.dag)).1
  | clone fuel cut cloned =>
    have dag : w.fresh.server.Dag := rooted.dag
    have start : Whole w.fresh := (whole_iff _).mpr ⟨.fresh dag,fun h data found => by simp [World.fresh,Repo.init] at found⟩
    exact start.copied_copies (copying_steps cut (clone_meets dag rfl)).1
  | elsewhere dag grown commits tips =>
    intro h data found
    rw [commits] at found
    obtain ⟨row,stored,same⟩ := copies h data found
    exact ⟨row,grown h row stored,same⟩

end Steps

/-- In every run of clones and pulls none of which leaves out part of what it was to fetch, the store is whole; and the
next pull that reports success or divergence has brought every ancestor of the remote tip, exactly when each further
parent of the commits it fetches is here or fetched as well. -/
theorem pull_brings_history (env : Env) (me : Nat) (start w : World H) (whole : Whole start)
    (run : Relation.ReflTransGen (Sync env me (pulls_whole env) clones_whole) start w) :
    Whole w ∧ ∀ fuel force r t branch tip, (alone env me at_will).Runs (pull env fuel force) w r t → Reported r →
      w.repo.head = .branch branch → w.server.refs.get? (remote_ref env branch) = some tip →
      ((∀ h, Search.Reach (parents_of w.server.commits) tip h → t.repo.commits.contains h = true) ↔
        ∀ h, w.Fetches env h → ∀ p ∈ parents_of w.server.commits h,
          w.repo.commits.contains p = true ∨ w.Fetches env p) := by
  have now : Whole w := by
    induction run with
    | refl => exact whole
    | tail _ step ih => exact step.whole ih
  refine ⟨now,fun fuel force r t branch tip ran reported head remote => ?_⟩
  obtain ⟨copied,pulls⟩ := copying_runs ran (pull_meets now.dag)
  have fetches_iff (h : H) : w.Fetches env h ↔ w.passes (w.repo.refs.get? branch).join tip h := by
    refine ⟨?_,fun passed => ⟨branch,tip,head,remote,passed⟩⟩
    rintro ⟨other,again,head',remote',passed⟩
    obtain rfl : branch = other := Head.branch.inj (head.symm.trans head')
    obtain rfl : tip = again := Option.some.inj (remote.symm.trans remote')
    exact passed
  simp only [fetches_iff]
  rcases pulls.reported reported branch tip head remote with same | ⟨differ,join_found,walked⟩
  · have nothing (h : H) : ¬w.passes (w.repo.refs.get? branch).join tip h := by
      intro passed
      have stops : w.stops (w.repo.refs.get? branch).join tip := Or.inl same
      exact passed.2 (passed.1.stopped stops ▸ stops)
    refine ⟨fun _ h passed => absurd passed (nothing h),fun _ h path => ?_⟩
    exact contains_of_kept copied.kept (now.closed.reach (now.tips branch tip (Option.join_eq_some_iff.mp same)) path)
  · have taken : w.repo.commits.contains tip = true ∨ w.passes (w.repo.refs.get? branch).join tip tip := by
      by_cases held : w.repo.commits.contains tip = true
      · exact Or.inl held
      · exact Or.inr ⟨.refl,fun stops => stops.elim differ held⟩
    have known (h : H) := walked_knows copied (fun h fetched => (fetches_iff h).mp fetched) walked h
    simp only [known,World.knows]
    exact Chain.reached_held_iff now.closed taken

theorem early_whole : Whole early := by
  refine ⟨registry_dag (by decide) (by decide),fun h data found => ?_,fun h held => ?_,fun name h tip => ?_⟩
  · simp [early,Repo.init] at found
  · simp [early,Repo.init,Dict.contains] at held
  · simp only [early,Repo.init,Dict.get?_set] at tip
    split at tip <;> simp at tip

theorem grown_reached {pulls clones : World Name → World Name → Prop} (allowed : clones early cloned)
    {rows : List (CommitData Name)} {tip : Name} (dag : (registry rows tip).Dag)
    (more : ∀ data ∈ [base,mine], (registry rows tip).commits.get? (commit_hash data) = some data) :
    Relation.ReflTransGen (Sync desk 0 pulls clones) early (grown rows tip) := by
  have ran : (alone desk 0 at_will).Runs (clone desk 3) early.fresh _ cloned :=
    Discipline.runs_of_run (fun _ => answered) (fun _ _ _ => true) (fun _ _ _ _ => trivial) _ _ (Prog.checks_true _ _ _ _)
  refine .tail (.single (.clone 3 ran allowed)) (.elsewhere dag (fun h row found => ?_) rfl fun name h at_tip => ?_)
  · have early_row : early.server.commits.get? h = some row := by
      have same : cloned.server.commits = early.server.commits := by decide
      exact same ▸ found
    obtain ⟨member,rfl⟩ := registry_rows early_row
    exact more row member
  · have entries : cloned.repo.refs.entries = [("main",some (commit_hash mine))] := by decide
    have member := (Dict.mem_entries _ _ _).mpr at_tip
    rw [show (grown rows tip).repo.refs.entries = _ from entries] at member
    obtain ⟨-,rfl⟩ : name = "main" ∧ h = commit_hash mine := by simpa using member
    have held : cloned.repo.commits.contains (commit_hash mine) = true := by decide
    exact held

theorem cloned_whole : clones_whole early cloned := by
  refine Or.inr fun h stored => ?_
  obtain ⟨data,found⟩ := (Dict.contains_iff _ _).mp stored
  obtain ⟨member,rfl⟩ := registry_rows found
  simp only [List.mem_cons,List.not_mem_nil,or_false] at member
  rcases member with rfl | rfl <;> decide

theorem pull_brings_history_forward : (pulled forward).1 = .ok .fast_forwarded ∧
    ∀ h, Search.Reach (parents_of forward.server.commits) (commit_hash next_change) h →
      (pulled forward).2.repo.commits.contains h = true := by
  have reached : Relation.ReflTransGen (Sync desk 0 (pulls_whole desk) clones_whole) early forward :=
    grown_reached cloned_whole forward_dag (by decide)
  have brings := (pull_brings_history desk 0 early forward early_whole reached).2 9 false _ _ "main" (commit_hash next_change)
    (pulled_runs forward) (Or.inr (Or.inl (by decide))) (by decide) (by decide)
  refine ⟨by decide,brings.mpr fun h _ p parent => Or.inl ?_⟩
  unfold parents_of at parent
  split at parent
  · rename_i data found
    have member := (registry_rows found).1
    simp only [List.mem_cons,List.not_mem_nil,or_false] at member
    rcases member with rfl | rfl | rfl
    · simp [base,change] at parent
    · obtain rfl : p = commit_hash base := by simpa [mine,change] using parent
      decide
    · obtain rfl : p = commit_hash mine := by simpa [next_change,change] using parent
      decide
  · simp at parent

/-- Pull follows first parents: the merge's other parent stays on the registry. -/
theorem second_parent_missed : ∃ w t : World Name,
    Relation.ReflTransGen (Sync desk 0 (fun _ _ => True) (fun _ _ => True)) early w ∧ Whole early ∧
      (alone desk 0 at_will).Runs (pull desk 9 false) w
        (.error (.merge_conflict (some (commit_hash mine)) (commit_hash merged))) t ∧
      w.server.refs.get? "p/main" = some (commit_hash merged) ∧
      Search.Reach (parents_of w.server.commits) (commit_hash merged) (commit_hash next_change) ∧
      t.repo.commits.contains (commit_hash next_change) = false := by
  have ran := pulled_runs crossed
  have result : (pulled crossed).1 = .error (.merge_conflict (some (commit_hash mine)) (commit_hash merged)) := by decide
  rw [result] at ran
  exact ⟨crossed,_,grown_reached trivial crossed_dag (by decide),early_whole,ran,by decide,merged_reaches.1,by decide⟩

end AetherVault
