import AetherVault.Alone
import AetherVault.CrashSafety
import AetherVault.Pull

/-! Which commands leave the local branches where they are. -/
namespace AetherVault
open Lib Hashing
open Lib.Prog (Only call forEach foldEach)

variable {H : Type} [DecidableEq H] [Hashing H]

/-- Operations that move no local branch. -/
def Op.Still (β : Type) (o : Op H β) : Prop :=
  match β,o with
  | _,.write_ref _ _ => False
  | _,_ => True

theorem exec_still (env : Env) (me : Nat) (β : Type) (c : Choice) (o : Op H β) (w : World H) (still : Op.Still β o) :
    (World.exec env me β c o w).2.repo.refs = w.repo.refs := by
  have plain (plain : Op.Plain β o) := (world_plain env me β c o w plain).2
  cases o with
  | write_ref name h => exact still.elim
  | write_commit h data => rfl
  | _ => exact plain trivial

theorem still_runs {env : Env} {me : Nat} {may : ∀ β, Choice → Op H β → World H → Prop} {α : Type} {p : Command H α}
    {w t : World H} {r : Except (Failure H) α} (only : p.Only Op.Still) (ran : (alone env me may).Runs p w r t) :
    t.repo.refs = w.repo.refs := by
  induction p generalizing w with
  | pure a => rw [(Discipline.runs_pure.mp ran).2]
  | fail e => rw [(Discipline.runs_fail.mp ran).2]
  | op o next ih =>
    obtain ⟨c,_,rest⟩ := Discipline.runs_op.mp ran
    exact (ih _ (only.2 _) rest).trans (exec_still env me _ c o w only.1)

/-- Operations that move no branch, here or on the registry, and store no commit. -/
def Op.Aloof (β : Type) (o : Op H β) : Prop :=
  match β,o with
  | _,.write_ref _ _ => False
  | _,.write_commit _ _ => False
  | _,.push_commit _ _ => False
  | _,.update_ref _ _ _ => False
  | _,_ => True

omit [DecidableEq H] [Hashing H] in
theorem Op.Aloof.still (β : Type) (o : Op H β) (aloof : Op.Aloof β o) : Op.Still β o := by
  cases o <;> trivial

omit [DecidableEq H] [Hashing H] in
theorem Op.Aloof.harmless (β : Type) (o : Op H β) (aloof : Op.Aloof β o) : Op.Harmless β o := by
  cases o <;> trivial

omit [DecidableEq H] [Hashing H] in
theorem Op.Quiet.aloof (β : Type) (o : Op H β) (quiet : Op.Quiet β o) : Op.Aloof β o := by
  cases o <;> trivial

omit [DecidableEq H] [Hashing H] in
theorem Op.Sending.still (β : Type) (o : Op H β) (sending : Op.Sending β o) : Op.Still β o := by
  cases o <;> trivial

omit [DecidableEq H] [Hashing H] in
theorem Op.Quiet.still (β : Type) (o : Op H β) (quiet : Op.Quiet β o) : Op.Still β o :=
  Op.Sending.still β o (Op.Quiet.sending β o quiet)

omit [DecidableEq H] [Hashing H] in
theorem Op.still_save (idx : Index H) : Op.Still Unit (.save_index idx) := trivial

omit [DecidableEq H] [Hashing H] in
theorem Op.aloof_save (idx : Index H) : Op.Aloof Unit (.save_index idx) := trivial

theorem materialize_tree_still (tree : Tree H) (idx : Index H) (verify : Bool) : (_materialize_tree tree idx verify).Only Op.Still :=
  materialize_tree_only Op.Quiet.still Op.still_save tree idx verify

omit [DecidableEq H] [Hashing H] in
theorem get_commit_still (h : H) : (VaultClient.get_commit h).Only Op.Still :=
  Only.bind (.call trivial) fun reply => received_only reply none fun _ => trivial

omit [DecidableEq H] [Hashing H] in
theorem find_commit_still (h : H) : (find_commit h).Only Op.Still := by
  apply Only.bind (.call trivial)
  intro found
  cases found with
  | some data => trivial
  | none =>
    apply Only.bind (.call trivial)
    intro available
    split
    · apply (get_commit_still h).bind
      intro served
      cases served with
      | none => trivial
      | some data => exact Only.bind (.call trivial) fun _ => trivial
    · trivial

omit [DecidableEq H] [Hashing H] in
theorem resolve_target_aloof (target : Target H) : (resolve_target target).Only Op.Aloof := by
  cases target with
  | commit h => trivial
  | branch name =>
    apply Only.bind (.call trivial)
    intro tip
    cases tip <;> trivial

theorem checkout_tree_aloof (h : H) (ref_name : Option String) (data : CommitData H) (force : Bool) :
    (checkout_tree h ref_name data force).Only Op.Aloof := by
  apply with_lock_only _ trivial trivial
  apply Only.bind (.call trivial)
  intro idx
  extract_lets restored
  have switched (dirty : List Path) : (restored dirty).Only Op.Aloof := by
    dsimp only [restored]
    split
    · apply (materialize_tree_only Op.Quiet.aloof Op.aloof_save data.tree idx true).bind
      exact fun _ => .call trivial
    · trivial
  split
  · exact switched []
  · exact ((collect_dirty_paths_quiet idx data.tree).mono Op.Quiet.aloof).bind switched

theorem checkout_still (target : Target H) (force : Bool) : (checkout target force).Only Op.Still := by
  apply ((resolve_target_aloof target).mono Op.Aloof.still).bind
  rintro ⟨commit_hash,ref_name⟩
  cases commit_hash with
  | none => trivial
  | some h =>
    apply (find_commit_still h).bind
    intro found
    cases found with
    | none => trivial
    | some data => exact (checkout_tree_aloof h ref_name data force).mono Op.Aloof.still

omit [DecidableEq H] [Hashing H] in
theorem merge_target_still (target : Target H) : (merge_target target).Only Op.Still := by
  cases target with
  | commit h => exact (find_commit_still h).bind fun _ => trivial
  | branch name =>
    apply Only.bind (.call trivial)
    intro tip
    cases tip <;> trivial

omit [Hashing H] in
theorem resolve_still (h : H) (fuel : Nat) (paged : Paged H) : (_resolve h fuel paged).Only Op.Still := by
  induction fuel generalizing paged with
  | zero => trivial
  | succ fuel ih =>
    unfold _resolve
    split
    · trivial
    · have listed : (VaultClient.list_commits (H := H) page_size paged.offset).Only Op.Still :=
        Only.bind (.call trivial) fun reply => received_only reply none fun _ => trivial
      apply listed.bind
      intro page
      cases page with
      | none => trivial
      | some page =>
        dsimp only
        split
        · trivial
        · exact ih _

omit [Hashing H] in
theorem pull_walk_still (fuel : Nat) (local_tip : Option H) (turns : Nat) (paged : Paged H) (cursor : Option H) :
    (pull_walk fuel local_tip turns paged cursor).Only Op.Still := by
  induction turns generalizing paged cursor with
  | zero => cases cursor <;> trivial
  | succ turns ih =>
    cases cursor with
    | none => trivial
    | some cursor =>
      unfold pull_walk
      split
      · trivial
      · apply Only.bind (.call trivial)
        intro found
        cases found with
        | some data => trivial
        | none =>
          apply (resolve_still cursor fuel paged).bind
          intro paged
          split
          · trivial
          · exact Only.bind (.call trivial) fun _ => ih _ _

/-! Stashes. -/

theorem revert_path_aloof (head_tree : Tree H) (idx : Index H) (path : Path) : (revert_path head_tree idx path).Only Op.Aloof := by
  unfold revert_path
  cases head_tree.get? path with
  | none => exact Only.bind (.call trivial) fun _ => trivial
  | some head_data =>
    apply ((materialize_file_quiet path _ _ _ false).mono Op.Quiet.aloof).bind
    intro _
    apply Only.bind (.call trivial)
    intro file
    cases file <;> trivial

theorem stash_path_aloof (env : Env) (head_tree : Tree H) (staged : List Path) (saved : Index H × List (StashEntry H))
    (path : Path) : (stash_path env head_tree staged saved path).Only Op.Aloof := by
  have staging : (stage_one_file env saved.1 path).Only Op.Aloof := by
    apply Only.bind (.call trivial)
    intro result
    split <;> trivial
  unfold stash_path
  extract_lets was_staged reverted
  have later (idx : Index H) : (reverted idx).Only Op.Aloof := by
    dsimp only [reverted]
    cases idx.entries.get? path with
    | none => trivial
    | some e => exact (revert_path_aloof head_tree idx path).bind fun _ => trivial
  split
  · exact later saved.1
  · exact staging.bind later

theorem stash_push_aloof (env : Env) : (_stash_push (H := H) env).Only Op.Aloof := by
  apply Only.bind (.call trivial)
  intro idx
  apply ((compute_status_quiet idx).mono Op.Quiet.aloof).bind
  intro status
  extract_lets dirty_paths
  split
  · trivial
  · apply (resolve_head_tree_quiet.mono Op.Quiet.aloof).bind
    intro head_tree
    apply (Only.foldEach (stash_path_aloof env head_tree status.staged) _ _).bind
    rintro ⟨reverted,stash_entries⟩
    exact Only.bind (.call trivial) fun _ => .call trivial

theorem stash_pop_aloof (stash_id : Option Nat) (delete_after : Bool) : (_stash_apply_or_pop (H := H) stash_id delete_after).Only Op.Aloof := by
  have popped (head_tree : Tree H) (idx : Index H) (entry : StashEntry H) : (pop_entry head_tree idx entry).Only Op.Aloof :=
    ((materialize_file_quiet _ _ _ _ false).mono Op.Quiet.aloof).bind fun _ => Only.bind (.call trivial) fun _ => trivial
  apply Only.bind (.call trivial)
  intro found
  split
  · trivial
  · rename_i id record
    apply Only.bind (.call trivial)
    intro idx
    apply (resolve_head_tree_quiet.mono Op.Quiet.aloof).bind
    intro head_tree
    apply (Only.foldEach (popped head_tree) record idx).bind
    intro restored
    apply Only.bind (.call trivial)
    intro _
    split
    · exact .call trivial
    · trivial

end AetherVault
