import AetherVault.Delivery
import AetherVault.LocalRefs
import AetherVault.MergeHistory
import AetherVault.PullHistory

/-! The branches of one repository under any number of processes that commit, merge, pull, check out, stash and make
branches. What a command puts on a branch follows the commit that it found there; it may have been moved since. -/
namespace AetherVault
open Lib Hashing
open Lib.Prog (Only call forEach foldEach)
open Lib.Discipline (Accepts Meets)

variable {H : Type} [DecidableEq H] [Hashing H]

/-- What a command found a branch at: no branch, one without commits, or a commit. -/
abbrev Found (H : Type) := Option (Option (Option H))

/-- One repository and the registry; `found` is what the command of each process first found each branch at. -/
structure Workshop (H : Type) [DecidableEq H] [Hashing H] where
  repo : Repo H
  server : Server H
  found : Nat → String → Found H

namespace Workshop

def noted (i : Nat) (found : Nat → String → Found H) {β : Type} (o : Op H β) (answer : β) : Nat → String → Found H :=
  match β,o,answer with
  | _,.read_ref name,answer =>
    if (found i name).isSome then found else Function.update found i (Function.update (found i) name (some answer))
  | _,_,_ => found

def exec (env : Env) (i : Nat) (β : Type) (c : Choice) (o : Op H β) (s : Workshop H) : β × Workshop H :=
  let done := World.exec env i β c o ⟨s.repo,s.server,true⟩
  (done.1,⟨done.2.repo,done.2.server,noted i s.found o done.1⟩)

/-- The operating system drops the locks of a process that ends; its next command has looked at no branch. -/
def leave (i : Nat) (s : Workshop H) : Workshop H where
  repo := {s.repo with locks := fun lock => (s.repo.locks lock).filter (fun holder => holder.1 != i)}
  server := s.server
  found := Function.update s.found i (fun _ => none)

end Workshop

variable [Canonical H]

/-- Every commit is stored under its own name. -/
structure Workshop.Vetted (s : Workshop H) : Prop where
  stored : ∀ h data, s.repo.commits.get? h = some data → Genuine h data
  pushed : ∀ h data, s.server.commits.get? h = some data → Genuine h data

/-- What comes after the commit that was found. -/
def Follows (found : Found H) (tip : Option H) : Prop := ∀ x, found = some (some (some x)) → ∃ y, tip = some y ∧ Ancestor x y

/-- The branch is still where the command found it. One that it has not looked at has no commit, or one that the commit
it is given follows. -/
def Workshop.InPlace (s : Workshop H) (i : Nat) (name : String) (tip : Option H) : Prop :=
  match s.found i name with
  | some found => s.repo.refs.get? name = found
  | none => Follows (some (s.repo.refs.get? name)) tip

/-- Commits are stored and pushed under their own names. -/
def recording (env : Env) (i : Nat) : Discipline (Op H) (Workshop H) Choice where
  exec := Workshop.exec env i
  may := fun _ _ _ _ => True
  inv := Workshop.Vetted
  rely := fun _ _ => True
  pre := fun β _ o _ => Op.Named β o

/-- A branch is only put on what follows the commit that was found there. -/
def guiding (env : Env) (i : Nat) : Discipline (Op H) (Workshop H) Choice where
  exec := Workshop.exec env i
  may := fun _ _ _ _ => True
  inv := Workshop.Vetted
  rely := fun s t => t.found i = s.found i
  pre := fun β _ o s => match β,o with
    | _,.write_ref name tip => Follows (s.found i name) tip
    | _,_ => True

/-- When a process may write a branch. -/
abbrev Writing (H : Type) [DecidableEq H] [Hashing H] := Workshop H → Nat → String → Option H → Prop

/-- Both, with a rule for when branches are written. -/
def minding (rule : Writing H) (env : Env) (i : Nat) : Discipline (Op H) (Workshop H) Choice where
  exec := Workshop.exec env i
  may := fun β _ o s => match β,o with
    | _,.write_ref name tip => rule s i name tip
    | _,_ => True
  inv := Workshop.Vetted
  rely := fun s t => t.found i = s.found i
  pre := fun β c o s => (recording env i).pre β c o s ∧ (guiding env i).pre β c o s

theorem exec_vetted {env : Env} {i : Nat} {s : Workshop H} (vetted : s.Vetted) {β : Type} (c : Choice) (o : Op H β)
    (named : Op.Named β o) : (Workshop.exec env i β c o s).2.Vetted := by
  obtain ⟨stored,pushed⟩ := exec_named env i c o ⟨s.repo,s.server,true⟩ vetted.stored vetted.pushed named
  exact ⟨stored,pushed⟩

/-! What commands store. -/

section Storing

variable {env : Env} {i : Nat}

theorem recording_vets : Vets (recording env i : Discipline (Op H) (Workshop H) Choice) Genuine where
  harmless β c o s quiet _ _ := by cases o <;> first | exact quiet.elim | trivial
  read c s h data vetted found := vetted.stored h data found
  served c s h data vetted found := by
    have answer : s.server.get_commit h = some data := by
      simp only [recording,Workshop.exec,World.exec,World.request] at found
      split at found <;> simp_all
    exact Fleet.served_genuine vetted.pushed answer
  write c s h data genuine := genuine
  push c s h data genuine := genuine
  ref c s ref_name h data expected genuine fits := trivial

theorem recording_aloof {α : Type} {p : Command H α} (only : p.Only Op.Aloof) : (recording env i).Accepts p :=
  recording_vets.only (only.mono Op.Aloof.harmless)

/-- The rows that a pull has been shown. -/
def Paged.Genuine (paged : Paged H) : Prop := ∀ h data, paged.known.get? h = some data → AetherVault.Genuine h data

theorem paged_read_genuine {server : Server H} (pushed : ∀ h data, server.commits.get? h = some data → Genuine h data)
    {paged : Paged H} (known : paged.Genuine) (limit offset : Nat) : (paged.read (server.list_commits limit offset)).Genuine := by
  have rows : ∀ row ∈ (server.list_commits limit offset).1, Genuine row.1 row.2 := by
    intro row member
    obtain ⟨item,-,served⟩ := List.mem_filterMap.mp member
    obtain ⟨data,found,rfl⟩ := Option.map_eq_some_iff.mp served
    exact Fleet.served_genuine pushed found
  unfold Paged.read Paged.Genuine
  dsimp only
  generalize (server.list_commits limit offset).1 = page at rows
  have all : ∀ (commits : Dict H (CommitData H)), (∀ h data, commits.get? h = some data → Genuine h data) →
      ∀ h data, (page.foldl (fun known row => known.set row.1 row.2) commits).get? h = some data → Genuine h data := by
    induction page with
    | nil => exact fun commits genuine => genuine
    | cons row page ih =>
      intro commits genuine
      apply ih (fun r member => rows r (List.mem_cons_of_mem _ member))
      exact set_genuine genuine (rows row List.mem_cons_self)
  exact all paged.known known

theorem recording_list {limit offset : Nat} {paged : Paged H} (known : paged.Genuine) {s : Workshop H} :
    (recording env i).Meets (VaultClient.list_commits limit offset)
      (fun r _ => ∀ page, r = .ok (some page) → (paged.read page).Genuine) s := by
  apply Meets.bind
  apply Meets.call
  intro c t _ vetted _
  refine ⟨trivial,?_⟩
  simp only [recording,Workshop.exec,World.exec,World.request]
  cases c.net with
  | answered =>
    intro page same
    cases same
    exact paged_read_genuine vetted.pushed known limit offset
  | refused => exact fun _ same => by cases same
  | lost => exact fun _ same => by cases same
  | unanswered => exact fun _ same => by cases same

theorem recording_resolve {h : H} {fuel : Nat} {paged : Paged H} (known : paged.Genuine) {s : Workshop H} :
    (recording env i).Meets (_resolve h fuel paged) (fun r _ => ∀ paged', r = .ok paged' → paged'.Genuine) s := by
  induction fuel generalizing paged s with
  | zero => exact fun _ same => by cases same
  | succ fuel ih =>
    unfold _resolve
    split
    · intro paged' same
      exact Except.ok.inj same ▸ known
    · apply Meets.bind
      apply (recording_list known).mono
      intro r t listed
      cases r with
      | error e => exact fun _ same => by cases same
      | ok page =>
        cases page with
        | none =>
          intro paged' same
          exact Except.ok.inj same ▸ known
        | some page =>
          dsimp only
          split
          · intro paged' same
            exact Except.ok.inj same ▸ known
          · exact ih (listed page rfl)

theorem recording_walk {fuel : Nat} {local_tip : Option H} {turns : Nat} {paged : Paged H} (known : paged.Genuine) {cursor : Option H} :
    (recording env i).Accepts (pull_walk fuel local_tip turns paged cursor) := by
  induction turns generalizing paged cursor with
  | zero => cases cursor <;> exact fun _ => trivial
  | succ turns ih =>
    cases cursor with
    | none => exact fun _ => trivial
    | some cursor =>
      unfold pull_walk
      split
      · exact .pure true
      · apply (recording_vets.call (.read_commit cursor) trivial).bind
        intro found
        cases found with
        | some data => exact .pure true
        | none =>
          intro s
          apply Meets.bind
          apply (recording_resolve known).mono
          intro r t resolved
          cases r with
          | error e => trivial
          | ok paged =>
            have known := resolved paged rfl
            dsimp only
            cases held : paged.known.get? cursor with
            | none => trivial
            | some data =>
              apply Meets.bind
              apply Meets.call
              intro c u _ _ _
              exact ⟨known cursor data held,ih known _⟩

omit [Hashing H] [Canonical H] in
theorem ff_allowed_aloof (local_tip : Option H) (remote_tip : H) (join_found : Bool) :
    (ff_allowed local_tip remote_tip join_found).Only Op.Aloof := by
  cases local_tip with
  | none => trivial
  | some tip =>
    unfold ff_allowed
    dsimp only
    split
    · exact Only.bind (.call trivial) fun _ => trivial
    · trivial

omit [DecidableEq H] [Hashing H] [Canonical H] in
theorem get_ref_aloof (ref_name : String) : (VaultClient.get_ref (H := H) ref_name).Only Op.Aloof :=
  Only.bind (.call trivial) fun reply => received_only reply none fun _ => trivial

omit [Canonical H] in
theorem uncommitted_aloof (force : Bool) (idx : Index H) : (uncommitted force idx).Only Op.Aloof := by
  unfold uncommitted
  split
  · trivial
  · exact (collect_dirty_paths_quiet idx ∅).mono Op.Quiet.aloof

theorem recording_fast_forward (name : String) (tip : H) (tree : Tree H) (idx : Index H) :
    (recording env i).Accepts (fast_forward name tip tree idx) := by
  apply (recording_vets.quiet (ensure_objects_local_quiet tree)).bind
  intro _
  apply (recording_vets.materialize_tree tree idx false).bind
  exact fun _ => recording_vets.call (.write_ref name (some tip)) trivial

theorem recording_pull (fuel : Nat) (force : Bool) : (recording env i).Accepts (pull env fuel force : Command H Pulled) := by
  have operation {β : Type} (o : Op H β) (harmless : Op.Harmless β o) : (recording env i).Accepts (call o : Command H β) :=
    recording_vets.call o harmless
  have onto (branch : String) (tip : H) : (recording env i).Accepts (pull_onto branch tip force) := by
    apply (operation .load_index trivial).bind
    intro idx
    apply (recording_aloof (uncommitted_aloof force idx)).bind
    intro dirty
    split
    · apply (operation (.read_commit tip) trivial).bind
      intro tip_data
      apply (recording_fast_forward branch tip _ idx).bind
      exact fun _ => .pure _
    · exact .fail _
  have tip (branch : String) (local_tip : Option H) (remote_tip : H) :
      (recording env i).Accepts (pull_tip fuel branch local_tip remote_tip) := by
    apply Accepts.bind
    · apply recording_walk
      exact fun h data held => by simp at held
    · intro join_found
      apply (recording_aloof (ff_allowed_aloof local_tip remote_tip join_found)).bind
      exact fun _ => .pure _
  have decision : (recording env i).Accepts (pull_decision env fuel : Command H (Decision H)) := by
    apply (operation .read_head trivial).bind
    intro head
    cases head with
    | detached h => exact .fail _
    | branch branch =>
      apply (operation (.read_ref branch) trivial).bind
      intro found
      apply (operation .server_available trivial).bind
      intro available
      split
      · apply (recording_aloof (get_ref_aloof (remote_ref env branch))).bind
        intro answer
        cases answer with
        | none => exact .pure _
        | some remote_tip =>
          dsimp only
          split
          · exact .pure _
          · exact tip branch found.join remote_tip
      · exact .fail _
  apply decision.bind
  intro d
  cases d with
  | no_remote_branch => exact .pure _
  | up_to_date => exact .pure _
  | diverged local_tip remote_tip => exact .fail _
  | fast_forward branch remote_tip => exact onto branch remote_tip

theorem recording_checkout (target : Target H) (force : Bool) : (recording env i).Accepts (checkout target force) := by
  apply (recording_aloof (resolve_target_aloof target)).bind
  rintro ⟨commit_hash,ref_name⟩
  cases commit_hash with
  | none => exact .fail _
  | some h =>
    apply (recording_vets.find_commit h).bind
    intro found
    cases found with
    | none => exact .fail _
    | some data => exact recording_aloof (checkout_tree_aloof h ref_name data force)

end Storing

/-- The commands that the processes run; a commit of the command line or the library is the same. -/
inductive LocalCommand (env : Env) : Command H Unit → Prop
  | commit (message : String) (defer_upload : Bool) : LocalCommand env (do
      let _ ← commit_staged env message defer_upload
      .pure ())
  | merge (target : Target H) (options : MergeOptions) : LocalCommand env (merge env target options)
  | pull (fuel : Nat) (force : Bool) : LocalCommand env (do
      let _ ← pull env fuel force
      .pure ())
  | checkout (target : Target H) (force : Bool) : LocalCommand env (checkout target force)
  | branch (name : String) : LocalCommand env (branch name)
  | stash : LocalCommand env (_stash_push env)
  | stash_pop (stash_id : Option Nat) (delete_after : Bool) : LocalCommand env (_stash_apply_or_pop stash_id delete_after)

theorem recording_command {env : Env} {i : Nat} {p : Command H Unit} (command : LocalCommand env p) : (recording env i).Accepts p := by
  cases command with
  | commit message defer_upload => exact (recording_vets.commit_staged genuine_new env message defer_upload).bind fun _ => .pure ()
  | merge target options => exact recording_vets.merge genuine_new env target options
  | pull fuel force => exact (recording_pull fuel force).bind fun _ => .pure ()
  | checkout target force => exact recording_checkout target force
  | branch name =>
    apply (recording_vets.quiet head_parents_quiet).bind
    exact fun head => recording_vets.call (.write_ref name head.1.head?) trivial
  | stash => exact recording_aloof (stash_push_aloof env)
  | stash_pop stash_id delete_after => exact recording_aloof (stash_pop_aloof stash_id delete_after)

/-! What commands put on a branch. -/

/-- The command found the branch so. -/
def Workshop.Knows (i : Nat) (name : String) (answer : Option (Option H)) (s : Workshop H) : Prop := s.found i name = some answer

/-- The command has looked at no branch yet. -/
def Workshop.Fresh (i : Nat) (s : Workshop H) : Prop := s.found i = fun _ => none

/-- Operations that neither look at a local branch nor move one. -/
def Op.Blind (β : Type) (o : Op H β) : Prop :=
  match β,o with
  | _,.read_ref _ => False
  | _,.write_ref _ _ => False
  | _,_ => True

section Guiding

variable {env : Env} {i : Nat} {J : Workshop H → Prop} {s : Workshop H}

omit [Canonical H] in
theorem exec_blind {β : Type} (c : Choice) (o : Op H β) (s : Workshop H) (blind : Op.Blind β o) :
    (Workshop.exec env i β c o s).2.found = s.found := by
  cases o <;> first | rfl | exact blind.elim

omit [Canonical H] in
theorem exec_knows {name : String} {answer : Option (Option H)} {β : Type} (c : Choice) (o : Op H β) (known : s.Knows i name answer) :
    (Workshop.exec env i β c o s).2.Knows i name answer := by
  cases o with
  | read_ref other =>
    unfold Workshop.Knows Workshop.exec Workshop.noted
    dsimp only
    split
    · exact known
    · rename_i unread
      have apart : name ≠ other := by
        rintro rfl
        rw [known] at unread
        exact unread rfl
      have same : s.found i name = some answer := known
      simpa [Function.update_of_ne apart] using same
  | _ => exact known

omit [Canonical H] in
theorem exec_read {name : String} (c : Choice) (fresh : s.Fresh i) : (Workshop.exec env i _ c (.read_ref name) s).2.found i =
    Function.update (fun _ => none) name (some (s.repo.refs.get? name)) := by
  unfold Workshop.Fresh at fresh
  simp [Workshop.exec,World.exec,Workshop.noted,fresh]

theorem guiding_still {α : Type} {p : Command H α} (only : p.Only Op.Still) : ((guiding env i).with_fact J).Accepts p :=
  .of_only only fun β c o s still _ _ => by cases o <;> first | exact still.elim | trivial

theorem guiding_write {name : String} {tip : Option H} (leads : ∀ s, J s → Follows (s.found i name) tip) :
    ((guiding env i).with_fact J).Accepts (call (.write_ref name tip) : Command H Unit) :=
  .call fun _ s invariant _ => leads s invariant.2

theorem guiding_with_lock {α : Type} {lock : LockName} {body : Command H α} (accepted : ((guiding env i).with_fact J).Accepts body) :
    ((guiding env i).with_fact J).Accepts (with_lock lock body) := by
  have acquire : (call (.acquire lock) : Command H Bool).Only Op.Still := .call trivial
  have release : (call (.release lock) : Command H Unit).Only Op.Still := .call trivial
  apply (guiding_still acquire).bind
  intro held
  split
  · apply Accepts.bind
    · apply accepted.attempt
      intro e
      exact (guiding_still release).bind fun _ => .fail e
    · intro result
      exact (guiding_still release).bind fun _ => .pure result
  · exact .fail _

theorem guiding_finalize {data : CommitData H} {ref_path : Option String} {idx : Index H} {defer_upload : Bool}
    {changed_paths : Option (List Path)} {on_persisted : Command H Unit} (still : on_persisted.Only Op.Still)
    (leads : ∀ branch, ref_path = some branch → ∀ s, J s → Follows (s.found i branch) (some (commit_hash data))) :
    ((guiding env i).with_fact J).Accepts (_finalize_commit env data ref_path idx defer_upload changed_paths on_persisted) := by
  have write : (call (.write_commit (commit_hash data) data) : Command H Unit).Only Op.Still := .call trivial
  have queue (ref_name : Option String) := (queue_pending_push_sending (commit_hash data) ref_name).mono Op.Sending.still
  have save : (call (.save_index idx.clear_staged) : Command H Unit).Only Op.Still := .call trivial
  apply Accepts.bind
  · apply guiding_with_lock
    apply (guiding_still write).bind
    intro _
    apply (guiding_still (queue _)).bind
    intro _
    cases ref_path with
    | some branch => exact (guiding_write (leads branch rfl)).bind fun _ => guiding_still save
    | none =>
      have detach : (call (.write_head (.detached (commit_hash data))) : Command H Unit).Only Op.Still := .call trivial
      exact (guiding_still detach).bind fun _ => guiding_still save
  · intro _
    apply (guiding_still still).bind
    intro _
    apply (guiding_still ((deliver_commit_sending _ data _ defer_upload changed_paths).mono Op.Sending.still)).bind
    exact fun _ => .pure _

/-! Up to the first look at a branch, and from then on. -/

theorem guiding_before {α β : Type} {o : Op H β} {next : β → Command H α} {post : Except (Failure H) α → Workshop H → Prop}
    (fresh : s.Fresh i) (blind : Op.Blind β o)
    (later : ∀ a t, t.Fresh i → (guiding env i).Meets (next a) post t) : (guiding env i).Meets (call o >>= next) post s := by
  apply Meets.bind
  apply Meets.call
  intro c t related _ _
  constructor
  · cases o <;> first | exact blind.elim | trivial
  · apply later
    unfold Workshop.Fresh at fresh ⊢
    have same : t.found i = s.found i := related
    rw [← fresh,← same]
    exact congrFun (exec_blind c o t blind) i

theorem guiding_locked {α : Type} {lock : LockName} {body : Command H α} (fresh : s.Fresh i)
    (inside : ∀ t, t.Fresh i → (guiding env i).Meets body (fun _ _ => True) t) :
    (guiding env i).Meets (with_lock lock body) (fun _ _ => True) s := by
  have released (t : Workshop H) : (guiding env i).Meets (call (.release lock) : Command H Unit) (fun _ _ => True) t :=
    .call fun _ _ _ _ _ => ⟨trivial,trivial⟩
  apply guiding_before fresh (by trivial)
  intro held t still
  split
  · apply Meets.bind
    apply Meets.attempt
    apply (inside t still).mono
    intro r u _
    cases r with
    | ok a =>
      apply Meets.bind
      exact (released u).mono fun r _ _ => by cases r <;> trivial
    | error e =>
      apply Meets.bind
      exact (released u).mono fun r _ _ => by cases r <;> trivial
  · trivial

theorem guiding_look {α : Type} {name : String} {next : Option (Option H) → Command H α} {post : Except (Failure H) α → Workshop H → Prop}
    (fresh : s.Fresh i)
    (later : ∀ answer t, t.found i = Function.update (fun _ => none) name (some answer) → (guiding env i).Meets (next answer) post t) :
    (guiding env i).Meets (call (.read_ref name) >>= next) post s := by
  apply Meets.bind
  apply Meets.call
  intro c t related _ _
  have same : t.found i = s.found i := related
  exact ⟨trivial,later _ _ (exec_read c (same.trans fresh))⟩

theorem guiding_knowing {α : Type} {p : Command H α} {name : String} {answer : Option (Option H)}
    {post : Except (Failure H) α → Workshop H → Prop} (known : s.Knows i name answer)
    (met : ((guiding env i).with_fact (Workshop.Knows i name answer)).Meets p post s) :
    (guiding env i).Meets p (fun r t => post r t ∧ t.Knows i name answer) s := by
  apply Meets.knowing _ _ known met
  · exact fun _ c o _ known => exec_knows c o known
  · intro a b known related
    have same : b.found i = a.found i := related
    unfold Workshop.Knows
    rw [same]
    exact known

theorem guiding_accepts_knowing {α : Type} {p : Command H α} {name : String} {answer : Option (Option H)}
    (known : s.Knows i name answer) (accepted : ((guiding env i).with_fact (Workshop.Knows i name answer)).Accepts p) :
    (guiding env i).Meets p (fun _ _ => True) s :=
  (guiding_knowing known (accepted s)).mono fun _ _ _ => trivial

theorem knows_leads {name : String} {answer : Option (Option H)} {tip : H} (comes : ∀ x, answer = some (some x) → Ancestor x tip)
    (s : Workshop H) (known : s.Knows i name answer) : Follows (s.found i name) (some tip) := by
  intro x found
  rw [known] at found
  exact ⟨tip,rfl,comes x (Option.some.inj found)⟩

theorem guiding_commit (message : String) (defer_upload : Bool) (fresh : s.Fresh i) :
    (guiding env i).Meets (commit_staged env message defer_upload) (fun _ _ => True) s := by
  apply guiding_locked fresh
  intro t fresh
  apply guiding_before fresh (by trivial)
  intro idx u fresh
  extract_lets staged_entries changed_paths
  split
  · trivial
  · have finish (parents : List H) (ref_path : Option String) (J : Workshop H → Prop)
        (leads : ∀ timestamp branch, ref_path = some branch → ∀ s, J s →
          Follows (s.found i branch) (some (commit_hash ⟨parents,message,timestamp,idx.tree⟩))) :
        ((guiding env i).with_fact J).Accepts (do
          let timestamp ← call .now
          let h ← _finalize_commit env ⟨parents,message,timestamp,idx.tree⟩ ref_path idx defer_upload (some changed_paths)
            (call (.release .repo))
          .pure (some h) : Command H (Option H)) := by
      have now : (call .now : Command H Nat).Only Op.Still := .call trivial
      apply (guiding_still now).bind
      intro timestamp
      exact (guiding_finalize (.call (by trivial)) (leads timestamp)).bind fun h => .pure _
    apply Meets.bind
    unfold head_parents
    apply guiding_before fresh (by trivial)
    intro head v fresh
    cases head with
    | detached h =>
      have onward := (finish [h] none (fun _ => True) (fun _ _ impossible => by cases impossible)) v
      exact (Meets.knowing (fun _ _ _ _ _ => trivial) (fun _ _ _ _ => trivial) trivial onward).mono fun _ _ _ => trivial
    | branch name =>
      apply guiding_look fresh
      intro answer x found
      have known : x.Knows i name answer := by
        unfold Workshop.Knows
        rw [found,Function.update_self]
      have onward (parents : List H) (same : ∀ h, answer = some (some h) → parents = [h]) :=
        guiding_accepts_knowing known (finish parents (some name) (Workshop.Knows i name answer) (by
          intro timestamp branch named t known
          obtain rfl := Option.some.inj named
          apply knows_leads _ t known
          intro h found
          exact .single ⟨_,rfl,by simp [same h found]⟩))
      cases answer with
      | none => exact onward [] (fun _ impossible => by cases impossible)
      | some tip =>
        cases tip with
        | none => exact onward [] (fun _ impossible => by cases impossible)
        | some h => exact onward [h] (fun g same => by rw [Option.some.inj (Option.some.inj same)])

theorem guiding_branch (name : String) (fresh : s.Fresh i) : (guiding env i).Meets (branch name) (fun _ _ => True) s := by
  have write {tip : Option H} {t : Workshop H} (leads : Follows (t.found i name) tip) :
      (guiding env i).Meets (call (.write_ref name tip) : Command H Unit) (fun _ _ => True) t := by
    apply Meets.call
    intro c u related _ _
    have same : u.found i = t.found i := related
    refine ⟨?_,trivial⟩
    show Follows (u.found i name) tip
    rw [same]
    exact leads
  apply Meets.bind
  unfold head_parents
  apply guiding_before fresh (by trivial)
  intro head v fresh
  cases head with
  | detached h =>
    apply write
    intro x found
    rw [fresh] at found
    cases found
  | branch other =>
    apply guiding_look fresh
    intro answer t found
    have here (parents : List H) (same : ∀ h, answer = some (some h) → parents = [h]) : Follows (t.found i name) parents.head? := by
      intro x known
      rw [found] at known
      by_cases mine : name = other
      · rw [mine,Function.update_self] at known
        rw [same x (Option.some.inj known)]
        exact ⟨x,rfl,.refl⟩
      · rw [Function.update_of_ne mine] at known
        cases known
    cases answer with
    | none => exact write (here [] fun _ impossible => by cases impossible)
    | some tip =>
      cases tip with
      | none => exact write (here [] fun _ impossible => by cases impossible)
      | some h => exact write (here [h] fun g same => by rw [Option.some.inj (Option.some.inj same)])

theorem merge_base_ancestor {commits : Dict H (CommitData H)} (genuine : ∀ h data, commits.get? h = some data → Genuine h data)
    {ours theirs base : H} (found : find_merge_base commits ours theirs = some base) : Ancestor base theirs := by
  have closed : Chain.ClosedStore (parents_of commits) fun h => Ancestor h theirs := by
    intro h path p edge
    exact .head (genuine_parent genuine edge) path
  apply nearest_known closed _ found
  intro h member
  rw [List.mem_singleton.mp member]
  exact .refl

theorem guiding_merge_commits {options : MergeOptions} {name : String} {idx : Index H} {ours theirs : H} :
    ((guiding env i).with_fact (Workshop.Knows i name (some (some ours)))).Accepts (merge_commits env options name idx ours theirs) := by
  apply Accepts.op
  intro c s invariant _
  refine ⟨trivial,?_⟩
  have read : ((guiding env i).with_fact (Workshop.Knows i name (some (some ours)))).exec _ c .load_commits s = (s.repo.commits,s) := rfl
  rw [read]
  have genuine := invariant.1.stored
  generalize s.repo.commits = commits at genuine
  have commit_leads (timestamp : Nat) (tree : Tree H) (branch : String) (named : some name = some branch) (t : Workshop H)
      (known : t.Knows i name (some (some ours))) :
      Follows (t.found i branch) (some (commit_hash ⟨[ours,theirs],options.message,timestamp,tree⟩)) := by
    obtain rfl := Option.some.inj named
    apply knows_leads _ t known
    intro x found
    obtain rfl := Option.some.inj (Option.some.inj found)
    exact .single ⟨_,rfl,List.mem_cons_self⟩
  have restored (tree : Tree H) {α : Type} {f : Index H → Command H α}
      (later : ∀ final, ((guiding env i).with_fact (Workshop.Knows i name (some (some ours)))).Accepts (f final)) :
      ((guiding env i).with_fact (Workshop.Knows i name (some (some ours)))).Accepts (do
        ensure_objects_local tree
        let final ← _materialize_tree tree idx false
        f final) := by
    apply (guiding_still ((ensure_objects_local_quiet tree).mono Op.Quiet.still)).bind
    intro _
    exact (guiding_still (materialize_tree_still tree idx false)).bind later
  show ((guiding env i).with_fact (Workshop.Knows i name (some (some ours)))).Accepts (if find_merge_base commits ours theirs = some theirs then _ else _)
  split
  · exact .pure ()
  · apply (guiding_still ((collect_dirty_paths_quiet idx ∅).mono Op.Quiet.still)).bind
    intro dirty
    split
    · rename_i fast
      apply restored
      intro _
      apply guiding_write
      intro t known
      apply knows_leads _ t known
      intro x found
      obtain rfl := Option.some.inj (Option.some.inj found)
      exact merge_base_ancestor genuine fast.1
    · split
      · exact .fail _
      · extract_lets base_tree ours_tree theirs_tree
        split
        · exact .fail _
        · split
          · exact .fail _
          · apply restored
            intro final
            have now : (call .now : Command H Nat).Only Op.Still := .call trivial
            apply (guiding_still now).bind
            intro timestamp
            have nothing : (.pure () : Command H Unit).Only Op.Still := trivial
            exact (guiding_finalize nothing (commit_leads timestamp _)).bind fun _ => .pure ()

theorem guiding_merge (target : Target H) (options : MergeOptions) (fresh : s.Fresh i) :
    (guiding env i).Meets (merge env target options) (fun _ _ => True) s := by
  apply guiding_before fresh (by trivial)
  intro idx t fresh
  apply guiding_before fresh (by trivial)
  intro head u fresh
  cases head with
  | detached h => trivial
  | branch name =>
    apply guiding_look fresh
    intro answer v found
    cases answer with
    | none => trivial
    | some tip =>
      cases tip with
      | none => trivial
      | some ours =>
        have known : v.Knows i name (some (some ours)) := by
          unfold Workshop.Knows
          rw [found,Function.update_self]
        apply guiding_accepts_knowing known
        apply (guiding_still (merge_target_still target)).bind
        intro theirs
        cases theirs with
        | none => exact .fail _
        | some theirs =>
          dsimp only
          split
          · exact .pure ()
          · apply (guiding_still (find_commit_still theirs)).bind
            exact fun _ => guiding_merge_commits

theorem guiding_pull_onto {branch : String} {answer : Option (Option H)} {tip : H} (force : Bool)
    (comes : ∀ x, answer = some (some x) → Ancestor x tip) :
    ((guiding env i).with_fact (Workshop.Knows i branch answer)).Accepts (pull_onto branch tip force) := by
  have index : (call .load_index : Command H (Index H)).Only Op.Still := .call trivial
  have row : (call (.read_commit tip) : Command H _).Only Op.Still := .call trivial
  apply (guiding_still index).bind
  intro idx
  apply (guiding_still ((uncommitted_aloof force idx).mono Op.Aloof.still)).bind
  intro dirty
  split
  · apply (guiding_still row).bind
    intro tip_data
    apply Accepts.bind _ fun _ => .pure _
    apply (guiding_still ((ensure_objects_local_quiet _).mono Op.Quiet.still)).bind
    intro _
    apply (guiding_still (materialize_tree_still _ idx false)).bind
    intro _
    exact guiding_write fun t known => knows_leads comes t known
  · exact .fail _

section Decision

variable {α β : Type} {post : Except (Failure H) α → Workshop H → Prop}

theorem knowing_after {p : Command H β} {f : β → Command H α} (only : p.Only Op.Still)
    (later : ∀ b t, ((guiding env i).with_fact J).Meets (f b) post t) (failed : ∀ e t, post (.error e) t) :
    ((guiding env i).with_fact J).Meets (p >>= f) post s := by
  apply Meets.bind
  apply (guiding_still only s).mono
  intro r t _
  cases r with
  | ok b => exact later b t
  | error e => exact failed e t

theorem allowed_leads {local_tip : Option H} {remote_tip : H} {join_found : Bool} :
    ((guiding env i).with_fact J).Meets (ff_allowed local_tip remote_tip join_found)
      (fun r _ => r = .ok true → ∀ x, local_tip = some x → Ancestor x remote_tip) s := by
  cases local_tip with
  | none => exact fun _ x impossible => by cases impossible
  | some tip =>
    unfold ff_allowed
    dsimp only
    split
    · apply Meets.bind
      apply Meets.call
      intro c t _ invariant _
      refine ⟨trivial,?_⟩
      intro passed x same
      obtain rfl := Option.some.inj same
      exact ref_contains_ancestor invariant.1.stored (Except.ok.inj passed)
    · exact fun impossible => by cases impossible

end Decision

/-- A decision to go forward is for the branch that was looked at, to a commit that follows what was found. -/
def GoesForward (branch : String) (answer : Option (Option H)) (r : Except (Failure H) (Decision H)) : Prop :=
  ∀ into tip, r = .ok (.fast_forward into tip) → branch = into ∧ ∀ x, answer = some (some x) → Ancestor x tip

theorem pull_tip_forward (fuel : Nat) (branch : String) (answer : Option (Option H)) (remote_tip : H) :
    ((guiding env i).with_fact J).Meets (pull_tip fuel branch answer.join remote_tip) (fun r _ => GoesForward branch answer r) s := by
  apply knowing_after (pull_walk_still fuel _ fuel _ _)
  · intro join_found t
    apply Meets.bind
    apply allowed_leads.mono
    intro r u allowed
    cases r with
    | error e => exact fun _ _ impossible => by cases impossible
    | ok passed =>
      intro into tip same
      cases passed with
      | false => cases same
      | true =>
        cases same
        exact ⟨rfl,fun x found => allowed rfl x (by rw [found]; rfl)⟩
  · exact fun _ _ _ _ impossible => by cases impossible

/-- What a pull goes forward to follows what it found at the branch. -/
theorem guiding_pull (fuel : Nat) (force : Bool) (fresh : s.Fresh i) :
    (guiding env i).Meets (pull env fuel force : Command H Pulled) (fun _ _ => True) s := by
  apply Meets.bind
  apply guiding_before fresh (by trivial)
  intro head t fresh
  cases head with
  | detached h => trivial
  | branch branch =>
    apply guiding_look fresh
    intro answer u found
    have known : u.Knows i branch answer := by
      unfold Workshop.Knows
      rw [found,Function.update_self]
    have unled (e : Failure H) : GoesForward branch answer (.error e) := fun _ _ impossible => by cases impossible
    refine Meets.mono (guiding_knowing known (show ((guiding env i).with_fact (Workshop.Knows i branch answer)).Meets _
      (fun r _ => GoesForward branch answer r) u from ?_)) ?_
    · apply knowing_after (.call (by trivial)) _ fun e _ => unled e
      intro available v
      split
      · apply knowing_after ((get_ref_aloof _).mono Op.Aloof.still) _ fun e _ => unled e
        intro remote x
        cases remote with
        | none => exact fun _ _ impossible => by cases impossible
        | some remote_tip =>
          dsimp only
          split
          · exact fun _ _ impossible => by cases impossible
          · exact pull_tip_forward fuel branch answer remote_tip
      · exact unled _
    · intro r v decided
      obtain ⟨leads,known⟩ := decided
      cases r with
      | error e => trivial
      | ok d =>
        cases d with
        | no_remote_branch => trivial
        | up_to_date => trivial
        | diverged local_tip remote_tip => trivial
        | fast_forward into tip =>
          obtain ⟨rfl,comes⟩ := leads into tip rfl
          exact guiding_accepts_knowing known (guiding_pull_onto force comes)

end Guiding

theorem guiding_meets {env : Env} {i : Nat} {p : Command H Unit} (command : LocalCommand env p) {s : Workshop H} (fresh : s.Fresh i) :
    (guiding env i).Meets p (fun _ _ => True) s := by
  have still {p : Command H Unit} (only : p.Only Op.Still) : (guiding env i).Meets p (fun _ _ => True) s :=
    Accepts.of_only only (fun β c o t still _ _ => by cases o <;> first | exact still.elim | trivial) s
  have done {α : Type} {p : Command H α} (met : (guiding env i).Meets p (fun _ _ => True) s) :
      (guiding env i).Meets (p >>= fun _ => .pure ()) (fun _ _ => True) s :=
    .bind (met.mono fun r _ _ => by cases r <;> trivial)
  cases command with
  | commit message defer_upload => exact done (guiding_commit message defer_upload fresh)
  | merge target options => exact guiding_merge target options fresh
  | pull fuel force => exact done (guiding_pull fuel force fresh)
  | checkout target force => exact still (checkout_still target force)
  | branch name => exact guiding_branch name fresh
  | stash => exact still ((stash_push_aloof env).mono Op.Aloof.still)
  | stash_pop stash_id delete_after => exact still ((stash_pop_aloof stash_id delete_after).mono Op.Aloof.still)

/-! The processes of one repository. -/

/-- What goes on besides: files are edited and staged, other clients use the registry. -/
structure Meanwhile (s t : Workshop H) : Prop where
  vetted : t.Vetted
  refs : t.repo.refs = s.repo.refs
  locks : t.repo.locks = s.repo.locks
  found : t.found = s.found

abbrev Team (H : Type) [DecidableEq H] [Hashing H] := Pool (Op H) (Failure H) Nat (Workshop H)

def TeamWorks (rule : Writing H) (env : Env) : Team H → Team H → Prop :=
  Relation.ReflTransGen (Pool.Step (minding rule env) (fun _ => LocalCommand env) Workshop.leave Meanwhile)

/-- No process runs a command yet. -/
def Team.start (s : Workshop H) : Team H := ⟨s,fun _ => .pure ()⟩

theorem minding_compatible (rule : Writing H) (env : Env) :
    Pool.Compatible (minding rule env) (fun _ => LocalCommand env) Workshop.leave Meanwhile (Workshop.Vetted (H := H)) where
  shared _ _ := Iff.rfl
  alone _ _ := rfl
  trans _ _ _ _ first later := later.trans first
  keeps i β c o s vetted _ required := by
    refine ⟨exec_vetted vetted c o required.1,fun j other => ?_⟩
    show (Workshop.exec env i β c o s).2.found j = s.found j
    cases o with
    | read_ref name =>
      unfold Workshop.exec Workshop.noted
      dsimp only
      split
      · rfl
      · rw [Function.update_of_ne other]
    | _ => rfl
  left i s vetted := ⟨⟨vetted.stored,vetted.pushed⟩,fun j other => Function.update_of_ne other _ _⟩
  quiet s t vetted meanwhile := ⟨meanwhile.vetted,fun j => congrFun meanwhile.found j⟩
  safe i p s launched vetted := by
    have fresh : (s.leave i).Fresh i := Function.update_self _ _ _
    have both := Meets.both (D := minding rule env i) (A := recording env i) (B := guiding env i) rfl rfl (fun _ _ _ => trivial)
      (fun _ _ same => same) (fun _ vetted => vetted) (fun _ vetted => vetted) (fun _ _ _ _ _ => trivial) (fun _ _ _ _ _ => trivial)
      (fun _ _ _ _ named follows => ⟨named,follows⟩) (recording_command launched (s.leave i)) (guiding_meets launched fresh)
    exact both.mono fun _ _ _ => trivial

/-- Every branch is still there, at its commit or a descendant of it. -/
def Onward (before after : Repo H) : Prop :=
  ∀ name x, before.refs.get? name = some (some x) → ∃ y, after.refs.get? name = some (some y) ∧ Ancestor x y

theorem Onward.of_same {before after : Repo H} (same : after.refs = before.refs) : Onward before after :=
  fun name x found => ⟨x,by rw [same]; exact found,.refl⟩

theorem Onward.trans {a b c : Repo H} (first : Onward a b) (later : Onward b c) : Onward a c := by
  intro name x found
  obtain ⟨y,moved,path⟩ := first name x found
  obtain ⟨z,again,rest⟩ := later name y moved
  exact ⟨z,again,path.trans rest⟩

theorem write_onward {s : Workshop H} {i : Nat} {name : String} {tip : Option H} (follows : Follows (s.found i name) tip)
    (in_place : s.InPlace i name tip) : Onward s.repo {s.repo with refs := s.repo.refs.set name tip} := by
  have onto : Follows (some (s.repo.refs.get? name)) tip := by
    unfold Workshop.InPlace at in_place
    cases looked : s.found i name with
    | none =>
      rw [looked] at in_place
      exact in_place
    | some found =>
      rw [looked] at in_place follows
      rw [in_place]
      exact follows
  intro other x found
  by_cases same : other = name
  · subst other
    obtain ⟨y,rfl,path⟩ := onto x (by rw [found])
    exact ⟨y,by simp,path⟩
  · exact ⟨x,by simpa [Dict.get?_set,same] using found,.refl⟩

theorem step_onward {env : Env} {before after : Team H}
    (one : Pool.Step (minding Workshop.InPlace env) (fun _ => LocalCommand env) Workshop.leave Meanwhile before after)
    (good : Pool.Good (minding Workshop.InPlace env) Workshop.Vetted before) : Onward before.state.repo after.state.repo := by
  cases one with
  | crash pool i => exact .of_same rfl
  | start pool i p idle launched => exact .of_same rfl
  | env pool t meanwhile => exact .of_same meanwhile.refs
  | op pool i c o next at_op allowed =>
    have required := good.required (minding_compatible _ env) i c o next at_op allowed
    have still (still : Op.Still _ o) : Onward before.state.repo (Workshop.exec env i _ c o before.state).2.repo :=
      .of_same (exec_still env i _ c o ⟨before.state.repo,before.state.server,true⟩ still)
    cases o with
    | write_ref name tip => exact write_onward required.2 allowed
    | _ => exact still trivial

/-- In every run in which each branch is in place when it is written, it goes to a commit that follows the one it was at. -/
theorem local_branches_go_onward (env : Env) (start : Workshop H) (vetted : start.Vetted) (before after : Team H)
    (reached : TeamWorks Workshop.InPlace env (.start start) before) (run : TeamWorks Workshop.InPlace env before after)
    (branch : String) (X : H) (was : before.state.repo.refs.get? branch = some (some X)) :
    ∃ Y, after.state.repo.refs.get? branch = some (some Y) ∧ Ancestor X Y := by
  have good : Pool.Good (minding Workshop.InPlace env) Workshop.Vetted before :=
    Pool.Good.run (minding_compatible _ env) reached ⟨vetted,fun _ => trivial⟩
  have onward : Onward before.state.repo after.state.repo := by
    clear was
    induction run with
    | refl => exact .of_same rfl
    | tail many one ih => exact ih.trans (step_onward one (good.run (minding_compatible _ env) many))
  exact onward branch X was

/-! A merge beside a commit. -/

/-- On `main`, with a branch that is one commit ahead. -/
def bench : Workshop Name where
  repo := {Repo.init with
    refs := Dict.ofList [("main",some (commit_hash base)),("feature",some (commit_hash mine))]
    commits := Dict.ofList [(commit_hash base,base),(commit_hash mine,mine)]}
  server := .empty 0
  found _ _ := none

theorem bench_vetted : bench.Vetted := by
  constructor
  · intro h data held
    have entries : bench.repo.commits.entries = [(commit_hash base,base),(commit_hash mine,mine)] := by decide
    have member := (Dict.mem_entries _ _ _).mpr held
    simp only [entries,List.mem_cons,Prod.mk.injEq,List.not_mem_nil,or_false] at member
    cases member with
    | inl first =>
      rw [first.1,first.2]
      exact genuine_new base
    | inr second =>
      rw [second.1,second.2]
      exact genuine_new mine
  · intro h data held
    contradiction

def staged_file : Index Name := {(Index.empty : Index Name) with entries := Dict.ofList [(["f"],⟨.sha (sha256 [1]),1,0,.file,true,none,[],[]⟩)]}

def commit_file : Command Name Unit := do
  let _ ← commit_staged desk "a commit beside the merge" true
  .pure ()

def merge_feature : Command Name Unit := merge desk (.branch "feature") ⟨none,false,"m"⟩

def ready : Workshop Name := {bench with repo := {bench.repo with index := staged_file}}

def commit_ran : Except (Failure Name) Unit × Workshop Name := commit_file.run (Workshop.exec desk 2) (fun _ => answered) (ready.leave 2)

def in_place_check (β : Type) (o : Op Name β) (s : Workshop Name) : Bool :=
  match β,o with
  | _,.write_ref name _ => s.found 2 name == some (s.repo.refs.get? name)
  | _,_ => true

theorem in_place_fair (β : Type) (o : Op Name β) (s : Workshop Name) (passed : in_place_check β o s = true) :
    (minding Workshop.InPlace desk 2).may β answered o s := by
  cases o with
  | write_ref name tip =>
    have looked : s.found 2 name = some (s.repo.refs.get? name) := by simpa [in_place_check] using passed
    show s.InPlace 2 name tip
    unfold Workshop.InPlace
    rw [looked]
  | _ => trivial

theorem ready_vetted : ready.Vetted := ⟨bench_vetted.stored,bench_vetted.pushed⟩

theorem local_branches_go_onward_commit :
    ∃ Y, commit_ran.2.repo.refs.get? "main" = some (some Y) ∧ Ancestor (commit_hash base) Y := by
  have run : TeamWorks Workshop.InPlace desk (.start ready) _ :=
    Pool.run_program (minding Workshop.InPlace desk) (fun _ => LocalCommand desk) Workshop.leave Meanwhile (fun _ => answered)
      in_place_check (Team.start ready) 2 commit_file in_place_fair trivial (.commit _ _) (by decide)
  exact local_branches_go_onward desk ready ready_vetted (.start ready) _ .refl run "main" (commit_hash base) (by decide)

/-- The merge, up to where it writes the branch. -/
def halted : Command Name Unit × Workshop Name := merge_feature.runFor (Workshop.exec desk 1) (fun _ => answered) 8 (bench.leave 1)

def pressed : Workshop Name := {halted.2 with repo := {halted.2.repo with index := staged_file}}

def committed : Except (Failure Name) Unit × Workshop Name := commit_file.run (Workshop.exec desk 2) (fun _ => answered) (pressed.leave 2)

def overtaken : Except (Failure Name) Unit × Workshop Name := halted.1.run (Workshop.exec desk 1) (fun _ => answered) committed.2


def anywhere : Writing Name := fun _ _ _ _ => True

/-- The merge waits before its last operation while the other process commits. -/
def waiting : Team Name := ⟨pressed,Function.update (fun _ => .pure ()) 1 halted.1⟩

def after_commit : Team Name := ⟨committed.2,Function.update waiting.progs 2 (Prog.leaf committed.1)⟩

def after_merge : Team Name := ⟨overtaken.2,Function.update after_commit.progs 1 (Prog.leaf overtaken.1)⟩

theorem pressed_vetted : pressed.Vetted := by
  constructor
  · have same : pressed.repo.commits = bench.repo.commits := by decide
    rw [same]
    exact bench_vetted.stored
  · intro h data held
    have same : pressed.server.commits = ∅ := by decide
    rw [same] at held
    contradiction

theorem waiting_reached : TeamWorks anywhere desk (.start bench) waiting := by
  have begun : TeamWorks anywhere desk (.start bench) ⟨bench.leave 1,Function.update (fun _ => .pure ()) 1 merge_feature⟩ :=
    .single (.start (Team.start bench) 1 merge_feature trivial (.merge _ _))
  have first : (minding anywhere desk 1).Steps (merge_feature,bench.leave 1) halted :=
    Discipline.steps_of_runFor (fun _ => answered) (fun β o s => by cases o <;> trivial) 8 merge_feature (bench.leave 1)
  have ran := Pool.of_steps (minding anywhere desk) (fun _ => LocalCommand desk) Workshop.leave Meanwhile (fun _ => .pure ()) 1 first
  have staged : TeamWorks anywhere desk ⟨halted.2,Function.update (fun _ => .pure ()) 1 halted.1⟩ waiting :=
    .single (.env _ pressed ⟨pressed_vetted,rfl,rfl,rfl⟩)
  exact (begun.trans ran).trans staged

theorem after_commit_reached : TeamWorks anywhere desk waiting after_commit :=
  Pool.run_program (minding anywhere desk) (fun _ => LocalCommand desk) Workshop.leave Meanwhile (fun _ => answered)
    (fun _ _ _ => true) waiting 2 commit_file (fun β o s _ => by cases o <;> trivial) trivial (.commit _ _) (Prog.checks_true _ _ _ _)

theorem after_merge_reached : TeamWorks anywhere desk after_commit after_merge := by
  have last : (minding anywhere desk 1).Runs halted.1 committed.2 overtaken.1 overtaken.2 :=
    Discipline.runs_of_run (fun _ => answered) (fun _ _ _ => true) (fun β o s _ => by cases o <;> trivial) _ _ (Prog.checks_true _ _ _ _)
  have ran := Pool.of_steps (minding anywhere desk) (fun _ => LocalCommand desk) Workshop.leave Meanwhile after_commit.progs 1 last
  have same : Function.update after_commit.progs 1 halted.1 = after_commit.progs := by
    rw [Function.update_eq_self_iff]
    rfl
  rw [same] at ran
  exact ran

theorem ancestor_shorter {h tip : Name} (path : Ancestor h tip) : h.bytes.length ≤ tip.bytes.length := by
  induction path with
  | refl => rfl
  | tail _ edge ih =>
    obtain ⟨data,rfl,member⟩ := edge
    exact ih.trans (Nat.le_of_lt (parent_shorter member))

/-- A commit lands between the merge's look at the branch and its write: the branch goes to the merged commit, and the new one drops out. -/
theorem commit_dropped : ∃ (before after : Team Name) (X Y : Name), bench.Vetted ∧
    TeamWorks anywhere desk (.start bench) before ∧ TeamWorks anywhere desk before after ∧
      before.state.repo.refs.get? "main" = some (some X) ∧ after.state.repo.refs.get? "main" = some (some Y) ∧ ¬Ancestor X Y := by
  have new : ((committed.2.repo.refs.get? "main").join.map fun X => X.bytes.length) = some 64 := by decide
  obtain ⟨X,now,long⟩ := Option.map_eq_some_iff.mp new
  refine ⟨after_commit,after_merge,X,commit_hash mine,bench_vetted,waiting_reached.trans after_commit_reached,after_merge_reached,
    Option.join_eq_some_iff.mp now,by decide,?_⟩
  intro path
  have short := ancestor_shorter path
  have eleven : (commit_hash mine).bytes.length = 11 := by decide
  omega

end AetherVault
