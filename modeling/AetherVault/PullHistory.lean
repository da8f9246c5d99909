import AetherVault.Pulling
import AetherVault.Alone
import AetherVault.PendingQueue

/-! What a pull decides and what it leaves: when it takes a branch forward, and when the
clone holds the whole history of the remote branch. -/
namespace AetherVault
open Lib Hashing
open Lib.Prog (Only call forEach foldEach)
open Lib.Discipline (Meets)

variable {H : Type} [DecidableEq H] [Hashing H]

/-! The restore that follows the decision. -/

def Op.Restoring (β : Type) (o : Op H β) : Prop :=
  match β,o with
  | _,.save_index _ => True
  | _,o => o.Quiet

theorem exec_restoring (env : Env) (me : Nat) (β : Type) (c : Choice) (o : Op H β) (w : World H) (restoring : Op.Restoring β o) :
    (World.exec env me β c o w).2.repo.refs = w.repo.refs ∧ (World.exec env me β c o w).2.repo.commits = w.repo.commits := by
  have calm (quiet : Op.Quiet β o) := exec_quiet env me β c o w quiet
  cases o with
  | save_index idx => exact ⟨rfl,rfl⟩
  | _ => exact ⟨(calm restoring).refs,(calm restoring).commits⟩

omit [DecidableEq H] [Hashing H] in
theorem Op.Quiet.restoring (β : Type) (o : Op H β) (quiet : Op.Quiet β o) : Op.Restoring β o := by
  cases o <;> trivial

omit [DecidableEq H] [Hashing H] in
theorem Op.restoring_save (idx : Index H) : Op.Restoring Unit (.save_index idx) := trivial

section Pull

variable {env : Env} {me : Nat} {may : ∀ β, Choice → Op H β → World H → Prop} {target : H → Prop} {w : World H}

theorem copying_restoring {α : Type} {p : Command H α} {s : World H} (only : p.Only Op.Restoring) :
    (copying env me may target w).Meets p (fun _ t => t.repo.refs = s.repo.refs ∧ t.repo.commits = s.repo.commits) s := by
  have required : (copying env me may target w).Meets p (fun _ _ => True) s :=
    Discipline.Accepts.of_only only (fun β c o t restoring _ _ => by cases o <;> trivial) s
  have framed := required.within (D := copying env me may target w)
    (R := fun a b => b.repo.refs = a.repo.refs ∧ b.repo.commits = a.repo.commits) only
    (fun _ _ _ first later => ⟨later.1.trans first.1,later.2.trans first.2⟩) (fun _ _ same => by rw [same]; exact ⟨rfl,rfl⟩)
    (fun _ c o _ restoring _ _ _ => exec_restoring env me _ c o _ restoring) ⟨rfl,rfl⟩
  exact framed.mono fun _ _ reached => reached.2

theorem pull_onto_meets {branch : String} {tip : H} {force : Bool} {s : World H}
    (here : Copied target w s → s.repo.commits.contains tip = true) :
    (copying env me may target w).Meets (pull_onto branch tip force) (fun r t => t.repo.commits = s.repo.commits ∧
      (r = .ok .fast_forwarded ∧ t.repo.refs = s.repo.refs.set branch (some tip) ∨
        (∃ e, r = .error e) ∧ t.repo.refs = s.repo.refs)) s := by
  have dirty (idx : Index H) : (uncommitted force idx).Only Op.Restoring := by
    unfold uncommitted
    split
    · trivial
    · exact (collect_dirty_paths_quiet idx ∅).mono Op.Quiet.restoring
  refine copying_read (fun c => rfl) (fun c => trivial) fun copied => .bind ((copying_restoring (dirty _)).mono fun r t first => ?_)
  obtain ⟨refs,commits⟩ := first
  cases r with
  | error e => exact ⟨commits,Or.inr ⟨⟨e,rfl⟩,refs⟩⟩
  | ok paths =>
    dsimp only
    split
    · refine copying_read (fun c => rfl) (fun c => trivial) fun _ => .bind (.bind ?_)
      refine (copying_restoring ((ensure_objects_local_quiet _).mono Op.Quiet.restoring)).mono fun r u second => ?_
      cases r with
      | error e => exact ⟨second.2.trans commits,Or.inr ⟨⟨e,rfl⟩,second.1.trans refs⟩⟩
      | ok _ =>
        refine .bind ((copying_restoring (materialize_tree_only Op.Quiet.restoring Op.restoring_save _ _ _)).mono ?_)
        intro r v third
        have refs := third.1.trans (second.1.trans refs)
        have commits := third.2.trans (second.2.trans commits)
        cases r with
        | error e => exact ⟨commits,Or.inr ⟨⟨e,rfl⟩,refs⟩⟩
        | ok idx =>
          refine copying_call fun c _ _ => ⟨fun h same => Or.inl ?_,commits,Or.inl ⟨rfl,?_⟩⟩
          · obtain rfl := Option.some.inj same
            rw [commits]
            exact here copied
          · exact congrArg (fun refs : Dict String (Option H) => refs.set branch (some tip)) refs
    · exact ⟨commits,Or.inr ⟨⟨_,rfl⟩,refs⟩⟩

/-! The whole command. -/

def Reported (r : Except (Failure H) Pulled) : Prop :=
  r = .ok .up_to_date ∨ r = .ok .fast_forwarded ∨ ∃ local_tip remote_tip, r = .error (.merge_conflict local_tip remote_tip)

/-- A run of `pull` that has ended: only a fast-forward moves the branch, and what is reported rests on a whole walk. -/
structure Pulls (env : Env) (w : World H) (r : Except (Failure H) Pulled) (t : World H) : Prop where
  branch : r = .ok .fast_forwarded ∧ (∃ branch tip join_found, w.repo.head = .branch branch ∧
      w.server.refs.get? (remote_ref env branch) = some tip ∧ t.repo.refs = w.repo.refs.set branch (some tip) ∧
      Walked w (w.repo.refs.get? branch).join tip t join_found ∧ Allows t (w.repo.refs.get? branch).join tip join_found) ∨
    r ≠ .ok .fast_forwarded ∧ t.repo.refs = w.repo.refs
  reported : Reported r → ∀ branch tip, w.repo.head = .branch branch → w.server.refs.get? (remote_ref env branch) = some tip →
    (w.repo.refs.get? branch).join = some tip ∨
      (w.repo.refs.get? branch).join ≠ some tip ∧ ∃ join_found, Walked w (w.repo.refs.get? branch).join tip t join_found

theorem walked_here {t : World H} {local_tip : Option H} {tip : H} {join_found : Bool}
    (copied : Copied target w t) (differ : local_tip ≠ some tip) (walked : Walked w local_tip tip t join_found) :
    t.repo.commits.contains tip = true := by
  by_cases held : w.repo.commits.contains tip = true
  · obtain ⟨data,found⟩ := (Dict.contains_iff _ _).mp held
    exact (Dict.contains_iff _ _).mpr ⟨data,copied.kept tip data found⟩
  · exact walked.passed tip ⟨.refl,fun stops => stops.elim differ held⟩

theorem pull_meets (dag : w.server.Dag) {fuel : Nat} {force : Bool} :
    (copying env me may (w.Fetches env) w).Meets (pull env fuel force) (Pulls env w) w := by
  refine .bind ((pull_decision_meets dag).mono fun r t decided => ?_)
  obtain ⟨refs,unopposed,rests,-⟩ := decided
  cases r with
  | error e =>
    refine ⟨Or.inr ⟨by simp,refs⟩,fun reported => ?_⟩
    rcases reported with same | same | ⟨l,R,same⟩
    · cases same
    · cases same
    · exact absurd (congrArg Except.error (Except.error.inj same)) (unopposed l R)
  | ok d =>
    cases rests d rfl with
    | no_remote_branch => exact ⟨Or.inr ⟨by simp,refs⟩,fun reported => by simp [Reported] at reported⟩
    | @up_to_date branch tip head remote same =>
      refine ⟨Or.inr ⟨by simp,refs⟩,fun _ other remote_tip head' remote' => Or.inl ?_⟩
      obtain rfl : branch = other := Head.branch.inj (head.symm.trans head')
      rw [same,← remote,remote']
    | @diverged branch tip join_found head remote differ walked refused =>
      refine ⟨Or.inr ⟨by simp,refs⟩,fun _ other remote_tip head' remote' => Or.inr ?_⟩
      obtain rfl : branch = other := Head.branch.inj (head.symm.trans head')
      obtain rfl : tip = remote_tip := Option.some.inj (remote.symm.trans remote')
      exact ⟨differ,join_found,walked⟩
    | @fast_forward branch tip join_found head remote differ walked allowed =>
      refine (pull_onto_meets fun copied => walked_here copied differ walked).mono fun r u ended => ?_
      obtain ⟨commits,outcome⟩ := ended
      have walked' : Walked w (w.repo.refs.get? branch).join tip u join_found := by
        refine ⟨?_,walked.joins⟩
        rw [commits]
        exact walked.passed
      refine ⟨?_,fun _ other remote_tip head' remote' => Or.inr ?_⟩
      · rcases outcome with ⟨rfl,moved⟩ | ⟨⟨e,rfl⟩,same⟩
        · refine Or.inl ⟨rfl,branch,tip,join_found,head,remote,by rw [moved,refs],walked',?_⟩
          unfold Allows
          rw [commits]
          exact allowed
        · exact Or.inr ⟨by simp,same.trans refs⟩
      · obtain rfl : branch = other := Head.branch.inj (head.symm.trans head')
        obtain rfl : tip = remote_tip := Option.some.inj (remote.symm.trans remote')
        exact ⟨differ,join_found,walked'⟩

end Pull

/-! Forward, apart, or behind. -/

/-- The commits here name the parents that the registry has for them. -/
def World.Mirrors (w : World H) : Prop :=
  ∀ h data stored, w.repo.commits.get? h = some data → w.server.commits.get? h = some stored → data.parents = stored.parents

/-- What is here once the walk is over. -/
def World.knows (w : World H) (local_tip : Option H) (tip h : H) : Prop :=
  w.repo.commits.contains h = true ∨ w.passes local_tip tip h

section Decide

variable {env : Env} {w t : World H} {local_tip : Option H} {tip : H} {join_found : Bool} {target : H → Prop}

theorem walked_knows (copied : Copied target w t) (aim : ∀ h, target h → w.passes local_tip tip h)
    (walked : Walked w local_tip tip t join_found) (h : H) : t.repo.commits.contains h = true ↔ w.knows local_tip tip h := by
  constructor
  · intro held
    obtain ⟨data,found⟩ := (Dict.contains_iff _ _).mp held
    rcases copied.copies h data found with old | ⟨aimed,-⟩
    · exact Or.inl ((Dict.contains_iff _ _).mpr ⟨data,old⟩)
    · exact Or.inr (aim h aimed)
  · rintro (held | passed)
    · obtain ⟨data,found⟩ := (Dict.contains_iff _ _).mp held
      exact (Dict.contains_iff _ _).mpr ⟨data,copied.kept h data found⟩
    · exact walked.passed h passed

theorem copied_parents (mirrors : w.Mirrors) (copied : Copied target w t) {h : H} {data : CommitData H}
    (found : t.repo.commits.get? h = some data) (stored : w.server.commits.contains h = true) :
    parents_of t.repo.commits h = parents_of w.server.commits h := by
  have here : parents_of t.repo.commits h = data.parents := by simp only [parents_of,found]
  rcases copied.copies h data found with old | ⟨-,served⟩
  · obtain ⟨row,there⟩ := (Dict.contains_iff _ _).mp stored
    rw [here,mirrors h data row old there]
    simp only [parents_of,there]
  · rw [here,get_commit_parents served]

/-- An ancestor walk over the commits here goes where the registry's parents lead, through what is here. -/
theorem local_path_iff (dag : w.server.Dag) (mirrors : w.Mirrors) (copied : Copied target w t)
    (aim : ∀ h, target h → w.passes local_tip tip h) (walked : Walked w local_tip tip t join_found)
    (stored : w.server.commits.contains tip = true) (L : H) :
    Search.Reach (parents_of t.repo.commits) tip L ↔
      Relation.ReflTransGen (fun a b => w.knows local_tip tip a ∧ b ∈ parents_of w.server.commits a) tip L := by
  have edge {a b : H} (served : w.server.commits.contains a = true) :
      b ∈ parents_of t.repo.commits a ↔ w.knows local_tip tip a ∧ b ∈ parents_of w.server.commits a := by
    rw [← walked_knows copied aim walked]
    cases found : t.repo.commits.get? a with
    | none => simp [parents_of,found,Dict.contains]
    | some data => simp [copied_parents mirrors copied found served,Dict.contains,found]
  constructor
  · intro path
    suffices both : w.server.commits.contains L = true ∧
        Relation.ReflTransGen (fun a b => w.knows local_tip tip a ∧ b ∈ parents_of w.server.commits a) tip L from both.2
    induction path with
    | refl => exact ⟨stored,.refl⟩
    | tail _ step ih =>
      have known := (edge ih.1).mp step
      exact ⟨dag.next known.2,ih.2.tail known⟩
  · intro path
    suffices both : w.server.commits.contains L = true ∧ Search.Reach (parents_of t.repo.commits) tip L from both.2
    induction path with
    | refl => exact ⟨stored,.refl⟩
    | tail _ step ih => exact ⟨dag.next step.2,ih.2.tail ((edge ih.1).mpr step)⟩

theorem known_path_reach {L : H}
    (path : Relation.ReflTransGen (fun a b => w.knows local_tip tip a ∧ b ∈ parents_of w.server.commits a) tip L) :
    Search.Reach (parents_of w.server.commits) tip L := by
  induction path with
  | refl => exact .refl
  | tail _ step ih => exact ih.tail step.2

/-- The decision for a branch at `L` whose remote tip is `R`: forward to a descendant, nothing to do
for an ancestor, and divergence for what is neither. -/
structure Decision.Right (w : World H) (branch : String) (L R : H) (d : Decision H) : Prop where
  forward : d = .fast_forward branch R ↔ Search.Reach (parents_of w.server.commits) R L ∧ L ≠ R
  untouched : d = .up_to_date ↔ Search.Reach (parents_of w.server.commits) L R
  apart : d = .diverged (some L) R ↔
    ¬Search.Reach (parents_of w.server.commits) R L ∧ ¬Search.Reach (parents_of w.server.commits) L R

/-- The remote tip is not behind the local one; and when it is ahead, its first parents come down to a commit that is
here, and some path to the local tip runs through what is here or on the way there. -/
def World.Settled (w : World H) (L R : H) : Prop :=
  L = R ∨ ¬Search.Reach (parents_of w.server.commits) L R ∧ (Search.Reach (parents_of w.server.commits) R L →
    Chain.Joins (parents_of w.server.commits) (w.stops (some L)) R ∧
      Relation.ReflTransGen (fun a b => w.knows (some L) R a ∧ b ∈ parents_of w.server.commits a) R L)

theorem decision_right_iff (dag : w.server.Dag) (mirrors : w.Mirrors) {branch : String} {L R : H} {d : Decision H}
    (head : w.repo.head = .branch branch) (here : w.repo.refs.get? branch = some (some L))
    (remote : w.server.refs.get? (remote_ref env branch) = some R) (copied : Copied (w.Fetches env) w t)
    (decided : Decided env w t d) (answered : d ≠ .no_remote_branch) : d.Right w branch L R ↔ w.Settled L R := by
  have aim (h : H) (fetches : w.Fetches env h) : w.passes (some L) R h := by
    obtain ⟨other,tip,head',remote',passed⟩ := fetches
    obtain rfl : branch = other := Head.branch.inj (head.symm.trans head')
    obtain rfl : R = tip := Option.some.inj (remote.symm.trans remote')
    simpa [here] using passed
  have allows_iff {join_found : Bool} (walked : Walked w (some L) R t join_found) : Allows t (some L) R join_found ↔
      Chain.Joins (parents_of w.server.commits) (w.stops (some L)) R ∧
        Relation.ReflTransGen (fun a b => w.knows (some L) R a ∧ b ∈ parents_of w.server.commits a) R L := by
    simp only [Allows,Option.some.injEq,forall_eq',walked.joins]
    rw [local_path_iff dag mirrors copied aim walked (dag.tips _ R remote)]
  cases decided with
  | no_remote_branch => exact absurd rfl answered
  | @up_to_date other tip head' remote' same =>
    obtain rfl : branch = other := Head.branch.inj (head.symm.trans head')
    obtain rfl : R = tip := Option.some.inj (remote.symm.trans remote')
    obtain rfl : L = R := by simpa [here] using same
    refine ⟨fun _ => Or.inl rfl,fun _ => ⟨by simp,?_,?_⟩⟩
    · simp only [true_iff]
      exact .refl
    · simp only [reduceCtorEq,false_iff]
      exact fun apart => apart.1 .refl
  | @diverged other tip join_found head' remote' differ walked refused =>
    obtain rfl : branch = other := Head.branch.inj (head.symm.trans head')
    obtain rfl : R = tip := Option.some.inj (remote.symm.trans remote')
    simp only [here,Option.join_some] at differ walked refused
    have differ : L ≠ R := fun same => differ (congrArg some same)
    rw [allows_iff walked] at refused
    constructor
    · intro right
      obtain ⟨not_ahead,not_behind⟩ := right.apart.mp (by simp [here])
      exact Or.inr ⟨not_behind,fun reach => absurd reach not_ahead⟩
    · intro settled
      obtain ⟨not_behind,joins⟩ := settled.resolve_left differ
      have not_ahead : ¬Search.Reach (parents_of w.server.commits) R L := fun reach => refused (joins reach)
      exact ⟨by simp [not_ahead],by simp [not_behind],by simp [here,not_ahead,not_behind]⟩
  | @fast_forward other tip join_found head' remote' differ walked allowed =>
    obtain rfl : branch = other := Head.branch.inj (head.symm.trans head')
    obtain rfl : R = tip := Option.some.inj (remote.symm.trans remote')
    simp only [here,Option.join_some] at differ walked allowed
    have differ : L ≠ R := fun same => differ (congrArg some same)
    rw [allows_iff walked] at allowed
    have reach := known_path_reach allowed.2
    have not_behind : ¬Search.Reach (parents_of w.server.commits) L R := fun back => differ (dag.acyclic.antisymm back reach)
    exact ⟨fun _ => Or.inr ⟨not_behind,fun _ => allowed⟩,fun _ =>
      ⟨by simp [reach,differ],by simp [not_behind],by simp [reach]⟩⟩

end Decide

/-! Runs. -/

/-- Requests may be answered, rejected or lost. -/
def at_will (β : Type) (_ : Choice) (_ : Op H β) (_ : World H) : Prop := True

theorem copying_steps {env : Env} {me : Nat} {target : H → Prop} {α : Type} {p rest : Command H α} {w t : World H}
    {post : Except (Failure H) α → World H → Prop} (steps : (alone env me at_will).Steps (p,w) (rest,t))
    (met : (copying env me at_will target w).Meets p post w) :
    Copied target w t ∧ (copying env me at_will target w).Meets rest post t := by
  have exec : (copying env me at_will target w).exec = (alone env me at_will).exec := rfl
  have same := Discipline.Steps.of_same exec (fun _ _ _ _ => id) steps
  exact Meets.steps (copying_keeps env me at_will target w) (fun _ => rfl) same (Copied.refl target w) met

theorem copying_runs {env : Env} {me : Nat} {target : H → Prop} {α : Type} {p : Command H α} {w t : World H}
    {r : Except (Failure H) α} {post : Except (Failure H) α → World H → Prop} (runs : (alone env me at_will).Runs p w r t)
    (met : (copying env me at_will target w).Meets p post w) : Copied target w t ∧ post r t := by
  obtain ⟨copied,reached⟩ := copying_steps runs met
  cases r <;> exact ⟨copied,reached⟩

theorem parent_shorter {data : CommitData Name} {p : Name} (parent : p ∈ data.parents) :
    p.bytes.length < (commit_hash data).bytes.length := by
  obtain ⟨before,after,split⟩ := List.append_of_mem parent
  have double (bytes : Bytes) : (marked bytes).length = 2 * bytes.length := by
    simp [marked,List.length_flatMap,Nat.mul_comm]
  simp only [commit_hash,sha256,Canonical.canonical_commit_bytes,split,List.flatMap_append,List.flatMap_cons,
    List.length_append,List.length_cons,double]
  omega

def change (parents : List Name) (message : String) (timestamp : Nat) : CommitData Name := ⟨parents,message,timestamp,∅⟩

def registry (rows : List (CommitData Name)) (tip : Name) : Server Name :=
  {Server.empty 0 with
    commits := Dict.ofList (rows.map fun data => (commit_hash data,data))
    refs := (∅ : Dict String Name).set "p/main" tip}

theorem registry_rows {rows : List (CommitData Name)} {tip h : Name} {data : CommitData Name}
    (found : (registry rows tip).commits.get? h = some data) : data ∈ rows ∧ commit_hash data = h := by
  obtain ⟨row,member,same⟩ := List.mem_map.mp (Dict.get?_ofList found)
  obtain ⟨rfl,rfl⟩ := Prod.mk.inj same
  exact ⟨member,rfl⟩

theorem registry_dag {rows : List (CommitData Name)} {tip : Name}
    (closed : ∀ data ∈ rows, ∀ p ∈ data.parents, p ∈ rows.map commit_hash) (there : tip ∈ rows.map commit_hash) :
    (registry rows tip).Dag := by
  have stored {h : Name} (member : h ∈ rows.map commit_hash) : (registry rows tip).commits.contains h = true := by
    obtain ⟨data,row,rfl⟩ := List.mem_map.mp member
    exact Dict.contains_ofList (List.mem_map.mpr ⟨data,row,rfl⟩)
  refine ⟨fun h data found p parent => stored (closed data (registry_rows found).1 p parent),?_,fun ref_name h found => ?_⟩
  · apply Chain.acyclic_of_rank fun h : Name => h.bytes.length
    intro h p parent
    unfold parents_of at parent
    split at parent
    · rename_i data found
      exact (registry_rows found).2 ▸ parent_shorter parent
    · simp at parent
  · simp only [registry,Dict.get?_set,Dict.get?_emptyc] at found
    split at found
    · exact Option.some.inj found ▸ stored there
    · cases found

def base : CommitData Name := change [] "a" 0

def mine : CommitData Name := change [commit_hash base] "b" 1

def early : World Name := ⟨Repo.init,registry [base,mine] (commit_hash mine),true⟩

def cloned : World Name := ((clone desk 3).run (World.exec desk 0) (fun _ => answered) early.fresh).2

def grown (rows : List (CommitData Name)) (tip : Name) : World Name := {cloned with server := registry rows tip}

theorem cloned_holds {h : Name} {data : CommitData Name} (found : cloned.repo.commits.get? h = some data) :
    data ∈ [base,mine] ∧ commit_hash data = h := by
  have entries : cloned.repo.commits.entries = [(commit_hash mine,mine),(commit_hash base,base)] := by decide
  have member := (Dict.mem_entries _ _ _).mpr found
  simp only [entries,List.mem_cons,Prod.mk.injEq,List.not_mem_nil,or_false] at member
  rcases member with ⟨rfl,rfl⟩ | ⟨rfl,rfl⟩ <;> simp

def next_change : CommitData Name := change [commit_hash mine] "c" 2

def forward : World Name := grown [base,mine,next_change] (commit_hash next_change)

theorem forward_dag : forward.server.Dag := registry_dag (by decide) (by decide)

theorem grown_mirrors {rows : List (CommitData Name)} {tip : Name}
    (more : ∀ data ∈ [base,mine], (registry rows tip).commits.get? (commit_hash data) = some data) : (grown rows tip).Mirrors := by
  intro h data stored found served
  obtain ⟨member,rfl⟩ := cloned_holds found
  obtain rfl : data = stored := Option.some.inj ((more data member).symm.trans served)
  rfl

def decided (w : World Name) : Except (Failure Name) (Decision Name) × World Name :=
  (pull_decision desk 9).run (World.exec desk 0) (fun _ => answered) w

theorem decided_runs (w : World Name) : (alone desk 0 at_will).Runs (pull_decision desk 9) w (decided w).1 (decided w).2 :=
  Discipline.runs_of_run (fun _ => answered) (fun _ _ _ => true) (fun _ _ _ _ => trivial) _ _ (Prog.checks_true _ _ _ _)

def pulled (w : World Name) : Except (Failure Name) Pulled × World Name :=
  (pull desk 9 false).run (World.exec desk 0) (fun _ => answered) w

theorem pulled_runs (w : World Name) : (alone desk 0 at_will).Runs (pull desk 9 false) w (pulled w).1 (pulled w).2 :=
  Discipline.runs_of_run (fun _ => answered) (fun _ _ _ => true) (fun _ _ _ _ => trivial) _ _ (Prog.checks_true _ _ _ _)

/-! A merge of another line with work done on top of the clone's tip. -/

def theirs : CommitData Name := change [commit_hash base] "d" 3

def merged : CommitData Name := change [commit_hash theirs,commit_hash next_change] "m" 4

def crossed : World Name := grown [base,mine,next_change,theirs,merged] (commit_hash merged)

theorem crossed_dag : crossed.server.Dag := registry_dag (by decide) (by decide)

theorem crossed_reaches {h p : Name} (data : CommitData Name) (found : crossed.server.commits.get? h = some data)
    (parent : p ∈ data.parents) : p ∈ parents_of crossed.server.commits h := by
  simp only [parents_of,found]
  exact parent

theorem merged_reaches : Search.Reach (parents_of crossed.server.commits) (commit_hash merged) (commit_hash next_change) ∧
    Search.Reach (parents_of crossed.server.commits) (commit_hash merged) (commit_hash mine) := by
  have first : Search.Reach (parents_of crossed.server.commits) (commit_hash merged) (commit_hash next_change) :=
    .single (crossed_reaches merged (by decide) (by decide))
  exact ⟨first,first.tail (crossed_reaches next_change (by decide) (by decide))⟩

end AetherVault
