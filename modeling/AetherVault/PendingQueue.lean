import AetherVault.Delivery

/-! The pending-push queue under any number of processes of one repository: what it
takes for an entry to leave it, and the one write of the queue that breaks this. -/
namespace AetherVault
open Lib Hashing
open Lib.Prog (Only call forEach foldEach)
open Lib.Discipline (Meets)

variable {H : Type} [DecidableEq H] [Hashing H] [Canonical H]

variable {aim : Aim H}

/-! The processes of one repository. -/

/-- What goes on beside the processes: other commands leave the queue alone, and other
clients take the registry onward. -/
structure Around (aim : Aim H) (s t : Site H) : Prop where
  sound : t.Sound aim
  onward : aim.onward s.server t.server
  filed : ∀ h, s.repo.commits.contains h = true → t.repo.commits.contains h = true
  queue : t.queue = s.queue
  lock : t.repo.locks .queue = s.repo.locks .queue
  seen : t.seen = s.seen

theorem Around.relies {s t : Site H} (around : Around aim s t) (i : Nat) : Relies aim i s t where
  onward := around.onward
  filed := around.filed
  queued e member := Or.inl (by rwa [around.queue])
  seen := congrFun around.seen i
  lock depth := by rw [around.lock]
  alone _ e member := Or.inl (by rwa [around.queue] at member)
  sole _ := around.queue

abbrev Processes (H : Type) [DecidableEq H] [Hashing H] := Pool (Op H) (Failure H) Nat (Site H)

/-- Each process runs commands that commit, merge or push; one that ends gives up its locks. -/
def Works (env : Env) (disciplines : Nat → Discipline (Op H) (Site H) Choice) (around : Site H → Site H → Prop) :
    Processes H → Processes H → Prop :=
  Relation.ReflTransGen (Pool.Step disciplines (fun _ => Publishes env) Site.leave around)

def Processes.start (limit : Nat) : Processes H := ⟨.start limit,fun _ => .pure ()⟩

theorem leave_kept {s : Site H} (sound : s.Sound aim) (i : Nat) : Kept aim i s (s.leave i) := by
  refine kept_locks sound i fun j other depth => ?_
  cases holder : s.repo.locks .queue with
  | none => simp
  | some held =>
    by_cases mine : held.1 = i
    · have away : held ≠ (j,depth) := fun same => other (by rw [← mine,same])
      simp [Option.filter,mine,away]
    · simp [Option.filter,mine]

omit [Canonical H] in
theorem leave_free (s : Site H) (i : Nat) : ¬(s.leave i).Holds i := by
  rintro ⟨depth,held⟩
  simp [Site.leave,Option.filter_eq_some_iff] at held

theorem queueing_compatible (aim : Aim H) (env : Env) (plural : ¬aim.sole) :
    Pool.Compatible (queueing aim env) (fun _ => Publishes env) Site.leave (Around aim) (Site.Sound aim) where
  shared _ _ := Iff.rfl
  alone i s := .refl i s
  trans _ _ _ _ := .trans
  keeps i _ c o _ sound allowed required :=
    ⟨(exec_kept sound i c o allowed required).sound,(exec_kept sound i c o allowed required).others plural⟩
  left i _ sound := ⟨(leave_kept sound i).sound,(leave_kept sound i).others plural⟩
  quiet _ _ _ around := ⟨around.sound,around.relies⟩
  safe i _ s launched _ := (publishes_does launched (leave_free s i)).mono fun _ _ _ => trivial

theorem start_sound (aim : Aim H) (limit : Nat) : (Site.start limit : Site H).Sound aim where
  stored h data found := by simp [Site.start,Repo.init] at found
  pushed h data found := by simp [Site.start,Server.empty] at found
  queued e member := by simp [Site.start,Site.queue,Repo.init] at member
  seen j e member := by simp [Site.start] at member

theorem start_good (aim : Aim H) (env : Env) (limit : Nat) :
    Pool.Good (queueing aim env) (Site.Sound aim) (Processes.start limit) := ⟨start_sound aim limit,fun _ => trivial⟩

/-- Over any run, what is queued stays queued until it is done. -/
theorem works_advance {env : Env} (plural : ¬aim.sole) {before after : Processes H} (run : Works env (queueing aim env) (Around aim) before after)
    (good : Pool.Good (queueing aim env) (Site.Sound aim) before) : Advances aim before.state after.state := by
  induction run with
  | refl => exact .refl _
  | tail many one ih =>
    have now := good.run (queueing_compatible aim env plural) many
    refine ih.trans ?_
    cases one with
    | op pool i c o next at_op allowed =>
      exact (exec_kept now.1 i c o allowed (now.required (queueing_compatible aim env plural) i c o next at_op allowed)).advances
    | crash pool i => exact (leave_kept now.1 i).advances
    | start pool i p idle launched => exact (leave_kept now.1 i).advances
    | env pool t around => exact (around.relies 0).toAdvances

/-! A commit is delivered once the registry has it and its branch has come to it. -/

/-- For commits that are each made for one branch. -/
def branch_aim (branch_of : H → Option String) : Aim H where
  assigned h ref_name := branch_of h = ref_name
  publishing server ref_name h := ¬(Rootless h ∧ ∃ current, server.refs.get? ref_name = some current ∧ current ≠ h)
  onward a b := (∀ h, a.commits.contains h = true → b.commits.contains h = true) ∧ Descends a b
  sole := False
  done server h := server.commits.contains h = true ∧
    ∀ ref_name, branch_of h = some ref_name → ∃ tip, server.refs.get? ref_name = some tip ∧ Ancestor h tip
  same commits refs := ⟨fun h found => by rwa [commits],.of_same refs⟩
  trans first later := ⟨fun h found => later.1 h (first.1 h found),first.2.trans later.2⟩
  pushing server rejected h data := by
    rcases push_commit_stored server rejected h data with same | landed
    · rw [same]
      exact ⟨fun _ found => found,.of_same rfl⟩
    · rw [landed]
      exact ⟨fun other found => Dict.contains_set _ h data found,.of_same rfl⟩
  moving guarded careful :=
    ⟨fun h found => by rwa [update_ref_commits],update_ref_descends _ guarded careful⟩
  stays_stored onward found := onward.1 _ found
  stays_done onward done := by
    refine ⟨onward.1 _ done.1,fun ref_name named => ?_⟩
    obtain ⟨tip,found,path⟩ := done.2 ref_name named
    obtain ⟨next,moved,rest⟩ := onward.2 ref_name tip found
    exact ⟨next,moved,path.trans rest⟩
  stored done := done.1
  apart assigned stored := ⟨stored,fun ref_name named => by simp [assigned] at named⟩
  arrived assigned _ stored updated := by
    refine ⟨by rwa [update_ref_commits],fun ref_name named => ?_⟩
    rw [assigned] at named
    obtain rfl := Option.some.inj named
    refine ⟨_,?_,.refl⟩
    unfold Server.update_ref at updated ⊢
    split at updated
    · simp at updated
    · rename_i passed
      rw [if_neg passed]
      simp
  contained assigned stored found path := by
    refine ⟨stored,fun ref_name named => ?_⟩
    rw [assigned] at named
    exact ⟨_,Option.some.inj named ▸ found,path⟩
  inherited assigned done edge same stored := by
    refine ⟨stored,fun ref_name named => ?_⟩
    obtain ⟨tip,found,path⟩ := done.2 ref_name (by rw [assigned,← named,same])
    exact ⟨tip,found,.head edge path⟩

/-- Whatever the order of the processes' steps, wherever one of them stops: as long as
a commit is made for one branch, no commit without parents is put on a branch that is
at another commit, and an unlocked write of the queue drops nothing that was queued
since it was read and no commit that the registry has not stored, an entry leaves the
queue only when the registry has its commit and its branch is at it or at a descendant. -/
theorem queue_loses_nothing (env : Env) (branch_of : H → Option String) (limit : Nat) (before after : Processes H)
    (reached : Works env (queueing (branch_aim branch_of) env) (Around (branch_aim branch_of)) (.start limit) before)
    (run : Works env (queueing (branch_aim branch_of) env) (Around (branch_aim branch_of)) before after)
    (e : QueueEntry H) (queued : e ∈ before.state.queue) (dequeued : e ∉ after.state.queue) :
    after.state.server.commits.contains e.commit_hash = true ∧
      ∀ ref_name, e.ref_name = some ref_name →
        ∃ tip, after.state.server.refs.get? ref_name = some tip ∧ Ancestor e.commit_hash tip := by
  have good := (start_good (branch_aim branch_of) env limit).run (queueing_compatible _ env id) reached
  have assigned : branch_of e.commit_hash = e.ref_name := (good.1.queued e queued).2
  rcases (works_advance id run good).queued e queued with kept | done
  · exact absurd kept dequeued
  · exact ⟨done.1,fun ref_name named => done.2 ref_name (assigned.trans named)⟩

/-! One process of one repository. -/

def only_main (_ : Name) : Option String := some "p/main"

/-- What `orderly` asks for of a run that writes the queue under its lock only. -/
def orderly_check (i : Nat) (β : Type) (o : Op Name β) (s : Site Name) : Bool :=
  match β,o with
  | _,.update_ref ref_name h _ =>
    ref_name == "p/main" && (s.server.refs.get? ref_name == none || h.bytes.head? == some 1)
  | _,.write_head (.detached _) => false
  | _,.save_pending_push pending =>
    pending.all (fun e => e.ref_name == some "p/main") && (s.repo.locks .queue).any (fun holder => holder.1 == i)
  | _,_ => true

theorem orderly_check_fair (i : Nat) (β : Type) (o : Op Name β) (s : Site Name) (passed : orderly_check i β o s = true) :
    orderly (branch_aim only_main) i β answered o s := by
  cases o with
  | update_ref ref_name h expected =>
    simp only [orderly_check,Bool.and_eq_true,beq_iff_eq] at passed
    refine ⟨by rw [passed.1]; rfl,?_⟩
    rintro - ⟨rootless,current,found,-⟩
    simp [found,rootless_marks rootless] at passed
  | write_head head =>
    cases head with
    | branch name => trivial
    | detached h => simp [orderly_check] at passed
  | save_pending_push pending =>
    simp only [orderly_check,Bool.and_eq_true,List.all_eq_true,beq_iff_eq,Option.any_eq_true] at passed
    obtain ⟨named,⟨owner,depth⟩,holder,mine⟩ := passed
    exact ⟨fun e member => (named e member).symm,fun unheld => absurd ⟨depth,by rw [← mine]; exact holder⟩ unheld⟩
  | _ => trivial

def desk : Env := ⟨⟨none,true,0⟩,"p",fun _ => []⟩

def commit_on_main (data : CommitData Name) (defer_upload : Bool) : Command Name Unit := do
  let _ ← _finalize_commit desk data (some "main") .empty defer_upload none (.pure ())
  .pure ()

def push_queue : Command Name Unit := do
  let _ ← flush_pending_push []
  .pure ()

/-- The processes once process 1 has run a program to its end. -/
def worked (policy : Site Name → Choice) (p : Command Name Unit) (processes : Processes Name) : Processes Name :=
  let ran := p.run (Site.exec desk 1) policy (processes.state.leave 1)
  ⟨ran.2,Function.update processes.progs 1 (Prog.leaf ran.1)⟩

theorem worked_reached {disciplines : Nat → Discipline (Op Name) (Site Name) Choice} {around : Site Name → Site Name → Prop}
    (same : (disciplines 1).exec = Site.exec desk 1) (policy : Site Name → Choice) (p : Command Name Unit)
    (processes : Processes Name) (check : ∀ β, Op Name β → Site Name → Bool)
    (fair : ∀ β (o : Op Name β) s, check β o s = true → (disciplines 1).may β (policy s) o s)
    (idle : (processes.progs 1).finished) (launched : Publishes desk p)
    (checked : p.checks (Site.exec desk 1) policy check (processes.state.leave 1) = true) :
    Works desk disciplines around processes (worked policy p processes) := by
  have run := Pool.run_program disciplines (fun _ => Publishes desk) Site.leave around policy check processes 1 p fair
    idle launched (by rw [same]; exact checked)
  rw [same] at run
  exact run

theorem queue_loses_nothing_pushed :
    (worked (fun _ => answered) push_queue (worked (fun _ => answered) (commit_on_main (first_commit "a") true)
      (.start 0))).state.server.commits.contains (commit_hash (first_commit "a")) = true ∧
      ∀ ref_name, some "p/main" = some ref_name →
        ∃ tip, (worked (fun _ => answered) push_queue (worked (fun _ => answered) (commit_on_main (first_commit "a") true)
          (.start 0))).state.server.refs.get? ref_name = some tip ∧ Ancestor (commit_hash (first_commit "a")) tip :=
  queue_loses_nothing desk only_main 0 (worked (fun _ => answered) (commit_on_main (first_commit "a") true) (.start 0)) _
    (worked_reached rfl _ _ _ (orderly_check 1) (orderly_check_fair 1) trivial (.finalize _ _ _ _ _) (by decide))
    (worked_reached rfl _ _ _ (orderly_check 1) (orderly_check_fair 1) trivial .push (by decide))
    ⟨commit_hash (first_commit "a"),some "p/main"⟩ (by decide) (by decide)

/-! The same processes, whatever they do to the queue, beside whatever leaves it alone. -/

def lawless (i : Nat) : Discipline (Op Name) (Site Name) Choice where
  exec := Site.exec desk i
  may := fun _ _ _ _ => True
  inv := fun _ => True
  rely := fun _ _ => True
  pre := fun _ _ _ _ => True

def beside (s t : Site Name) : Prop := t.queue = s.queue ∧ t.repo.locks = s.repo.locks ∧ t.seen = s.seen

/-- Two bytes, one more than the registry takes. -/
def oversized : Bytes := [7,7]

def oversized_commit : CommitData Name :=
  ⟨[],"a",0,Dict.empty.set ["w"] ⟨.sha (sha256 oversized),2,.artifact,[],[]⟩⟩

def merge_commit : CommitData Name := ⟨[commit_hash oversized_commit,commit_hash (first_commit "b")],"m",0,∅⟩

/-- The object of the commit to come is in the store. -/
def with_object (processes : Processes Name) : Processes Name :=
  ⟨{processes.state with repo := {processes.state.repo with objects := processes.state.repo.objects.publish oversized}},
    processes.progs⟩

/-- The branch is at one commit, and another one, that cannot be uploaded, is queued for it. -/
def before_merge : Processes Name :=
  worked (fun _ => answered) (commit_on_main oversized_commit true)
    (worked (fun _ => answered) (commit_on_main (first_commit "b") false) (with_object (.start 1)))

theorem lawless_worked (p : Command Name Unit) (processes : Processes Name) (idle : (processes.progs 1).finished)
    (launched : Publishes desk p)
    (checked : p.checks (Site.exec desk 1) (fun _ => answered) (fun _ _ _ => true) (processes.state.leave 1) = true) :
    Works desk lawless beside processes (worked (fun _ => answered) p processes) :=
  worked_reached rfl _ _ _ (fun _ _ _ => true) (fun _ _ _ _ => trivial) idle launched checked

theorem before_merge_reached : Works desk lawless beside (.start 1) before_merge := by
  refine .head (.env (Processes.start 1) (with_object (.start 1)).state ⟨rfl,rfl,rfl⟩) ?_
  refine (lawless_worked (commit_on_main (first_commit "b") false) (with_object (.start 1)) trivial
    (.finalize _ _ _ _ _) (by decide)).trans ?_
  exact lawless_worked (commit_on_main oversized_commit true) _ trivial (.finalize _ _ _ _ _) (by decide)

/-- The merge of the two lands, and the queued parent is dropped: the registry has never seen it. -/
theorem queued_parent_dropped :
    ∃ (before after : Processes Name) (e : QueueEntry Name),
      Works desk lawless beside (.start 1) before ∧ Works desk lawless beside before after ∧
        e ∈ before.state.queue ∧ e ∉ after.state.queue ∧ after.state.server.commits.contains e.commit_hash = false := by
  refine ⟨before_merge,worked (fun _ => answered) (commit_on_main merge_commit false) before_merge,
    ⟨commit_hash oversized_commit,some "p/main"⟩,before_merge_reached,?_,by decide,by decide,by decide⟩
  exact lawless_worked (commit_on_main merge_commit false) before_merge trivial (.finalize _ _ _ _ _) (by decide)

end AetherVault
