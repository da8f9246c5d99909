import AetherVault.RefUpdates

/-! The state that the processes of one repository share, and what one operation of a
process does to the queue and to the registry. A commit may leave the queue once it is
delivered; what that takes is a parameter, `Aim`. -/
namespace AetherVault
open Lib Hashing
open Lib.Prog (Only call forEach foldEach)
open Lib.Discipline (Meets)

variable {H : Type} [DecidableEq H] [Hashing H] [Canonical H]

/-- When a commit counts as delivered, and why it stays so. -/
structure Aim (H : Type) [DecidableEq H] [Hashing H] [Canonical H] where
  /-- the branch a commit is made for, if it is made for one -/
  assigned : H → Option String → Prop
  /-- when the registry may carry out a request to move a branch -/
  publishing : Server H → String → H → Prop
  onward : Server H → Server H → Prop
  /-- no other process works in the repository -/
  sole : Prop
  done : Server H → H → Prop
  same : ∀ {a b}, b.commits = a.commits → b.refs = a.refs → onward a b
  trans : ∀ {a b c}, onward a b → onward b c → onward a c
  pushing : ∀ server rejected h data, onward server (Server.push_commit server rejected h data).2
  moving : ∀ {server ref_name h expected}, Guarded h expected → publishing server ref_name h →
    onward server (Server.update_ref server ref_name h expected).2
  stays_stored : ∀ {a b h}, onward a b → a.commits.contains h = true → b.commits.contains h = true
  stays_done : ∀ {a b h}, onward a b → done a h → done b h
  stored : ∀ {server h}, done server h → server.commits.contains h = true
  apart : ∀ {server h}, assigned h none → server.commits.contains h = true → done server h
  arrived : ∀ {server ref_name h expected}, assigned h (some ref_name) → publishing server ref_name h →
    server.commits.contains h = true → (Server.update_ref server ref_name h expected).1 = true →
    done (Server.update_ref server ref_name h expected).2 h
  contained : ∀ {server ref_name h tip}, assigned h (some ref_name) → server.commits.contains h = true →
    server.refs.get? ref_name = some tip → Ancestor h tip → done server h
  inherited : ∀ {server ref_name parent h}, assigned h (some ref_name) → done server h → ParentRel parent h →
    assigned parent (some ref_name) → server.commits.contains parent = true → done server parent

/-- One repository and the registry; `seen` is the queue as each process last read it. -/
structure Site (H : Type) [DecidableEq H] [Hashing H] where
  repo : Repo H
  server : Server H
  seen : Nat → List (QueueEntry H)

namespace Site

def start (limit : Nat) : Site H := ⟨.init,.empty limit,fun _ => []⟩

def exec (env : Env) (i : Nat) (β : Type) (c : Choice) (o : Op H β) (s : Site H) : β × Site H :=
  let done := World.exec env i β c o ⟨s.repo,s.server,true⟩
  (done.1,⟨done.2.repo,done.2.server,match β,o with
    | _,.load_pending_push => Function.update s.seen i s.repo.pending_push
    | _,_ => s.seen⟩)

def queue (s : Site H) : List (QueueEntry H) := s.repo.pending_push

/-- The process holds `queue.lock`. -/
def Holds (i : Nat) (s : Site H) : Prop := ∃ depth, s.repo.locks .queue = some (i,depth)

/-- The operating system drops the locks of a process that ends. -/
def leave (i : Nat) (s : Site H) : Site H :=
  {s with repo := {s.repo with locks := fun lock => (s.repo.locks lock).filter (fun holder => holder.1 != i)}}

end Site

variable (aim : Aim H)

/-- Every commit is stored under its own name, and every queued commit has its file. -/
structure Site.Sound (s : Site H) : Prop where
  stored : ∀ h data, s.repo.commits.get? h = some data → Genuine h data
  pushed : ∀ h data, s.server.commits.get? h = some data → Genuine h data
  queued : ∀ e ∈ s.queue, s.repo.commits.contains e.commit_hash = true ∧ aim.assigned e.commit_hash e.ref_name
  seen : ∀ j, ∀ e ∈ s.seen j, s.repo.commits.contains e.commit_hash = true ∧ aim.assigned e.commit_hash e.ref_name ∧
    (e ∈ s.queue ∨ aim.done s.server e.commit_hash)

/-- Commits are only added, and only what is delivered leaves the queue. -/
structure Advances (s t : Site H) : Prop where
  onward : aim.onward s.server t.server
  filed : ∀ h, s.repo.commits.contains h = true → t.repo.commits.contains h = true
  queued : ∀ e ∈ s.queue, e ∈ t.queue ∨ aim.done t.server e.commit_hash

/-- What a process can rely on: its lock is its own, while it holds the lock of the queue
no entry is added, and when it is alone the queue stays as it is. -/
structure Relies (i : Nat) (s t : Site H) : Prop extends Advances aim s t where
  seen : t.seen i = s.seen i
  lock : ∀ depth, t.repo.locks .queue = some (i,depth) ↔ s.repo.locks .queue = some (i,depth)
  alone : s.Holds i → ∀ e ∈ t.queue, e ∈ s.queue ∨ aim.done t.server e.commit_hash
  sole : aim.sole → t.queue = s.queue

/-- What a write of the queue may leave out, unless it is made under the lock: nothing
that was queued since the process read it, and nothing the registry has not stored. -/
def careful_write (i : Nat) (s : Site H) (pending : List (QueueEntry H)) : Prop :=
  ∀ e ∈ s.queue, e ∉ pending → (aim.sole ∨ e ∈ s.seen i) ∧ s.server.commits.contains e.commit_hash = true

/-- A commit is made for one branch, and the unlocked writes of the queue are careful. -/
def orderly (i : Nat) (β : Type) (c : Choice) (o : Op H β) (s : Site H) : Prop :=
  match β,o with
  | _,.update_ref ref_name h _ => aim.assigned h (some ref_name) ∧ (carried_out c → aim.publishing s.server ref_name h)
  | _,.write_head (.detached h) => aim.assigned h none
  | _,.save_pending_push pending =>
    (∀ e ∈ pending, aim.assigned e.commit_hash e.ref_name) ∧ (¬s.Holds i → careful_write aim i s pending)
  | _,_ => True

def queueing (env : Env) (i : Nat) : Discipline (Op H) (Site H) Choice where
  exec := Site.exec env i
  may := orderly aim i
  inv := Site.Sound aim
  rely := Relies aim i
  pre := fun β _ o s => match β,o with
    | _,.write_commit h data => Genuine h data
    | _,.push_commit h data => Genuine h data
    | _,.update_ref _ h expected => Guarded h expected
    | _,.save_pending_push pending =>
      (∀ e ∈ s.queue, e ∉ pending → aim.done s.server e.commit_hash) ∧
        (∀ e ∈ pending, s.repo.commits.contains e.commit_hash = true) ∧
        (s.Holds i ∨ ∀ e ∈ pending, e ∈ s.queue ∨ aim.done s.server e.commit_hash)
    | _,_ => True

variable {aim}

theorem Advances.refl (s : Site H) : Advances aim s s := ⟨aim.same rfl rfl,fun _ found => found,fun _ member => Or.inl member⟩

theorem Advances.trans {a b c : Site H} (first : Advances aim a b) (later : Advances aim b c) : Advances aim a c where
  onward := aim.trans first.onward later.onward
  filed h found := later.filed h (first.filed h found)
  queued e member := by
    rcases first.queued e member with kept | done
    · exact later.queued e kept
    · exact Or.inr (aim.stays_done later.onward done)

theorem Relies.refl (i : Nat) (s : Site H) : Relies aim i s s :=
  {Advances.refl s with seen := rfl,lock := fun _ => Iff.rfl,alone := fun _ _ member => Or.inl member,sole := fun _ => rfl}

theorem Relies.holds {i : Nat} {s t : Site H} (relied : Relies aim i s t) : t.Holds i ↔ s.Holds i :=
  exists_congr relied.lock

theorem Relies.trans {i : Nat} {a b c : Site H} (first : Relies aim i a b) (later : Relies aim i b c) : Relies aim i a c where
  toAdvances := first.toAdvances.trans later.toAdvances
  seen := later.seen.trans first.seen
  lock depth := (later.lock depth).trans (first.lock depth)
  alone held e member := by
    rcases later.alone (first.holds.mpr held) e member with kept | done
    · rcases first.alone held e kept with early | done
      · exact Or.inl early
      · exact Or.inr (aim.stays_done later.onward done)
    · exact Or.inr done
  sole one := (later.sole one).trans (first.sole one)

/-! What one operation changes. -/

/-- Operations that touch neither the queue, nor its lock, nor any commit or branch of the registry. -/
def Op.Aside (β : Type) (o : Op H β) : Prop :=
  match β,o with
  | _,.load_pending_push => False
  | _,.save_pending_push _ => False
  | _,.acquire .queue => False
  | _,.release .queue => False
  | _,.write_commit _ _ => False
  | _,.push_commit _ _ => False
  | _,.update_ref _ _ _ => False
  | _,_ => True

/-- The two states agree on what delivery is about. -/
structure Unmoved (s t : Site H) : Prop where
  commits : t.repo.commits = s.repo.commits
  queue : t.queue = s.queue
  lock : t.repo.locks .queue = s.repo.locks .queue
  server_commits : t.server.commits = s.server.commits
  server_refs : t.server.refs = s.server.refs
  seen : t.seen = s.seen

omit [Canonical H] in
theorem exec_aside (env : Env) (i : Nat) (β : Type) (c : Choice) (o : Op H β) (s : Site H) (aside : Op.Aside β o) :
    Unmoved s (Site.exec env i β c o s).2 := by
  have calm (quiet : Op.Quiet β o) (unread : (Site.exec env i β c o s).2.seen = s.seen) :
      Unmoved s (Site.exec env i β c o s).2 := by
    have kept := exec_quiet env i β c o ⟨s.repo,s.server,true⟩ quiet
    exact ⟨kept.commits,kept.pending_push,kept.queue_lock,kept.server_commits,kept.server_refs,unread⟩
  cases o with
  | save_index idx => exact ⟨rfl,rfl,rfl,rfl,rfl,rfl⟩
  | write_head head => exact ⟨rfl,rfl,rfl,rfl,rfl,rfl⟩
  | write_ref name h => exact ⟨rfl,rfl,rfl,rfl,rfl,rfl⟩
  | save_stash entries => exact ⟨rfl,rfl,rfl,rfl,rfl,rfl⟩
  | delete_stash id => exact ⟨rfl,rfl,rfl,rfl,rfl,rfl⟩
  | load_pending_push => exact aside.elim
  | save_pending_push pending => exact aside.elim
  | write_commit h data => exact aside.elim
  | push_commit h data => exact aside.elim
  | update_ref ref_name h expected => exact aside.elim
  | acquire lock =>
    cases lock with
    | queue => exact aside.elim
    | repo => exact calm trivial rfl
  | release lock =>
    cases lock with
    | queue => exact aside.elim
    | repo => exact calm trivial rfl
  | _ => exact calm trivial rfl

theorem Unmoved.sound {s t : Site H} (same : Unmoved s t) (sound : s.Sound aim) : t.Sound aim := by
  have done (h : H) (was : aim.done s.server h) : aim.done t.server h :=
    aim.stays_done (aim.same same.server_commits same.server_refs) was
  refine ⟨?_,?_,?_,?_⟩
  · rw [same.commits]
    exact sound.stored
  · rw [same.server_commits]
    exact sound.pushed
  · rw [same.queue,same.commits]
    exact sound.queued
  · rw [same.queue,same.commits,same.seen]
    intro j e member
    obtain ⟨filed,assigned,waiting⟩ := sound.seen j e member
    exact ⟨filed,assigned,waiting.imp_right (done _)⟩

theorem Unmoved.relies {s t : Site H} (same : Unmoved s t) (i : Nat) : Relies aim i s t where
  onward := aim.same same.server_commits same.server_refs
  filed h found := by rwa [same.commits]
  queued e member := Or.inl (by rwa [same.queue])
  seen := congrFun same.seen i
  lock depth := by rw [same.lock]
  alone _ e member := Or.inl (by rwa [same.queue] at member)
  sole _ := same.queue

/-- The state after an operation by `i`, for what keeps it sound and what others rely on. -/
structure Kept (aim : Aim H) (i : Nat) (s t : Site H) : Prop where
  sound : t.Sound aim
  advances : Advances aim s t
  others : ¬aim.sole → ∀ j, j ≠ i → Relies aim j s t

theorem Unmoved.kept {s t : Site H} (same : Unmoved s t) (sound : s.Sound aim) (i : Nat) : Kept aim i s t :=
  ⟨same.sound sound,(same.relies i).toAdvances,fun _ j _ => same.relies j⟩

theorem kept_server {s : Site H} {server : Server H} (sound : s.Sound aim) (onward : aim.onward s.server server)
    (pushed : ∀ h data, server.commits.get? h = some data → Genuine h data) (i : Nat) :
    Kept aim i s {s with server := server} := by
  have advances : Advances aim s {s with server := server} := ⟨onward,fun _ found => found,fun _ member => Or.inl member⟩
  refine ⟨⟨sound.stored,pushed,sound.queued,?_⟩,advances,fun _ j _ => ?_⟩
  · intro j e member
    obtain ⟨filed,assigned,waiting⟩ := sound.seen j e member
    exact ⟨filed,assigned,waiting.imp_right (aim.stays_done onward)⟩
  · exact {advances with seen := rfl,lock := fun _ => Iff.rfl,alone := fun _ _ member => Or.inl member,sole := fun _ => rfl}

theorem kept_read {s : Site H} (sound : s.Sound aim) (i : Nat) :
    Kept aim i s {s with seen := Function.update s.seen i s.repo.pending_push} := by
  have advances : Advances aim s {s with seen := Function.update s.seen i s.repo.pending_push} :=
    ⟨aim.same rfl rfl,fun _ found => found,fun _ member => Or.inl member⟩
  refine ⟨⟨sound.stored,sound.pushed,sound.queued,?_⟩,advances,fun _ j other => ?_⟩
  · intro j e member
    by_cases reader : j = i
    · subst j
      simp only [Function.update_self] at member
      exact ⟨(sound.queued e member).1,(sound.queued e member).2,Or.inl member⟩
    · simp only [Function.update_of_ne reader] at member
      exact sound.seen j e member
  · exact {advances with seen := by simp [Function.update_of_ne other],lock := fun _ => Iff.rfl,alone := fun _ _ member => Or.inl member,sole := fun _ => rfl}

theorem kept_locks {s : Site H} {locks : Locks} (sound : s.Sound aim) (i : Nat)
    (others : ∀ j, j ≠ i → ∀ depth, locks .queue = some (j,depth) ↔ s.repo.locks .queue = some (j,depth)) :
    Kept aim i s {s with repo := {s.repo with locks := locks}} := by
  have advances : Advances aim s {s with repo := {s.repo with locks := locks}} :=
    ⟨aim.same rfl rfl,fun _ found => found,fun _ member => Or.inl member⟩
  exact ⟨⟨sound.stored,sound.pushed,sound.queued,sound.seen⟩,advances,fun _ j other =>
    {advances with seen := rfl,lock := others j other,alone := fun _ _ member => Or.inl member,sole := fun _ => rfl}⟩

theorem kept_commit {s : Site H} {h : H} {data : CommitData H} (sound : s.Sound aim) (genuine : Genuine h data) (i : Nat) :
    Kept aim i s {s with repo := {s.repo with commits := s.repo.commits.set h data}} := by
  have advances : Advances aim s {s with repo := {s.repo with commits := s.repo.commits.set h data}} :=
    ⟨aim.same rfl rfl,fun _ found => Dict.contains_set _ h data found,fun _ member => Or.inl member⟩
  refine ⟨⟨?_,sound.pushed,?_,?_⟩,advances,fun _ j _ =>
    {advances with seen := rfl,lock := fun _ => Iff.rfl,alone := fun _ _ member => Or.inl member,sole := fun _ => rfl}⟩
  · intro other found held
    simp only [Dict.get?_set] at held
    split at held
    · rename_i same
      exact same ▸ Option.some.inj held ▸ genuine
    · exact sound.stored other found held
  · intro e member
    exact ⟨Dict.contains_set _ h data (sound.queued e member).1,(sound.queued e member).2⟩
  · intro j e member
    obtain ⟨filed,assigned,waiting⟩ := sound.seen j e member
    exact ⟨Dict.contains_set _ h data filed,assigned,waiting⟩

theorem kept_save {env : Env} {s : Site H} {pending : List (QueueEntry H)} (sound : s.Sound aim) (i : Nat) (c : Choice)
    (allowed : (queueing aim env i).may _ c (.save_pending_push pending) s)
    (required : (queueing aim env i).pre _ c (.save_pending_push pending) s) :
    Kept aim i s {s with repo := {s.repo with pending_push := pending}} := by
  obtain ⟨left_out,filed,write⟩ := required
  have advances : Advances aim s {s with repo := {s.repo with pending_push := pending}} := by
    refine ⟨aim.same rfl rfl,fun _ found => found,fun e member => ?_⟩
    by_cases stays : e ∈ pending
    · exact Or.inl stays
    · exact Or.inr (left_out e member stays)
  refine ⟨⟨sound.stored,sound.pushed,fun e member => ⟨filed e member,allowed.1 e member⟩,?_⟩,advances,fun plural j other => ?_⟩
  · intro j e member
    obtain ⟨present,assigned,waiting⟩ := sound.seen j e member
    refine ⟨present,assigned,?_⟩
    rcases waiting with queued | done
    · exact advances.queued e queued
    · exact Or.inr done
  · refine {advances with
      seen := rfl,lock := fun _ => Iff.rfl,alone := fun held e member => ?_,sole := fun one => absurd one plural}
    rcases write with ⟨depth,mine⟩ | known
    · obtain ⟨level,theirs⟩ := held
      rw [mine] at theirs
      exact absurd (Prod.mk.inj (Option.some.inj theirs)).1.symm other
    · exact known e member

/-- Every operation that finds what it requires keeps the state sound, moves it
forward and does only what other processes rely on. -/
theorem exec_kept {env : Env} {s : Site H} (sound : s.Sound aim) (i : Nat) {β : Type} (c : Choice) (o : Op H β)
    (allowed : (queueing aim env i).may _ c o s) (required : (queueing aim env i).pre _ c o s) :
    Kept aim i s (Site.exec env i β c o s).2 := by
  have aside (quiet : Op.Aside β o) : Kept aim i s (Site.exec env i β c o s).2 :=
    (exec_aside env i β c o s quiet).kept sound i
  cases o with
  | load_pending_push => exact kept_read sound i
  | save_pending_push pending => exact kept_save sound i c allowed required
  | write_commit h data => exact kept_commit sound required i
  | acquire lock =>
    cases lock with
    | repo => exact aside trivial
    | queue =>
      simp only [Site.exec,World.exec,World.acquire]
      cases holder : s.repo.locks .queue with
      | none => exact kept_locks sound i fun j other depth => by simp [holder,Ne.symm other]
      | some held =>
        obtain ⟨owner,depth⟩ := held
        dsimp only
        split
        · rename_i mine
          exact kept_locks sound i fun j other level => by simp [holder,mine,Ne.symm other]
        · exact (Unmoved.mk rfl rfl rfl rfl rfl rfl).kept sound i
  | release lock =>
    cases lock with
    | repo => exact aside trivial
    | queue =>
      simp only [Site.exec,World.exec,World.release]
      cases holder : s.repo.locks .queue with
      | none => exact (Unmoved.mk rfl rfl rfl rfl rfl rfl).kept sound i
      | some held =>
        obtain ⟨owner,depth⟩ := held
        dsimp only
        split
        · rename_i mine
          refine kept_locks sound i fun j other level => ?_
          by_cases last : depth ≤ 1 <;> simp [holder,mine,Ne.symm other,last]
        · exact (Unmoved.mk rfl rfl rfl rfl rfl rfl).kept sound i
  | push_commit h data =>
    obtain ⟨repo,server⟩ := request_server ⟨s.repo,s.server,true⟩ c (fun server => server.push_commit c.rejected h data)
    have moved : (Site.exec env i _ c (.push_commit h data) s).2 =
        {s with server := (World.request ⟨s.repo,s.server,true⟩ c
          (fun server => server.push_commit c.rejected h data)).2.server} := by
      simp only [Site.exec,World.exec,repo]
    rw [moved]
    rcases server with same | ⟨-,same⟩
    · rw [same]
      exact kept_server sound (aim.same rfl rfl) sound.pushed i
    · rw [same]
      refine kept_server sound (aim.pushing _ _ _ _) ?_ i
      intro other found held
      rcases push_commit_stored s.server c.rejected h data with kept | landed
      · exact sound.pushed other found (by rwa [kept] at held)
      · rw [landed] at held
        simp only [Dict.get?_set] at held
        split at held
        · rename_i hit
          exact hit ▸ Option.some.inj held ▸ required
        · exact sound.pushed other found held
  | update_ref ref_name h expected =>
    obtain ⟨repo,server⟩ := request_server ⟨s.repo,s.server,true⟩ c (fun server =>
      let done := server.update_ref ref_name h expected
      ((⟨done.1,server.refs.get? ref_name⟩ : RefReply H),done.2))
    have moved : (Site.exec env i _ c (.update_ref ref_name h expected) s).2 =
        {s with server := (World.request ⟨s.repo,s.server,true⟩ c (fun server =>
          let done := server.update_ref ref_name h expected
          ((⟨done.1,server.refs.get? ref_name⟩ : RefReply H),done.2))).2.server} := by
      simp only [Site.exec,World.exec,repo]
    rw [moved]
    rcases server with same | ⟨through,same⟩
    · rw [same]
      exact kept_server sound (aim.same rfl rfl) sound.pushed i
    · rw [same]
      refine kept_server sound (aim.moving required (allowed.2 through)) ?_ i
      exact fun other found held => sound.pushed other found (update_ref_commits (H := H) _ _ _ _ ▸ held)
  | _ => exact aside trivial

/-! Programs. A process that does not hold the lock of the queue runs a program of its own. -/

/-- From a state in which the process does not hold the lock of the queue, the program
finds what it requires and ends so, with its postcondition. -/
def Does (aim : Aim H) (env : Env) (i : Nat) {α : Type} (p : Command H α)
    (post : Except (Failure H) α → Site H → Prop) (s : Site H) : Prop :=
  ¬s.Holds i → (queueing aim env i).Meets p (fun r t => (post r t ∧ ¬t.Holds i) ∧ Advances aim s t) s

section Does

variable {env : Env} {i : Nat} {α β : Type} {s : Site H}

theorem meets_advances {p : Command H α} {post : Except (Failure H) α → Site H → Prop}
    (met : (queueing aim env i).Meets p post s) :
    (queueing aim env i).Meets p (fun r t => post r t ∧ Advances aim s t) s :=
  met.within (D := queueing aim env i) (R := Advances aim) (Only.any p) (fun _ _ _ => Advances.trans) (fun _ _ relied => relied.toAdvances)
    (fun _ c o _ _ sound allowed required => (exec_kept sound i c o allowed required).advances) (.refl s)

theorem Does.of {p : Command H α} {post : Except (Failure H) α → Site H → Prop}
    (met : ¬s.Holds i → (queueing aim env i).Meets p (fun r t => post r t ∧ ¬t.Holds i) s) : Does aim env i p post s :=
  fun free => meets_advances (met free)

theorem Does.mono {p : Command H α} {post weaker : Except (Failure H) α → Site H → Prop} (does : Does aim env i p post s)
    (weaken : ∀ r t, Advances aim s t → post r t → weaker r t) : Does aim env i p weaker s := by
  intro free
  apply (does free).mono
  rintro r t ⟨⟨reached,still⟩,moved⟩
  exact ⟨⟨weaken r t moved reached,still⟩,moved⟩

theorem Does.bind {p : Command H α} {f : α → Command H β} {post : Except (Failure H) β → Site H → Prop}
    (first : Does aim env i p (fun r t => match r with
      | .ok a => Does aim env i (f a) post t
      | .error e => post (.error e) t) s) : Does aim env i (p.bind f) post s := by
  intro free
  apply Meets.bind
  apply (first free).mono
  rintro r t ⟨⟨reached,still⟩,moved⟩
  cases r with
  | ok a => exact (reached still).mono fun r u done => ⟨done.1,moved.trans done.2⟩
  | error e => exact ⟨⟨reached,still⟩,moved⟩

theorem Does.attempt {p : Command H α} {handler : Failure H → Command H α}
    {post : Except (Failure H) α → Site H → Prop} (first : Does aim env i p (fun r t => match r with
      | .ok a => post (.ok a) t
      | .error e => Does aim env i (handler e) post t) s) : Does aim env i (p.attempt handler) post s := by
  intro free
  apply Meets.attempt
  apply (first free).mono
  rintro r t ⟨⟨reached,still⟩,moved⟩
  cases r with
  | ok a => exact ⟨⟨reached,still⟩,moved⟩
  | error e => exact (reached still).mono fun r u done => ⟨done.1,moved.trans done.2⟩

theorem Does.pure {a : α} {post : Except (Failure H) α → Site H → Prop} (holds : post (.ok a) s) :
    Does aim env i (.pure a) post s := fun free => ⟨⟨holds,free⟩,.refl s⟩

theorem Does.fail {e : Failure H} {post : Except (Failure H) α → Site H → Prop} (holds : post (.error e) s) :
    Does aim env i (.fail e : Command H α) post s := fun free => ⟨⟨holds,free⟩,.refl s⟩

/-- Operations that do not lock or unlock the queue. -/
def Op.Steady (β : Type) (o : Op H β) : Prop :=
  match β,o with
  | _,.acquire .queue => False
  | _,.release .queue => False
  | _,_ => True

omit [DecidableEq H] [Hashing H] [Canonical H] in
theorem Op.Aside.steady (β : Type) (o : Op H β) (aside : Op.Aside β o) : Op.Steady β o := by
  cases o with
  | acquire lock => cases lock <;> trivial
  | release lock => cases lock <;> trivial
  | _ => trivial

omit [Canonical H] in
theorem exec_steady (c : Choice) (o : Op H β) (steady : Op.Steady β o) :
    (Site.exec env i β c o s).2.repo.locks .queue = s.repo.locks .queue := by
  have calm (quiet : Op.Quiet β o) := (exec_quiet env i β c o ⟨s.repo,s.server,true⟩ quiet).queue_lock
  cases o with
  | save_index idx => rfl
  | write_head head => rfl
  | write_ref name h => rfl
  | write_commit h data => rfl
  | load_pending_push => rfl
  | save_pending_push pending => rfl
  | save_stash entries => rfl
  | delete_stash id => rfl
  | push_commit h data =>
    exact congrArg (fun repo : Repo H => repo.locks .queue) (request_server ⟨s.repo,s.server,true⟩ c _).1
  | update_ref ref_name h expected =>
    exact congrArg (fun repo : Repo H => repo.locks .queue) (request_server ⟨s.repo,s.server,true⟩ c _).1
  | acquire lock =>
    cases lock with
    | queue => exact steady.elim
    | repo => exact calm trivial
  | release lock =>
    cases lock with
    | queue => exact steady.elim
    | repo => exact calm trivial
  | _ => exact calm trivial

omit [Canonical H] in
theorem exec_steady_holds (c : Choice) (o : Op H β) (steady : Op.Steady β o) :
    (Site.exec env i β c o s).2.Holds i ↔ s.Holds i := by
  unfold Site.Holds
  rw [exec_steady c o steady]

theorem Does.call {o : Op H β} {post : Except (Failure H) β → Site H → Prop} (steady : Op.Steady β o)
    (each : ∀ c t, Advances aim s t → t.Sound aim → orderly aim i β c o t → (queueing aim env i).pre β c o t ∧
      (Advances aim s (Site.exec env i β c o t).2 → post (.ok (Site.exec env i β c o t).1) (Site.exec env i β c o t).2)) :
    Does aim env i (call o) post s := by
  refine .of fun free => .call fun c t relied sound allowed => ?_
  obtain ⟨required,reached⟩ := each c t relied.toAdvances sound allowed
  have moved := relied.toAdvances.trans (exec_kept sound i c o allowed required).advances
  exact ⟨required,reached moved,fun held => free (relied.holds.mp ((exec_steady_holds c o steady).mp held))⟩

theorem Does.aside {p : Command H α} (only : p.Only Op.Aside) : Does aim env i p (fun _ _ => True) s := by
  refine .of fun free => ?_
  have required : (queueing aim env i).Meets p (fun _ _ => True) s :=
    Discipline.Accepts.of_only only (fun β c o t quiet _ _ => by cases o <;> trivial) s
  refine (required.within (D := queueing aim env i) (R := fun a b => a.Holds i ↔ b.Holds i) only (fun _ _ _ => Iff.trans)
    (fun _ _ relied => relied.holds.symm)
    (fun _ c o _ aside _ _ _ => (exec_steady_holds c o (Op.Aside.steady _ o aside)).symm) Iff.rfl).mono ?_
  exact fun r t reached => ⟨trivial,fun held => free (reached.2.mpr held)⟩

omit [DecidableEq H] [Hashing H] [Canonical H] in
theorem Op.Quiet.aside (β : Type) (o : Op H β) (quiet : Op.Quiet β o) : Op.Aside β o := by
  cases o with
  | acquire lock => cases lock <;> trivial
  | release lock => cases lock <;> trivial
  | _ => trivial

theorem Does.one (o : Op H β) (aside : Op.Aside β o) : Does aim env i (Prog.call o) (fun _ _ => True) s :=
  .aside (.call aside)

theorem Does.quiet {p : Command H α} (only : p.Only Op.Quiet) : Does aim env i p (fun _ _ => True) s :=
  .aside (only.mono Op.Quiet.aside)

theorem Does.foldEach {ι : Type} {body : β → ι → Command H β} (items : List ι) (acc : β)
    {J : List ι → β → Site H → Prop} {post : Except (Failure H) β → Site H → Prop} (start : J items acc s)
    (turn : ∀ x rest acc t, J (x::rest) acc t → Does aim env i (body acc x) (fun r u => match r with
      | .ok next => J rest next u
      | .error e => post (.error e) u) t)
    (finish : ∀ acc t, J [] acc t → post (.ok acc) t) : Does aim env i (foldEach body items acc) post s := by
  induction items generalizing acc s with
  | nil => exact .pure (finish acc s start)
  | cons x rest ih =>
    refine .bind ((turn x rest acc s start).mono fun r t _ reached => ?_)
    cases r with
    | ok next => exact ih next reached
    | error e => exact reached

end Does

end AetherVault
