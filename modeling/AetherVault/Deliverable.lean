import AetherVault.Alone
import AetherVault.RefUpdates

/-! What one run of `flush_pending_push` delivers when the registry answers and takes
everything: the queue is worked off in order, and each commit that goes onto its branch
changes what the next one meets there. -/
namespace AetherVault
open Lib Hashing
open Lib.Prog (call checks_true forEach foldEach)
open Lib.Discipline (Meets)

variable {H : Type} [DecidableEq H] [Hashing H] [Canonical H]

/-! The queue, seen from one branch. -/

/-- The swap expects the commit's first parent; a commit without parents expects nothing. -/
def goes_on (parents : H → List H) (tip : Option H) (h : H) : Prop := (parents h).head?.isSome = true → tip = (parents h).head?

instance (parents : H → List H) (tip : Option H) (h : H) : Decidable (goes_on parents tip h) :=
  inferInstanceAs (Decidable (_ → _))

def put_on (parents : H → List H) (tip : Option H) (h : H) : Option H := if goes_on parents tip h then some h else tip

/-- What is on top of a branch once some commits were put on it in turn. -/
def top (parents : H → List H) (tip : Option H) (hs : List H) : Option H := hs.foldl (put_on parents) tip

def line (ref_name : String) (entries : List (QueueEntry H)) : List H :=
  (entries.filter (fun entry => entry.ref_name == some ref_name)).map (·.commit_hash)

/-- What the branch is at when the turn comes after some entries of the queue. -/
def World.top_after (w : World H) (ref_name : String) (entries : List (QueueEntry H)) : Option H :=
  top (parents_of w.repo.commits) (w.server.refs.get? ref_name) (line ref_name entries)

/-- The commit goes onto its branch when its turn comes, or is there already. -/
def World.Arrives (w : World H) (before : List (QueueEntry H)) (entry : QueueEntry H) : Prop :=
  ∀ ref_name, entry.ref_name = some ref_name →
    goes_on (parents_of w.repo.commits) (w.top_after ref_name before) entry.commit_hash ∨
      ∃ tip, w.top_after ref_name before = some tip ∧ Search.Reach (parents_of w.repo.commits) tip entry.commit_hash

/-! One entry. -/

/-- Everything is answered, and no limit turns a commit down. -/
def reliable (β : Type) (c : Choice) (_ : Op H β) (_ : World H) : Prop := c.net = .answered ∧ c.rejected = false

omit [Canonical H] in
theorem reliable_all : Reliable (H := H) reliable := fun _ _ _ _ kept => kept

section Reliably

variable {env : Env} {me : Nat} {w : World H}

/-- The registry accepts the commit of an entry and the objects of its tree. -/
structure World.Takes (w : World H) (entry : QueueEntry H) (data : CommitData H) : Prop where
  commit : w.server.commits.contains entry.commit_hash = true ∨ tree_is_flat data.tree = true ∨ legacy_items data.tree ≠ none
  objects : ∀ names, all_names data.tree.entries = some names → ∀ h ∈ names, ∀ content,
    w.repo.objects.get? h = some content → w.server.Takes content

omit [Canonical H] in
theorem push_commit_reliable {entry : QueueEntry H} {data : CommitData H}
    (acceptable : w.server.commits.contains entry.commit_hash = true ∨ tree_is_flat data.tree = true ∨
      legacy_items data.tree ≠ none) :
    (alone env me reliable).Meets (VaultClient.push_commit entry.commit_hash data) (fun r t => r = .ok true ∧
      t.repo = w.repo ∧ t.server.refs = w.server.refs ∧ t.server.max_upload_bytes = w.server.max_upload_bytes ∧
      t.server.commits.contains entry.commit_hash = true ∧
      ∀ h, w.server.commits.contains h = true → t.server.commits.contains h = true) w := by
  refine .bind (alone_call ?_)
  rintro c ⟨net,taken⟩
  simp only [World.exec,World.request,net,taken,Server.push_commit]
  by_cases known : w.server.commits.contains entry.commit_hash = true
  · rw [if_pos known]
    exact ⟨rfl,rfl,rfl,rfl,known,fun _ stored => stored⟩
  · rw [if_neg known,if_neg (by
      rintro ⟨shape,broken⟩
      rcases acceptable.resolve_left known with flat | readable
      · simp [flat] at shape
      · exact readable broken),if_neg (by simp)]
    refine ⟨rfl,rfl,rfl,rfl,?_,fun h stored => Dict.contains_set _ _ _ stored⟩
    exact (Dict.contains_iff _ _).mpr ⟨data,Dict.get?_set_same _ _ _⟩

omit [Canonical H] in
theorem update_queued_ref_reliable (ref_name : Option String) (h : H) :
    (alone env me reliable).Meets (update_queued_ref ref_name h (parents_of w.repo.commits h)) (fun r t =>
      t.repo = w.repo ∧ t.server.commits = w.server.commits ∧ t.server.max_upload_bytes = w.server.max_upload_bytes ∧
      (∀ name, t.server.refs.get? name = if ref_name = some name then
        put_on (parents_of w.repo.commits) (w.server.refs.get? name) h else w.server.refs.get? name) ∧
      ∃ done, r = .ok done ∧ (done = true ↔ ∀ name, ref_name = some name →
        goes_on (parents_of w.repo.commits) (w.server.refs.get? name) h ∨
          ∃ tip, w.server.refs.get? name = some tip ∧ Search.Reach (parents_of w.repo.commits) tip h)) w := by
  cases ref_name with
  | none => exact ⟨rfl,rfl,rfl,by simp,true,rfl,by simp⟩
  | some name =>
    refine .attempt (.bind (alone_call ?_))
    rintro c ⟨net,-⟩
    simp only [World.exec,World.request,net,Server.update_ref]
    by_cases fits : goes_on (parents_of w.repo.commits) (w.server.refs.get? name) h
    · rw [if_neg fun lost => lost.2 (fits lost.1)]
      refine ⟨rfl,rfl,rfl,fun other => ?_,true,rfl,by simp [fits]⟩
      simp only [Dict.get?_set,Option.some.injEq,put_on]
      by_cases same : other = name
      · subst other
        simp [fits]
      · simp [same,Ne.symm same]
    · have refused : (parents_of w.repo.commits h).head?.isSome = true ∧
          w.server.refs.get? name ≠ (parents_of w.repo.commits h).head? := by
        unfold goes_on at fits
        push Not at fits
        exact fits
      rw [if_pos refused]
      refine alone_read (fun c => rfl) ⟨rfl,rfl,rfl,fun other => ?_,_,rfl,?_⟩
      · simp only [Option.some.injEq,put_on]
        by_cases same : name = other
        · subst other
          simp [fits]
        · simp [same]
      · rw [ref_contains_iff]
        simp [fits]

omit [Canonical H] in
theorem deliver_queued_reliable {entry : QueueEntry H} {data : CommitData H}
    (filed : w.repo.commits.get? entry.commit_hash = some data) (takes : w.Takes entry data) :
    (alone env me reliable).Meets (deliver_queued entry data) (fun r t => t.repo = w.repo ∧ match r with
      | .error e => e = .type_error ∧ all_names data.tree.entries = none
      | .ok done => (all_names data.tree.entries).isSome = true ∧
        t.server.max_upload_bytes = w.server.max_upload_bytes ∧
        t.server.commits.contains entry.commit_hash = true ∧
        (∀ h, w.server.commits.contains h = true → t.server.commits.contains h = true) ∧
        (∀ name, t.server.refs.get? name = if entry.ref_name = some name then
          put_on (parents_of w.repo.commits) (w.server.refs.get? name) entry.commit_hash else w.server.refs.get? name) ∧
        (done = true ↔ w.Arrives [] entry)) w := by
  refine .bind ((upload_commit_objects_alone data.tree none).mono fun r t result => ?_)
  simp only [scanned] at result
  cases named : all_names data.tree.entries with
  | none =>
    rw [named] at result
    obtain ⟨rfl,rfl⟩ := result
    exact ⟨rfl,rfl,rfl⟩
  | some names =>
    rw [named] at result
    have sent := result.sent
    obtain rfl : r = .ok true := result.succeeds reliable_all (takes.objects names named)
    dsimp only
    rw [if_pos rfl]
    refine .bind ((push_commit_reliable (by rw [sent.commits]; exact takes.commit)).mono ?_)
    rintro r u ⟨rfl,repo,refs,limit,stored,kept⟩
    dsimp only
    rw [if_pos rfl]
    have parents : data.parents = parents_of u.repo.commits entry.commit_hash := by
      simp [repo,sent.repo,parents_of,filed]
    rw [parents]
    refine (update_queued_ref_reliable entry.ref_name entry.commit_hash).mono ?_
    rintro r v ⟨repo',commits',limit',refs',done,rfl,decided⟩
    rw [repo,sent.repo,refs,sent.refs] at refs' decided
    refine ⟨by rw [repo',repo,sent.repo],rfl,by rw [limit',limit,sent.limit],by rwa [commits'],?_,refs',?_⟩
    · intro h stored
      rw [commits']
      exact kept h (by rwa [sent.commits])
    · exact decided

/-! The queue, worked off in order. -/

/-- The names of all objects of the entry's tree can be read. -/
def World.Readable (w : World H) (entry : QueueEntry H) : Prop :=
  ∀ data, w.repo.commits.get? entry.commit_hash = some data → (all_names data.tree.entries).isSome = true

/-- Some entries are through: what that has made of the registry, and which of them arrived. -/
structure Drained (w : World H) (tried : List (QueueEntry H)) (delivered : List H) (t : World H) : Prop where
  repo : t.repo = w.repo
  limit : t.server.max_upload_bytes = w.server.max_upload_bytes
  refs : ∀ ref_name, t.server.refs.get? ref_name = w.top_after ref_name tried
  kept : ∀ h, w.server.commits.contains h = true → t.server.commits.contains h = true
  stored : ∀ entry ∈ tried, t.server.commits.contains entry.commit_hash = true
  readable : ∀ entry ∈ tried, w.Readable entry
  arrived : ∀ before entry after, tried = before ++ entry::after →
    (entry.commit_hash ∈ delivered ↔ w.Arrives before entry)
  known : ∀ h ∈ delivered, h ∈ tried.map (·.commit_hash)

omit [Canonical H] in
theorem top_after_snoc (w : World H) (ref_name : String) (tried : List (QueueEntry H)) (entry : QueueEntry H) :
    w.top_after ref_name (tried ++ [entry]) = if entry.ref_name = some ref_name then
      put_on (parents_of w.repo.commits) (w.top_after ref_name tried) entry.commit_hash else w.top_after ref_name tried := by
  unfold World.top_after line top
  by_cases here : entry.ref_name = some ref_name <;> simp [List.filter_append,here]

omit [Canonical H] in
theorem arrives_now {w t : World H} {tried : List (QueueEntry H)} {delivered : List H}
    (drained : Drained w tried delivered t) (entry : QueueEntry H) : t.Arrives [] entry ↔ w.Arrives tried entry := by
  have now (ref_name : String) : t.top_after ref_name [] = w.top_after ref_name tried := drained.refs ref_name
  unfold World.Arrives
  simp only [now,drained.repo]

omit [Canonical H] in
theorem Drained.takes {t : World H} {tried : List (QueueEntry H)} {delivered : List H} {entry : QueueEntry H}
    {data : CommitData H} (drained : Drained w tried delivered t) (takes : w.Takes entry data) : t.Takes entry data where
  commit := takes.commit.imp_left (drained.kept _)
  objects names named h member content found := by
    unfold Server.Takes
    rw [drained.limit]
    exact takes.objects names named h member content (by rwa [← drained.repo])

omit [Canonical H] in
/-- One more entry: it arrives or stays queued, and the branch goes on with it. -/
theorem flush_entry_reliable {t : World H} {tried : List (QueueEntry H)} {delivered : List H} {entry : QueueEntry H}
    {data : CommitData H} (drained : Drained w tried delivered t) (new : entry.commit_hash ∉ tried.map (·.commit_hash))
    (filed : w.repo.commits.get? entry.commit_hash = some data) (takes : w.Takes entry data) :
    (alone env me reliable).Meets (flush_entry delivered entry) (fun r u => match r with
      | .ok next => Drained w (tried ++ [entry]) next u
      | .error _ => u.repo = w.repo ∧ ¬w.Readable entry) t := by
  refine alone_read (fun c => rfl) ?_
  have here : t.repo.commits.get? entry.commit_hash = some data := by rw [drained.repo,filed]
  rw [here]
  refine .attempt (.bind ((deliver_queued_reliable here (drained.takes takes)).mono ?_))
  rintro r u ⟨repo,result⟩
  rw [drained.repo] at repo
  cases r with
  | error e =>
    obtain ⟨rfl,nameless⟩ := result
    exact ⟨repo,fun readable => by simpa [nameless] using readable data filed⟩
  | ok done =>
    obtain ⟨named,limit,stored,kept,refs,decided⟩ := result
    rw [arrives_now drained] at decided
    have absent : entry.commit_hash ∉ delivered := fun member => new (drained.known _ member)
    refine ⟨repo,limit.trans drained.limit,fun ref_name => ?_,fun h before => kept h (drained.kept h before),?_,?_,?_,?_⟩
    · rw [refs,drained.refs,drained.repo,top_after_snoc]
    · intro other member
      rcases List.mem_append.mp member with early | last
      · exact kept _ (drained.stored other early)
      · exact List.mem_singleton.mp last ▸ stored
    · intro other member
      rcases List.mem_append.mp member with early | last
      · exact drained.readable other early
      · obtain rfl := List.mem_singleton.mp last
        intro found same
        obtain rfl := Option.some.inj (filed.symm.trans same)
        exact named
    · intro before other after split
      rcases List.eq_nil_or_concat after with rfl | ⟨rest,last,rfl⟩
      · obtain ⟨rfl,rfl⟩ := List.append_inj' split rfl |>.imp_right (List.singleton_inj.mp ·)
        rw [← decided]
        cases done <;> simp [absent]
      · have regrouped : tried ++ [entry] = (before ++ other::rest) ++ [last] := by simpa using split
        obtain ⟨early,-⟩ := List.append_inj' regrouped rfl
        rw [← drained.arrived before other rest early]
        have away : other.commit_hash ≠ entry.commit_hash := fun same => new (by rw [early]; simp [← same])
        split <;> simp [away]
    · intro h member
      split at member
      · rcases List.mem_append.mp member with early | last
        · simpa using Or.inl (by simpa using drained.known h early)
        · simp [List.mem_singleton.mp last]
      · simpa using Or.inl (by simpa using drained.known h member)

variable (w) in
/-- The queue without what the caller is about to push itself. -/
def World.pending (skip : List H) : List (QueueEntry H) :=
  w.repo.pending_push.filter (fun entry => decide (entry.commit_hash ∉ skip))

/-- A queue of locally created commits, whose objects and commits the registry accepts,
and no one else at it. -/
structure World.Flushable (w : World H) (me : Nat) (skip : List H) : Prop where
  distinct : (w.repo.pending_push.map (·.commit_hash)).Nodup
  accepted : ∀ entry ∈ w.pending skip, ∃ data, w.repo.commits.get? entry.commit_hash = some data ∧ w.Takes entry data
  unlocked : w.Unlocked me .queue

omit [Canonical H] in
theorem remove_pending_push_alone (delivered : List H) (unlocked : w.Unlocked me .queue) :
    (alone env me reliable).Meets (remove_pending_push delivered) (fun _ t => t.server = w.server ∧
      t.repo.pending_push = w.repo.pending_push.filter (fun entry => entry.commit_hash ∉ delivered)) w := by
  refine alone_with_lock (fun locks => ?_) fun locked => absurd unlocked locked
  exact alone_read (fun c => rfl) (.bind (alone_call fun c _ => fun _ => ⟨rfl,rfl⟩))

/-- What a run comes to: every entry was tried in its turn, unless one could not be read. -/
inductive Flushed (w : World H) (skip : List H) (t : World H) : Prop
  | worked_off (delivered : List H) (readable : ∀ entry ∈ w.pending skip, w.Readable entry)
      (queue : t.repo.pending_push = w.repo.pending_push.filter (fun entry => decide (entry.commit_hash ∉ delivered)))
      (refs : ∀ ref_name, t.server.refs.get? ref_name = w.top_after ref_name (w.pending skip))
      (stored : ∀ entry ∈ w.pending skip, t.server.commits.contains entry.commit_hash = true)
      (arrived : ∀ before entry after, w.pending skip = before ++ entry::after →
        (entry.commit_hash ∈ delivered ↔ w.Arrives before entry))
  | raised (entry : QueueEntry H) (member : entry ∈ w.pending skip) (unreadable : ¬w.Readable entry)
      (queue : t.repo.pending_push = w.repo.pending_push)

omit [Canonical H] in
theorem flush_pending_push_reliable {skip : List H} (flushable : w.Flushable me skip) :
    (alone env me reliable).Meets (flush_pending_push skip) (fun _ t => Flushed w skip t) w := by
  refine alone_read (fun c => rfl) ?_
  dsimp only
  split
  · rename_i nothing
    have empty : w.pending skip = [] := nothing
    refine alone_call fun c _ => .worked_off [] (by simp [empty]) ?_ (fun ref_name => ?_) (by simp [empty]) (by simp [empty])
    · simp [World.exec]
    · rw [empty]
      rfl
  · refine .bind (alone_call ?_)
    rintro c ⟨net,-⟩
    simp only [World.exec,net,decide_true]
    rw [if_pos trivial,Bool.and_true]
    have distinct : ((w.pending skip).map (·.commit_hash)).Nodup :=
      flushable.distinct.sublist (List.filter_sublist.map _)
    refine .bind (.foldEach (J := fun rest delivered t => ∃ tried, w.pending skip = tried ++ rest ∧
      Drained w tried delivered t) (w.pending skip) [] ⟨[],rfl,?_⟩ ?_ ?_)
    · exact ⟨rfl,rfl,fun _ => rfl,fun _ stored => stored,by simp,by simp,by simp,by simp⟩
    · rintro entry rest delivered t ⟨tried,split,drained⟩
      have member : entry ∈ w.pending skip := by simp [split]
      obtain ⟨data,filed,takes⟩ := flushable.accepted entry member
      have new : entry.commit_hash ∉ tried.map (·.commit_hash) := fun old => by
        rw [split,List.map_append,List.map_cons] at distinct
        exact (List.nodup_append.mp distinct).2.2 _ old _ (by simp) rfl
      refine (flush_entry_reliable drained new filed takes).mono fun r u result => ?_
      cases r with
      | ok next => exact ⟨tried ++ [entry],by simp [split],result⟩
      | error e => exact .raised entry member result.2 (by rw [result.1])
    · rintro delivered t ⟨tried,split,drained⟩
      obtain rfl : w.pending skip = tried := by simpa using split
      refine (remove_pending_push_alone delivered (by unfold World.Unlocked; rw [drained.repo]; exact flushable.unlocked)).mono ?_
      rintro r u ⟨server,queue⟩
      refine .worked_off delivered drained.readable (by rw [queue,drained.repo]) ?_ ?_ drained.arrived
      · exact fun ref_name => by rw [server,drained.refs]
      · exact fun entry member => by rw [server]; exact drained.stored entry member

/-- Gone from the queue, stored, and on its branch. -/
structure World.Published (t : World H) (entry : QueueEntry H) : Prop where
  removed : entry ∉ t.repo.pending_push
  stored : t.server.commits.contains entry.commit_hash = true
  on_branch : ∃ ref_name tip, entry.ref_name = some ref_name ∧ t.server.refs.get? ref_name = some tip ∧
    Ancestor entry.commit_hash tip

/-- The entry's branch is absent, or at an ancestor of its commit or at the commit. -/
def World.Eligible (w : World H) (entry : QueueEntry H) : Prop :=
  ∃ ref_name, entry.ref_name = some ref_name ∧
    ∀ tip, w.server.refs.get? ref_name = some tip → Ancestor tip entry.commit_hash

/-- All trees of the queue can be read; when its turn comes, the commit's first parent
is on top of its branch, or the commit is there already; and it is an ancestor of what
the entries for its branch, put on in turn, leave on top. -/
structure World.Deliverable (w : World H) (skip : List H) (entry : QueueEntry H) : Prop where
  readable : ∀ other ∈ w.pending skip, w.Readable other
  arrives : ∀ before after, w.pending skip = before ++ entry::after → w.Arrives before entry
  on_top : ∃ ref_name last, entry.ref_name = some ref_name ∧ w.top_after ref_name (w.pending skip) = some last ∧
    Ancestor entry.commit_hash last

theorem Flushed.published_iff {skip : List H} {t : World H} {entry : QueueEntry H} (flushed : Flushed w skip t)
    (member : entry ∈ w.pending skip) : t.Published entry ↔ w.Deliverable skip entry := by
  have queued : entry ∈ w.repo.pending_push := (List.mem_filter.mp member).1
  cases flushed with
  | worked_off delivered readable queue refs stored arrived =>
    have left : entry ∉ t.repo.pending_push ↔ entry.commit_hash ∈ delivered := by
      rw [queue]
      simp [queued]
    constructor
    · rintro ⟨removed,-,ref_name,tip,named,found,path⟩
      refine ⟨readable,fun before rest split => (arrived before entry rest split).mp (left.mp removed),
        ref_name,tip,named,?_,path⟩
      rw [← refs,found]
    · rintro ⟨-,arrives,ref_name,last,named,above,path⟩
      obtain ⟨before,rest,split⟩ := List.append_of_mem member
      refine ⟨left.mpr ((arrived before entry rest split).mpr (arrives before rest split)),stored entry member,
        ref_name,last,named,?_,path⟩
      rw [refs,above]
  | raised other inside unreadable queue =>
    constructor
    · exact fun published => absurd (queue ▸ queued) published.removed
    · exact fun deliverable => absurd (deliverable.readable other inside) unreadable

omit [Canonical H] in
theorem flush_pending_push_ran (env : Env) {skip : List H} (flushable : w.Flushable me skip) (policy : World H → Choice)
    (answers : ∀ s, (policy s).net = .answered ∧ (policy s).rejected = false) :
    Flushed w skip ((flush_pending_push skip).run (World.exec env me) policy w).2 := by
  have ran := (alone env me reliable).runs_of_run policy (fun _ _ _ => true) (fun _ _ s _ => answers s)
    (flush_pending_push skip) w (checks_true _ _ _ _)
  exact (Meets.runs (fun _ _ _ _ _ _ _ => trivial) (fun _ => rfl) ran trivial (flush_pending_push_reliable flushable)).2

/-- When everything is answered and accepted, one run publishes every queued commit whose
branch is absent, or at an ancestor of it, exactly when all of these are deliverable: a
branch that is new to the registry, a merge whose second parent is the tip, or an
ancestor that is not the first parent, stop them. -/
theorem flush_publishes_deliverable (env : Env) (me : Nat) (w : World H) (skip : List H) (flushable : w.Flushable me skip)
    (policy : World H → Choice) (answers : ∀ s, (policy s).net = .answered ∧ (policy s).rejected = false) :
    (∀ entry ∈ w.pending skip, w.Eligible entry →
      ((flush_pending_push skip).run (World.exec env me) policy w).2.Published entry) ↔
    ∀ entry ∈ w.pending skip, w.Eligible entry → w.Deliverable skip entry := by
  have flushed := flush_pending_push_ran env flushable policy answers
  exact forall₂_congr fun entry member => imp_congr_right fun _ => flushed.published_iff member

end Reliably

/-! A first commit for a branch of its own, and the first commit made on a new branch. -/

def queued_for (ref_name : String) (data : CommitData Name) (commits : List (CommitData Name)) (w : World Name) : World Name :=
  {w with repo := {w.repo with
    commits := Dict.ofList ((data::commits).map fun data => (commit_hash data,data))
    pending_push := [⟨commit_hash data,some ref_name⟩] }}

def first_queued : World Name := queued_for "p/main" (first_commit "a") [] ⟨.init,.empty 0,true⟩

def dev_queued : World Name :=
  queued_for "p/dev" second_commit [first_commit "a"]
    ⟨.init,{Server.empty 0 with
      commits := Dict.empty.set (commit_hash (first_commit "a")) (first_commit "a")
      refs := Dict.empty.set "p/main" (commit_hash (first_commit "a")) },true⟩

def flushed (w : World Name) : World Name :=
  ((flush_pending_push []).run (World.exec ⟨⟨none,true,0⟩,"p",fun _ => []⟩ 1) (fun _ => answered) w).2

theorem flushable_single {w : World Name} {entry : QueueEntry Name} {data : CommitData Name}
    (queue : w.repo.pending_push = [entry]) (filed : w.repo.commits.get? entry.commit_hash = some data)
    (nothing : data.tree.entries = []) (unlocked : w.repo.locks .queue = none) : w.Flushable 1 [] where
  distinct := by simp [queue]
  accepted other member := by
    obtain rfl : other = entry := by simpa [World.pending,queue] using member
    refine ⟨data,filed,Or.inr (Or.inl ?_),fun names named h inside => ?_⟩
    · simp [tree_is_flat,Dict.contains,Dict.get?,Dict.find,nothing]
    · obtain rfl : [] = names := by simpa [nothing,all_names] using named
      simp at inside
  unlocked owner depth held := by simp [unlocked] at held

theorem flush_publishes_deliverable_first :
    (flushed first_queued).Published ⟨commit_hash (first_commit "a"),some "p/main"⟩ := by
  have single : first_queued.pending [] = [⟨commit_hash (first_commit "a"),some "p/main"⟩] := by decide
  refine (flush_publishes_deliverable _ 1 first_queued [] (flushable_single rfl (by decide : _ = some (first_commit "a")) rfl rfl)
    (fun _ => answered) (fun _ => ⟨rfl,rfl⟩)).mpr (fun entry member _ => ?_) _ (by decide) ?_
  · obtain rfl : entry = ⟨commit_hash (first_commit "a"),some "p/main"⟩ := by simpa [single] using member
    refine ⟨fun other inside => ?_,fun before after split => ?_,"p/main",commit_hash (first_commit "a"),rfl,by decide,.refl⟩
    · obtain rfl : other = ⟨commit_hash (first_commit "a"),some "p/main"⟩ := by simpa [single] using inside
      intro data filed
      have only : first_queued.repo.commits.get? (commit_hash (first_commit "a")) = some (first_commit "a") := by decide
      obtain rfl : first_commit "a" = data := Option.some.inj (only.symm.trans filed)
      rfl
    · rintro ref_name -
      have root : parents_of first_queued.repo.commits (commit_hash (first_commit "a")) = [] := by decide
      exact Or.inl fun expects => by simp [root] at expects
  · exact ⟨"p/main",rfl,fun tip found => by simp [first_queued,queued_for,Server.empty] at found⟩

/-- The first parent of the new commit is on `main`, and `dev` is no branch of the registry yet. -/
theorem new_branch_stays_queued :
    ∃ (w : World Name) (entry : QueueEntry Name), w.Flushable 1 [] ∧ entry ∈ w.pending [] ∧ w.Eligible entry ∧
      ¬(flushed w).Published entry := by
  refine ⟨dev_queued,⟨commit_hash second_commit,some "p/dev"⟩,
    flushable_single rfl (by decide : _ = some second_commit) rfl rfl,by decide,?_,fun published => ?_⟩
  · have absent : dev_queued.server.refs.get? "p/dev" = none := by decide
    exact ⟨"p/dev",rfl,fun tip found => absurd found (by simp [absent])⟩
  · exact absurd published.removed (by decide)

end AetherVault
