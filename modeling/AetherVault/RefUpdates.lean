import AetherVault.Vetting

/-! Branches of the registry under any number of clients. Every request to move a
branch names the commit's own parent as the value it expects, so a branch only ever
moves to a descendant; but a commit without parents names nothing. -/
namespace AetherVault
open Lib Hashing
open Lib.Prog (Only call forEach foldEach)
open Lib.Discipline (Accepts)

variable {H : Type} [DecidableEq H] [Hashing H] [Canonical H]

/-! Ancestry, by the commits that hash to a name. -/

def ParentRel (parent h : H) : Prop := ∃ data : CommitData H, commit_hash data = h ∧ parent ∈ data.parents

def Ancestor : H → H → Prop := Relation.ReflTransGen ParentRel

/-- `h` names a commit without parents. -/
def Rootless (h : H) : Prop := ∃ data : CommitData H, commit_hash data = h ∧ data.parents = []

/-- The parents recorded under a name are those of a commit of that name. A row with
a tree of the old shape is served with another tree. -/
def Genuine (h : H) (data : CommitData H) : Prop :=
  ∃ original : CommitData H, commit_hash original = h ∧ original.parents = data.parents

omit [DecidableEq H] in
theorem genuine_new (data : CommitData H) : Genuine (commit_hash data) data := ⟨data,rfl,rfl⟩

/-- What a request to move a branch to `h` is safe to expect. -/
def Guarded (h : H) : Option H → Prop
  | none => Rootless h
  | some expected => ParentRel expected h

omit [DecidableEq H] in
theorem Genuine.guarded {h : H} {data : CommitData H} {expected : Option H} (genuine : Genuine h data)
    (fits : Expected data.parents expected) : Guarded h expected := by
  obtain ⟨original,named,same⟩ := genuine
  cases expected with
  | none => exact ⟨original,named,same.trans fits⟩
  | some parent => exact ⟨original,named,same ▸ fits⟩

theorem genuine_parent {commits : Dict H (CommitData H)} (genuine : ∀ h data, commits.get? h = some data → Genuine h data)
    {child parent : H} (edge : parent ∈ parents_of commits child) : ParentRel parent child := by
  unfold parents_of at edge
  cases held : commits.get? child with
  | none => simp [held] at edge
  | some data =>
    rw [held] at edge
    obtain ⟨original,named,same⟩ := genuine child data held
    exact ⟨original,named,same ▸ edge⟩

/-! `merge` and `commit` as vetted programs. -/

section Vets

variable {σ : Type} {D : Discipline (Op H) σ Choice} {P : H → CommitData H → Prop} (vets : Vets D P)
include vets

omit [Canonical H] in
theorem Vets.materialize_tree (tree : Tree H) (idx : Index H) (verify : Bool) :
    D.Accepts (_materialize_tree tree idx verify) :=
  vets.only (materialize_tree_only (P := Op.Harmless (H := H)) Op.Quiet.harmless (fun _ => trivial) tree idx verify)

variable (fresh : ∀ data, P (commit_hash data) data)
include fresh

theorem Vets.commit_staged (env : Env) (message : String) (defer_upload : Bool) :
    D.Accepts (commit_staged env message defer_upload) := by
  refine vets.with_lock ((vets.call .load_index trivial).bind fun idx => ?_)
  extract_lets staged_entries changed_paths
  split
  · exact .pure none
  · refine (vets.quiet head_parents_quiet).bind fun head => (vets.call .now trivial).bind fun timestamp => ?_
    exact (vets.finalize_commit env (fresh _) _ idx defer_upload _ (vets.call (.release .repo) trivial)).bind
      fun h => .pure _

theorem Vets.merge_trees (env : Env) (options : MergeOptions) (name : String) (idx : Index H) (ours theirs : H)
    (merged : Tree H) : D.Accepts (merge_trees env options name idx ours theirs merged) :=
  (vets.quiet (ensure_objects_local_quiet merged)).bind fun _ =>
    (vets.materialize_tree merged idx false).bind fun final => (vets.call .now trivial).bind fun _ =>
      (vets.finalize_commit env (fresh _) (some name) final false none (.pure ())).bind fun _ => .pure ()

theorem Vets.merge_commits (env : Env) (options : MergeOptions) (name : String) (idx : Index H) (ours theirs : H) :
    D.Accepts (merge_commits env options name idx ours theirs) := by
  refine (vets.call .load_commits trivial).bind fun commits => ?_
  extract_lets base
  split
  · exact .pure ()
  · refine (vets.quiet (collect_dirty_paths_quiet idx ∅)).bind fun dirty => ?_
    split
    · exact (vets.quiet (ensure_objects_local_quiet _)).bind fun _ =>
        (vets.materialize_tree _ idx false).bind fun _ => vets.call _ trivial
    · split
      · exact .fail _
      · split
        · exact .fail _
        · split
          · exact .fail _
          · exact vets.merge_trees fresh env options name idx ours theirs _

theorem Vets.merge (env : Env) (target : Target H) (options : MergeOptions) : D.Accepts (merge env target options) := by
  refine (vets.call .load_index trivial).bind fun idx => (vets.call .read_head trivial).bind fun head => ?_
  cases head with
  | detached h => exact .fail _
  | branch name =>
    refine (vets.call (.read_ref name) trivial).bind fun tip => ?_
    split
    · rename_i ours
      have named : D.Accepts (merge_target target) := by
        cases target with
        | branch other =>
          refine (vets.call (.read_ref other) trivial).bind fun tip => ?_
          cases tip <;> exact .pure _
        | commit h => exact (vets.find_commit h).bind fun _ => .pure _
      refine named.bind fun theirs => ?_
      cases theirs with
      | none => exact .fail _
      | some theirs =>
        dsimp only
        split
        · exact .pure ()
        · exact (vets.find_commit theirs).bind fun _ => vets.merge_commits fresh env options name idx ours theirs
    · exact .fail _

end Vets

/-! The fleet. -/

structure Request (H : Type) where
  ref_name : String
  commit_hash : H
  expected_hash : Option H

/-- Any number of repositories and one registry. -/
structure Fleet (R H : Type) [DecidableEq H] [Hashing H] where
  repos : R → Repo H
  server : Server H
  /-- every request to move a branch that was ever sent -/
  sent : List (Request H)

/-- The processes: the repository each works in, its number, and the configurations. -/
structure Party (R ι : Type) where
  home : ι → R
  pid : ι → Nat
  env : R → Env

variable {R ι : Type} [DecidableEq R] [DecidableEq ι]

namespace Fleet

def start (limit : Nat) : Fleet R H := ⟨fun _ => .init,.empty limit,[]⟩

def requests {β : Type} (o : Op H β) : List (Request H) :=
  match β,o with
  | _,.update_ref ref_name h expected => [⟨ref_name,h,expected⟩]
  | _,_ => []

def exec (party : Party R ι) (i : ι) (β : Type) (c : Choice) (o : Op H β) (f : Fleet R H) : β × Fleet R H :=
  let home := party.home i
  let done := World.exec (party.env home) (party.pid i) β c o ⟨f.repos home,f.server,true⟩
  (done.1,⟨Function.update f.repos home done.2.repo,done.2.server,f.sent ++ requests o⟩)

/-- Every commit is stored under a name of its own, every request expects a parent. -/
structure Vetted (f : Fleet R H) : Prop where
  stored : ∀ r h data, (f.repos r).commits.get? h = some data → Genuine h data
  pushed : ∀ h data, f.server.commits.get? h = some data → Genuine h data
  requested : ∀ q ∈ f.sent, Guarded q.commit_hash q.expected_hash

end Fleet

/-- Which requests to move a branch the registry may come to carry out. -/
abbrev Rule (R H : Type) [DecidableEq H] [Hashing H] := Fleet R H → String → H → Prop

def anything : Rule R H := fun _ _ _ => True

/-- No commit without parents is put on a branch that is at another commit. -/
def no_second_root : Rule R H := fun f ref_name h =>
  ¬(Rootless h ∧ ∃ current, f.server.refs.get? ref_name = some current ∧ current ≠ h)

def carried_out (c : Choice) : Prop := c.net = .answered ∨ c.net = .unanswered

def discipline (party : Party R ι) (rule : Rule R H) (i : ι) : Discipline (Op H) (Fleet R H) Choice where
  exec := Fleet.exec party i
  may := fun β c o f => match β,o with
    | _,.update_ref ref_name h _ => carried_out c → rule f ref_name h
    | _,_ => True
  inv := Fleet.Vetted
  rely := fun _ _ => True
  pre := fun β _ o _ => match β,o with
    | _,.write_commit h data => Genuine h data
    | _,.push_commit h data => Genuine h data
    | _,.update_ref _ h expected => Guarded h expected
    | _,_ => True

/-- The commands that put commits on a branch of the registry. -/
inductive Publishes (env : Env) : Command H Unit → Prop
  | commit (message : String) (defer_upload : Bool) : Publishes env (do
      let _ ← commit_staged env message defer_upload
      .pure ())
  | merge (target : Target H) (options : MergeOptions) : Publishes env (merge env target options)
  | push : Publishes env (do
      let _ ← flush_pending_push []
      .pure ())
  | finalize (data : CommitData H) (ref_path : Option String) (idx : Index H) (defer_upload : Bool)
      (changed_paths : Option (List Path)) : Publishes env (do
        let _ ← _finalize_commit env data ref_path idx defer_upload changed_paths (.pure ())
        .pure ())

/-- A request its sender has given up on is carried out late, or something else goes
on: whatever the other commands do, they move no branch of the registry. -/
inductive Elsewhere (rule : Rule R H) : Fleet R H → Fleet R H → Prop
  | late (f : Fleet R H) (q : Request H) (was_sent : q ∈ f.sent) (allowed : rule f q.ref_name q.commit_hash) :
      Elsewhere rule f {f with server := (f.server.update_ref q.ref_name q.commit_hash q.expected_hash).2}
  | other (f t : Fleet R H) (same_refs : t.server.refs = f.server.refs) (same_sent : t.sent = f.sent)
      (vetted : t.Vetted) : Elsewhere rule f t

abbrev System (R ι H : Type) [DecidableEq H] [Hashing H] := Pool (Op H) (Failure H) ι (Fleet R H)

def Moves (party : Party R ι) (rule : Rule R H) : System R ι H → System R ι H → Prop :=
  Pool.Step (discipline party rule) (fun i => Publishes (party.env (party.home i))) (fun _ f => f) (Elsewhere rule)

def System.start (limit : Nat) : System R ι H := ⟨.start limit,fun _ => .pure ()⟩

def Reaches (party : Party R ι) (rule : Rule R H) : System R ι H → System R ι H → Prop :=
  Relation.ReflTransGen (Moves party rule)

/-! What the registry does with a guarded request. -/

/-- Every branch is still there, at its commit or a descendant of it. -/
def Descends (before after : Server H) : Prop :=
  ∀ ref_name current, before.refs.get? ref_name = some current →
    ∃ next, after.refs.get? ref_name = some next ∧ Ancestor current next

theorem Descends.of_same {before after : Server H} (same : after.refs = before.refs) : Descends before after :=
  fun ref_name current found => ⟨current,by rw [same]; exact found,.refl⟩

theorem Descends.trans {a b c : Server H} (first : Descends a b) (later : Descends b c) : Descends a c := by
  intro ref_name current found
  obtain ⟨next,moved,path⟩ := first ref_name current found
  obtain ⟨last,again,rest⟩ := later ref_name next moved
  exact ⟨last,again,path.trans rest⟩

theorem update_ref_descends (server : Server H) {ref_name : String} {h : H} {expected : Option H}
    (guarded : Guarded h expected)
    (careful : ¬(Rootless h ∧ ∃ current, server.refs.get? ref_name = some current ∧ current ≠ h)) :
    Descends server (server.update_ref ref_name h expected).2 := by
  unfold Server.update_ref
  split
  · exact .of_same rfl
  · rename_i passed
    intro other current found
    by_cases same : other = ref_name
    · subst other
      refine ⟨h,by simp,?_⟩
      cases expected with
      | none =>
        by_cases stays : current = h
        · exact stays ▸ .refl
        · exact (careful ⟨guarded,current,found,stays⟩).elim
      | some parent =>
        have hit : server.refs.get? ref_name = some parent := by simpa using passed
        rw [hit] at found
        exact Option.some.inj found ▸ .single guarded
    · exact ⟨current,by simpa [Dict.get?_set,same] using found,.refl⟩

omit [Canonical H] in
theorem push_commit_stored (server : Server H) (rejected : Bool) (h : H) (data : CommitData H) :
    (server.push_commit rejected h data).2 = server ∨
      (server.push_commit rejected h data).2 = {server with commits := server.commits.set h data} := by
  unfold Server.push_commit
  split
  · exact Or.inl rfl
  · split
    · exact Or.inl rfl
    · split
      · exact Or.inl rfl
      · exact Or.inr rfl

omit [Canonical H] in
theorem update_ref_commits (server : Server H) (ref_name : String) (h : H) (expected : Option H) :
    (server.update_ref ref_name h expected).2.commits = server.commits := by
  unfold Server.update_ref
  split <;> rfl

omit [Canonical H] in
theorem request_server {α : Type} (w : World H) (c : Choice) (effect : Server H → α × Server H) :
    (w.request c effect).2.repo = w.repo ∧
      ((w.request c effect).2.server = w.server ∨ carried_out c ∧ (w.request c effect).2.server = (effect w.server).2) := by
  unfold World.request carried_out
  cases net : c.net with
  | answered => exact ⟨rfl,Or.inr ⟨Or.inl rfl,rfl⟩⟩
  | refused => exact ⟨rfl,Or.inl rfl⟩
  | lost => exact ⟨rfl,Or.inl rfl⟩
  | unanswered => exact ⟨rfl,Or.inr ⟨Or.inr rfl,rfl⟩⟩

/-- Operations that store and push commits under their own names. -/
def Op.Named (β : Type) (o : Op H β) : Prop :=
  match β,o with
  | _,.write_commit h data => Genuine h data
  | _,.push_commit h data => Genuine h data
  | _,_ => True

theorem set_genuine {commits : Dict H (CommitData H)} (genuine : ∀ h data, commits.get? h = some data → Genuine h data) {h : H}
    {data : CommitData H} (new : Genuine h data) (other : H) (found : CommitData H)
    (held : (commits.set h data).get? other = some found) : Genuine other found := by
  rw [Dict.get?_set] at held
  by_cases same : other = h
  · rw [if_pos same] at held
    exact same ▸ Option.some.inj held ▸ new
  · rw [if_neg same] at held
    exact genuine other found held

theorem exec_named (env : Env) (me : Nat) {β : Type} (c : Choice) (o : Op H β) (w : World H)
    (stored : ∀ h data, w.repo.commits.get? h = some data → Genuine h data)
    (pushed : ∀ h data, w.server.commits.get? h = some data → Genuine h data) (named : Op.Named β o) :
    (∀ h data, (World.exec env me β c o w).2.repo.commits.get? h = some data → Genuine h data) ∧
      ∀ h data, (World.exec env me β c o w).2.server.commits.get? h = some data → Genuine h data := by
  have kept (commits : (World.exec env me β c o w).2.repo.commits = w.repo.commits)
      (rows : (World.exec env me β c o w).2.server.commits = w.server.commits) :
      (∀ h data, (World.exec env me β c o w).2.repo.commits.get? h = some data → Genuine h data) ∧
        ∀ h data, (World.exec env me β c o w).2.server.commits.get? h = some data → Genuine h data := by
    rw [commits,rows]
    exact ⟨stored,pushed⟩
  have harmless (quiet : Op.Harmless β o) := exec_harmless env me β c o w quiet
  cases o with
  | write_commit h data => exact ⟨set_genuine stored named,pushed⟩
  | push_commit h data =>
    obtain ⟨repo,same | ⟨-,same⟩⟩ := request_server w c (fun server => server.push_commit c.rejected h data)
    · exact kept (congrArg Repo.commits repo) (congrArg Server.commits same)
    · cases push_commit_stored w.server c.rejected h data with
      | inl still => exact kept (congrArg Repo.commits repo) (congrArg Server.commits (same.trans still))
      | inr landed =>
        have rows : (World.exec env me _ c (.push_commit h data) w).2.server.commits = w.server.commits.set h data :=
          congrArg Server.commits (same.trans landed)
        have files : (World.exec env me _ c (.push_commit h data) w).2.repo.commits = w.repo.commits := congrArg Repo.commits repo
        rw [rows,files]
        exact ⟨stored,set_genuine pushed named⟩
  | update_ref ref_name h expected =>
    obtain ⟨repo,same | ⟨-,same⟩⟩ := request_server w c (fun server =>
      let done := server.update_ref ref_name h expected
      ((⟨done.1,server.refs.get? ref_name⟩ : RefReply H),done.2))
    · exact kept (congrArg Repo.commits repo) (congrArg Server.commits same)
    · exact kept (congrArg Repo.commits repo) ((congrArg Server.commits same).trans (update_ref_commits w.server ref_name h expected))
  | _ => exact kept (harmless trivial).1 (harmless trivial).2.1

namespace Fleet

variable {party : Party R ι} {rule : Rule R H}

theorem Vetted.at_home {f : Fleet R H} (vetted : f.Vetted) (home : R) (repo : Repo H) (server : Server H)
    (sent : List (Request H)) (stored : ∀ h data, repo.commits.get? h = some data → Genuine h data)
    (pushed : ∀ h data, server.commits.get? h = some data → Genuine h data)
    (requested : ∀ q ∈ sent, Guarded q.commit_hash q.expected_hash) :
    Vetted ⟨Function.update f.repos home repo,server,sent⟩ where
  stored r h data found := by
    by_cases same : r = home
    · subst r
      simp only [Function.update_self] at found
      exact stored h data found
    · simp only [Function.update_of_ne same] at found
      exact vetted.stored r h data found
  pushed := pushed
  requested := requested

omit [DecidableEq ι] in
theorem Vetted.exec {f : Fleet R H} (vetted : f.Vetted) (i : ι) {β : Type} (c : Choice) (o : Op H β)
    (required : (discipline party rule i).pre β c o f) : (Fleet.exec party i β c o f).2.Vetted := by
  have named : Op.Named β o := by cases o <;> first | exact required | trivial
  obtain ⟨stored,pushed⟩ := exec_named (party.env (party.home i)) (party.pid i) c o ⟨f.repos (party.home i),f.server,true⟩
    (vetted.stored (party.home i)) vetted.pushed named
  apply vetted.at_home _ _ _ _ stored pushed
  intro q member
  rcases List.mem_append.mp member with early | last
  · exact vetted.requested q early
  · cases o with
    | update_ref ref_name h expected =>
      rw [List.mem_singleton.mp last]
      exact required
    | _ => cases last

omit [Canonical H] in
theorem get_commit_parents (server : Server H) (h : H) {data : CommitData H} (served : server.get_commit h = some data) :
    ∃ row, server.commits.get? h = some row ∧ row.parents = data.parents := by
  obtain ⟨row,held,shown⟩ := Option.map_eq_some_iff.mp served
  refine ⟨row,held,?_⟩
  rw [← shown]
  split <;> rfl

theorem served_genuine {server : Server H} (pushed : ∀ h data, server.commits.get? h = some data → Genuine h data) {h : H}
    {data : CommitData H} (served : server.get_commit h = some data) : Genuine h data := by
  obtain ⟨row,held,same⟩ := get_commit_parents server h served
  obtain ⟨original,named,parents⟩ := pushed h row held
  exact ⟨original,named,parents.trans same⟩

omit [DecidableEq ι] in
theorem vets (party : Party R ι) (rule : Rule R H) (i : ι) : Vets (discipline party rule i) Genuine where
  harmless β c o f quiet _ _ := by cases o <;> trivial
  read c f h data vetted found := vetted.stored _ h data found
  served c f h data vetted found := by
    have answer : f.server.get_commit h = some data := by
      simp only [discipline,Fleet.exec,World.exec,World.request] at found
      split at found <;> simp_all
    exact served_genuine vetted.pushed answer
  write c f h data genuine := genuine
  push c f h data genuine := genuine
  ref c f ref_name h data expected genuine fits := genuine.guarded fits

omit [DecidableEq ι] in
theorem accepts (party : Party R ι) (rule : Rule R H) (i : ι) (p : Command H Unit) (env : Env)
    (launched : Publishes env p) : (discipline party rule i).Accepts p := by
  have vets := vets party rule i
  cases launched with
  | commit message defer_upload =>
    exact (vets.commit_staged genuine_new env message defer_upload).bind fun _ => .pure ()
  | merge target options => exact vets.merge genuine_new env target options
  | push => exact (vets.flush_pending_push []).bind fun _ => .pure ()
  | finalize data ref_path idx defer_upload changed_paths =>
    exact (vets.finalize_commit env (genuine_new data) ref_path idx defer_upload changed_paths (.pure ())).bind
      fun _ => .pure ()

omit [DecidableEq ι] in
theorem compatible (party : Party R ι) (rule : Rule R H) :
    Pool.Compatible (discipline party rule) (fun i => Publishes (party.env (party.home i))) (fun _ f => f)
      (Elsewhere rule) Fleet.Vetted where
  shared _ _ := Iff.rfl
  alone _ _ := trivial
  trans _ _ _ _ _ _ := trivial
  keeps i β c o f vetted _ required := ⟨vetted.exec i c o required,fun _ _ => trivial⟩
  left _ _ vetted := ⟨vetted,fun _ _ => trivial⟩
  quiet f t vetted moved := by
    refine ⟨?_,fun _ => trivial⟩
    cases moved with
    | late q was_sent allowed =>
      exact ⟨vetted.stored,fun h data found => vetted.pushed h data (update_ref_commits (H := H) _ _ _ _ ▸ found),vetted.requested⟩
    | other _ same_refs same_sent kept => exact kept
  safe i p f launched _ := accepts party rule i p _ launched f

omit [DecidableEq R] in
theorem start_vetted (limit : Nat) : (start limit : Fleet R H).Vetted where
  stored r h data found := by simp [start,Repo.init] at found
  pushed h data found := by simp [start,Server.empty] at found
  requested q member := by simp [start] at member

omit [DecidableEq ι] in
theorem exec_descends (party : Party R ι) (i : ι) {β : Type} (c : Choice) (o : Op H β) (f : Fleet R H)
    (allowed : (discipline party no_second_root i).may β c o f) (required : (discipline party no_second_root i).pre β c o f) :
    Descends f.server (Fleet.exec party i β c o f).2.server := by
  have harmless (quiet : Op.Harmless β o) : Descends f.server (Fleet.exec party i β c o f).2.server :=
    .of_same (exec_harmless (party.env (party.home i)) (party.pid i) β c o ⟨f.repos (party.home i),f.server,true⟩ quiet).2.2
  cases o with
  | write_commit h data => exact .of_same rfl
  | push_commit h data =>
    refine .of_same ?_
    obtain ⟨-,same | ⟨-,same⟩⟩ := request_server ⟨f.repos (party.home i),f.server,true⟩ c
      (fun server => server.push_commit c.rejected h data)
    · exact congrArg Server.refs same
    · refine (congrArg Server.refs same).trans ?_
      rcases push_commit_stored f.server c.rejected h data with kept | landed
      · rw [kept]
      · rw [landed]
  | update_ref ref_name h expected =>
    obtain ⟨-,same | ⟨through,same⟩⟩ := request_server ⟨f.repos (party.home i),f.server,true⟩ c (fun server =>
      let done := server.update_ref ref_name h expected
      ((⟨done.1,server.refs.get? ref_name⟩ : RefReply H),done.2))
    · exact .of_same (congrArg Server.refs same)
    · have descends := update_ref_descends f.server required (allowed through)
      simp only [Fleet.exec,World.exec]
      rw [same]
      exact descends
  | _ => exact harmless trivial

theorem moves_descend {party : Party R ι} {before after : System R ι H} (moved : Moves party no_second_root before after)
    (good : Pool.Good (discipline party no_second_root) Vetted before) :
    Descends before.state.server after.state.server := by
  cases moved with
  | op pool i c o next at_op allowed =>
    exact exec_descends party i c o _ allowed (good.required (compatible party _) i c o next at_op allowed)
  | crash pool i => exact .of_same rfl
  | start pool i p idle launched => exact .of_same rfl
  | env pool t moved =>
    cases moved with
    | late q was_sent allowed => exact update_ref_descends _ (good.1.requested q was_sent) allowed
    | other _ same_refs same_sent vetted => exact .of_same same_refs

theorem reached_good {party : Party R ι} {rule : Rule R H} {limit : Nat} {reached : System R ι H}
    (run : Reaches party rule (.start limit) reached) : Pool.Good (discipline party rule) Vetted reached :=
  Pool.Good.run (compatible party rule) run ⟨start_vetted limit,fun _ => trivial⟩

theorem run_descends {party : Party R ι} {before after : System R ι H} (run : Reaches party no_second_root before after)
    (good : Pool.Good (discipline party no_second_root) Vetted before) :
    Descends before.state.server after.state.server := by
  induction run with
  | refl => exact .of_same rfl
  | tail many one ih => exact ih.trans (moves_descend one (good.run (compatible party _) many))

end Fleet

/-- However the clients' steps are ordered, whichever requests are lost, answered late
or carried out again: as long as no commit without parents is put on a branch that is
at another commit, a branch that is at `X` only ever comes to a descendant of `X`. -/
theorem branch_moves_to_descendant (party : Party R ι) (limit : Nat) (before after : System R ι H)
    (reached : Reaches party no_second_root (.start limit) before) (run : Reaches party no_second_root before after)
    (ref_name : String) (X : H) (was : before.state.server.refs.get? ref_name = some X) :
    ∃ Y, after.state.server.refs.get? ref_name = some Y ∧ Ancestor X Y :=
  Fleet.run_descends run (Fleet.reached_good reached) ref_name X was

/-! Two clients, each with a repository of its own. -/

theorem parent_marks {parent h : Name} (edge : ParentRel parent h) : h.bytes.head? = some 1 := by
  obtain ⟨data,rfl,member⟩ := edge
  obtain ⟨first,rest,same⟩ := List.exists_cons_of_ne_nil (List.ne_nil_of_mem member)
  simp [commit_hash,sha256,Canonical.canonical_commit_bytes,same]

theorem rootless_marks {h : Name} (rootless : Rootless h) : h.bytes.head? = some 0 := by
  obtain ⟨data,rfl,none⟩ := rootless
  simp [commit_hash,sha256,Canonical.canonical_commit_bytes,none]

def two_clients : Party Bool Bool := ⟨id,fun i => if i then 2 else 1,fun _ => ⟨⟨none,true,0⟩,"p",fun _ => []⟩⟩

def answered : Choice := ⟨.answered,false,0⟩

def first_commit (message : String) : CommitData Name := ⟨[],message,0,∅⟩

def second_commit : CommitData Name := ⟨[commit_hash (first_commit "a")],"b",0,∅⟩

def publish (data : CommitData Name) : Command Name Unit := do
  let _ ← _finalize_commit (two_clients.env true) data (some "main") .empty false none (.pure ())
  .pure ()

/-- The fleet once a client has published a commit and all its requests were answered. -/
def published (system : System Bool Bool Name) (i : Bool) (data : CommitData Name) : System Bool Bool Name :=
  let ran := (publish data).run (Fleet.exec two_clients i) (fun _ => answered) system.state
  ⟨ran.2,Function.update system.progs i (Prog.leaf ran.1)⟩

/-- What `no_second_root` asks for, as far as it shows on names of the ideal digest. -/
def roots_check (β : Type) (o : Op Name β) (f : Fleet Bool Name) : Bool :=
  match β,o with
  | _,.update_ref ref_name h _ => f.server.refs.get? ref_name == none || h.bytes.head? == some 1
  | _,_ => true

theorem published_reached {rule : Rule Bool Name} (system : System Bool Bool Name) (i : Bool) (data : CommitData Name)
    (check : ∀ β, Op Name β → Fleet Bool Name → Bool)
    (fair : ∀ β (o : Op Name β) f, check β o f = true → (discipline two_clients rule i).may β answered o f)
    (idle : (system.progs i).finished)
    (checked : (publish data).checks (Fleet.exec two_clients i) (fun _ => answered) check system.state = true) :
    Reaches two_clients rule system (published system i data) :=
  Pool.run_program _ _ _ _ (fun _ => answered) check system i (publish data) fair idle (.finalize data _ _ _ _) checked

theorem roots_check_fair (i : Bool) (β : Type) (o : Op Name β) (f : Fleet Bool Name) (passed : roots_check β o f = true) :
    (discipline two_clients no_second_root i).may β answered o f := by
  cases o with
  | update_ref ref_name h expected =>
    rintro - ⟨rootless,current,found,-⟩
    have begins := rootless_marks rootless
    simp [roots_check,found,begins] at passed
  | _ => trivial

theorem branch_moves_to_descendant_twice :
    ∃ Y, (published (published (.start 0) true (first_commit "a")) true second_commit).state.server.refs.get? "p/main" =
      some Y ∧ Ancestor (commit_hash (first_commit "a")) Y :=
  branch_moves_to_descendant two_clients 0 (published (.start 0) true (first_commit "a")) _
    (published_reached _ true _ roots_check (roots_check_fair true) trivial (by decide))
    (published_reached _ true _ roots_check (roots_check_fair true) trivial (by decide)) "p/main"
    (commit_hash (first_commit "a")) (by decide)

/-- Both clients make a first commit of the branch: the second replaces the first. -/
theorem first_commit_overwritten :
    ∃ (before after : System Bool Bool Name) (X Y : Name),
      Reaches two_clients anything (.start 0) before ∧ Reaches two_clients anything before after ∧
        before.state.server.refs.get? "p/main" = some X ∧ after.state.server.refs.get? "p/main" = some Y ∧
        ¬Ancestor X Y := by
  have fair (i : Bool) (β : Type) (o : Op Name β) (f : Fleet Bool Name) (_ : true = true) :
      (discipline two_clients anything i).may β answered o f := by
    cases o with
    | update_ref ref_name h expected => exact fun _ => trivial
    | _ => exact trivial
  refine ⟨published (.start 0) true (first_commit "a"),
    published (published (.start 0) true (first_commit "a")) false (first_commit "b"),
    commit_hash (first_commit "a"),commit_hash (first_commit "b"),
    published_reached _ true _ (fun _ _ _ => true) (fair true) trivial (by decide),
    published_reached _ false _ (fun _ _ _ => true) (fair false) trivial (by decide),by decide,by decide,?_⟩
  intro path
  rcases Relation.ReflTransGen.cases_tail path with same | ⟨parent,-,edge⟩
  · exact absurd same (by decide)
  · exact absurd (parent_marks edge) (by decide)

end AetherVault
