import AetherVault.Pull
import AetherVault.Footprint
import AetherVault.Lib.Chain

/-! One pull or clone while no other process acts: what the pages of the listing show, what
the walk down the first parents fetches, and what the decision rests on. -/
namespace AetherVault
open Lib Hashing
open Lib.Prog (Only call forEach foldEach)
open Lib.Discipline (Meets)

variable {H : Type} [DecidableEq H] [Hashing H]

/-! The registry's history. -/

/-- A history of commits that name only commits that are there, and none before itself. -/
structure Server.Dag (server : Server H) : Prop where
  parents : ∀ h data, server.commits.get? h = some data → ∀ p ∈ data.parents, server.commits.contains p = true
  acyclic : Chain.Acyclic (parents_of server.commits)
  tips : ∀ ref_name h, server.refs.get? ref_name = some h → server.commits.contains h = true

theorem get_commit_parents {server : Server H} {h : H} {data : CommitData H} (served : server.get_commit h = some data) :
    parents_of server.commits h = data.parents := by
  obtain ⟨stored,found,rfl⟩ := Option.map_eq_some_iff.mp served
  simp only [parents_of,found]
  split <;> rfl

theorem get_commit_served {server : Server H} {h : H} (stored : server.commits.contains h = true) :
    ∃ data, server.get_commit h = some data := by
  obtain ⟨data,found⟩ := (Dict.contains_iff _ _).mp stored
  exact ⟨_,by simp only [Server.get_commit,found,Option.map_some]; rfl⟩

theorem Server.Dag.next {server : Server H} (dag : server.Dag) {h p : H} (parent : p ∈ parents_of server.commits h) :
    server.commits.contains p = true := by
  unfold parents_of at parent
  split at parent
  · rename_i data found
    exact dag.parents h data found p parent
  · simp at parent

theorem Server.Dag.reach {server : Server H} (dag : server.Dag) {a b : H} (stored : server.commits.contains a = true)
    (path : Search.Reach (parents_of server.commits) a b) : server.commits.contains b = true := by
  rcases Relation.ReflTransGen.cases_tail path with same | ⟨c,-,edge⟩
  · exact same ▸ stored
  · exact dag.next edge

theorem listing_names {server : Server H} {h : H} :
    h ∈ server.listing.map Prod.fst ↔ server.commits.contains h = true := by
  have same : (server.listing.map Prod.fst).Perm server.commits.keys := (List.perm_insertionSort _ _).map _
  rw [same.mem_iff,Dict.mem_keys,Dict.contains_iff]

theorem mem_page {server : Server H} {limit offset : Nat} {row : H × CommitData H} :
    row ∈ (server.list_commits limit offset).1 ↔
      row.1 ∈ ((server.listing.drop offset).take limit).map Prod.fst ∧ server.get_commit row.1 = some row.2 := by
  simp only [Server.list_commits,List.mem_filterMap,List.mem_map,Option.map_eq_some_iff]
  constructor
  · rintro ⟨item,member,data,served,rfl⟩
    exact ⟨⟨item,member,rfl⟩,served⟩
  · rintro ⟨⟨item,member,same⟩,served⟩
    exact ⟨item,member,row.2,by rw [same,served],by rw [same]⟩

/-! What a pull or a clone writes. -/

/-- The commit is here, or is to be brought and some commit has been stored. -/
def Brought (target : H → Prop) (w t : World H) (h : H) : Prop :=
  t.repo.commits.contains h = true ∨ target h ∧
    ∃ g, t.repo.commits.contains g = true ∧ w.repo.commits.contains g = false

theorem Brought.set {target : H → Prop} {w t : World H} {h : H} (brought : Brought target w t h) (g : H) (data : CommitData H) :
    Brought target w {t with repo := {t.repo with commits := t.repo.commits.set g data}} h := by
  rcases brought with held | ⟨stored,other,held,fresh⟩
  · exact Or.inl (Dict.contains_set _ _ _ held)
  · exact Or.inr ⟨stored,other,Dict.contains_set _ _ _ held,fresh⟩

/-- The store is as it was, besides served commits from the target. -/
structure Copied (target : H → Prop) (w t : World H) : Prop where
  server_commits : t.server.commits = w.server.commits
  server_refs : t.server.refs = w.server.refs
  kept : ∀ h data, w.repo.commits.get? h = some data → t.repo.commits.get? h = some data
  copies : ∀ h data, t.repo.commits.get? h = some data →
    w.repo.commits.get? h = some data ∨ target h ∧ w.server.get_commit h = some data
  tips : ∀ name h, t.repo.refs.get? name = some (some h) →
    w.repo.refs.get? name = some (some h) ∨ Brought target w t h

theorem Copied.refl (target : H → Prop) (w : World H) : Copied target w w :=
  ⟨rfl,rfl,fun _ _ found => found,fun _ _ found => Or.inl found,fun _ _ found => Or.inl found⟩

theorem Copied.served {target : H → Prop} {w t : World H} (copied : Copied target w t) : t.server.get_commit = w.server.get_commit := by
  funext h
  simp only [Server.get_commit,copied.server_commits]

theorem Copied.page {target : H → Prop} {w t : World H} (copied : Copied target w t) (limit offset : Nat) :
    t.server.list_commits limit offset = w.server.list_commits limit offset := by
  unfold Server.list_commits Server.listing
  rw [copied.served,copied.server_commits]

/-- Pulling and cloning write commits of the target as they are served, branches at commits
brought here, HEAD, the index, and what quiet operations write. -/
def copying (env : Env) (me : Nat) (may : ∀ β, Choice → Op H β → World H → Prop) (target : H → Prop) (w : World H) :
    Discipline (Op H) (World H) Choice where
  exec := World.exec env me
  may := may
  inv := Copied target w
  rely := fun s t => t = s
  pre := fun β _ o t => match β,o with
    | _,.write_commit h data => target h ∧ w.repo.commits.contains h = false ∧ w.server.get_commit h = some data
    | _,.write_ref _ tip => ∀ h, tip = some h → Brought target w t h
    | _,.write_head _ => True
    | _,.save_index _ => True
    | _,o => o.Quiet

theorem copying_keeps (env : Env) (me : Nat) (may : ∀ β, Choice → Op H β → World H → Prop) (target : H → Prop) (w : World H) :
    (copying env me may target w).Keeps := by
  intro β c o t copied allowed required
  have calm (quiet : Op.Quiet β o) : Copied target w (World.exec env me β c o t).2 := by
    have same := exec_quiet env me β c o t quiet
    refine ⟨same.server_commits.trans copied.server_commits,same.server_refs.trans copied.server_refs,?_,?_,?_⟩
    · rw [same.commits]
      exact copied.kept
    · rw [same.commits]
      exact copied.copies
    · intro name h tip
      rw [same.refs] at tip
      unfold Brought
      rw [same.commits]
      exact copied.tips name h tip
  cases o with
  | write_commit h data =>
    obtain ⟨aimed,fresh,served⟩ := required
    refine ⟨copied.server_commits,copied.server_refs,fun g found held => ?_,fun g found held => ?_,fun name g tip => ?_⟩
    · have other : g ≠ h := by
        rintro rfl
        rw [(Dict.contains_false _ _).mp fresh] at held
        cases held
      exact (Dict.get?_set_other _ _ _ _ other).trans (copied.kept g found held)
    · by_cases same : g = h
      · subst g
        obtain rfl : data = found := by simpa [copying,World.exec] using held
        exact Or.inr ⟨aimed,served⟩
      · exact copied.copies g found ((Dict.get?_set_other _ _ _ _ same).symm.trans held)
    · exact (copied.tips name g tip).imp_right fun brought => brought.set h data
  | write_ref name tip =>
    refine ⟨copied.server_commits,copied.server_refs,copied.kept,copied.copies,fun other g found => ?_⟩
    simp only [copying,World.exec,Dict.get?_set] at found
    split at found
    · exact Or.inr (required g (Option.some.inj found))
    · exact copied.tips other g found
  | write_head head => exact ⟨copied.server_commits,copied.server_refs,copied.kept,copied.copies,copied.tips⟩
  | save_index idx => exact ⟨copied.server_commits,copied.server_refs,copied.kept,copied.copies,copied.tips⟩
  | _ => exact calm required

/-- The states between which only the link differs. -/
def Linked (s t : World H) : Prop := t.repo = s.repo ∧ t.server = s.server

section Copying

variable {env : Env} {me : Nat} {may : ∀ β, Choice → Op H β → World H → Prop} {target : H → Prop} {w : World H}

theorem copying_call {β : Type} {o : Op H β} {s : World H} {post : Except (Failure H) β → World H → Prop}
    (reached : ∀ c, may _ c o s → Copied target w s → (copying env me may target w).pre _ c o s ∧
      post (.ok (World.exec env me _ c o s).1) (World.exec env me _ c o s).2) :
    (copying env me may target w).Meets (call o) post s := by
  refine .call fun c t same copied allowed => ?_
  obtain rfl : t = s := same
  exact reached c allowed copied

theorem copying_read {α β : Type} {o : Op H β} {b : β} {next : β → Command H α} {s : World H}
    {post : Except (Failure H) α → World H → Prop} (reads : ∀ c, World.exec env me β c o s = (b,s))
    (quiet : ∀ c, (copying env me may target w).pre _ c o s)
    (later : Copied target w s → (copying env me may target w).Meets (next b) post s) :
    (copying env me may target w).Meets (call o >>= next) post s := by
  refine .bind (copying_call fun c _ copied => ⟨quiet c,?_⟩)
  rw [reads]
  exact later copied

theorem copying_request {α β γ : Type} {o : Op H (Reply α)} (answer : Server H → α) {failed : γ} {read : α → Command H γ}
    {next : γ → Command H β} {s : World H} {post : Except (Failure H) β → World H → Prop}
    (requests : ∀ c, World.exec env me _ c o s = s.request c fun server => (answer server,server))
    (quiet : ∀ c, (copying env me may target w).pre _ c o s)
    (answered : Copied target w s → (copying env me may target w).Meets (read (answer s.server)) (fun r t => match r with
      | .ok c => (copying env me may target w).Meets (next c) post t
      | .error e => post (.error e) t) s)
    (unanswered : ∀ c t, may _ c o s → c.net ≠ .answered → Linked s t → (copying env me may target w).Meets (next failed) post t)
    (refused : ∀ c t, may _ c o s → c.net ≠ .answered → Linked s t → post (.error .authentication) t) :
    (copying env me may target w).Meets ((call o >>= fun reply => VaultClient.received reply failed read) >>= next) post s := by
  refine .bind (.bind (copying_call fun c allowed copied => ⟨quiet c,?_⟩))
  simp only [requests,World.request]
  cases net : c.net with
  | answered =>
    apply (answered copied).mono
    intro r t reached
    cases r <;> exact reached
  | refused => exact refused c _ allowed (by simp [net]) ⟨rfl,rfl⟩
  | lost => exact unanswered c _ allowed (by simp [net]) ⟨rfl,rfl⟩
  | unanswered => exact unanswered c _ allowed (by simp [net]) ⟨rfl,rfl⟩

/-! Paging. -/

/-- What is known of the listing is what is served. -/
def Paged.Seen (paged : Paged H) (server : Server H) : Prop :=
  ∀ h data, paged.known.get? h = some data → server.get_commit h = some data

/-- The listing is known up to the offset, and all of it once there are no more pages. -/
structure Paged.Covers (paged : Paged H) (server : Server H) : Prop where
  read : ∀ h ∈ (server.listing.take paged.offset).map Prod.fst, paged.known.contains h = true
  ended : paged.exhausted = true → ∀ h, server.commits.contains h = true → paged.known.contains h = true

theorem Paged.Seen.read {paged : Paged H} {server : Server H} (seen : paged.Seen server) (limit offset : Nat) :
    (paged.read (server.list_commits limit offset)).Seen server := by
  intro h data found
  rcases (Dict.get?_foldl_set _ _ h).1 data found with listed | old
  · exact (mem_page.mp listed).2
  · exact seen h data old

theorem Paged.Covers.page {paged : Paged H} {server : Server H} {limit : Nat} (covers : paged.Covers server) {h : H}
    (listed : h ∈ (server.listing.take (paged.offset + limit)).map Prod.fst) :
    (paged.read (server.list_commits limit paged.offset)).known.contains h = true := by
  apply (Dict.get?_foldl_set _ _ h).2
  rw [List.take_add,List.map_append,List.mem_append] at listed
  rcases listed with early | now
  · exact Or.inr (covers.read h early)
  · have stored : server.commits.contains h = true := by
      rw [← listing_names]
      exact List.Sublist.subset (((List.take_sublist _ _).trans (List.drop_sublist _ _)).map _) now
    obtain ⟨data,served⟩ := get_commit_served stored
    exact Or.inl ⟨data,mem_page.mpr ⟨now,served⟩⟩

theorem Paged.Covers.read_page {paged : Paged H} {server : Server H} {limit : Nat} (covers : paged.Covers server) :
    (paged.read (server.list_commits limit paged.offset)).Covers server := by
  by_cases more : paged.offset + limit < server.listing.length
  · have next : (server.list_commits limit paged.offset).2 = some (paged.offset + limit) := if_pos more
    refine ⟨fun h listed => covers.page ?_,fun ended => ?_⟩
    · simpa [Paged.read,next] using listed
    · simp [Paged.read,next] at ended
  · have next : (server.list_commits limit paged.offset).2 = none := if_neg more
    have all (h : H) (stored : server.commits.contains h = true) :
        h ∈ (server.listing.take (paged.offset + limit)).map Prod.fst := by
      rw [List.take_of_length_le (by omega)]
      exact listing_names.mpr stored
    refine ⟨fun h listed => covers.page (all h ?_),fun _ h stored => covers.page (all h stored)⟩
    rw [← listing_names]
    exact List.Sublist.subset ((List.take_sublist _ _).map _) listed

theorem Paged.Covers.ends {paged : Paged H} {server : Server H} {limit : Nat} (covers : paged.Covers server) (positive : 0 < limit)
    (empty : (server.list_commits limit paged.offset).1 = []) : ({paged with exhausted := true} : Paged H).Covers server := by
  have past : server.listing.length ≤ paged.offset := by
    by_contra within
    obtain ⟨item,rest,same⟩ := List.exists_cons_of_length_pos (l := (server.listing.drop paged.offset).take limit)
      (by simp; omega)
    have listed : item.1 ∈ ((server.listing.drop paged.offset).take limit).map Prod.fst := by simp [same]
    have stored : server.commits.contains item.1 = true := by
      rw [← listing_names]
      exact List.Sublist.subset (((List.take_sublist _ _).trans (List.drop_sublist _ _)).map _) listed
    obtain ⟨data,served⟩ := get_commit_served stored
    have row : (item.1,data) ∈ (server.list_commits limit paged.offset).1 := mem_page.mpr ⟨listed,served⟩
    simp [empty] at row
  refine ⟨covers.read,fun _ h stored => covers.read h ?_⟩
  rw [List.take_of_length_le past]
  exact listing_names.mpr stored

def Answering (may : ∀ β, Choice → Op H β → World H → Prop) : Prop := ∀ β c (o : Op H β) s, may β c o s → c.net = .answered

/-- With fuel for the rest of the listing. -/
def Paged.Enough (paged : Paged H) (server : Server H) (fuel : Nat) : Prop :=
  0 < fuel ∧ (paged.exhausted = true ∨ server.listing.length < paged.offset + fuel)

theorem Paged.Enough.next {paged : Paged H} {server : Server H} {fuel limit : Nat} (enough : paged.Enough server (fuel + 1))
    (more : paged.exhausted = false) (positive : 0 < limit) (rows : (server.list_commits limit paged.offset).1 ≠ []) :
    (paged.read (server.list_commits limit paged.offset)).Enough server fuel := by
  obtain ⟨-,ended | long⟩ := enough
  · simp [more] at ended
  have within : paged.offset < server.listing.length := by
    by_contra past
    exact rows (by simp [Server.list_commits,List.drop_of_length_le (by omega : server.listing.length ≤ paged.offset)])
  refine ⟨by omega,?_⟩
  by_cases next : paged.offset + limit < server.listing.length
  · right
    simp only [Paged.read,Server.list_commits,if_pos next,Option.getD_some]
    omega
  · left
    simp [Paged.read,Server.list_commits,if_neg next]

/-- The result does not report a divergence. -/
def Unopposed {α : Type} (r : Except (Failure H) α) : Prop := ∀ local_tip remote_tip, r ≠ .error (.merge_conflict local_tip remote_tip)

omit [DecidableEq H] [Hashing H] in
theorem unopposed_ok {α : Type} (a : α) : Unopposed (H := H) (.ok a) := fun _ _ same => by cases same

theorem resolve_meets (h : H) {fuel : Nat} {paged : Paged H} {s : World H} (seen : paged.Seen w.server) :
    (copying env me may target w).Meets (_resolve h fuel paged) (fun r t => Linked s t ∧ Unopposed r ∧
      (∀ later, r = .ok later → later.Seen w.server) ∧
      (Answering may → paged.Covers w.server → paged.Enough w.server fuel → ∃ later, r = .ok later ∧
        later.Covers w.server ∧ (w.server.commits.contains h = true → later.known.contains h = true))) s := by
  induction fuel generalizing paged s with
  | zero => exact ⟨⟨rfl,rfl⟩,by simp [Unopposed],by simp,fun _ _ enough => absurd enough.1 (by simp)⟩
  | succ fuel ih =>
    unfold _resolve
    split
    · rename_i ready
      refine ⟨⟨rfl,rfl⟩,unopposed_ok _,fun later same => Except.ok.inj same ▸ seen,fun _ covers _ =>
        ⟨paged,rfl,covers,fun stored => ?_⟩⟩
      exact ready.elim id fun ended => covers.ended ended h stored
    · rename_i waiting
      have more : paged.exhausted = false := by simpa using fun ended => waiting (Or.inr ended)
      refine copying_request (·.list_commits page_size paged.offset) (fun c => rfl) (fun c => trivial) (fun copied => ?_) ?_ ?_
      · rw [copied.page]
        dsimp only [Meets]
        split
        · rename_i empty
          exact ⟨⟨rfl,rfl⟩,unopposed_ok _,fun later same => Except.ok.inj same ▸ seen,fun _ covers _ =>
            ⟨_,rfl,covers.ends (by decide) empty,fun stored => (covers.ends (by decide) empty).ended rfl h stored⟩⟩
        · rename_i rows
          refine (ih (seen.read page_size paged.offset)).mono fun r t reached => ⟨reached.1,reached.2.1,reached.2.2.1,?_⟩
          exact fun answers covers enough => reached.2.2.2 answers covers.read_page (enough.next more (by decide) rows)
      · intro c t allowed silent linked
        exact ⟨linked,unopposed_ok _,fun later same => Except.ok.inj same ▸ seen,fun answers =>
          absurd (answers _ c _ s allowed) silent⟩
      · intro c t allowed silent linked
        exact ⟨linked,by simp [Unopposed],by simp,fun answers => absurd (answers _ c _ s allowed) silent⟩

end Copying

/-! The walk down the first parents. -/

/-- It stops at the local tip, and at what is here. -/
def World.stops (w : World H) (local_tip : Option H) (h : H) : Prop :=
  local_tip = some h ∨ w.repo.commits.contains h = true

def World.passes (w : World H) (local_tip : Option H) (tip h : H) : Prop :=
  Chain.Passed (parents_of w.server.commits) (w.stops local_tip) tip h

/-- How far it has come: past what it has stored, or still before the cursor. -/
structure Walking (w : World H) (local_tip : Option H) (tip : H) (cursor : Option H) (t : World H) : Prop where
  refs : t.repo.refs = w.repo.refs
  on : ∀ c, cursor = some c → Chain.On (parents_of w.server.commits) (w.stops local_tip) tip c
  covered : ∀ h, Chain.On (parents_of w.server.commits) (w.stops local_tip) tip h →
    w.passes local_tip tip h ∧ t.repo.commits.contains h = true ∨
      ∃ c, cursor = some c ∧ Chain.On (parents_of w.server.commits) (w.stops local_tip) c h
  behind : ∀ h, t.repo.commits.contains h = true → w.repo.commits.contains h = true ∨
    ∀ c, cursor = some c → ∃ p ∈ parents_of w.server.commits h, Search.Reach (parents_of w.server.commits) p c

theorem Walking.start (w : World H) (local_tip : Option H) (tip : H) : Walking w local_tip tip (some tip) w where
  refs := rfl
  on _ same := Option.some.inj same ▸ .refl
  covered _ on := Or.inr ⟨tip,rfl,on⟩
  behind _ held := Or.inl held

theorem Walking.linked {w s t : World H} {local_tip cursor : Option H} {tip : H} (walking : Walking w local_tip tip cursor s)
    (linked : Linked s t) : Walking w local_tip tip cursor t := by
  obtain ⟨refs,on,covered,behind⟩ := walking
  rw [← linked.1] at refs covered behind
  exact ⟨refs,on,covered,behind⟩

theorem Walking.store {w s : World H} {local_tip : Option H} {tip c : H} {data : CommitData H}
    (walking : Walking w local_tip tip (some c) s) (past : ¬w.stops local_tip c) (served : w.server.get_commit c = some data) :
    Walking w local_tip tip data.parents.head? {s with repo := {s.repo with commits := s.repo.commits.set c data}} := by
  have parents := get_commit_parents served
  refine ⟨walking.refs,fun next first => ?_,fun h on => ?_,fun h held => ?_⟩
  · exact (walking.on c rfl).next past (by rw [parents,first])
  · rcases walking.covered h on with ⟨passed,held⟩ | ⟨c',same,ahead⟩
    · exact Or.inl ⟨passed,Dict.contains_set _ _ _ held⟩
    · obtain rfl := Option.some.inj same
      rcases ahead.onward with rfl | ⟨next,first,rest⟩
      · exact Or.inl ⟨⟨on,past⟩,by simp [Dict.contains]⟩
      · exact Or.inr ⟨next,by rw [← parents,first],rest⟩
  · have steps {next : H} (first : data.parents.head? = some next) : next ∈ parents_of w.server.commits c := by
      rw [parents]
      exact List.mem_of_head? first
    by_cases same : h = c
    · subst h
      exact Or.inr fun next first => ⟨next,steps first,.refl⟩
    · have old : s.repo.commits.contains h = true := by
        simpa [Dict.contains,Dict.get?_set_other _ _ _ _ same] using held
      refine (walking.behind h old).imp_right fun reaches next first => ?_
      obtain ⟨p,parent,path⟩ := reaches c rfl
      exact ⟨p,parent,path.tail (steps first)⟩

/-- What the walk leaves: all it passed is here. -/
structure Walked (w : World H) (local_tip : Option H) (tip : H) (t : World H) (join_found : Bool) : Prop where
  passed : ∀ h, w.passes local_tip tip h → t.repo.commits.contains h = true
  joins : join_found = true ↔ Chain.Joins (parents_of w.server.commits) (w.stops local_tip) tip

theorem Walking.root {w t : World H} {local_tip : Option H} {tip : H} (walking : Walking w local_tip tip none t) :
    Walked w local_tip tip t false := by
  have all (h : H) (on : Chain.On (parents_of w.server.commits) (w.stops local_tip) tip h) :
      w.passes local_tip tip h ∧ t.repo.commits.contains h = true := by
    rcases walking.covered h on with through | ⟨c,same,-⟩
    · exact through
    · cases same
  refine ⟨fun h passed => (all h passed.1).2,by simp,?_⟩
  rintro ⟨h,on,stops⟩
  exact absurd stops (all h on).1.2

theorem Walking.joined {w t : World H} {local_tip : Option H} {tip c : H} (walking : Walking w local_tip tip (some c) t)
    (stops : w.stops local_tip c) : Walked w local_tip tip t true := by
  refine ⟨fun h passed => ?_,fun _ => ⟨c,walking.on c rfl,stops⟩,fun _ => rfl⟩
  rcases walking.covered h passed.1 with through | ⟨c',same,ahead⟩
  · exact through.2
  · obtain rfl := Option.some.inj same
    exact absurd (ahead.stopped stops ▸ stops) passed.2

theorem length_filter_lt {α : Type} {p q : α → Bool} {items : List α} {x : α} (member : x ∈ items) (gone : p x = false)
    (was : q x = true) (fewer : ∀ y, p y = true → q y = true) : (items.filter p).length < (items.filter q).length := by
  have nested : items.filter p = (items.filter q).filter p := by
    rw [List.filter_filter]
    apply List.filter_congr
    intro y _
    cases now : p y with
    | false => rfl
    | true => simp [fewer y now]
  rw [nested,List.length_filter_lt_length_iff_exists]
  exact ⟨x,List.mem_filter.mpr ⟨member,was⟩,by simp [gone]⟩

def World.absent (w : World H) (t : World H) : List H := w.server.commits.keys.filter fun h => !t.repo.commits.contains h

section Walk

variable {env : Env} {me : Nat} {may : ∀ β, Choice → Op H β → World H → Prop} {target : H → Prop} {w : World H}

theorem pull_walk_meets (dag : w.server.Dag) {local_tip : Option H} {tip : H} (stored : w.server.commits.contains tip = true)
    (aimed : ∀ h, w.passes local_tip tip h → target h) {fuel turns : Nat} {paged : Paged H} {cursor : Option H} {s : World H}
    (seen : paged.Seen w.server) (walking : Walking w local_tip tip cursor s) :
    (copying env me may target w).Meets (pull_walk fuel local_tip turns paged cursor) (fun r t =>
      t.repo.refs = w.repo.refs ∧ Unopposed r ∧ (∀ join_found, r = .ok join_found → Walked w local_tip tip t join_found) ∧
      (Answering may → paged.Covers w.server → w.server.listing.length < fuel → (w.absent s).length < turns →
        ∃ join_found, r = .ok join_found)) s := by
  induction turns generalizing paged cursor s with
  | zero =>
    cases cursor with
    | none => exact ⟨walking.refs,unopposed_ok _,fun _ same => Except.ok.inj same ▸ walking.root,fun _ _ _ _ => ⟨_,rfl⟩⟩
    | some c => exact ⟨walking.refs,by simp [Unopposed],by simp,fun _ _ _ few => absurd few (by simp)⟩
  | succ turns ih =>
    cases cursor with
    | none => exact ⟨walking.refs,unopposed_ok _,fun _ same => Except.ok.inj same ▸ walking.root,fun _ _ _ _ => ⟨_,rfl⟩⟩
    | some c =>
      have served := dag.reach stored (walking.on c rfl).reach
      unfold pull_walk
      split
      · rename_i same
        exact ⟨walking.refs,unopposed_ok _,fun _ done => Except.ok.inj done ▸ walking.joined (Or.inl same.symm),
          fun _ _ _ _ => ⟨_,rfl⟩⟩
      rename_i elsewhere
      refine copying_read (fun c => rfl) (fun c => trivial) fun copied => ?_
      cases found : s.repo.commits.get? c with
      | some data =>
        have held : s.repo.commits.contains c = true := (Dict.contains_iff _ _).mpr ⟨data,found⟩
        have old : w.repo.commits.contains c = true := by
          refine (walking.behind c held).resolve_right fun reaches => ?_
          obtain ⟨p,parent,path⟩ := reaches c rfl
          exact dag.acyclic c p parent path
        exact ⟨walking.refs,unopposed_ok _,fun _ done => Except.ok.inj done ▸ walking.joined (Or.inr old),
          fun _ _ _ _ => ⟨_,rfl⟩⟩
      | none =>
        have fresh : w.repo.commits.contains c = false := by
          rw [Dict.contains_false]
          cases before : w.repo.commits.get? c with
          | none => rfl
          | some data => simp [copied.kept c data before] at found
        have past : ¬w.stops local_tip c := by
          rintro (at_tip | held)
          · exact elsewhere at_tip.symm
          · simp [fresh] at held
        refine .bind ((resolve_meets c seen).mono fun r t resolved => ?_)
        obtain ⟨linked,unopposed,later_seen,reached⟩ := resolved
        have walking := walking.linked linked
        cases r with
        | error e =>
          refine ⟨walking.refs,fun l R same => unopposed l R (congrArg Except.error (Except.error.inj same)),by simp,
            fun answers covers long _ => ?_⟩
          obtain ⟨later,same,-⟩ := reached answers covers ⟨by omega,Or.inr (by omega)⟩
          cases same
        | ok later =>
          dsimp only
          cases known : later.known.get? c with
          | none =>
            refine ⟨walking.refs,by simp [Unopposed],by simp,fun answers covers long _ => ?_⟩
            obtain ⟨again,same,-,there⟩ := reached answers covers ⟨by omega,Or.inr (by omega)⟩
            obtain rfl := Except.ok.inj same
            simp [Dict.contains,known] at there
            exact absurd served (by simp [Dict.contains,there])
          | some data =>
            have serves := later_seen later rfl c data known
            refine .bind (copying_call fun _ _ _ => ⟨⟨aimed c ⟨walking.on c rfl,past⟩,fresh,serves⟩,?_⟩)
            refine (ih (later_seen later rfl) (walking.store past serves)).mono fun r u ended => ⟨ended.1,ended.2.1,ended.2.2.1,?_⟩
            intro answers covers long few
            obtain ⟨again,same,covers',-⟩ := reached answers covers ⟨by omega,Or.inr (by omega)⟩
            obtain rfl := Except.ok.inj same
            refine ended.2.2.2 answers covers' long ?_
            have fewer : (w.absent {t with repo := {t.repo with commits := t.repo.commits.set c data}}).length <
                (w.absent s).length := by
              rw [← linked.1] at found
              unfold World.absent
              rw [← linked.1]
              refine length_filter_lt ((Dict.mem_keys _ _).mpr ((Dict.contains_iff _ _).mp served)) (by simp [Dict.contains])
                (by simp [Dict.contains,found]) fun y absent => ?_
              by_contra here
              simp only [Bool.not_eq_true',Bool.not_eq_false] at absent here
              rw [Dict.contains_set _ _ _ here] at absent
              cases absent
            omega

/-! The decision. -/

/-- What a pull fetches: the tip and its first parents, above the first one that is here or the local tip. -/
def World.Fetches (env : Env) (w : World H) (h : H) : Prop :=
  ∃ branch tip, w.repo.head = .branch branch ∧ w.server.refs.get? (remote_ref env branch) = some tip ∧
    w.passes (w.repo.refs.get? branch).join tip h

def Allows (t : World H) (local_tip : Option H) (tip : H) (join_found : Bool) : Prop :=
  ∀ L, local_tip = some L → join_found = true ∧ Search.Reach (parents_of t.repo.commits) tip L

/-- What each decision rests on. -/
inductive Decided (env : Env) (w t : World H) : Decision H → Prop
  | no_remote_branch : Decided env w t .no_remote_branch
  | up_to_date {branch : String} {tip : H} (head : w.repo.head = .branch branch)
      (remote : w.server.refs.get? (remote_ref env branch) = some tip) (same : (w.repo.refs.get? branch).join = some tip) :
      Decided env w t .up_to_date
  | diverged {branch : String} {tip : H} {join_found : Bool} (head : w.repo.head = .branch branch)
      (remote : w.server.refs.get? (remote_ref env branch) = some tip) (differ : (w.repo.refs.get? branch).join ≠ some tip)
      (walked : Walked w (w.repo.refs.get? branch).join tip t join_found)
      (refused : ¬Allows t (w.repo.refs.get? branch).join tip join_found) :
      Decided env w t (.diverged (w.repo.refs.get? branch).join tip)
  | fast_forward {branch : String} {tip : H} {join_found : Bool} (head : w.repo.head = .branch branch)
      (remote : w.server.refs.get? (remote_ref env branch) = some tip) (differ : (w.repo.refs.get? branch).join ≠ some tip)
      (walked : Walked w (w.repo.refs.get? branch).join tip t join_found)
      (allowed : Allows t (w.repo.refs.get? branch).join tip join_found) :
      Decided env w t (.fast_forward branch tip)

theorem ff_allowed_meets {local_tip : Option H} {tip : H} {join_found : Bool} {s : World H} :
    (copying env me may target w).Meets (ff_allowed local_tip tip join_found) (fun r t => t = s ∧
      ∃ allowed, r = .ok allowed ∧ (allowed = true ↔ Allows s local_tip tip join_found)) s := by
  cases local_tip with
  | none => exact ⟨rfl,true,rfl,by simp [Allows]⟩
  | some L =>
    cases join_found with
    | false => exact ⟨rfl,false,rfl,by simp [Allows]⟩
    | true =>
      refine copying_read (fun c => rfl) (fun c => trivial) fun copied => ⟨rfl,_,rfl,?_⟩
      have walks := ref_contains_iff s.repo.commits (some tip) L
      simpa [Allows,is_ancestor,_ref_contains] using walks

theorem listing_length (server : Server H) : server.listing.length = server.commits.keys.length := by
  simp [Server.listing,Dict.keys,List.length_insertionSort]

theorem pull_decision_meets (dag : w.server.Dag) {fuel : Nat} :
    (copying env me may (w.Fetches env) w).Meets (pull_decision env fuel) (fun r t => t.repo.refs = w.repo.refs ∧ Unopposed r ∧
      (∀ d, r = .ok d → Decided env w t d) ∧
      (Answering may → w.server.commits.keys.length < fuel → ∀ branch tip, w.repo.head = .branch branch →
        w.server.refs.get? (remote_ref env branch) = some tip → ∃ d, r = .ok d ∧ d ≠ .no_remote_branch)) w := by
  refine copying_read (fun c => rfl) (fun c => trivial) fun copied => ?_
  cases head : w.repo.head with
  | detached h => exact ⟨rfl,by simp [Unopposed],by simp,by simp⟩
  | branch branch =>
    refine copying_read (fun c => rfl) (fun c => trivial) fun _ => .bind (copying_call fun c allowed _ => ⟨trivial,?_⟩)
    have linked : Linked w (World.exec env me _ c .server_available w).2 := ⟨rfl,rfl⟩
    revert linked
    generalize (World.exec env me _ c .server_available w).2 = s
    intro linked
    dsimp only
    split
    · refine copying_request (·.refs.get? (remote_ref env branch)) (fun c => rfl) (fun c => trivial) (fun copied => ?_) ?_ ?_
      · dsimp only [Meets]
        rw [linked.2]
        cases remote : w.server.refs.get? (remote_ref env branch) with
        | none =>
          refine ⟨congrArg Repo.refs linked.1,unopposed_ok _,fun d same => Except.ok.inj same ▸ .no_remote_branch,
            fun _ _ b tip here there => ?_⟩
          obtain rfl := Head.branch.inj here
          simp [remote] at there
        | some tip =>
          dsimp only
          split
          · rename_i same
            exact ⟨congrArg Repo.refs linked.1,unopposed_ok _,fun d now => Except.ok.inj now ▸ .up_to_date head remote same,
              fun _ _ _ _ _ _ => ⟨_,rfl,by simp⟩⟩
          · rename_i differ
            have aimed (h : H) (passed : w.passes (w.repo.refs.get? branch).join tip h) : w.Fetches env h :=
              ⟨branch,tip,head,remote,passed⟩
            have walks := (Walking.start w (w.repo.refs.get? branch).join tip).linked linked
            have unknown : (⟨∅,0,false⟩ : Paged H).Seen w.server := fun h data found => by simp at found
            have uncovered : (⟨∅,0,false⟩ : Paged H).Covers w.server := ⟨by simp,by simp⟩
            refine .bind ((pull_walk_meets dag (dag.tips _ tip remote) aimed unknown walks).mono fun r t ended => ?_)
            cases r with
            | error e =>
              refine ⟨ended.1,fun l R same => ended.2.1 l R (congrArg Except.error (Except.error.inj same)),by simp,
                fun answers long _ _ _ _ => ?_⟩
              obtain ⟨_,same⟩ := ended.2.2.2 answers uncovered (listing_length w.server ▸ long)
                (lt_of_le_of_lt (List.length_filter_le _ _) long)
              cases same
            | ok join_found =>
              refine .bind (ff_allowed_meets.mono ?_)
              rintro r t ⟨rfl,allowed,rfl,decides⟩
              refine ⟨ended.1,unopposed_ok _,fun d same => ?_,fun _ _ _ _ _ _ => ⟨_,rfl,by split <;> simp⟩⟩
              obtain rfl := Except.ok.inj same
              split
              · rename_i yes
                exact .fast_forward head remote differ (ended.2.2.1 join_found rfl) (decides.mp yes)
              · rename_i no
                exact .diverged head remote differ (ended.2.2.1 join_found rfl) fun allows => no (decides.mpr allows)
      · intro c t allowed silent same
        refine ⟨congrArg Repo.refs (same.1.trans linked.1),unopposed_ok _,fun d now => Except.ok.inj now ▸ .no_remote_branch,
          fun answers => ?_⟩
        exact absurd (answers _ c _ s allowed) silent
      · intro c t allowed silent same
        exact ⟨congrArg Repo.refs (same.1.trans linked.1),by simp [Unopposed],by simp,fun answers => absurd (answers _ c _ s allowed) silent⟩
    · rename_i unavailable
      refine ⟨congrArg Repo.refs linked.1,by simp [Unopposed],by simp,fun answers => ?_⟩
      simp [World.exec,answers _ c _ w allowed] at unavailable

end Walk

end AetherVault
