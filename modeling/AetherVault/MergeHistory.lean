import AetherVault.PullCompleteness
import AetherVault.MergeLaws
import AetherVault.CrashSafety

/-! What a merge sees of the history: the base that it finds among the commits that are here, and
the one that it would find among all commits there are. -/
namespace AetherVault
open Lib Hashing
open Lib.Prog (Only call forEach foldEach)
open Lib.Discipline (Meets)

/-! The base, searched for in two histories. -/

section Base

variable {H : Type} [DecidableEq H] {known : H → Prop}

/-- On nodes that both graphs know alike, with fuel enough for each, the walk ends at the same node. -/
theorem nearest_agrees {succ succ' : H → List H} {ours ours' nodes nodes' : List H} (same : ∀ h, known h → succ' h = succ h)
    (closed : Chain.ClosedStore succ known) (sides : ∀ h, known h → (h ∈ ours' ↔ h ∈ ours)) (distinct : nodes.Nodup)
    (distinct' : nodes'.Nodup) (finite : ∀ h, h ∉ nodes → succ h = []) (finite' : ∀ h, h ∉ nodes' → succ' h = [])
    (fuel fuel' : Nat) (queue visited : List H) (inside : ∀ h ∈ queue, known h)
    (enough : queue.length + Search.weight succ nodes visited ≤ fuel)
    (enough' : queue.length + Search.weight succ' nodes' visited ≤ fuel') :
    nearest succ ours fuel queue visited = nearest succ' ours' fuel' queue visited := by
  induction fuel generalizing fuel' queue visited with
  | zero =>
    obtain rfl : queue = [] := List.length_eq_zero_iff.mp (by omega)
    cases fuel' <;> rfl
  | succ fuel ih =>
    cases queue with
    | nil => cases fuel' <;> rfl
    | cons h rest =>
      simp only [List.length_cons] at enough enough'
      obtain ⟨fuel',rfl⟩ : ∃ n, fuel' = n + 1 := ⟨fuel' - 1,by omega⟩
      have here := inside h List.mem_cons_self
      have later : ∀ g ∈ rest, known g := fun g member => inside g (List.mem_cons_of_mem h member)
      unfold nearest
      by_cases old : h ∈ visited
      · rw [if_pos old,if_pos old]
        exact ih fuel' rest visited later (by omega) (by omega)
      · rw [if_neg old,if_neg old]
        by_cases hit : h ∈ ours
        · rw [if_pos hit,if_pos ((sides h here).mpr hit)]
        · rw [if_neg hit,if_neg (fun other => hit ((sides h here).mp other)),same h here]
          have expanded := Search.weight_expand succ nodes visited h distinct (finite h) old
          have expanded' := Search.weight_expand succ' nodes' visited h distinct' (finite' h) old
          rw [same h here] at expanded'
          apply ih
          · intro g member
            cases List.mem_append.mp member with
            | inl pending => exact later g pending
            | inr parent => exact closed h here g parent
          · rw [List.length_append]
            omega
          · rw [List.length_append]
            omega

theorem nearest_known {succ : H → List H} {ours : List H} (closed : Chain.ClosedStore succ known) {fuel : Nat}
    {queue visited : List H} (inside : ∀ h ∈ queue, known h) {base : H} (found : nearest succ ours fuel queue visited = some base) :
    known base := by
  induction fuel generalizing queue visited with
  | zero => contradiction
  | succ fuel ih =>
    cases queue with
    | nil => contradiction
    | cons h rest =>
      have here := inside h List.mem_cons_self
      have later : ∀ g ∈ rest, known g := fun g member => inside g (List.mem_cons_of_mem h member)
      unfold nearest at found
      split at found
      · exact ih later found
      · split at found
        · exact Option.some.inj found ▸ here
        · apply ih _ found
          intro g member
          cases List.mem_append.mp member with
          | inl pending => exact later g pending
          | inr parent => exact closed h here g parent

theorem ancestors_iff (commits : Dict H (CommitData H)) (ours h : H) :
    h ∈ Search.search (parents_of commits) (walk_fuel commits) [ours] [] ↔ Search.Reach (parents_of commits) ours h := by
  rw [Search.mem_search (parents_of commits) commits.keys commits.distinct (parents_of_absent commits) _ [ours] []
    (by simp [walk_fuel]) (by intro a member; simp at member)]
  simp

/-- Two sets of commits that agree on what both tips reach have the same merge base. -/
theorem find_merge_base_agrees {commits all : Dict H (CommitData H)} (same : ∀ h, known h → parents_of all h = parents_of commits h)
    (closed : Chain.ClosedStore (parents_of commits) known) {ours theirs : H} (mine : known ours) (other : known theirs) :
    find_merge_base commits ours theirs = find_merge_base all ours theirs := by
  have sides : ∀ h, known h → (h ∈ Search.search (parents_of all) (walk_fuel all) [ours] [] ↔
      h ∈ Search.search (parents_of commits) (walk_fuel commits) [ours] []) := by
    intro h _
    rw [ancestors_iff,ancestors_iff]
    exact Search.reach_agrees same closed mine
  apply nearest_agrees same closed sides commits.distinct all.distinct (parents_of_absent commits) (parents_of_absent all)
  · intro h member
    rw [List.mem_singleton.mp member]
    exact other
  · exact Nat.le_refl _
  · exact Nat.le_refl _

end Base

variable {H : Type} [DecidableEq H] [Hashing H] [Canonical H]

/-- All commits there are: those that are here, and those of the registry besides. -/
def World.history (w : World H) : Dict H (CommitData H) := w.repo.commits.union w.server.commits

/-- What a commit has at a path. -/
def World.entry (w : World H) (h : Option H) (path : Path) : Option (TreeEntry H) := (tree_of w.history h).get? path

/-- The base of two commits is the one that all commits give. So the merged tree has nothing that one side deleted
since and the other kept as it was, and no path is in conflict that one side did not change. -/
structure MergesRight (w : World H) (ours theirs : H) : Prop where
  base : find_merge_base w.repo.commits ours theirs = find_merge_base w.history ours theirs
  deleted : ∀ policy tree, merged_tree (tree_of w.repo.commits (find_merge_base w.repo.commits ours theirs))
      (tree_of w.repo.commits (some ours)) (tree_of w.repo.commits (some theirs)) policy = some tree →
    ∀ path, w.entry (some ours) path = none ∧ w.entry (some theirs) path = w.entry (find_merge_base w.history ours theirs) path ∨
      w.entry (some theirs) path = none ∧ w.entry (some ours) path = w.entry (find_merge_base w.history ours theirs) path →
        tree.get? path = none
  conflicts : ∀ path ∈ (three_way_tree_merge (tree_of w.repo.commits (find_merge_base w.repo.commits ours theirs))
      (tree_of w.repo.commits (some ours)) (tree_of w.repo.commits (some theirs))).2,
    w.entry (some ours) path ≠ w.entry (find_merge_base w.history ours theirs) path ∧
      w.entry (some theirs) path ≠ w.entry (find_merge_base w.history ours theirs) path

omit [Canonical H] in
theorem history_held {w : World H} {h : H} (held : w.repo.commits.contains h = true) :
    w.history.get? h = w.repo.commits.get? h := by
  obtain ⟨data,found⟩ := (Dict.contains_iff _ _).mp held
  rw [World.history,Dict.get?_union,found]
  rfl

omit [Canonical H] in
/-- A merge of commits that are here with all their ancestors sees all there is to see. -/
theorem closed_merges {w : World H} (closed : Chain.ClosedStore (parents_of w.repo.commits) fun h => w.repo.commits.contains h = true)
    {ours theirs : H} (mine : w.repo.commits.contains ours = true) (other : w.repo.commits.contains theirs = true) : MergesRight w ours theirs := by
  have same (h : H) (held : w.repo.commits.contains h = true) : parents_of w.history h = parents_of w.repo.commits h := by
    simp only [parents_of,history_held held]
  have base := find_merge_base_agrees same closed mine other
  have trees (h : H) (held : w.repo.commits.contains h = true) : tree_of w.repo.commits (some h) = tree_of w.history (some h) := by
    simp only [tree_of,Option.bind_some,history_held held]
  have base_tree : tree_of w.repo.commits (find_merge_base w.repo.commits ours theirs) =
      tree_of w.history (find_merge_base w.history ours theirs) := by
    rw [← base]
    cases found : find_merge_base w.repo.commits ours theirs with
    | none => rfl
    | some h =>
      apply trees
      apply nearest_known closed _ found
      intro g member
      rw [List.mem_singleton.mp member]
      exact other
  constructor
  · exact base
  · rw [base_tree,trees ours mine,trees theirs other]
    intro policy tree merged path gone
    apply merged_tree_decided merged
    show three_way (w.entry _ path) (w.entry _ path) (w.entry _ path) = some none
    cases gone with
    | inl ours_gone => rw [ours_gone.1,ours_gone.2,three_way_swap,three_way_theirs]
    | inr theirs_gone => rw [theirs_gone.1,theirs_gone.2,three_way_theirs]
  · rw [base_tree,trees ours mine,trees theirs other]
    intro path conflict
    have apart := (three_way_conflict _ _ _).mp ((mem_conflicts _ _ _ path).mp conflict)
    exact ⟨fun same => apart.2.1 same.symm,fun same => apart.2.2 same.symm⟩

/-! A merge makes its commit on top of what is here, and may fetch a commit first. -/

/-- The commits are still here, and more of them with their parents. -/
structure Enlarged (w t : World H) : Prop where
  kept : ∀ h, w.repo.commits.contains h = true → t.repo.commits.contains h = true
  closed : Chain.ClosedStore (parents_of t.repo.commits) fun h => t.repo.commits.contains h = true
  tips : ∀ name h, t.repo.refs.get? name = some (some h) → t.repo.commits.contains h = true

/-- Commits are written on top of what is here, and branches put on it. -/
def building (env : Env) (me : Nat) (w : World H) : Discipline (Op H) (World H) Choice where
  exec := World.exec env me
  may := at_will
  inv := Enlarged w
  rely := fun s t => t = s
  pre := fun β _ o t => match β,o with
    | _,.write_commit _ data => ∀ p ∈ data.parents, t.repo.commits.contains p = true
    | _,.write_ref _ tip => ∀ h, tip = some h → t.repo.commits.contains h = true
    | _,_ => True

section Building

variable {env : Env} {me : Nat} {w s : World H}

omit [Canonical H] in
theorem building_keeps : (building env me w).Keeps := by
  intro β c o t built allowed required
  obtain ⟨kept,closed,tips⟩ := built
  have plain (plain : Op.Plain β o) : Enlarged w (World.exec env me β c o t).2 := by
    obtain ⟨commits,refs⟩ := world_plain env me β c o t plain
    constructor
    · rw [commits]
      exact kept
    · rw [commits]
      exact closed
    · rw [commits,refs]
      exact tips
  cases o with
  | write_commit h data =>
    constructor
    · exact fun g held => Dict.contains_set _ h data (kept g held)
    · intro g held p parent
      apply Dict.contains_set
      simp only [building,World.exec,parents_of,Dict.get?_set,Dict.contains_iff] at parent held
      by_cases new : g = h
      · rw [if_pos new] at parent
        exact required p parent
      · rw [if_neg new] at parent held
        exact closed g ((Dict.contains_iff _ _).mpr held) p parent
    · exact fun name g tip => Dict.contains_set _ h data (tips name g tip)
  | write_ref name tip =>
    constructor
    · exact kept
    · exact closed
    · intro other h found
      simp only [building,World.exec,Dict.get?_set] at found
      split at found
      · exact required h (Option.some.inj found)
      · exact tips other h found
  | _ => exact plain trivial

omit [Canonical H] in
theorem building_call {β : Type} {o : Op H β} {post : Except (Failure H) β → World H → Prop}
    (reached : ∀ c, Enlarged w s → (building env me w).pre β c o s ∧
      post (.ok (World.exec env me β c o s).1) (World.exec env me β c o s).2) : (building env me w).Meets (call o) post s := by
  apply Meets.call
  intro c t same built _
  obtain rfl : t = s := same
  exact reached c built

omit [Canonical H] in
theorem building_plain {α : Type} {p : Command H α} (only : p.Only Op.Plain) : (building env me w).Meets p
    (fun _ t => t.repo.commits = s.repo.commits ∧ t.repo.refs = s.repo.refs) s := by
  have required : (building env me w).Meets p (fun _ _ => True) s :=
    Discipline.Accepts.of_only only (fun β c o t plain _ _ => by cases o <;> first | exact plain.elim | trivial) s
  have framed := required.within (D := building env me w)
    (R := fun a b => b.repo.commits = a.repo.commits ∧ b.repo.refs = a.repo.refs) only
    (fun _ _ _ first later => ⟨later.1.trans first.1,later.2.trans first.2⟩) (fun _ _ same => by rw [same]; exact ⟨rfl,rfl⟩)
    (fun _ c o t plain _ _ _ => world_plain env me _ c o t plain) ⟨rfl,rfl⟩
  exact framed.mono fun _ _ reached => reached.2

omit [Canonical H] in
theorem building_aside {β α : Type} {o : Op H β} {next : β → Command H α} {post : Except (Failure H) α → World H → Prop}
    (plain : Op.Plain β o) (later : ∀ a t, t.repo.commits = s.repo.commits → (building env me w).Meets (next a) post t) :
    (building env me w).Meets (call o >>= next) post s := by
  apply Meets.bind
  apply building_call
  intro c _
  have required : (building env me w).pre β c o s := by cases o <;> first | exact plain.elim | trivial
  exact ⟨required,later _ _ (world_plain env me β c o s plain).1⟩

omit [Canonical H] in
theorem building_read {β α : Type} {o : Op H β} {b : β} {next : β → Command H α} {post : Except (Failure H) α → World H → Prop}
    (plain : Op.Plain β o) (reads : ∀ c, World.exec env me β c o s = (b,s))
    (later : Enlarged w s → (building env me w).Meets (next b) post s) : (building env me w).Meets (call o >>= next) post s := by
  apply Meets.bind
  apply building_call
  intro c built
  have required : (building env me w).pre β c o s := by cases o <;> first | exact plain.elim | trivial
  rw [reads]
  exact ⟨required,later built⟩

omit [Canonical H] in
theorem building_with_lock {α : Type} {lock : LockName} {body : Command H α}
    (inside : ∀ t, t.repo.commits = s.repo.commits → (building env me w).Meets body (fun _ _ => True) t) :
    (building env me w).Meets (with_lock lock body) (fun _ _ => True) s := by
  have plain : Op.Plain Bool (.acquire lock : Op H Bool) := trivial
  apply building_aside plain
  intro held t same
  split
  · apply Meets.bind
    apply Meets.attempt
    apply (inside t same).mono
    intro r u _
    cases r with
    | ok a =>
      have plain : Op.Plain Unit (.release lock : Op H Unit) := trivial
      apply building_aside plain
      intro _ _ _
      trivial
    | error e =>
      have plain : Op.Plain Unit (.release lock : Op H Unit) := trivial
      apply building_aside plain
      intro _ _ _
      trivial
  · trivial

omit [Canonical H] in
theorem building_persist {h : H} {data : CommitData H} (parents : ∀ p ∈ data.parents, s.repo.commits.contains p = true)
    (ref_path remote_ref_name : Option String) (idx : Index H) : (building env me w).Meets
      (persist_commit h data ref_path remote_ref_name idx) (fun _ _ => True) s := by
  apply building_with_lock
  intro t same
  apply Meets.bind
  apply building_call
  intro c _
  refine ⟨fun p parent => ?_,?_⟩
  · rw [same]
    exact parents p parent
  have stored : (World.exec env me _ c (.write_commit h data) t).2.repo.commits.contains h = true := by
    simp [World.exec,Dict.contains]
  apply Meets.bind
  apply (building_plain ((queue_pending_push_sending h remote_ref_name).mono Op.Sending.plain)).mono
  intro r u queued
  cases r with
  | error e => trivial
  | ok _ =>
    have here : u.repo.commits.contains h = true := by
      rw [queued.1]
      exact stored
    cases ref_path with
    | some branch =>
      apply Meets.bind
      apply building_call
      intro c _
      refine ⟨fun g tip => Option.some.inj tip ▸ here,?_⟩
      have plain : (call (.save_index idx.clear_staged) : Command H Unit).Only Op.Plain := .call trivial
      exact (building_plain plain).mono fun _ _ _ => trivial
    | none =>
      have plain : Op.Plain Unit (.write_head (.detached h) : Op H Unit) := trivial
      apply building_aside plain
      intro _ v _
      have plain : (call (.save_index idx.clear_staged) : Command H Unit).Only Op.Plain := .call trivial
      exact (building_plain plain).mono fun _ _ _ => trivial

theorem building_finalize {data : CommitData H} (parents : ∀ p ∈ data.parents, s.repo.commits.contains p = true)
    (ref_path : Option String) (idx : Index H) (defer_upload : Bool) (changed_paths : Option (List Path))
    {on_persisted : Command H Unit} (plain : on_persisted.Only Op.Plain) : (building env me w).Meets
      (_finalize_commit env data ref_path idx defer_upload changed_paths on_persisted) (fun _ _ => True) s := by
  apply Meets.bind
  apply (building_persist parents ref_path _ idx).mono
  intro r t _
  cases r with
  | error e => trivial
  | ok _ =>
    have rest : (on_persisted >>= fun _ => deliver_commit (commit_hash data) data (ref_path.map (remote_ref env)) defer_upload
        changed_paths >>= fun _ => .pure (commit_hash data)).Only Op.Plain :=
      plain.bind fun _ => ((deliver_commit_sending _ data _ defer_upload changed_paths).mono Op.Sending.plain).bind fun _ => trivial
    exact (building_plain rest).mono fun _ _ _ => trivial

omit [DecidableEq H] [Hashing H] [Canonical H] in
theorem Op.Quiet.plain (β : Type) (o : Op H β) (quiet : Op.Quiet β o) : Op.Plain β o :=
  Op.Sending.plain β o (Op.Quiet.sending β o quiet)

omit [DecidableEq H] [Hashing H] [Canonical H] in
theorem Op.plain_save (idx : Index H) : Op.Plain Unit (.save_index idx) := trivial

omit [Canonical H] in
theorem materialize_tree_plain (tree : Tree H) (idx : Index H) (verify : Bool) : (_materialize_tree tree idx verify).Only Op.Plain :=
  materialize_tree_only Op.Quiet.plain Op.plain_save tree idx verify

omit [Canonical H] in
theorem building_find {h : H} (parents : s.repo.commits.contains h = true ∨
      ∀ p ∈ parents_of s.server.commits h, s.repo.commits.contains p = true) : (building env me w).Meets (find_commit h)
    (fun r t => (∀ g, s.repo.commits.contains g = true → t.repo.commits.contains g = true) ∧
      ∀ data, r = .ok (some data) → t.repo.commits.contains h = true) s := by
  have plain : Op.Plain _ (.read_commit h : Op H _) := trivial
  apply building_read plain (fun _ => rfl)
  intro _
  cases found : s.repo.commits.get? h with
  | some data => exact ⟨fun _ held => held,fun _ _ => (Dict.contains_iff _ _).mpr ⟨data,found⟩⟩
  | none =>
    have whole : ∀ p ∈ parents_of s.server.commits h, s.repo.commits.contains p = true := by
      cases parents with
      | inl held => simp [Dict.contains,found] at held
      | inr whole => exact whole
    apply Meets.bind
    apply building_call
    intro c _
    refine ⟨trivial,?_⟩
    show (building env me w).Meets (if decide (c.net = .answered) = true then _ else _) _ _
    split
    · apply Meets.bind
      apply Meets.bind
      apply building_call
      intro c _
      refine ⟨trivial,?_⟩
      simp only [World.exec,World.request]
      cases c.net with
      | refused => exact ⟨fun _ held => held,fun _ impossible => by cases impossible⟩
      | lost => exact ⟨fun _ held => held,fun _ impossible => by cases impossible⟩
      | unanswered => exact ⟨fun _ held => held,fun _ impossible => by cases impossible⟩
      | answered =>
        cases served : s.server.get_commit h with
        | none => exact ⟨fun _ held => held,fun _ impossible => by cases impossible⟩
        | some data =>
          show (building env me w).Meets (call (.write_commit h data) >>= fun _ => .pure (some data)) _ _
          apply Meets.bind
          apply building_call
          intro c _
          refine ⟨fun p parent => whole p (get_commit_parents served ▸ parent),?_⟩
          exact ⟨fun g held => Dict.contains_set _ h data held,fun _ _ => by simp [World.exec,Dict.contains]⟩
    · exact ⟨fun _ held => held,fun _ impossible => by cases impossible⟩

theorem building_merge_commits {options : MergeOptions} {name : String} {idx : Index H} {ours theirs : H}
    (mine : s.repo.commits.contains ours = true) (other : s.repo.commits.contains theirs = true) :
    (building env me w).Meets (merge_commits env options name idx ours theirs) (fun _ _ => True) s := by
  have landed {t : World H} (commits : t.repo.commits = s.repo.commits) (tree : Tree H) (idx : Index H) :
      (building env me w).Meets (fast_forward name theirs tree idx) (fun _ _ => True) t := by
    have placed : (ensure_objects_local tree >>= fun _ => _materialize_tree tree idx false).Only Op.Plain :=
      ((ensure_objects_local_quiet tree).mono Op.Quiet.plain).bind fun _ => materialize_tree_plain tree idx false
    have both : fast_forward name theirs tree idx =
        ((ensure_objects_local tree >>= fun _ => _materialize_tree tree idx false) >>= fun _ => call (.write_ref name (some theirs))) := by
      simp only [fast_forward,Prog.bind_eq,Prog.bind_assoc]
    rw [both]
    apply Meets.bind
    apply (building_plain placed).mono
    intro r u same
    cases r with
    | error e => trivial
    | ok _ =>
      apply building_call
      intro c _
      refine ⟨fun h tip => ?_,trivial⟩
      rw [same.1,commits,← Option.some.inj tip]
      exact other
  have merged {t : World H} (commits : t.repo.commits = s.repo.commits) (tree : Tree H) :
      (building env me w).Meets (merge_trees env options name idx ours theirs tree) (fun _ _ => True) t := by
    apply Meets.bind
    apply (building_plain ((ensure_objects_local_quiet tree).mono Op.Quiet.plain)).mono
    intro r u ensured
    cases r with
    | error e => trivial
    | ok _ =>
      apply Meets.bind
      apply (building_plain (materialize_tree_plain tree idx false)).mono
      intro r v placed
      cases r with
      | error e => trivial
      | ok final =>
        have plain : Op.Plain Nat (.now : Op H Nat) := trivial
        apply building_aside plain
        intro timestamp x same
        have parents : ∀ p ∈ [ours,theirs], x.repo.commits.contains p = true := by
          intro p parent
          rw [same,placed.1,ensured.1,commits]
          simp only [List.mem_cons,List.not_mem_nil,or_false] at parent
          cases parent with
          | inl is_ours => exact is_ours ▸ mine
          | inr is_theirs => exact is_theirs ▸ other
        have nothing : (.pure () : Command H Unit).Only Op.Plain := trivial
        let commit_data : CommitData H := ⟨[ours,theirs],options.message,timestamp,tree⟩
        have finalized : (building env me w).Meets (_finalize_commit env commit_data (some name) final false none (.pure ()))
            (fun _ _ => True) x := building_finalize parents (some name) final false none nothing
        apply Meets.bind
        apply finalized.mono
        intro r y _
        cases r <;> trivial
  have plain : Op.Plain _ (.load_commits : Op H _) := trivial
  apply building_aside plain
  intro commits t same
  dsimp only
  split
  · trivial
  · apply Meets.bind
    apply (building_plain ((collect_dirty_paths_quiet idx ∅).mono Op.Quiet.plain)).mono
    intro r u still
    have commits := still.1.trans same
    cases r with
    | error e => trivial
    | ok dirty =>
      dsimp only
      split
      · exact landed commits _ idx
      · split
        · trivial
        · split
          · trivial
          · split
            · trivial
            · exact merged commits _

/-- The commit that a merge would fetch has its parents here. -/
def fetches_whole (target : Target H) (w : World H) : Prop :=
  ∀ h, target = .commit h → w.repo.commits.contains h = true ∨ ∀ p ∈ parents_of w.server.commits h, w.repo.commits.contains p = true

omit [Canonical H] in
theorem building_target {target : Target H} (whole : fetches_whole target s) : (building env me w).Meets (merge_target target)
    (fun r t => (∀ g, s.repo.commits.contains g = true → t.repo.commits.contains g = true) ∧
      ∀ theirs, r = .ok (some theirs) → t.repo.commits.contains theirs = true) s := by
  cases target with
  | branch name =>
    have plain : Op.Plain _ (.read_ref name : Op H _) := trivial
    apply building_read plain (fun _ => rfl)
    intro built
    cases found : s.repo.refs.get? name with
    | none => exact ⟨fun _ held => held,fun _ impossible => by cases impossible⟩
    | some tip =>
      refine ⟨fun _ held => held,fun theirs same => built.tips name theirs ?_⟩
      rw [found,Except.ok.inj same]
  | commit h =>
    apply Meets.bind
    apply (building_find (whole h rfl)).mono
    intro r t reached
    cases r with
    | error e => exact ⟨reached.1,fun _ impossible => by cases impossible⟩
    | ok found =>
      refine ⟨reached.1,fun theirs same => ?_⟩
      cases found with
      | none => cases same
      | some data =>
        cases same
        exact reached.2 data rfl

theorem building_merge {target : Target H} {options : MergeOptions} (whole : fetches_whole target s) :
    (building env me w).Meets (merge env target options) (fun _ _ => True) s := by
  have index : Op.Plain _ (.load_index : Op H _) := trivial
  have head : Op.Plain _ (.read_head : Op H _) := trivial
  apply building_read index (fun _ => rfl)
  intro _
  apply building_read head (fun _ => rfl)
  intro _
  cases s.repo.head with
  | detached h => trivial
  | branch name =>
    have plain : Op.Plain _ (.read_ref name : Op H _) := trivial
    apply building_read plain (fun _ => rfl)
    intro built
    cases found : s.repo.refs.get? name with
    | none => trivial
    | some tip =>
      cases tip with
      | none => trivial
      | some ours =>
        have mine := built.tips name ours found
        apply Meets.bind
        apply (building_target whole).mono
        intro r t resolved
        cases r with
        | error e => trivial
        | ok found =>
          cases found with
          | none => trivial
          | some theirs =>
            have other := resolved.2 theirs rfl
            dsimp only
            split
            · trivial
            · apply Meets.bind
              apply (building_find (Or.inl other)).mono
              intro r u again
              cases r with
              | error e => trivial
              | ok _ => exact building_merge_commits (again.1 ours (resolved.1 ours mine)) (again.1 theirs other)

omit [Canonical H] in
theorem building_steps {α : Type} {p rest : Command H α} {t : World H} {post : Except (Failure H) α → World H → Prop}
    (rooted : Rooted w) (cut : (alone env me at_will).Steps (p,w) (rest,t)) (met : (building env me w).Meets p post w) : Enlarged w t := by
  have same : (building env me w).exec = (alone env me at_will).exec := rfl
  have many : (building env me w).Steps (p,w) (rest,t) := cut.of_same same (fun _ _ _ _ _ => trivial)
  exact (Meets.steps building_keeps (fun _ => rfl) many ⟨fun _ held => held,rooted.closed,rooted.tips⟩ met).1

omit [Canonical H] in
theorem building_runs {α : Type} {p : Command H α} {r : Except (Failure H) α} {t : World H}
    {post : Except (Failure H) α → World H → Prop} (built : Enlarged w s) (ran : (alone env me at_will).Runs p s r t)
    (met : (building env me w).Meets p post s) : Enlarged w t ∧ post r t := by
  have same : (building env me w).exec = (alone env me at_will).exec := rfl
  have runs : (building env me w).Runs p s r t := Discipline.Steps.of_same same (fun _ _ _ _ _ => trivial) ran
  exact Meets.runs building_keeps (fun _ => rfl) runs built met

end Building

/-! Runs of all that adds commits. -/

/-- A pull or a clone, or what happens elsewhere; a merge, run to its end or cut short; or commits made on top
of what is here. -/
inductive Growth (env : Env) (me : Nat) (pulled cloned : World H → World H → Prop) (merged : Target H → World H → Prop) :
    World H → World H → Prop
  | sync {w t : World H} (step : Sync env me pulled cloned w t) : Growth env me pulled cloned merged w t
  | merge {w t : World H} {rest : Command H Unit} (target : Target H) (options : MergeOptions)
      (cut : (alone env me at_will).Steps (merge env target options,w) (rest,t)) (allowed : merged target w)
      (dag : t.server.Dag) : Growth env me pulled cloned merged w t
  | commit {w t : World H} (dag : t.server.Dag)
      (kept : ∀ h, w.repo.commits.contains h = true → t.repo.commits.contains h = true)
      (grown : ∀ h data, t.repo.commits.get? h = some data →
        w.repo.commits.get? h = some data ∨ ∀ p ∈ data.parents, t.repo.commits.contains p = true)
      (tips : ∀ name h, t.repo.refs.get? name = some (some h) → t.repo.commits.contains h = true) :
      Growth env me pulled cloned merged w t

theorem Growth.rooted {env : Env} {me : Nat} {w t : World H} (step : Growth env me (pulls_whole env) clones_whole fetches_whole w t)
    (rooted : Rooted w) : Rooted t := by
  cases step with
  | sync step => exact step.rooted rooted
  | merge target options cut allowed dag =>
    have built := building_steps rooted cut (building_merge allowed)
    exact ⟨dag,built.closed,built.tips⟩
  | commit dag kept grown tips =>
    refine ⟨dag,fun h held p parent => ?_,tips⟩
    obtain ⟨data,found⟩ := (Dict.contains_iff _ _).mp held
    have named : p ∈ data.parents := by simpa only [parents_of,found] using parent
    cases grown h data found with
    | inl old =>
      apply kept
      apply rooted.closed h ((Dict.contains_iff _ _).mpr ⟨data,old⟩)
      simpa only [parents_of,old] using named
    | inr whole => exact whole p named

/-- In every run in which each clone, pull and fetch brings commits with their parents, a merge finds the base that
all commits give, and merges as that base has it. -/
theorem merge_sees_history (env : Env) (me : Nat) (start w : World H) (rooted : Rooted start)
    (run : Relation.ReflTransGen (Growth env me (pulls_whole env) clones_whole fetches_whole) start w) :
    Rooted w ∧ ∀ target name ours theirs u v found, w.repo.refs.get? name = some (some ours) →
      (alone env me at_will).Runs (merge_target target) w (.ok (some theirs)) u →
      (alone env me at_will).Runs (find_commit theirs) u (.ok found) v → fetches_whole target w → MergesRight v ours theirs := by
  have now : Rooted w := by
    induction run with
    | refl => exact rooted
    | tail _ step ih => exact step.rooted ih
  refine ⟨now,?_⟩
  intro target name ours theirs u v found tip resolved read whole
  have start : Enlarged w w := ⟨fun _ held => held,now.closed,now.tips⟩
  obtain ⟨built,-,other⟩ := building_runs start resolved (building_target whole)
  obtain ⟨final,still,-⟩ := building_runs built read (building_find (Or.inl (other theirs rfl)))
  exact closed_merges final.closed (final.kept ours (now.tips name ours tip)) (still theirs (other theirs rfl))

/-! A merge of a commit that is named by its hash. -/

def resolving (w : World Name) (h : Name) : Except (Failure Name) (Option Name) × World Name :=
  (merge_target (.commit h)).run (World.exec desk 0) (fun _ => answered) w

def finding (w : World Name) (h : Name) : Except (Failure Name) (Option (CommitData Name)) × World Name :=
  (find_commit h).run (World.exec desk 0) (fun _ => answered) w

theorem resolving_runs (w : World Name) (h : Name) :
    (alone desk 0 at_will).Runs (merge_target (.commit h)) w (resolving w h).1 (resolving w h).2 :=
  Discipline.runs_of_run (fun _ => answered) (fun _ _ _ => true) (fun _ _ _ _ => trivial) _ _ (Prog.checks_true _ _ _ _)

theorem finding_runs (w : World Name) (h : Name) :
    (alone desk 0 at_will).Runs (find_commit h) w (finding w h).1 (finding w h).2 :=
  Discipline.runs_of_run (fun _ => answered) (fun _ _ _ => true) (fun _ _ _ _ => trivial) _ _ (Prog.checks_true _ _ _ _)

theorem early_rooted : Rooted early := ((whole_iff early).mp early_whole).1

theorem merge_sees_history_fetched : ∃ v, v.repo.commits.contains (commit_hash next_change) = true ∧
    MergesRight v (commit_hash mine) (commit_hash next_change) := by
  have reached : Relation.ReflTransGen (Sync desk 0 (pulls_whole desk) clones_whole) early forward :=
    grown_reached cloned_whole forward_dag (by decide)
  have resolved := resolving_runs forward (commit_hash next_change)
  have named : (resolving forward (commit_hash next_change)).1 = .ok (some (commit_hash next_change)) := by decide
  rw [named] at resolved
  have read := finding_runs (resolving forward (commit_hash next_change)).2 (commit_hash next_change)
  have there : (finding (resolving forward (commit_hash next_change)).2 (commit_hash next_change)).1 = .ok (some next_change) := by decide
  rw [there] at read
  have sees := merge_sees_history desk 0 early forward early_rooted (Relation.ReflTransGen.mono (fun _ _ step => .sync step) _ _ reached)
  refine ⟨_,by decide,sees.2 _ "main" _ _ _ _ _ (by decide) resolved read ?_⟩
  intro h same
  obtain rfl := Target.commit.inj same
  exact Or.inr (by decide)

def beyond : CommitData Name := change [commit_hash theirs] "e" 5

def apart : World Name := grown [base,mine,theirs,beyond] (commit_hash mine)

/-- A merge fetches its target alone: the commit in between is not here, and no base is found. -/
theorem base_missed : ∃ w u v : World Name, ∃ found,
    Relation.ReflTransGen (Growth desk 0 (fun _ _ => True) (fun _ _ => True) (fun _ _ => True)) early w ∧ Rooted early ∧
      w.repo.refs.get? "main" = some (some (commit_hash mine)) ∧
      (alone desk 0 at_will).Runs (merge_target (.commit (commit_hash beyond))) w (.ok (some (commit_hash beyond))) u ∧
      (alone desk 0 at_will).Runs (find_commit (commit_hash beyond)) u (.ok found) v ∧
      find_merge_base v.repo.commits (commit_hash mine) (commit_hash beyond) = none ∧
      find_merge_base v.history (commit_hash mine) (commit_hash beyond) = some (commit_hash base) := by
  have dag : apart.server.Dag := registry_dag (by decide) (by decide)
  have reached : Relation.ReflTransGen (Sync desk 0 (fun _ _ => True) (fun _ _ => True)) early apart :=
    grown_reached trivial dag (by decide)
  have resolved := resolving_runs apart (commit_hash beyond)
  have named : (resolving apart (commit_hash beyond)).1 = .ok (some (commit_hash beyond)) := by decide
  rw [named] at resolved
  have read := finding_runs (resolving apart (commit_hash beyond)).2 (commit_hash beyond)
  have there : (finding (resolving apart (commit_hash beyond)).2 (commit_hash beyond)).1 = .ok (some beyond) := by decide
  rw [there] at read
  exact ⟨apart,_,_,_,Relation.ReflTransGen.mono (fun _ _ step => .sync step) _ _ reached,early_rooted,by decide,resolved,read,by decide,by decide⟩

end AetherVault
