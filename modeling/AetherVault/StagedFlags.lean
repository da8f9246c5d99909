import AetherVault.Solo

/-! The staged flags of the index beside HEAD, over everything one user does. A path whose flag
is down is taken to be what HEAD has; what puts a flag down without looking at HEAD is named
command by command. -/
namespace AetherVault.Solo
open Lib Hashing
open Lib.Prog (Only call forEach foldEach)
open Lib.Discipline (Meets)

variable {H : Type} [DecidableEq H] [Hashing H]

/-- The index says of every path whether it differs from HEAD. -/
structure Tracks (head : Tree H) (idx : Index H) : Prop where
  unstaged : ∀ path e, idx.entries.get? path = some e → e.staged = false →
    (head.get? path).map recorded = some (recorded e.tree_entry)
  missing : ∀ path, head.contains path = true → idx.entries.contains path = false → path ∈ idx.removed

omit [DecidableEq H] [Hashing H] in
/-- One path is written; the others stay as they are. -/
theorem Tracks.change {head : Tree H} {idx next : Index H} (tracks : Tracks head idx) (path : Path)
    (entries : ∀ other, other ≠ path → next.entries.get? other = idx.entries.get? other)
    (removed : ∀ other ∈ idx.removed, other ≠ path → other ∈ next.removed)
    (unstaged : ∀ e, next.entries.get? path = some e → e.staged = false →
      (head.get? path).map recorded = some (recorded e.tree_entry))
    (missing : head.contains path = true → next.entries.contains path = false → path ∈ next.removed) :
    Tracks head next where
  unstaged := by
    intro other e found
    by_cases here : other = path
    · subst other
      exact unstaged e found
    · rw [entries other here] at found
      exact tracks.unstaged other e found
  missing := by
    intro other held absent
    by_cases here : other = path
    · subst other
      exact missing held absent
    · rw [Dict.contains,entries other here] at absent
      exact removed other (tracks.missing other held absent) here

omit [DecidableEq H] [Hashing H] in
theorem Tracks.put {head : Tree H} {idx next : Index H} (tracks : Tracks head idx) (path : Path) (e : IndexEntry H)
    (entries : ∀ other, next.entries.get? other = if other = path then some e else idx.entries.get? other)
    (removed : ∀ other ∈ idx.removed, other ≠ path → other ∈ next.removed)
    (right : e.staged = false → (head.get? path).map recorded = some (recorded e.tree_entry)) : Tracks head next := by
  refine tracks.change path (fun other away => by rw [entries,if_neg away]) removed ?_ ?_
  · intro now found
    rw [entries,if_pos rfl] at found
    obtain rfl := Option.some.inj found
    exact right
  · intro _ absent
    simp [Dict.contains,entries] at absent

omit [DecidableEq H] [Hashing H] in
theorem Tracks.drop {head : Tree H} {idx next : Index H} (tracks : Tracks head idx) (path : Path)
    (entries : next.entries = idx.entries.erase path)
    (removed : ∀ other ∈ idx.removed, other ≠ path → other ∈ next.removed)
    (right : head.contains path = true → path ∈ next.removed) : Tracks head next := by
  refine tracks.change path (fun other away => by rw [entries,Dict.get?_erase,if_neg away]) removed ?_ fun held _ => right held
  intro now found
  rw [entries,Dict.get?_erase,if_pos rfl] at found
  contradiction

omit [Hashing H] in
/-- With nothing staged and nothing removed, the index is HEAD. -/
theorem Tracks.agrees {head : Tree H} {idx : Index H} (tracks : Tracks head idx)
    (nothing : idx.get_staged_entries.entries = [] ∧ idx.removed = []) (path : Path) :
    (idx.tree.get? path).map recorded = (head.get? path).map recorded := by
  have entries : idx.tree.get? path = (idx.entries.get? path).map fun e => e.tree_entry := by simp [Index.tree]
  rw [entries]
  cases found : idx.entries.get? path with
  | some e =>
    have clear : e.staged = false := by
      by_contra staged
      have member : (path,e) ∈ idx.get_staged_entries.entries := by
        rw [Dict.mem_entries,Index.get_staged_entries,Dict.get?_filter,found]
        simpa [Option.filter] using staged
      simp [nothing.1] at member
    exact (tracks.unstaged path e found clear).symm
  | none =>
    cases held : head.get? path with
    | none => rfl
    | some t =>
      have gone := tracks.missing path (by simp [Dict.contains,held]) (by simp [Dict.contains,found])
      simp [nothing.2] at gone

omit [DecidableEq H] [Hashing H] in
theorem Mirrors.tracks {tree : Tree H} {idx : Index H} (mirrors : Mirrors tree idx) : Tracks tree idx where
  unstaged path e found _ := mirrors.entries path e found
  missing path held absent := by
    rw [mirrors.paths path held] at absent
    contradiction

/-- HEAD's commit has its file, the index tracks its tree, and no one else is in a lock. -/
structure Good (me : Nat) (w : World H) : Prop where
  tracks : Tracks (head_tree w.repo) w.repo.index
  present : ∀ h, at_head w.repo = some h → w.repo.commits.contains h = true
  unlocked : ∀ lock, w.Unlocked me lock

theorem Good.aside {me : Nat} {w t : World H} (good : Good me w) (aside : Aside me w t) : Good me t where
  tracks := by
    rw [aside.head_tree,aside.index]
    exact good.tracks
  present h here := by
    rw [aside.at_head] at here
    rw [aside.commits]
    exact good.present h here
  unlocked lock := aside.unlocked lock (good.unlocked lock)

theorem Good.save {me : Nat} {w t : World H} {idx : Index H} (good : Good me w) (aside : Aside me w t)
    (tracks : Tracks (head_tree w.repo) idx) : Good me (with_index t idx) where
  tracks := by
    rw [← aside.head_tree] at tracks
    exact tracks
  present := (good.aside aside).present
  unlocked := (good.aside aside).unlocked

/-- HEAD is moved to a commit whose tree the index has just been made of. -/
theorem Good.moved (h : H) (data : CommitData H) {t : World H} (tip : at_head t.repo = some h)
    (held : t.repo.commits.get? h = some data) (mirrors : Mirrors data.tree t.repo.index)
    (unlocked : ∀ lock, t.Unlocked me lock) : Good me t where
  tracks := by
    have tree : head_tree t.repo = data.tree := by simp [head_tree,tip,tree_of,held]
    rw [tree]
    exact mirrors.tracks
  present g here := by
    obtain rfl : h = g := Option.some.inj (tip.symm.trans here)
    exact (Dict.contains_iff _ _).mpr ⟨data,held⟩
  unlocked := unlocked

theorem Good.fetched {h : H} {w t : World H} (good : Good me w) (fetched : Fetched me h w t) : Good me t where
  tracks := by
    have tree : head_tree t.repo = head_tree w.repo := by
      simp only [head_tree,tree_of,fetched.at_head]
      cases tip : at_head w.repo with
      | none => rfl
      | some g =>
        obtain ⟨data,held⟩ := (Dict.contains_iff _ _).mp (good.present g tip)
        simp [held,fetched.keeps held]
    rw [tree,fetched.index]
    exact good.tracks
  present g here := by
    rw [fetched.at_head] at here
    obtain ⟨data,held⟩ := (Dict.contains_iff _ _).mp (good.present g here)
    exact (Dict.contains_iff _ _).mpr ⟨data,fetched.keeps held⟩
  unlocked lock := fetched.unlocked lock (good.unlocked lock)

theorem Good.with_stashes (good : Good me w) (stashes : List (Nat × List (StashEntry H))) :
    Good me {w with repo := {w.repo with stashes := stashes}} := ⟨good.tracks,good.present,good.unlocked⟩

section Alone

variable {env : Env} {me : Nat} {may : ∀ β, Choice → Op H β → World H → Prop} {w : World H}

theorem good_sending {α : Type} {p : Command H α} (only : p.Only Op.Sending) (good : Good me w) :
    (alone env me may).Meets p (fun _ t => Good me t) w :=
  (sending_meets only (.refl me w)).mono fun _ _ aside => good.aside aside

/-! `unstage` and `rm` -/

/-- The paths that `unstage` reverts. -/
def unstaging (idx : Index H) (paths : List Path) : List Path :=
  let staged := idx.get_staged_entries
  if paths = [] then staged.keys else paths.filter (staged.contains ·)

/-- What goes back to HEAD loses no chunks. -/
def UnstagesHead (repo : Repo H) (paths : List Path) : Prop :=
  ∀ path ∈ unstaging repo.index paths, Readable (head_tree repo) ∧ ∀ e, (head_tree repo).get? path = some e → e.chunks = []

theorem unstage_good (good : Good me w) {paths : List Path} (careful : UnstagesHead w.repo paths) :
    (alone env me may).Meets (unstage paths) (fun _ t => Good me t) w := by
  refine locked_meets (good.unlocked .repo) fun t aside _ => ?_
  have here := good.aside aside
  refine alone_read (fun c => rfl) ?_
  rw [aside.index]
  show (alone env me may).Meets (if unstaging w.repo.index paths = [] then _ else _) _ t
  split
  · exact fun v aside => here.aside aside
  · rename_i some_path
    obtain ⟨first,member⟩ := List.exists_mem_of_ne_nil _ some_path
    refine .bind (resolve_head_tree_alone.mono ?_)
    rintro r u ⟨rfl,read⟩
    cases r with
    | error e => exact fun v aside => here.aside aside
    | ok tree =>
      obtain rfl := read tree rfl (aside.head_tree ▸ (careful first member).1)
      rw [aside.head_tree]
      refine .bind (.foldEach (J := fun rest idx v => v = u ∧ (∀ path ∈ rest, path ∈ unstaging w.repo.index paths) ∧
        Tracks (head_tree w.repo) idx) _ _ ⟨rfl,fun path member => member,good.tracks⟩ ?_ ?_)
      · rintro path rest idx v ⟨rfl,within,tracks⟩
        have later : ∀ other ∈ rest, other ∈ unstaging w.repo.index paths := fun other member =>
          within other (List.mem_cons_of_mem _ member)
        unfold unstage_path
        split
        · exact fun v aside => here.aside aside
        · cases found : (head_tree w.repo).get? path with
          | none =>
            refine ⟨rfl,later,tracks.drop path rfl (fun other member _ => member) fun held => ?_⟩
            simp [Dict.contains,found] at held
          | some e =>
            refine ⟨rfl,later,tracks.put path (unstaged_entry path e) (fun other => Dict.get?_set _ _ _ _)
              (fun other member _ => member) fun _ => ?_⟩
            have bare := (careful path (within path (by simp))).2 e found
            simp [found,recorded,unstaged_entry,IndexEntry.tree_entry,bare]
      · rintro idx v ⟨rfl,-,tracks⟩
        refine alone_call fun c _ z after => ?_
        rw [← aside.head_tree] at tracks
        exact (here.save (.refl me v) tracks).aside after

omit [DecidableEq H] [Hashing H] in
theorem stage_removal_tracks {head : Tree H} {idx : Index H} (tracks : Tracks head idx) (path : Path) :
    Tracks head (idx.stage_removal path) := by
  have removed : path ∈ (idx.stage_removal path).removed ∧ ∀ other ∈ idx.removed, other ∈ (idx.stage_removal path).removed := by
    unfold Index.stage_removal
    by_cases before : path ∈ idx.removed <;> simp_all
  exact tracks.drop path rfl (fun other member _ => removed.2 other member) fun _ => removed.1

theorem rm_good (good : Good me w) (paths : List Path) (cached : Bool) :
    (alone env me may).Meets (rm paths cached) (fun _ t => Good me t) w := by
  refine locked_meets (good.unlocked .repo) fun t aside _ => ?_
  have here := good.aside aside
  refine alone_read (fun c => rfl) ?_
  split
  · exact fun v aside => here.aside aside
  · have deleting (path : Path) : Only Op.Sending (if cached then .pure () else call (.remove_file path) : Command H Unit) := by
      split
      · trivial
      · exact .call trivial
    refine .bind ((sending_meets (Only.forEach deleting _) (.refl me t)).mono ?_)
    intro r u deleted
    cases r with
    | error e => exact fun v aside => (here.aside deleted).aside aside
    | ok _ =>
      refine alone_call fun c _ v after => ?_
      refine (here.save deleted ?_).aside after
      generalize (paths.flatMap (tracked_below t.repo.index)).dedup = selected
      have all : ∀ idx, Tracks (head_tree t.repo) idx → Tracks (head_tree t.repo) (selected.foldl Index.stage_removal idx) := by
        induction selected with
        | nil => exact fun idx tracks => tracks
        | cons path rest ih => exact fun idx tracks => ih _ (stage_removal_tracks tracks path)
      exact all _ here.tracks

/-! `add`: what is staged does not depend on what the store holds. -/

def staged_record (result : StageResult H) : Recorded H := ⟨.sha result.hash,result.file_type,result.layers,result.chunks⟩

theorem split_layers_parts (env : StageEnv) (objects : Objects H) (file : WorkFile) (file_type : FileType) (rel_path : Path)
    (attr_flags : List String) (large : file_type = .artifact ∧ (file.size : Int) > env.threshold_bytes) :
    (split_layers env objects file rel_path attr_flags).2.2 =
      ((layer_split env file rel_path file_type attr_flags).map fun ranges => ranges.map (LayerSpec.part file.data.bytes)).getD [] := by
  obtain ⟨blobs,-,uncut | ⟨ranges,hash,cut,-,-,-,result⟩⟩ := split_layers_eq objects rel_path attr_flags large
  · rw [uncut.1,uncut.2]
    rfl
  · rw [cut,result]
    rfl

theorem split_chunks_parts (env : StageEnv) (objects : Objects H) (file : WorkFile) (rel_path : Path) (attr_flags : List String) :
    (split_chunks env objects file rel_path attr_flags).2.2 =
      if cdc_eligible env rel_path attr_flags then chunksOf 0 (file_pieces file) else [] := by
  have nonempty : file_pieces file ≠ [] := pieces_nonempty _ _ _
  have legacy : (chunk_and_hash_file_core file.data {} : Except String (List (Chunk H))) =
      .ok (chunksOf 0 (file_pieces file)) := chunk_and_hash_file_core_ok _ _ default_sizes_valid
  unfold split_chunks
  rw [fused_chunks_eq]
  split
  · by_cases fused : env.fused = true
    · simp [fused,chunksOf_nonempty 0 nonempty]
    · simp only [fused,Bool.false_eq_true,if_false,if_true,legacy]
  · rfl

theorem stage_record_eq (env : StageEnv) (objects other : Objects H) (file : WorkFile) (rel_path : Path) (file_type : FileType)
    (existing : Option (IndexEntry H)) (attr_flags : List String) :
    (_compute_stage_result env objects file rel_path file_type existing attr_flags).2.map staged_record =
      (_compute_stage_result env other file rel_path file_type existing attr_flags).2.map staged_record := by
  have hashed (objects : Objects H) (result : StageResult H)
      (staged : (_compute_stage_result env objects file rel_path file_type existing attr_flags).2 = some result) :
      result.hash = sha256 file.data.bytes := by
    obtain ⟨_,_,_,_,_,_,_,hash,_⟩ := _compute_stage_result_shape staged
    exact hash
  have one := hashed objects
  have two := hashed other
  unfold _compute_stage_result at one two ⊢
  split
  · rfl
  · rename_i fresh
    rw [if_neg fresh] at one two
    split
    · rename_i large
      rw [if_pos large] at one two
      have layers (objects : Objects H) := split_layers_parts env objects file file_type rel_path attr_flags large
      have same : (split_layers env objects file rel_path attr_flags).2.2 = (split_layers env other file rel_path attr_flags).2.2 := by
        rw [layers,layers]
      have hash_one := one _ rfl
      have hash_two := two _ rfl
      dsimp only at hash_one hash_two ⊢
      simp only [Option.map_some,staged_record]
      rw [hash_one,hash_two]
      simp only [same]
      by_cases uncut : (split_layers env other file rel_path attr_flags).2.2 = []
      · simp only [uncut,if_true,split_chunks_parts]
      · simp only [uncut,if_false]
    · rfl

def staging (env : Env) (repo : Repo H) (path : Path) : Option (StageResult H) :=
  (repo.files.get? path).bind fun file => (_compute_stage_result env.staging repo.objects file path (Index.classify_file path)
    (repo.index.entries.get? path) (env.flags_for path)).2

/-- A path that is staged with its flag down, because the index has this content or because it comes a second time. -/
def AddsHead (env : Env) (repo : Repo H) (files_to_process : List Path) : Prop :=
  ∀ path ∈ files_to_process, ∀ result, staging env repo path = some result →
    repo.index.changed path (.sha result.hash) = false ∨ 2 ≤ files_to_process.count path →
      ((head_tree repo).get? path).map recorded = some (staged_record result)

/-- The work of `add`, with the index it was selected from. -/
structure Selected (env : Env) (idx : Index H) (seen : List Path) (work : List (Work H)) : Prop where
  listed : (work.map (·.rel_path)).Sublist seen
  as_is : ∀ item ∈ work, item.file_type = Index.classify_file item.rel_path ∧
    item.existing_entry = idx.entries.get? item.rel_path ∧ item.attr_flags = env.flags_for item.rel_path

theorem select_work_alone (files_to_process : List Path) (idx : Index H) :
    (alone env me may).Meets (foldEach (select_work env idx) files_to_process [])
      (fun r t => t = w ∧ ∃ work, r = .ok work ∧ Selected env idx files_to_process work) w := by
  refine .foldEach (J := fun rest work t => t = w ∧ ∃ seen, files_to_process = seen ++ rest ∧ Selected env idx seen work) _ _
    ⟨rfl,[],rfl,by simp,by simp⟩ ?_ ?_
  · rintro path rest work t ⟨rfl,seen,rfl,selected⟩
    have passed : Selected env idx (seen ++ [path]) work := ⟨selected.listed.trans (List.sublist_append_left _ _),selected.as_is⟩
    refine alone_read (fun c => rfl) ?_
    cases t.repo.files.get? path with
    | none => exact ⟨rfl,seen ++ [path],by simp,passed⟩
    | some file =>
      dsimp only
      split
      · exact ⟨rfl,seen ++ [path],by simp,passed⟩
      · refine ⟨rfl,seen ++ [path],by simp,?_,?_⟩
        · rw [List.map_append]
          exact selected.listed.append (.refl _)
        · intro item member
          rcases List.mem_append.mp member with early | last
          · exact selected.as_is item early
          · rw [List.mem_singleton.mp last]
            exact ⟨rfl,rfl,rfl⟩
  · rintro work t ⟨rfl,seen,whole,selected⟩
    rw [List.append_nil] at whole
    exact ⟨rfl,work,rfl,whole ▸ selected⟩

omit [Hashing H] in
theorem apply_stage_result_tracks {head : Tree H} {idx : Index H} (tracks : Tracks head idx) (result : StageResult H)
    (right : idx.changed result.rel_path (.sha result.hash) = false →
      (head.get? result.rel_path).map recorded = some (staged_record result)) : Tracks head (apply_stage_result idx result) :=
  tracks.put result.rel_path _ (apply_stage_result_get idx result)
    (fun _ member away => (List.mem_erase_of_ne away).mpr member) right

/-- What the first items of the work have made of the index. -/
structure Applied (head : Tree H) (idx : Index H) (done : List (Work H)) (staged : Index H × List (StageResult H)) : Prop where
  tracks : Tracks head staged.1
  held : ∀ item ∈ staged.2, staged.1.entries.contains item.rel_path = true
  untouched : ∀ path, path ∉ done.map (·.rel_path) → staged.1.entries.get? path = idx.entries.get? path

theorem stage_work_alone {files_to_process : List Path} {work : List (Work H)} {idx : Index H} {s : World H}
    (good : Good me w) (same : s = w) (at_index : idx = w.repo.index) (careful : AddsHead env w.repo files_to_process)
    (selected : Selected env idx files_to_process work) :
    (alone env me may).Meets (foldEach stage_work work (idx,[])) (fun r t => Aside me w t ∧ ∀ staged, r = .ok staged →
      Tracks (head_tree w.repo) staged.1 ∧ ∀ item ∈ staged.2, staged.1.entries.contains item.rel_path = true) s := by
  subst same at_index
  refine .foldEach (J := fun rest staged t => (Aside me s t ∧ t.repo.files = s.repo.files) ∧ ∃ done, work = done ++ rest ∧
    Applied (head_tree s.repo) s.repo.index done staged) _ _ ⟨⟨.refl me s,rfl⟩,[],rfl,good.tracks,by simp,by simp⟩ ?_ ?_
  · rintro item rest staged t ⟨⟨aside,files⟩,done,rfl,applied⟩
    obtain ⟨type,existing,flags⟩ := selected.as_is item (by simp)
    refine .bind (alone_call fun c _ => ?_)
    have moved := aside.trans (exec_sending env me _ c (.stage item.rel_path item.file_type item.existing_entry item.attr_flags) t trivial)
    have answer : World.exec env me _ c (.stage item.rel_path item.file_type item.existing_entry item.attr_flags) t =
      t.stage env item.rel_path item.file_type item.existing_entry item.attr_flags := rfl
    have kept := (exec_fetching env me _ c (.stage item.rel_path item.file_type item.existing_entry item.attr_flags) t trivial).trans files
    rw [answer] at moved kept ⊢
    have on (next : Index H × List (StageResult H)) (applied : Applied (head_tree s.repo) s.repo.index (done ++ [item]) next) :
        ∃ before, done ++ item::rest = before ++ rest ∧ Applied (head_tree s.repo) s.repo.index before next :=
      ⟨done ++ [item],by simp,applied⟩
    have same : Applied (head_tree s.repo) s.repo.index (done ++ [item]) staged :=
      ⟨applied.tracks,applied.held,fun path outside => applied.untouched path fun member => outside (by simp_all)⟩
    unfold World.stage at moved kept ⊢
    rw [files] at moved kept ⊢
    cases found : s.repo.files.get? item.rel_path with
    | none => exact ⟨by simpa [found] using moved,fun staged impossible => by contradiction⟩
    | some file =>
      rw [found] at moved kept
      dsimp only at moved kept ⊢
      cases made : (_compute_stage_result env.staging t.repo.objects file item.rel_path item.file_type item.existing_entry
          item.attr_flags).2 with
      | none => exact ⟨⟨moved,kept⟩,on staged same⟩
      | some result =>
        obtain ⟨_,_,_,_,_,_,path,-⟩ := _compute_stage_result_shape made
        refine ⟨⟨moved,kept⟩,on _ ⟨apply_stage_result_tracks applied.tracks result ?_,?_,?_⟩⟩
        · intro lowered
          have again := stage_record_eq env.staging t.repo.objects s.repo.objects file item.rel_path item.file_type
            item.existing_entry item.attr_flags
          rw [made] at again
          obtain ⟨first,staged_first,same_record⟩ := Option.map_eq_some_iff.mp again.symm
          have same_hash : Digest.sha first.hash = Digest.sha result.hash := congrArg Recorded.hash same_record
          rw [← same_record,path]
          refine careful item.rel_path (selected.listed.subset (by simp)) first ?_ ?_
          · rw [staging,found,Option.bind_some,← type,← existing,← flags]
            exact staged_first
          · rw [same_hash,← path]
            by_cases earlier : item.rel_path ∈ done.map (·.rel_path)
            · right
              refine le_trans ?_ (selected.listed.count_le _)
              rw [path,List.map_append,List.map_cons,List.count_append,List.count_cons_self]
              have := List.count_pos_iff.mpr earlier
              omega
            · left
              rw [Index.changed,path,← applied.untouched item.rel_path earlier,← path]
              exact lowered
        · intro other member
          rw [Dict.contains,apply_stage_result_get]
          split
          · rfl
          · rename_i away
            rcases List.mem_append.mp member with early | last
            · exact applied.held other early
            · exact absurd (by rw [List.mem_singleton.mp last]) away
        · intro other outside
          rw [List.map_append,List.mem_append,not_or] at outside
          rw [apply_stage_result_get,if_neg (by rw [path]; simpa using outside.2)]
          exact applied.untouched other outside.1
  · rintro staged t ⟨⟨aside,-⟩,done,-,applied⟩
    exact ⟨aside,fun _ ended => by
      obtain rfl := Except.ok.inj ended
      exact ⟨applied.tracks,applied.held⟩⟩

omit [Hashing H] in
theorem merge_staged_tracks {head : Tree H} {idx current : Index H} (staged : Tracks head idx) (tracks : Tracks head current)
    {item : StageResult H} (held : idx.entries.contains item.rel_path = true) : Tracks head (merge_staged idx current item) := by
  obtain ⟨e,found⟩ := (Dict.contains_iff _ _).mp held
  refine tracks.put item.rel_path e ?_ ?_ (staged.unstaged item.rel_path e found)
  · intro _
    simp only [merge_staged,found,Index.add_entry_entries,Dict.get?_set]
    split <;> rfl
  · intro other member away
    simp only [merge_staged,found]
    exact (List.mem_erase_of_ne away).mpr member

theorem add_good (good : Good me w) {files_to_process : List Path} (careful : AddsHead env w.repo files_to_process) :
    (alone env me may).Meets (add env files_to_process) (fun _ t => Good me t) w := by
  refine alone_read (fun c => rfl) (.bind ((select_work_alone files_to_process _).mono ?_))
  rintro r t ⟨rfl,work,rfl,selected⟩
  refine .bind ((stage_work_alone good rfl rfl careful selected).mono ?_)
  rintro r u ⟨aside,applied⟩
  cases r with
  | error e => exact good.aside aside
  | ok staged =>
    obtain ⟨tracks,held⟩ := applied staged rfl
    dsimp only
    split
    · exact good.aside aside
    · refine locked_meets ((good.aside aside).unlocked .repo) fun v later _ => alone_read (fun c => rfl) ?_
      have reached := aside.trans later
      refine alone_call fun c _ z after => (good.save reached ?_).aside after
      rw [reached.index]
      have all : ∀ items : List (StageResult H), (∀ item ∈ items, staged.1.entries.contains item.rel_path = true) →
          ∀ current, Tracks (head_tree t.repo) current → Tracks (head_tree t.repo) (items.foldl (merge_staged staged.1) current) := by
        intro items held
        induction items with
        | nil => exact fun current tracks => tracks
        | cons item rest ih =>
          exact fun current on_head => ih (fun other member => held other (List.mem_cons_of_mem _ member)) _
            (merge_staged_tracks tracks on_head (held item (by simp)))
      exact all staged.2 held _ good.tracks

/-! `branch` and `checkout` -/

theorem branch_good (good : Good me w) (name : String) : (alone env me may).Meets (branch name) (fun _ t => Good me t) w := by
  refine .bind (head_parents_alone.mono ?_)
  rintro r t ⟨rfl,rfl⟩
  refine alone_call fun c _ => ?_
  have tip : at_head (World.exec env me Unit c (.write_ref name (at_head t.repo).toList.head?) t).2.repo = at_head t.repo := by
    have first : (at_head t.repo).toList.head? = at_head t.repo := by cases at_head t.repo <;> rfl
    rw [first]
    cases at_branch : t.repo.head with
    | detached h => simp [World.exec,at_head,at_branch]
    | branch other =>
      by_cases same : other = name
      · simp [World.exec,at_head,at_branch,same]
      · simp [World.exec,at_head,at_branch,Dict.get?_set,same]
  refine ⟨?_,fun h here => ?_,good.unlocked⟩
  · simp only [head_tree,tip]
    exact good.tracks
  · rw [tip] at here
    exact good.present h here

/-- The tree that a checkout goes on to restore is read as it is. -/
def ChecksOut (repo : Repo H) (target : Target H) (force : Bool) : Prop :=
  ∀ h data, target_of repo target = some h → repo.commits.get? h = some data → force = true ∨ Clean repo data.tree →
    Readable data.tree

theorem checkout_tree_good (good : Good me w) {h : H} {ref_name : Option String} {data : CommitData H} {force : Bool}
    (at_ref : ∀ name, ref_name = some name → w.repo.refs.get? name = some (some h))
    (held : w.repo.commits.get? h = some data) (readable : force = true ∨ Clean w.repo data.tree → Readable data.tree) :
    (alone env me may).Meets (checkout_tree h ref_name data force) (fun _ t => Good me t) w := by
  have tip := landing_tip at_ref
  refine locked_meets (good.unlocked .repo) fun t aside files => alone_read (fun c => rfl) ?_
  have here := good.aside aside
  have restored (readable : Readable data.tree) : (alone env me may).Meets (do
      let _ ← _materialize_tree data.tree t.repo.index true
      call (.write_head (landing ref_name h))) (fun _ u => ∀ v, Aside me u v → Good me v) t := by
    refine .bind ((materialize_tree_alone readable _ true).mono ?_)
    rintro r u (⟨⟨e,rfl⟩,moved⟩ | ⟨v,final,rfl,rfl,moved,mirrors⟩)
    · exact fun v after => (here.aside moved).aside after
    · refine alone_call fun c _ z after => ?_
      have all := aside.trans moved
      have unlocked lock : World.Unlocked (World.exec env me Unit c (.write_head (landing ref_name h)) (with_index v final)).2 me lock :=
        all.unlocked lock (good.unlocked lock)
      refine (Good.moved h data ?_ ?_ mirrors unlocked).aside after
      · simp only [at_head,← all.refs] at tip
        exact tip
      · rw [← all.commits] at held
        exact held
  cases force with
  | true => exact restored (readable (.inl rfl))
  | false =>
    refine .bind ((collect_dirty_paths_alone data.tree).mono ?_)
    rintro r u ⟨rfl,dirty,rfl,clean⟩
    dsimp only
    split
    · rename_i nothing
      exact restored (readable (.inr ((clean nothing).of_same files aside.index)))
    · exact fun v after => here.aside after

theorem checkout_good (good : Good me w) {target : Target H} {force : Bool} (careful : ChecksOut w.repo target force) :
    (alone env me may).Meets (checkout target force) (fun _ t => Good me t) w := by
  refine .bind ((resolve_target_alone target).mono ?_)
  rintro r t ⟨rfl,ref_name,rfl,at_ref⟩
  cases aim : target_of t.repo target with
  | none => exact good
  | some h =>
    refine .bind ((find_commit_alone h).mono ?_)
    rintro r u ⟨fetched,found⟩
    cases r with
    | error e => exact good.fetched fetched
    | ok found_data =>
      cases found_data with
      | none => exact good.fetched fetched
      | some data =>
        have held := found data rfl
        refine checkout_tree_good (good.fetched fetched) ?_ held fun going => ?_
        · intro name named
          rw [fetched.refs]
          exact at_ref name h named aim
        · rcases fetched.found held with before | ⟨-,-,flat⟩
          · refine careful h data aim before (going.imp_right fun clean => ?_)
            exact clean.of_same fetched.files fetched.index
          · exact .inl flat

/-! `stash` -/

theorem revert_path_alone {head : Tree H} {saved idx : Index H} {path : Path} (tracks : Tracks head saved)
    (beside : Elsewhere path saved idx) : (alone env me may).Meets (revert_path head idx path)
      (fun r t => Aside me w t ∧ ∀ next, r = .ok next → Tracks head next) w := by
  unfold revert_path
  cases found : head.get? path with
  | none =>
    refine .bind (sending_call (by exact trivial) fun _ t aside => ⟨aside,fun next ended => ?_⟩)
    obtain rfl := Except.ok.inj ended
    refine tracks.change path (fun other away => ?_) beside.removed (fun e here => ?_) fun held => ?_
    · rw [Dict.get?_erase,if_neg away]
      exact beside.entries other away
    · simp [Dict.get?_erase] at here
    · simp [Dict.contains,found] at held
  | some e =>
    have reverting := (materialize_file_quiet path e.hash e.layers e.chunks false).mono Op.Quiet.sending
    have back (entry : IndexEntry H) (same : recorded entry.tree_entry = recorded e) :
        Tracks head {idx with entries := idx.entries.set path entry} := by
      refine tracks.change path (fun other away => ?_) beside.removed (fun now here _ => ?_) fun _ absent => ?_
      · rw [Dict.get?_set_other _ _ _ _ away]
        exact beside.entries other away
      · rw [Dict.get?_set_same] at here
        obtain rfl := Option.some.inj here
        rw [found,same]
        rfl
      · simp [Dict.contains] at absent
    refine .bind ((sending_meets reverting (.refl me w)).mono fun r t aside => ?_)
    cases r with
    | error _ => exact ⟨aside,fun next impossible => by contradiction⟩
    | ok _ =>
      refine alone_read (fun c => rfl) ?_
      cases t.repo.files.get? path with
      | none =>
        refine ⟨aside,fun next ended => ?_⟩
        obtain rfl := Except.ok.inj ended
        exact back _ rfl
      | some file =>
        refine ⟨aside,fun next ended => ?_⟩
        obtain rfl := Except.ok.inj ended
        exact back _ rfl

theorem stash_path_alone {head : Tree H} {staged : List Path} {saved : Index H × List (StashEntry H)} {path : Path}
    (tracks : Tracks head saved.1) : (alone env me may).Meets (stash_path env head staged saved path)
      (fun r t => Aside me w t ∧ ∀ next, r = .ok next → Tracks head next.1) w := by
  have reverting {was_staged : Bool} {idx : Index H} (beside : Elsewhere path saved.1 idx) {t : World H} (aside : Aside me w t)
      (e : IndexEntry H) : (alone env me may).Meets (do
        let reverted ← revert_path head idx path
        .pure (reverted,saved.2 ++ [stash_entry path was_staged e]))
        (fun r t => Aside me w t ∧ ∀ next, r = .ok next → Tracks head next.1) t := by
    refine .bind ((revert_path_alone tracks beside).mono ?_)
    rintro r u ⟨moved,reverted⟩
    cases r with
    | error _ => exact ⟨aside.trans moved,fun next impossible => by contradiction⟩
    | ok next =>
      refine ⟨aside.trans moved,fun final ended => ?_⟩
      obtain rfl := Except.ok.inj ended
      exact reverted next rfl
  unfold stash_path
  by_cases member : path ∈ staged
  · simp only [member,decide_true,if_true]
    show (alone env me may).Meets (Prog.bind (.pure saved.1) _) _ w
    rw [Prog.bind]
    cases saved.1.entries.get? path with
    | none => exact ⟨.refl me w,fun next impossible => by contradiction⟩
    | some e => exact reverting ⟨fun _ _ => rfl,fun _ member _ => member⟩ (.refl me w) e
  · simp only [member,decide_false,Bool.false_eq_true,if_false]
    refine .bind ((stage_one_file_alone saved.1 path).mono ?_)
    rintro r t ⟨moved,beside⟩
    cases r with
    | error _ => exact ⟨moved,fun next impossible => by contradiction⟩
    | ok idx =>
      dsimp only
      cases idx.entries.get? path with
      | none => exact ⟨moved,fun next impossible => by contradiction⟩
      | some e => exact reverting (beside idx rfl) moved e

theorem stash_push_good (good : Good me w) (careful : (∃ path, Dirty w.repo path) → Readable (head_tree w.repo)) :
    (alone env me may).Meets (_stash_push env) (fun _ t => Good me t) w := by
  refine alone_read (fun c => rfl) (.bind (compute_status_alone.mono ?_))
  rintro r t ⟨rfl,status,rfl,dirty⟩
  dsimp only
  split
  · exact good
  · rename_i something
    obtain ⟨path,member⟩ := List.exists_mem_of_ne_nil _ something
    refine .bind (resolve_head_tree_alone.mono ?_)
    rintro r u ⟨rfl,read⟩
    cases r with
    | error e => exact good
    | ok tree =>
      obtain rfl := read tree rfl (careful ⟨path,dirty path member⟩)
      refine .bind (.foldEach (J := fun _ saved v => Aside me u v ∧ Tracks (head_tree u.repo) saved.1) _ _
        ⟨.refl me u,good.tracks⟩ ?_ ?_)
      · rintro path rest saved v ⟨aside,tracks⟩
        refine (stash_path_alone tracks).mono ?_
        rintro r z ⟨moved,reverted⟩
        cases r with
        | error e => exact good.aside (aside.trans moved)
        | ok next => exact ⟨aside.trans moved,reverted next rfl⟩
      · rintro saved v ⟨aside,tracks⟩
        refine .bind (alone_call fun c _ => alone_call fun c _ => ?_)
        exact (good.save aside tracks).with_stashes _

/-- What goes back unstaged is what HEAD has, but for its hash, which is taken from HEAD. -/
def PopsHead (repo : Repo H) (stash_id : Option Nat) : Prop :=
  ∀ id record, stash_of repo stash_id = some (id,record) → ∀ entry ∈ record, entry.was_staged = false →
    Readable (head_tree repo) ∧ ∃ e, (head_tree repo).get? entry.rel_path = some e ∧
      e.type = entry.type ∧ e.layers = entry.layers ∧ e.chunks = entry.chunks

theorem stash_pop_good (good : Good me w) {stash_id : Option Nat} (careful : PopsHead w.repo stash_id) (delete_after : Bool) :
    (alone env me may).Meets (_stash_apply_or_pop stash_id delete_after) (fun _ t => Good me t) w := by
  have reads : ∀ c, World.exec env me _ c (.read_stash stash_id) w = (stash_of w.repo stash_id,w) := by
    intro c
    cases stash_id <;> rfl
  refine alone_read reads ?_
  cases found : stash_of w.repo stash_id with
  | none => exact good
  | some stash =>
    obtain ⟨id,record⟩ := stash
    refine alone_read (fun c => rfl) (.bind (resolve_head_tree_alone.mono ?_))
    rintro r t ⟨rfl,read⟩
    cases r with
    | error e => exact good
    | ok tree =>
      refine .bind (.foldEach (J := fun rest idx u => Aside me t u ∧ (∀ entry ∈ rest, entry ∈ record) ∧
        Tracks (head_tree t.repo) idx) _ _ ⟨.refl me t,fun entry member => member,good.tracks⟩ ?_ ?_)
      · rintro entry rest idx u ⟨aside,within,tracks⟩
        have restoring := (materialize_file_quiet entry.rel_path entry.hash entry.layers entry.chunks false).mono Op.Quiet.sending
        refine .bind ((sending_meets restoring aside).mono fun r v restored => ?_)
        cases r with
        | error e => exact good.aside restored
        | ok _ =>
          refine alone_read (fun c => rfl) ⟨restored,fun other member => within other (List.mem_cons_of_mem _ member),?_⟩
          refine tracks.put entry.rel_path _ (fun other => Dict.get?_set _ _ _ _) (fun other member _ => member) fun unstaged => ?_
          have baseline : entry.was_staged = false := by
            by_contra staged
            have raised : entry.was_staged = true := by simpa using staged
            simp [popped_entry,raised] at unstaged
          obtain ⟨readable,e,held,type,layers,chunks⟩ := careful id record found entry (within entry (by simp)) baseline
          obtain rfl := read tree rfl readable
          simp [held,recorded,popped_entry,baseline,IndexEntry.tree_entry,type,layers,chunks]
      · rintro idx u ⟨aside,-,tracks⟩
        refine .bind (alone_call fun c _ => ?_)
        have saved := good.save aside tracks
        cases delete_after with
        | false => exact saved
        | true => exact alone_call fun c _ => saved.with_stashes _

/-! `commit` and `merge` -/

/-- What is written of a commit before anything is sent. -/
theorem persist_writes_good {h : H} {data : CommitData H} {ref_path remote_ref_name : Option String} {idx : Index H}
    (on_head : ref_path = branch_of w.repo.head) (mirrors : Mirrors data.tree idx) (unlocked : ∀ lock, w.Unlocked me lock) :
    (alone env me may).Meets (persist_writes h data ref_path remote_ref_name idx) (fun r t => r = .ok () ∧ Good me t) w := by
  refine .bind (alone_call fun c _ => ?_)
  have free lock := exec_unlocked env me _ c (.write_commit h data) w lock (unlocked lock)
  refine .bind ((queue_meets h remote_ref_name (free .queue)).mono ?_)
  rintro r t ⟨rfl,aside⟩
  have written (head : Head H) (refs : Dict String (Option H)) (repo : Repo H)
      (moved : repo = {t.repo with head := head,refs := refs,index := idx.clear_staged}) (tip : at_head repo = some h) :
      Good me {t with repo := repo} := by
    have commits : repo.commits = w.repo.commits.set h data := by
      rw [moved]
      exact aside.commits
    have tree : head_tree repo = data.tree := by simp [head_tree,tip,tree_of,commits]
    refine ⟨?_,fun g here => ?_,fun lock => ?_⟩
    · rw [tree,moved]
      exact mirrors.cleared.tracks
    · obtain rfl : h = g := Option.some.inj (tip.symm.trans here)
      simp [commits,Dict.contains]
    · have still := aside.unlocked lock (free lock)
      rw [moved]
      exact still
  cases at_branch : w.repo.head with
  | detached old =>
    obtain rfl : ref_path = none := by rw [on_head,at_branch]; rfl
    refine .bind (alone_call fun c _ => alone_call fun c _ => ⟨rfl,written _ _ _ rfl ?_⟩)
    rfl
  | branch name =>
    obtain rfl : ref_path = some name := by rw [on_head,at_branch]; rfl
    refine .bind (alone_call fun c _ => alone_call fun c _ => ⟨rfl,written _ _ _ rfl ?_⟩)
    have head : t.repo.head = .branch name := aside.head.trans at_branch
    simp [at_head,head,World.exec]

/-- A merge that goes on to take the branch forward. -/
def FastForwards (repo : Repo H) (target : Target H) (options : MergeOptions) (theirs : H) : Prop :=
  ∃ name ours, repo.head = .branch name ∧ repo.refs.get? name = some (some ours) ∧ target_of repo target = some theirs ∧
    theirs ≠ ours ∧ find_merge_base repo.commits ours theirs = some ours ∧ options.no_ff = false ∧ Clean repo ∅

def MergesForward (repo : Repo H) (target : Target H) (options : MergeOptions) : Prop :=
  ∀ theirs data, FastForwards repo target options theirs → repo.commits.get? theirs = some data → Readable data.tree

theorem merge_target_alone (good : Good me w) (target : Target H) : (alone env me may).Meets (merge_target target) (fun r t =>
    Good me t ∧ ∀ theirs, r = .ok (some theirs) → Fetched me theirs w t ∧ target_of w.repo target = some theirs) w := by
  have unchanged := (Aside.refl me w).fetched rfl
  cases target with
  | branch name =>
    refine alone_read (fun c => rfl) ?_
    cases found : w.repo.refs.get? name with
    | none => exact ⟨good,fun theirs here => by simp at here⟩
    | some tip =>
      refine ⟨good,fun theirs here => ⟨unchanged theirs,?_⟩⟩
      obtain rfl := Except.ok.inj here
      simp [target_of,found]
  | commit h =>
    refine .bind ((find_commit_alone h).mono ?_)
    rintro r t ⟨fetched,-⟩
    cases r with
    | error e => exact ⟨good.fetched fetched,by simp⟩
    | ok found =>
      refine ⟨good.fetched fetched,fun theirs here => ?_⟩
      cases found with
      | none => simp at here
      | some data =>
        obtain rfl : h = theirs := by simpa using here
        exact ⟨fetched,rfl⟩

theorem fast_forward_good (good : Good me w) {name : String} {theirs : H} {data : CommitData H} {idx : Index H}
    (on_branch : w.repo.head = .branch name) (held : w.repo.commits.get? theirs = some data) (readable : Readable data.tree) :
    (alone env me may).Meets (fast_forward name theirs data.tree idx) (fun _ t => Good me t) w := by
  have ensuring := (ensure_objects_local_quiet data.tree).mono Op.Quiet.sending
  refine .bind ((sending_meets ensuring (.refl me w)).mono fun r t aside => ?_)
  cases r with
  | error e => exact good.aside aside
  | ok _ =>
    refine .bind ((materialize_tree_alone readable idx false).mono ?_)
    rintro r u (⟨⟨e,rfl⟩,moved⟩ | ⟨v,final,rfl,rfl,moved,mirrors⟩)
    · exact (good.aside aside).aside moved
    · refine alone_call fun c _ => ?_
      have all := aside.trans moved
      refine Good.moved theirs data ?_ ?_ mirrors fun lock => all.unlocked lock (good.unlocked lock)
      · have head : v.repo.head = .branch name := all.head.trans on_branch
        simp [at_head,World.exec,with_index,head]
      · rw [← all.commits] at held
        exact held

variable [Canonical H]

theorem finalize_commit_good {data : CommitData H} {ref_path : Option String} {idx : Index H} {defer_upload : Bool}
    {changed_paths : Option (List Path)} {on_persisted : Command H Unit} (on_head : ref_path = branch_of w.repo.head)
    (mirrors : Mirrors data.tree idx) (unlocked : ∀ lock, w.Unlocked me lock) (only : on_persisted.Only Op.Sending) :
    (alone env me may).Meets (_finalize_commit env data ref_path idx defer_upload changed_paths on_persisted)
      (fun _ t => Good me t) w := by
  refine .bind (locked_meets (unlocked .repo) fun t aside _ => ?_)
  have there : ref_path = branch_of t.repo.head := by rw [aside.head,on_head]
  refine (persist_writes_good there mirrors fun lock => aside.unlocked lock (unlocked lock)).mono ?_
  rintro r u ⟨rfl,good⟩ v after
  have later : Only Op.Sending (do
      on_persisted
      deliver_commit (commit_hash data) data (ref_path.map (remote_ref env)) defer_upload changed_paths
      .pure (commit_hash data) : Command H H) :=
    only.bind fun _ => (deliver_commit_sending _ _ _ _ _).bind fun _ => trivial
  exact good_sending later (good.aside after)

theorem commit_staged_good (good : Good me w) (message : String) (defer_upload : Bool) :
    (alone env me may).Meets (commit_staged env message defer_upload) (fun r t => Good me t ∧
      (r = .ok none → w.repo.index.get_staged_entries.entries = [] ∧ w.repo.index.removed = [])) w := by
  refine locked_meets (good.unlocked .repo) fun t aside _ => ?_
  have here := good.aside aside
  refine alone_read (fun c => rfl) ?_
  rw [aside.index]
  dsimp only
  split
  · rename_i nothing
    exact fun v after => ⟨here.aside after,fun _ => nothing⟩
  · have freeing : Only Op.Sending (call (.release .repo) : Command H Unit) := .call trivial
    refine .bind (head_parents_alone.mono ?_)
    rintro r u ⟨rfl,rfl⟩
    refine .bind (alone_call fun c _ => .bind ((finalize_commit_good rfl (tree_mirrors _) here.unlocked freeing).mono ?_))
    · intro r v done
      cases r with
      | ok h => exact fun z after => ⟨done.aside after,by simp⟩
      | error e => exact fun z after => ⟨done.aside after,by simp⟩

theorem merge_trees_good (good : Good me w) {options : MergeOptions} {name : String} {idx : Index H} {ours theirs : H}
    {merged : Tree H} (on_branch : w.repo.head = .branch name) (flat : tree_is_flat merged = true) :
    (alone env me may).Meets (merge_trees env options name idx ours theirs merged) (fun _ t => Good me t) w := by
  have ensuring := (ensure_objects_local_quiet merged).mono Op.Quiet.sending
  refine .bind ((sending_meets ensuring (.refl me w)).mono fun r t aside => ?_)
  cases r with
  | error e => exact good.aside aside
  | ok _ =>
    refine .bind ((materialize_tree_alone (.inl flat) idx false).mono ?_)
    rintro r u (⟨⟨e,rfl⟩,moved⟩ | ⟨v,final,rfl,rfl,moved,mirrors⟩)
    · exact (good.aside aside).aside moved
    · refine .bind (alone_call fun c _ => ?_)
      have all := aside.trans moved
      have branch : some name = branch_of (with_index v final).repo.head := by
        have head : v.repo.head = .branch name := all.head.trans on_branch
        simp [branch_of,with_index,head]
      have quiet : Only Op.Sending (.pure () : Command H Unit) := trivial
      refine .bind ((finalize_commit_good branch mirrors (fun lock => all.unlocked lock (good.unlocked lock)) quiet).mono ?_)
      intro r z done
      cases r with
      | ok h => exact done
      | error e => exact done

theorem merge_commits_good (good : Good me w) {options : MergeOptions} {name : String} {ours theirs : H}
    (on_branch : w.repo.head = .branch name) (apart : theirs ≠ ours)
    (readable : ∀ data, w.repo.commits.get? theirs = some data → find_merge_base w.repo.commits ours theirs = some ours →
      options.no_ff = false → Clean w.repo ∅ → Readable data.tree) :
    (alone env me may).Meets (merge_commits env options name w.repo.index ours theirs) (fun _ t => Good me t) w := by
  refine alone_read (fun c => rfl) ?_
  dsimp only
  split
  · exact good
  · refine .bind ((collect_dirty_paths_alone ∅).mono ?_)
    rintro r t ⟨rfl,dirty,rfl,clean⟩
    dsimp only
    split
    · rename_i forward
      obtain ⟨data,held⟩ := forward_present forward.1 apart
      have tree : tree_of t.repo.commits (some theirs) = data.tree := by simp [tree_of,held]
      rw [tree]
      exact fast_forward_good good on_branch held
        (readable data held forward.1 (by simpa using forward.2.1) (clean forward.2.2))
    · split
      · exact good
      · split
        · exact good
        · rename_i legacy
          cases made : merged_tree (tree_of t.repo.commits (find_merge_base t.repo.commits ours theirs))
              (tree_of t.repo.commits (some ours)) (tree_of t.repo.commits (some theirs)) options.policy with
          | none => exact good
          | some merged =>
            simp only [Bool.not_eq_true,Bool.not_eq_false',Bool.and_eq_true] at legacy
            exact merge_trees_good good on_branch (merged_flat made legacy.1.2 legacy.2)

theorem merge_good (good : Good me w) {target : Target H} {options : MergeOptions}
    (careful : MergesForward w.repo target options) :
    (alone env me may).Meets (merge env target options) (fun _ t => Good me t) w := by
  refine alone_read (fun c => rfl) (alone_read (fun c => rfl) ?_)
  cases on_branch : w.repo.head with
  | detached h => exact good
  | branch name =>
    refine alone_read (fun c => rfl) ?_
    cases at_tip : w.repo.refs.get? name with
    | none => exact good
    | some tip =>
    cases tip with
    | none => exact good
    | some ours =>
      refine .bind ((merge_target_alone good target).mono ?_)
      rintro r t ⟨reached,aim⟩
      cases r with
      | error e => exact reached
      | ok found =>
      cases found with
      | none => exact reached
      | some theirs =>
        obtain ⟨first,target⟩ := aim theirs rfl
        dsimp only
        split
        · exact reached
        · rename_i apart
          refine .bind ((find_commit_alone theirs).mono ?_)
          rintro r u ⟨again,-⟩
          have fetched := first.trans again
          have here := good.fetched fetched
          cases r with
          | error e => exact here
          | ok _ =>
            dsimp only
            rw [← fetched.index]
            refine merge_commits_good here (fetched.head.trans on_branch) apart fun data held base no_ff clean => ?_
            rcases fetched.found held with before | ⟨-,-,flat⟩
            · rcases fetched.commits with same | ⟨absent,-⟩
              · rw [same] at base
                exact careful theirs data ⟨name,ours,on_branch,at_tip,target,apart,base,no_ff,
                  clean.of_same fetched.files fetched.index⟩ before
              · simp [absent] at before
            · exact .inl flat

end Alone

/-! The commands of one user, in any order. -/

inductive Action (H : Type)
  | add (files_to_process : List Path)
  | unstage (paths : List Path)
  | rm (paths : List Path) (cached : Bool)
  | commit (message : String) (defer_upload : Bool)
  | branch (name : String)
  | checkout (target : Target H) (force : Bool)
  | merge (target : Target H) (options : MergeOptions)
  | stash_push
  | stash_pop (stash_id : Option Nat) (delete_after : Bool)

def Action.command (env : Env) [Canonical H] (action : Action H) : Command H Unit :=
  match action with
  | .add files_to_process => AetherVault.add env files_to_process
  | .unstage paths => AetherVault.unstage paths
  | .rm paths cached => AetherVault.rm paths cached
  | .commit message defer_upload => do
    let _ ← commit_staged env message defer_upload
    .pure ()
  | .branch name => AetherVault.branch name
  | .checkout target force => AetherVault.checkout target force
  | .merge target options => AetherVault.merge env target options
  | .stash_push => _stash_push env
  | .stash_pop stash_id delete_after => _stash_apply_or_pop stash_id delete_after

/-- When a command does not take the branch that goes wrong. -/
def Careful (env : Env) (repo : Repo H) (action : Action H) : Prop :=
  match action with
  | .add files_to_process => AddsHead env repo files_to_process
  | .unstage paths => UnstagesHead repo paths
  | .checkout target force => ChecksOut repo target force
  | .merge target options => MergesForward repo target options
  | .stash_push => (∃ path, Dirty repo path) → Readable (head_tree repo)
  | .stash_pop stash_id _ => PopsHead repo stash_id
  | _ => True

/-- A command, an edit of the working tree, or a change of the registry by others. -/
inductive Turn (me : Nat) (allowed : Env → Repo H → Action H → Prop) [Canonical H] : World H → World H → Prop
  | edit (w : World H) (files : Dict Path WorkFile) : Turn me allowed w {w with repo := {w.repo with files := files}}
  | elsewhere (w : World H) (server : Server H) : Turn me allowed w {w with server := server}
  | command {w t : World H} (env : Env) (action : Action H) (r : Except (Failure H) Unit) (careful : allowed env w.repo action)
      (ran : (alone env me at_will).Runs (action.command env) w r t) : Turn me allowed w t

section Runs

variable [Canonical H] {me : Nat} {w t : World H}

theorem careful_good {env : Env} {may : ∀ β, Choice → Op H β → World H → Prop} (good : Good me w) {action : Action H}
    (careful : Careful env w.repo action) : (alone env me may).Meets (action.command env) (fun _ t => Good me t) w := by
  cases action with
  | add files_to_process => exact add_good good careful
  | unstage paths => exact unstage_good good careful
  | rm paths cached => exact rm_good good paths cached
  | commit message defer_upload =>
    refine .bind ((commit_staged_good good message defer_upload).mono ?_)
    rintro r t ⟨done,-⟩
    cases r with
    | ok _ => exact done
    | error _ => exact done
  | branch name => exact branch_good good name
  | checkout target force => exact checkout_good good careful
  | merge target options => exact merge_good good careful
  | stash_push => exact stash_push_good good careful
  | stash_pop stash_id delete_after => exact stash_pop_good good careful delete_after

theorem Good.turn (good : Good me w) (turn : Turn me Careful w t) : Good me t := by
  cases turn with
  | edit files => exact ⟨good.tracks,good.present,good.unlocked⟩
  | elsewhere server => exact ⟨good.tracks,good.present,good.unlocked⟩
  | command env action r careful ran => exact alone_runs (careful_good good careful) ran

omit [Canonical H] in
theorem Good.init (fresh : w.repo = Repo.init) : Good me w where
  tracks := by
    rw [fresh]
    exact ⟨fun path e found => by simp [Repo.init,Index.empty] at found,fun path held => by
      simp [head_tree,at_head,Repo.init,tree_of,Dict.contains] at held⟩
  present h here := by
    rw [fresh] at here
    simp [at_head,Repo.init] at here
  unlocked lock owner depth held := by
    rw [fresh] at held
    contradiction

/-- What the flags of the index are worth. -/
structure Sound (me : Nat) (t : World H) : Prop where
  tracks : Tracks (head_tree t.repo) t.repo.index
  nothing_to_commit : ∀ env message defer_upload u, (alone env me at_will).Runs (commit_staged env message defer_upload) t (.ok none) u →
    ∀ path, (t.repo.index.tree.get? path).map recorded = ((head_tree t.repo).get? path).map recorded

theorem staged_flags_sound (me : Nat) (w t : World H) (fresh : w.repo = Repo.init)
    (path : Relation.ReflTransGen (Turn me Careful) w t) : Sound me t := by
  have good : Good me t := by
    induction path with
    | refl => exact .init fresh
    | tail _ turn ih => exact ih.turn turn
  refine ⟨good.tracks,fun env message defer_upload u ran => ?_⟩
  have nothing := (alone_runs (commit_staged_good good message defer_upload) ran).2 rfl
  exact good.tracks.agrees nothing

end Runs

/-! A file that is written, added and committed; and one that is touched and added again before it is. -/

def bare : World Name := ⟨.init,.empty 0,true⟩

def with_file (w : World Name) (mtime_ns : Nat) : World Name :=
  {w with repo := {w.repo with files := w.repo.files.set ["f"] ⟨⟨[1],by decide⟩,mtime_ns⟩}}

/-- The action is carried out with the registry answering. -/
def acted (action : Action Name) (w : World Name) : World Name :=
  ((action.command desk).run (World.exec desk 0) (fun _ => answered) w).2

theorem acts {allowed : Env → Repo Name → Action Name → Prop} {w : World Name} {action : Action Name}
    (careful : allowed desk w.repo action) : Turn 0 allowed w (acted action w) :=
  .command desk action _ careful
    (Discipline.runs_of_run (fun _ => answered) (fun _ _ _ => true) (fun _ _ _ _ => trivial) _ _ (Prog.checks_true _ _ _ _))

def written : World Name := with_file bare 5

def added : World Name := acted (.add [["f"]]) written

theorem staged_flags_sound_committed : Sound 0 (acted (.commit "a" false) added) := by
  refine staged_flags_sound 0 bare _ rfl (.head (.edit bare _) (.head (acts ?_) (.single (acts trivial))))
  intro path member result staged again
  obtain rfl := List.mem_singleton.mp member
  rcases again with unchanged | twice
  · contradiction
  · contradiction

/-- The second `add` finds the same content in the index and puts the flag down, though HEAD has no such file. -/
def added_again : World Name := acted (.add [["f"]]) (with_file added 6)

theorem touched_file_not_staged : ¬∀ (me : Nat) (w t : World Name), w.repo = Repo.init →
    Relation.ReflTransGen (Turn me fun _ _ _ => True) w t → Sound me t := by
  intro claimed
  have sound := claimed 0 bare added_again rfl (.head (.edit bare _) (.head (acts trivial)
    (.head (.edit added _) (.single (acts trivial)))))
  have lowered : (added_again.repo.index.entries.get? ["f"]).map (·.staged) = some false := by decide +kernel
  have absent : (head_tree added_again.repo).get? ["f"] = none := by decide +kernel
  obtain ⟨e,found,flag⟩ := Option.map_eq_some_iff.mp lowered
  have tracked := sound.tracks.unstaged ["f"] e found flag
  simp [absent] at tracked

end AetherVault.Solo
