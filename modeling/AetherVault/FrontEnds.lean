import AetherVault.Ignores
import AetherVault.StagedFlags

/-! `Repo.add` and `Repo.commit` beside `av add` and `av commit`: two front ends of one index, of which the first may run
anywhere and the second runs in the repository. -/
namespace AetherVault.FrontEnds
open Lib Hashing Index Solo

structure Env where
  walk : WalkEnv
  staging : StageEnv
  flags_for : Path → List String

variable {H : Type} [DecidableEq H] [Hashing H]

/-- A repository in its file system, where `root` is the directory that holds its `.av`. -/
structure Checkout (H : Type) [DecidableEq H] [Hashing H] where
  fs : FileSystem
  root : Path
  index : Index H
  objects : Objects H
  head : Head H
  refs : Dict String (Option H)

def POINTER_MAGIC : Bytes := letters "version aether-vault-pointer"

def is_pointer_file (file : WorkFile) : Bool := file.data.bytes.take POINTER_MAGIC.length = POINTER_MAGIC

namespace Checkout

variable (env : Env) (c : Checkout H)

/-- The files that a path given to either front end stands for. -/
def files_of (cwd : Path) (repo_root : Option Path) (path : Path) : List Path :=
  if c.fs.is_file path then [path]
  else if c.fs.is_dir path then iter_working_files env.walk c.fs cwd path repo_root else []

def rel_path (path : Path) : Path := path.drop c.root.length

/-! `av add`, run in the root of the repository. -/

/-- `none` where a path does not exist or lies outside. -/
def files_to_process (paths : List Path) : Option (List Path) :=
  if paths.all fun path => (c.fs.is_file path || c.fs.is_dir path) && c.root.isPrefixOf path then
    some (paths.flatMap (c.files_of env c.root (some c.root)))
  else none

def add_work (path : Path) : Option (Work H) :=
  (c.fs.files.get? path).bind fun file =>
    let existing_entry := c.index.entries.get? (c.rel_path path)
    if existing_entry.any (compare_meta file) || is_pointer_file file then none
    else some ⟨c.rel_path path,classify_file (c.rel_path path),existing_entry,env.flags_for (c.rel_path path)⟩

def add_item (staged : Objects H × Index H × List (StageResult H)) (work : Work H) : Objects H × Index H × List (StageResult H) :=
  match c.fs.files.get? (c.root ++ work.rel_path) with
  | none => staged
  | some file =>
    let computed := _compute_stage_result env.staging staged.1 file work.rel_path work.file_type work.existing_entry work.attr_flags
    match computed.2 with
    | none => (computed.1,staged.2)
    | some result => (computed.1,apply_stage_result staged.2.1 result,staged.2.2 ++ [result])

/-- The index that it leaves; only the staged paths are merged into the one on disk. -/
def av_add (paths : List Path) : Index H :=
  match c.files_to_process env paths with
  | none => c.index
  | some files =>
    let staged := (files.filterMap (c.add_work env)).foldl (c.add_item env) (c.objects,c.index,[])
    staged.2.2.foldl (merge_staged staged.2.1) c.index

/-! `Repo.add`, run in any directory. -/

/-- `none` for the `ValueError` of a file outside. -/
def stage_file (staged : Objects H × Index H) (path : Path) : Option (Objects H × Index H) :=
  if !c.root.isPrefixOf path then none
  else if (c.rel_path path).endswith ".av-pointer" then some staged
  else match c.fs.files.get? path with
    | none => some staged
    | some file =>
      let computed := _compute_stage_result env.staging staged.1 file (c.rel_path path) (classify_file (c.rel_path path))
        (staged.2.entries.get? (c.rel_path path)) (env.flags_for (c.rel_path path))
      match computed.2 with
      | none => some (computed.1,staged.2)
      | some result => some (computed.1,apply_stage_result staged.2 result)

/-- An exception leaves the index as it was saved last. -/
def repo_add (cwd : Path) (paths : List Path) : Index H :=
  match (paths.flatMap (c.files_of env cwd none)).foldlM (c.stage_file env) (c.objects,c.index) with
  | none => c.index
  | some staged => staged.2

/-! The commits, as far as their trees and parents. -/

def parents : List H :=
  match c.head with
  | .branch name => (c.refs.get? name).join.toList
  | .detached h => [h]

def _commit_staged_locked : Option (Tree H × List H) :=
  if c.index.get_staged_entries.entries.isEmpty && c.index.removed.isEmpty then none else some (c.index.tree,c.parents)

def av_commit : Option (Tree H × List H) :=
  if c.index.get_staged_entries.entries.isEmpty && c.index.removed.isEmpty then none else c._commit_staged_locked

def repo_commit : Option (Tree H × List H) :=
  if c.index.get_staged_entries.entries.isEmpty then none else c._commit_staged_locked

end Checkout

/-! What one file comes to. -/

/-- The entry of a file that is staged. -/
def staged_entry (env : Env) (file : WorkFile) (path : Path) (changed : Bool) : IndexEntry H :=
  let large := classify_file path = .artifact ∧ (file.size : Int) > env.staging.threshold_bytes
  let layers := if large then ((layer_split env.staging file path (classify_file path) (env.flags_for path)).map fun ranges =>
    ranges.map (LayerSpec.part file.data.bytes)).getD [] else []
  let chunks := if large ∧ layers = [] ∧ cdc_eligible env.staging path (env.flags_for path) then chunksOf 0 (file_pieces file) else []
  ⟨.sha (sha256 file.data.bytes),file.size,file.mtime_ns,classify_file path,changed,if large then some path.pointer else none,
    layers,chunks⟩

/-- Staging a file that differs from its entry; what the store holds does not matter. -/
theorem stage_computed (env : Env) (objects : Objects H) (file : WorkFile) (path : Path) {existing : Option (IndexEntry H)}
    (fresh : existing.any (compare_meta file) = false) : ∃ result,
      (_compute_stage_result env.staging objects file path (classify_file path) existing (env.flags_for path)).2 = some result ∧
      result.rel_path = path ∧ ∀ changed, result.entry changed = staged_entry env file path changed := by
  have as_new : ¬(existing.any fun e => file.size == e.size && file.mtime_ns == e.mtime_ns) = true := by
    intro same
    have known : existing.any (compare_meta file) = true := same
    rw [fresh] at known
    contradiction
  by_cases large : classify_file path = .artifact ∧ (file.size : Int) > env.staging.threshold_bytes
  · cases staged : (_compute_stage_result env.staging objects file path (classify_file path) existing (env.flags_for path)).2 with
    | none => simp [_compute_stage_result,as_new,large] at staged
    | some result =>
      obtain ⟨_,_,_,_,_,_,path_eq,hash,size,mtime,type⟩ := _compute_stage_result_shape staged
      have cut := split_layers_parts env.staging objects file (classify_file path) path (env.flags_for path) large
      refine ⟨result,rfl,path_eq,fun changed => ?_⟩
      have parts : result.layers = ((layer_split env.staging file path (classify_file path) (env.flags_for path)).map fun ranges =>
          ranges.map (LayerSpec.part file.data.bytes)).getD [] ∧ result.pointer = some path.pointer ∧
          result.chunks = if result.layers = [] ∧ cdc_eligible env.staging path (env.flags_for path) then chunksOf 0 (file_pieces file) else [] := by
        rw [← cut]
        unfold _compute_stage_result at staged
        rw [if_neg as_new,if_pos large] at staged
        cases staged
        refine ⟨rfl,rfl,?_⟩
        dsimp only
        by_cases uncut : (split_layers env.staging objects file path (env.flags_for path)).2.2 = []
        · simp [uncut,split_chunks_parts]
        · simp [uncut]
      obtain ⟨layers,pointer,chunks⟩ := parts
      rw [layers] at chunks
      simp only [StageResult.entry,staged_entry,hash,size,mtime,type,layers,pointer,chunks,large,true_and,and_self,if_true]
  · refine ⟨_,by rw [_compute_stage_result,if_neg as_new,if_neg large],rfl,fun changed => ?_⟩
    simp only [StageResult.entry,staged_entry,large,false_and,if_false]

/-- A file of the repository that differs in size or mtime from its entry in the index. -/
def Checkout.fresh_file (c : Checkout H) (path : Path) : Option WorkFile :=
  (c.fs.files.get? (c.root ++ path)).filter fun file => !(c.index.entries.get? path).any (compare_meta file)

/-- Whether the index as it was has other content for the path. -/
def Checkout.changed (c : Checkout H) (path : Path) (file : WorkFile) : Bool := c.index.changed path (.sha (sha256 file.data.bytes))

section
variable {env : Env} {c : Checkout H} {path : Path} {file : WorkFile}

theorem fresh_some (fresh : c.fresh_file path = some file) : c.fs.files.get? (c.root ++ path) = some file ∧
    (c.index.entries.get? path).any (compare_meta file) = false := by
  rw [Checkout.fresh_file,Option.filter_eq_some_iff] at fresh
  exact ⟨fresh.1,by simpa using fresh.2⟩

theorem fresh_of (held : c.fs.files.get? (c.root ++ path) = some file)
    (differs : (c.index.entries.get? path).any (compare_meta file) = false) : c.fresh_file path = some file := by
  rw [Checkout.fresh_file,Option.filter_eq_some_iff]
  exact ⟨held,by simpa using differs⟩

theorem under_root {l : Path} (inside : c.root.isPrefixOf l = true) : c.root ++ c.rel_path l = l := by
  obtain ⟨rest,rfl⟩ := List.isPrefixOf_iff_prefix.mp inside
  simp [Checkout.rel_path]

theorem rel_path_append (path : Path) : c.rel_path (c.root ++ path) = path := by simp [Checkout.rel_path]

/-- The entry that a result leaves, and the path that it takes from the removals. -/
theorem apply_staged (idx : Index H) {result : StageResult H} (at_path : result.rel_path = path)
    (entry : ∀ changed, result.entry changed = staged_entry env file path changed) :
    (∀ other, (apply_stage_result idx result).entries.get? other = if other = path then
      some (staged_entry env file path (idx.changed path (.sha (sha256 file.data.bytes)))) else idx.entries.get? other) ∧
    (apply_stage_result idx result).removed = idx.removed.erase path := by
  have hash : Digest.sha result.hash = .sha (sha256 file.data.bytes) := congrArg IndexEntry.hash (entry true)
  constructor
  · intro other
    rw [apply_stage_result_get,at_path,hash,entry]
  · rw [← at_path]
    rfl

/-! `Repo.add`, file by file. -/

/-- The index after the paths that have been seen. -/
structure Seen (env : Env) (c : Checkout H) (seen : List Path) (idx : Index H) : Prop where
  entries : ∀ path, idx.entries.get? path = if path ∈ seen then
    ((c.fresh_file path).map fun file => staged_entry env file path (c.changed path file)).or (c.index.entries.get? path)
    else c.index.entries.get? path
  removed : ∀ path, idx.removed.count path = c.index.removed.count path - if path ∈ seen ∧ (c.fresh_file path).isSome then 1 else 0

theorem seen_nil (env : Env) (c : Checkout H) : Seen env c [] c.index := ⟨fun path => by simp,fun path => by simp⟩

/-- A path that changes nothing, because it has been seen or because its file is as the index has it. -/
theorem Seen.skip {seen : List Path} {idx : Index H} (so_far : Seen env c seen idx) (path : Path)
    (nothing : path ∈ seen ∨ c.fresh_file path = none) : Seen env c (seen ++ [path]) idx := by
  constructor
  · intro other
    rw [so_far.entries other]
    by_cases same : other = path
    · subst other
      cases nothing with
      | inl before => simp [before]
      | inr unchanged => simp [unchanged]
    · simp [same]
  · intro other
    rw [so_far.removed other]
    by_cases same : other = path
    · subst other
      cases nothing with
      | inl before => simp [before]
      | inr unchanged => simp [unchanged]
    · simp [same]

theorem Seen.stage {seen : List Path} {idx : Index H} {result : StageResult H} (so_far : Seen env c seen idx) (unseen : path ∉ seen)
    (fresh : c.fresh_file path = some file) (at_path : result.rel_path = path)
    (entry : ∀ changed, result.entry changed = staged_entry env file path changed) :
    Seen env c (seen ++ [path]) (apply_stage_result idx result) := by
  obtain ⟨entries,removed⟩ := apply_staged idx at_path entry
  have before : idx.entries.get? path = c.index.entries.get? path := by rw [so_far.entries path,if_neg unseen]
  have changed : idx.changed path (.sha (sha256 file.data.bytes)) = c.changed path file := by
    rw [Checkout.changed,Index.changed,Index.changed,before]
  constructor
  · intro other
    rw [entries other]
    by_cases same : other = path
    · subst other
      simp [fresh,changed]
    · rw [if_neg same,so_far.entries other]
      simp [same]
  · intro other
    rw [removed]
    by_cases same : other = path
    · subst other
      rw [List.count_erase_self,so_far.removed path]
      simp [unseen,fresh]
    · rw [List.count_erase_of_ne same,so_far.removed other]
      simp [same]

theorem Seen.stage_file {seen : List Path} {staged staged' : Objects H × Index H} {l : Path} (so_far : Seen env c seen staged.2)
    (done : c.stage_file env staged l = some staged') :
    c.root.isPrefixOf l = true ∧ Seen env c (seen ++ if (c.rel_path l).endswith ".av-pointer" then [] else [c.rel_path l]) staged'.2 := by
  unfold Checkout.stage_file at done
  split at done
  · contradiction
  · rename_i inside
    have inside : c.root.isPrefixOf l = true := by simpa using inside
    refine ⟨inside,?_⟩
    split at done
    · rename_i pointer
      cases done
      simpa [pointer] using so_far
    · rename_i named
      rw [if_neg named]
      cases held : c.fs.files.get? l with
      | none =>
        rw [held] at done
        cases done
        refine so_far.skip _ (Or.inr ?_)
        rw [Checkout.fresh_file,under_root inside,held]
        rfl
      | some file =>
        rw [held] at done
        dsimp only at done
        have at_root : c.fs.files.get? (c.root ++ c.rel_path l) = some file := by rw [under_root inside,held]
        cases known : (staged.2.entries.get? (c.rel_path l)).any (compare_meta file) with
        | true =>
          have computed : (_compute_stage_result env.staging staged.1 file (c.rel_path l) (classify_file (c.rel_path l))
              (staged.2.entries.get? (c.rel_path l)) (env.flags_for (c.rel_path l))).2 = none := by
            unfold _compute_stage_result
            exact congrArg Prod.snd (if_pos known)
          rw [computed] at done
          cases done
          refine so_far.skip _ ?_
          by_cases before : c.rel_path l ∈ seen
          · exact Or.inl before
          · rw [so_far.entries,if_neg before] at known
            exact Or.inr (by simp [Checkout.fresh_file,at_root,known])
        | false =>
          obtain ⟨result,computed,at_path,entry⟩ := stage_computed env staged.1 file (c.rel_path l) known
          rw [computed] at done
          cases done
          have unseen : c.rel_path l ∉ seen := by
            intro before
            rw [so_far.entries,if_pos before] at known
            cases fresh : c.fresh_file (c.rel_path l) with
            | none =>
              rw [fresh,Option.map_none,Option.none_or] at known
              rw [fresh_of at_root known] at fresh
              contradiction
            | some other =>
              have same : some other = some file := (fresh_some fresh).1.symm.trans at_root
              cases same
              rw [fresh] at known
              simp [staged_entry,compare_meta] at known
          rw [so_far.entries,if_neg unseen] at known
          exact so_far.stage unseen (fresh_of at_root known) at_path entry

theorem stage_file_none {staged : Objects H × Index H} {l : Path} (inside : c.root.isPrefixOf l = true) :
    c.stage_file env staged l ≠ none := by
  unfold Checkout.stage_file
  rw [inside]
  simp only [Bool.not_true,Bool.false_eq_true,if_false]
  split
  · simp
  · split
    · simp
    · split
      · simp
      · simp

/-- The paths that `Repo.add` comes to stage; none where it raises. -/
def Checkout.sdk_paths (c : Checkout H) (env : Env) (cwd : Path) (paths : List Path) : List Path :=
  let files := paths.flatMap (c.files_of env cwd none)
  if files.all fun l => c.root.isPrefixOf l then (files.map c.rel_path).filter fun path => !path.endswith ".av-pointer" else []

theorem stage_files (files : List Path) {seen : List Path} (staged : Objects H × Index H) (so_far : Seen env c seen staged.2) :
    match files.foldlM (c.stage_file env) staged with
    | none => (files.all fun l => c.root.isPrefixOf l) = false
    | some staged' => (files.all fun l => c.root.isPrefixOf l) = true ∧
      Seen env c (seen ++ (files.map c.rel_path).filter fun path => !path.endswith ".av-pointer") staged'.2 := by
  induction files generalizing seen staged with
  | nil => exact ⟨rfl,by simpa using so_far⟩
  | cons l rest ih =>
    rw [List.foldlM_cons]
    cases done : c.stage_file env staged l with
    | none =>
      have outside : c.root.isPrefixOf l = false := by
        by_contra inside
        exact stage_file_none (by simpa using inside) done
      simp [outside]
    | some next =>
      obtain ⟨inside,after⟩ := so_far.stage_file done
      have later := ih next after
      rw [Option.bind_eq_bind,Option.bind_some]
      cases ended : rest.foldlM (c.stage_file env) next with
      | none =>
        rw [ended] at later
        dsimp only at later ⊢
        rw [List.all_cons,later,Bool.and_false]
      | some staged' =>
        rw [ended] at later
        dsimp only at later ⊢
        refine ⟨by rw [List.all_cons,inside,later.1]; rfl,?_⟩
        have whole := later.2
        rw [List.append_assoc] at whole
        cases pointer : (c.rel_path l).endswith ".av-pointer" <;> simpa [pointer] using whole

theorem repo_add_seen (env : Env) (c : Checkout H) (cwd : Path) (paths : List Path) :
    Seen env c (c.sdk_paths env cwd paths) (c.repo_add env cwd paths) := by
  have all := stage_files (paths.flatMap (c.files_of env cwd none)) (c.objects,c.index) (seen_nil env c)
  unfold Checkout.repo_add Checkout.sdk_paths
  cases ended : (paths.flatMap (c.files_of env cwd none)).foldlM (c.stage_file env) (c.objects,c.index) with
  | none =>
    rw [ended] at all
    dsimp only at all ⊢
    rw [if_neg (by rw [all]; exact Bool.false_ne_true)]
    exact seen_nil env c
  | some staged =>
    rw [ended] at all
    dsimp only at all ⊢
    rw [if_pos all.1]
    exact all.2

/-! `av add`: the work is chosen first, then staged, then merged. -/

/-- The index while the work is staged; a path that comes again has its flag down. -/
structure Done (env : Env) (c : Checkout H) (done : List Path) (staged : Objects H × Index H × List (StageResult H)) : Prop where
  entries : ∀ path, staged.2.1.entries.get? path = if path ∈ done then
    (c.fresh_file path).map fun file => staged_entry env file path (decide (done.count path = 1) && c.changed path file)
    else c.index.entries.get? path
  items : staged.2.2.map StageResult.rel_path = done

def Checkout.work_of (c : Checkout H) (env : Env) (path : Path) : Work H :=
  ⟨path,classify_file path,c.index.entries.get? path,env.flags_for path⟩

/-- What `av add` stages of what it comes to. -/
def Checkout.takes (c : Checkout H) (path : Path) : Bool := (c.fresh_file path).any fun file => !is_pointer_file file

theorem add_work_eq {l : Path} (inside : c.root.isPrefixOf l = true) :
    c.add_work env l = if c.takes (c.rel_path l) then some (c.work_of env (c.rel_path l)) else none := by
  unfold Checkout.add_work Checkout.takes Checkout.fresh_file
  rw [under_root inside]
  cases c.fs.files.get? l with
  | none => rfl
  | some file =>
    cases known : (c.index.entries.get? (c.rel_path l)).any (compare_meta file) <;>
      cases pointer : is_pointer_file file <;> simp [known,pointer,Checkout.work_of]

theorem Done.item {done : List Path} {staged : Objects H × Index H × List (StageResult H)} (so_far : Done env c done staged)
    (takes : c.takes path = true) : Done env c (done ++ [path]) (c.add_item env staged (c.work_of env path)) := by
  obtain ⟨file,fresh,-⟩ := (Option.any_eq_true _ _).mp takes
  obtain ⟨held,known⟩ := fresh_some fresh
  obtain ⟨result,computed,at_path,entry⟩ := stage_computed env staged.1 file path known
  obtain ⟨entries,-⟩ := apply_staged staged.2.1 at_path entry
  have next : c.add_item env staged (c.work_of env path) = ((_compute_stage_result env.staging staged.1 file path (classify_file path)
      (c.index.entries.get? path) (env.flags_for path)).1,apply_stage_result staged.2.1 result,staged.2.2 ++ [result]) := by
    unfold Checkout.add_item Checkout.work_of
    dsimp only
    rw [held]
    dsimp only
    rw [computed]
  rw [next]
  constructor
  · intro other
    dsimp only
    rw [entries other]
    by_cases same : other = path
    · subst other
      have flag : staged.2.1.changed path (.sha (sha256 file.data.bytes)) =
          (decide ((done ++ [path]).count path = 1) && c.changed path file) := by
        unfold Index.changed
        rw [so_far.entries path]
        by_cases before : path ∈ done
        · have twice : (done ++ [path]).count path ≠ 1 := by
            have once := List.count_pos_iff.mpr before
            rw [List.count_append,List.count_singleton_self]
            omega
          rw [if_pos before,fresh,decide_eq_false twice]
          simp [staged_entry]
        · have once : (done ++ [path]).count path = 1 := by
            rw [List.count_append,List.count_singleton_self,List.count_eq_zero_of_not_mem before]
          rw [if_neg before,once]
          simp [Checkout.changed,Index.changed]
      simp [fresh,flag]
    · have count : (done ++ [path]).count other = done.count other := by
        rw [List.count_append,List.count_singleton,if_neg (by simpa using fun same' => same same'.symm),Nat.add_zero]
      rw [if_neg same,so_far.entries other,count]
      simp [same]
  · dsimp only
    rw [List.map_append,so_far.items,List.map_singleton,at_path]

omit [Hashing H] in
/-- What is merged comes as it was staged, and each item takes its path from the removals once. -/
theorem merge_all (items : List (StageResult H)) {idx : Index H} (current : Index H)
    (held : ∀ item ∈ items, idx.entries.contains item.rel_path = true) :
    (∀ path, (items.foldl (merge_staged idx) current).entries.get? path =
      if path ∈ items.map StageResult.rel_path then idx.entries.get? path else current.entries.get? path) ∧
    ∀ path, (items.foldl (merge_staged idx) current).removed.count path =
      current.removed.count path - (items.map StageResult.rel_path).count path := by
  induction items generalizing current with
  | nil => exact ⟨fun path => by simp,fun path => by simp⟩
  | cons item rest ih =>
    obtain ⟨e,found⟩ := (Dict.contains_iff _ _).mp (held item List.mem_cons_self)
    have entries (path : Path) : (merge_staged idx current item).entries.get? path =
        if path = item.rel_path then some e else current.entries.get? path := by
      simp only [merge_staged,found,add_entry_entries,Dict.get?_set]
      split <;> rfl
    have removed : (merge_staged idx current item).removed = current.removed.erase item.rel_path := by
      simp only [merge_staged,found]
      rfl
    obtain ⟨later,counts⟩ := ih (merge_staged idx current item) fun other member => held other (List.mem_cons_of_mem _ member)
    constructor
    · intro path
      rw [List.foldl_cons,later path,entries path,List.map_cons]
      by_cases again : path ∈ rest.map StageResult.rel_path
      · rw [if_pos again,if_pos (List.mem_cons_of_mem _ again)]
      · by_cases same : path = item.rel_path
        · rw [if_neg again,if_pos same,if_pos (same ▸ List.mem_cons_self),same,found]
        · rw [if_neg again,if_neg same,if_neg (by simpa [same] using again)]
    · intro path
      rw [List.foldl_cons,counts path,removed,List.map_cons,List.count_cons,List.count_erase]
      omega

theorem inside_files_of {cwd path l : Path} {repo_root : Option Path} (inside : c.root.isPrefixOf path = true)
    (member : l ∈ c.files_of env cwd repo_root path) : c.root.isPrefixOf l = true := by
  unfold Checkout.files_of at member
  split at member
  · rw [List.mem_singleton.mp member]
    exact inside
  · split at member
    · simp only [iter_working_files,List.mem_filter,visible,Bool.and_eq_true] at member
      exact List.isPrefixOf_iff_prefix.mpr ((List.isPrefixOf_iff_prefix.mp inside).trans
        (List.isPrefixOf_iff_prefix.mp member.2.1.1.1))
    · contradiction

/-- The paths that `av add` stages, as often as it comes to them; none where it fails. -/
def Checkout.cli_paths (c : Checkout H) (env : Env) (paths : List Path) : List Path :=
  ((c.files_to_process env paths).getD []).map c.rel_path |>.filter c.takes

theorem work_staged {done taken : List Path} {staged : Objects H × Index H × List (StageResult H)} (so_far : Done env c done staged)
    (takes : ∀ path ∈ taken, c.takes path = true) :
    Done env c (done ++ taken) ((taken.map (c.work_of env)).foldl (c.add_item env) staged) := by
  induction taken generalizing done staged with
  | nil => simpa using so_far
  | cons path rest ih =>
    rw [List.map_cons,List.foldl_cons,List.append_cons]
    exact ih (so_far.item (takes path List.mem_cons_self)) fun other member => takes other (List.mem_cons_of_mem _ member)

theorem av_add_merged (env : Env) (c : Checkout H) (paths : List Path) :
    (∀ path, (c.av_add env paths).entries.get? path = if path ∈ c.cli_paths env paths then (c.fresh_file path).map fun file =>
      staged_entry env file path (decide ((c.cli_paths env paths).count path = 1) && c.changed path file)
      else c.index.entries.get? path) ∧
    ∀ path, (c.av_add env paths).removed.count path = c.index.removed.count path - (c.cli_paths env paths).count path := by
  unfold Checkout.av_add Checkout.cli_paths
  cases processed : c.files_to_process env paths with
  | none => exact ⟨fun path => by simp,fun path => by simp⟩
  | some files =>
    have inside : ∀ l ∈ files, c.root.isPrefixOf l = true := by
      unfold Checkout.files_to_process at processed
      split at processed
      · rename_i all
        cases processed
        intro l member
        obtain ⟨path,given,among⟩ := List.mem_flatMap.mp member
        have fits := List.all_eq_true.mp all path given
        exact inside_files_of (Bool.and_eq_true_iff.mp fits).2 among
      · contradiction
    have work : files.filterMap (c.add_work env) = ((files.map c.rel_path).filter c.takes).map (c.work_of env) := by
      clear processed
      induction files with
      | nil => rfl
      | cons l rest ih =>
        rw [List.filterMap_cons,add_work_eq (inside l List.mem_cons_self),List.map_cons,List.filter_cons]
        have later := ih fun other member => inside other (List.mem_cons_of_mem _ member)
        cases c.takes (c.rel_path l) <;> simpa using later
    have first : Done env c [] (c.objects,c.index,[]) := ⟨fun path => by simp,rfl⟩
    have takes : ∀ path ∈ (files.map c.rel_path).filter c.takes, c.takes path = true := fun path member => (List.mem_filter.mp member).2
    have staged := work_staged first takes
    rw [List.nil_append] at staged
    dsimp only [Option.getD_some]
    rw [work]
    obtain ⟨result,run⟩ : ∃ result, result = (((files.map c.rel_path).filter c.takes).map (c.work_of env)).foldl (c.add_item env)
      (c.objects,c.index,[]) := ⟨_,rfl⟩
    rw [← run] at staged ⊢
    have held : ∀ item ∈ result.2.2, result.2.1.entries.contains item.rel_path = true := by
      intro item member
      have path_of := List.mem_map_of_mem (f := StageResult.rel_path) member
      rw [staged.items] at path_of
      obtain ⟨file,fresh,-⟩ := (Option.any_eq_true _ _).mp (takes _ path_of)
      rw [Dict.contains,staged.entries,if_pos path_of,fresh]
      rfl
    obtain ⟨entries,removed⟩ := merge_all _ c.index held
    rw [staged.items] at entries removed
    refine ⟨fun path => ?_,removed⟩
    rw [entries path,staged.entries path]
    split <;> rfl

/-- One index as it is saved, where the removals are sorted. -/
def Same (a b : Index H) : Prop := (∀ path, a.entries.get? path = b.entries.get? path) ∧ a.removed.Perm b.removed

/-- An entry just staged is not the one the file differs from. -/
theorem staged_entry_fresh (fresh : c.fresh_file path = some file) (changed : Bool) :
    c.index.entries.get? path ≠ some (staged_entry env file path changed) := by
  intro same
  have known := (fresh_some fresh).2
  rw [same] at known
  simp [staged_entry,compare_meta] at known

theorem same_iff (env : Env) (c : Checkout H) (cwd : Path) (paths : List Path) :
    Same (c.av_add env paths) (c.repo_add env cwd paths) ↔ ∀ path file, c.fresh_file path = some file →
      (path ∈ c.cli_paths env paths ↔ path ∈ c.sdk_paths env cwd paths) ∧ (2 ≤ (c.cli_paths env paths).count path →
        c.changed path file = false ∧ c.index.removed.count path ≤ 1) := by
  obtain ⟨cli,cli_removed⟩ := av_add_merged env c paths
  have seen := repo_add_seen env c cwd paths
  have some_count (path : Path) : path ∈ c.cli_paths env paths ↔ 0 < (c.cli_paths env paths).count path := List.count_pos_iff.symm
  constructor
  · intro same path file fresh
    have entry := same.1 path
    rw [cli path,seen.entries path,fresh,Option.map_some,Option.map_some,Option.some_or] at entry
    have removed := same.2.count_eq path
    rw [cli_removed path,seen.removed path,fresh,Option.isSome_some] at removed
    by_cases taken : path ∈ c.cli_paths env paths
    · rw [if_pos taken] at entry
      by_cases by_sdk : path ∈ c.sdk_paths env cwd paths
      · refine ⟨iff_of_true taken by_sdk,fun twice => ?_⟩
        rw [if_pos by_sdk,Option.some.injEq] at entry
        have flag : (decide ((c.cli_paths env paths).count path = 1) && c.changed path file) = c.changed path file :=
          congrArg IndexEntry.staged entry
        rw [if_pos ⟨by_sdk,rfl⟩] at removed
        have many : (c.cli_paths env paths).count path ≠ 1 := by omega
        rw [decide_eq_false many,Bool.false_and] at flag
        exact ⟨flag.symm,by omega⟩
      · rw [if_neg by_sdk] at entry
        exact absurd entry.symm (staged_entry_fresh fresh _)
    · rw [if_neg taken] at entry
      by_cases by_sdk : path ∈ c.sdk_paths env cwd paths
      · rw [if_pos by_sdk] at entry
        exact absurd entry (staged_entry_fresh fresh _)
      · refine ⟨iff_of_false taken by_sdk,fun twice => ?_⟩
        exact absurd ((some_count path).mpr (by omega)) taken
  · intro agree
    have unfresh (path : Path) (none : c.fresh_file path = none) : path ∉ c.cli_paths env paths := by
      intro taken
      have takes := (List.mem_filter.mp taken).2
      simp [Checkout.takes,none] at takes
    constructor
    · intro path
      rw [cli path,seen.entries path]
      cases fresh : c.fresh_file path with
      | none => simp [unfresh path fresh]
      | some file =>
        obtain ⟨both,twice⟩ := agree path file fresh
        by_cases taken : path ∈ c.cli_paths env paths
        · rw [if_pos taken,if_pos (both.mp taken),Option.map_some,Option.map_some,Option.some_or]
          by_cases once : (c.cli_paths env paths).count path = 1
          · rw [decide_eq_true once,Bool.true_and]
          · have positive := (some_count path).mp taken
            rw [(twice (by omega)).1,Bool.and_false]
        · rw [if_neg taken,if_neg fun by_sdk => taken (both.mpr by_sdk)]
    · rw [List.perm_iff_count]
      intro path
      rw [cli_removed path,seen.removed path]
      cases fresh : c.fresh_file path with
      | none =>
        rw [List.count_eq_zero_of_not_mem (unfresh path fresh)]
        simp
      | some file =>
        obtain ⟨both,twice⟩ := agree path file fresh
        by_cases taken : path ∈ c.cli_paths env paths
        · rw [if_pos ⟨both.mp taken,rfl⟩]
          have positive := (some_count path).mp taken
          by_cases once : (c.cli_paths env paths).count path = 1
          · rw [once]
          · have few := (twice (by omega)).2
            omega
        · rw [if_neg fun by_sdk => taken (both.mpr by_sdk.1),List.count_eq_zero_of_not_mem taken]

/-! The same, said of the paths that are given. -/

/-- The file is given, or a walk of the directory that is given comes to it. -/
def Checkout.reaches (c : Checkout H) (env : Env) (cwd : Path) (repo_root : Option Path) (l path : Path) : Bool :=
  if c.fs.is_file path then path = l
  else c.fs.is_dir path && visible env.walk c.fs path (repo_root.getD ((c.fs.find_repo_root cwd).getD path)) l

/-- Every path that is given exists and lies in the repository. -/
def Checkout.accepts (c : Checkout H) (paths : List Path) : Bool :=
  paths.all fun path => (c.fs.is_file path || c.fs.is_dir path) && c.root.isPrefixOf path

theorem count_files_of {cwd l : Path} {repo_root : Option Path} (held : c.fs.is_file l = true) (path : Path) :
    (c.files_of env cwd repo_root path).count l = if c.reaches env cwd repo_root l path then 1 else 0 := by
  unfold Checkout.files_of Checkout.reaches
  split
  · rw [List.count_singleton]
    by_cases same : path = l <;> simp [same]
  · split
    · rename_i dir
      rw [dir,Bool.true_and]
      unfold iter_working_files
      have member : l ∈ c.fs.files.keys := (Dict.mem_keys _ _).mpr ((Dict.contains_iff _ _).mp held)
      have once : c.fs.files.keys.count l = 1 := List.count_eq_one_of_mem c.fs.files.distinct member
      split
      · rename_i seen
        rw [List.count_filter seen,once]
      · rename_i unseen
        exact List.count_eq_zero_of_not_mem fun among => unseen (List.mem_filter.mp among).2
    · rename_i other
      simp [other]

theorem count_given {cwd l : Path} {repo_root : Option Path} (held : c.fs.is_file l = true) (paths : List Path) :
    (paths.flatMap (c.files_of env cwd repo_root)).count l = paths.countP (c.reaches env cwd repo_root l) := by
  induction paths with
  | nil => rfl
  | cons path rest ih =>
    rw [List.flatMap_cons,List.count_append,count_files_of held,ih,List.countP_cons,Nat.add_comm]

theorem mem_files_of {cwd l path : Path} {repo_root : Option Path} :
    l ∈ c.files_of env cwd repo_root path ↔ c.fs.is_file l = true ∧ c.reaches env cwd repo_root l path = true := by
  unfold Checkout.files_of Checkout.reaches
  split
  · rename_i file
    rw [List.mem_singleton,decide_eq_true_eq]
    constructor
    · intro same
      exact ⟨same ▸ file,same.symm⟩
    · intro both
      exact both.2.symm
  · split
    · rename_i dir
      rw [dir,Bool.true_and,iter_working_files,List.mem_filter,FileSystem.is_file,Dict.contains_iff,Dict.mem_keys]
    · rename_i other
      simp [other]

theorem count_rel_path {files : List Path} (inside : ∀ l ∈ files, c.root.isPrefixOf l = true) (path : Path) :
    (files.map c.rel_path).count path = files.count (c.root ++ path) := by
  induction files with
  | nil => rfl
  | cons l rest ih =>
    rw [List.map_cons,List.count_cons,List.count_cons,ih fun other member => inside other (List.mem_cons_of_mem _ member)]
    have same : (c.rel_path l == path) = (l == c.root ++ path) := by
      rw [Bool.eq_iff_iff,beq_iff_eq,beq_iff_eq]
      constructor
      · intro rel
        rw [← rel,under_root (inside l List.mem_cons_self)]
      · intro whole
        rw [whole,rel_path_append]
    rw [same]

theorem cli_count (fresh : c.fresh_file path = some file) (paths : List Path) : (c.cli_paths env paths).count path =
    if c.accepts paths && !is_pointer_file file then paths.countP (c.reaches env c.root (some c.root) (c.root ++ path)) else 0 := by
  unfold Checkout.cli_paths
  have takes : c.takes path = !is_pointer_file file := by rw [Checkout.takes,fresh,Option.any_some]
  cases pointer : is_pointer_file file with
  | true =>
    rw [pointer] at takes
    rw [Bool.not_true,Bool.and_false,if_neg Bool.false_ne_true]
    exact List.count_eq_zero_of_not_mem fun member => by simp [takes] at member
  | false =>
    rw [pointer] at takes
    rw [List.count_filter takes,Bool.not_false,Bool.and_true]
    have held : c.fs.is_file (c.root ++ path) = true := (Dict.contains_iff _ _).mpr ⟨file,(fresh_some fresh).1⟩
    cases accepted : c.accepts paths with
    | false =>
      have refused : c.files_to_process env paths = none := if_neg (by rw [← Checkout.accepts,accepted]; exact Bool.false_ne_true)
      rw [refused]
      rfl
    | true =>
      have processed : c.files_to_process env paths = some (paths.flatMap (c.files_of env c.root (some c.root))) := if_pos accepted
      rw [processed,Option.getD_some,count_rel_path,count_given held,if_pos rfl]
      intro l member
      obtain ⟨given,among,reached⟩ := List.mem_flatMap.mp member
      exact inside_files_of (Bool.and_eq_true_iff.mp (List.all_eq_true.mp accepted given among)).2 reached

/-- No path that is given brings `Repo.add` to a file outside. -/
def Checkout.Stays (c : Checkout H) (env : Env) (cwd : Path) (paths : List Path) : Prop :=
  ∀ given ∈ paths, ∀ l, c.fs.is_file l = true → c.reaches env cwd none l given = true → c.root.isPrefixOf l = true

theorem mem_sdk_paths (fresh : c.fresh_file path = some file) (cwd : Path) (paths : List Path) : path ∈ c.sdk_paths env cwd paths ↔
    c.Stays env cwd paths ∧ path.endswith ".av-pointer" = false ∧ ∃ given ∈ paths, c.reaches env cwd none (c.root ++ path) given = true := by
  have held : c.fs.is_file (c.root ++ path) = true := (Dict.contains_iff _ _).mpr ⟨file,(fresh_some fresh).1⟩
  have stays : ((paths.flatMap (c.files_of env cwd none)).all fun l => c.root.isPrefixOf l) = true ↔ c.Stays env cwd paths := by
    rw [List.all_eq_true]
    constructor
    · intro all given among l file reached
      exact all l (List.mem_flatMap.mpr ⟨given,among,mem_files_of.mpr ⟨file,reached⟩⟩)
    · intro stays l member
      obtain ⟨given,among,reached⟩ := List.mem_flatMap.mp member
      obtain ⟨file,reached⟩ := mem_files_of.mp reached
      exact stays given among l file reached
  unfold Checkout.sdk_paths
  dsimp only
  split
  · rename_i all
    simp only [List.mem_filter,List.mem_map,Bool.not_eq_true']
    constructor
    · intro both
      obtain ⟨⟨l,member,rel⟩,named⟩ := both
      have whole := under_root (List.all_eq_true.mp all l member)
      rw [rel] at whole
      obtain ⟨given,among,reached⟩ := List.mem_flatMap.mp member
      exact ⟨stays.mp all,named,given,among,whole ▸ (mem_files_of.mp reached).2⟩
    · intro taken
      obtain ⟨-,named,given,among,reached⟩ := taken
      exact ⟨⟨c.root ++ path,List.mem_flatMap.mpr ⟨given,among,mem_files_of.mpr ⟨held,reached⟩⟩,rel_path_append path⟩,named⟩
  · rename_i raised
    exact iff_of_false List.not_mem_nil fun taken => raised (stays.mpr taken.1)

end

/-- Of each file that differs from its index entry: both front ends come to it, where `av add` passes by what holds a pointer
and `Repo.add` what is named like one; and where two of the paths come to it, its content is as indexed. -/
def Checkout.AddsAlike (c : Checkout H) (env : Env) (cwd : Path) (paths : List Path) : Prop :=
  ∀ path file, c.fresh_file path = some file →
    (c.accepts paths = true ∧ is_pointer_file file = false ∧
        (∃ given ∈ paths, c.reaches env c.root (some c.root) (c.root ++ path) given = true) ↔
      c.Stays env cwd paths ∧ path.endswith ".av-pointer" = false ∧
        ∃ given ∈ paths, c.reaches env cwd none (c.root ++ path) given = true) ∧
    (c.accepts paths = true → is_pointer_file file = false →
      2 ≤ paths.countP (c.reaches env c.root (some c.root) (c.root ++ path)) →
        c.changed path file = false ∧ c.index.removed.count path ≤ 1)

/-- No removal is staged alone. -/
def Checkout.NotOnlyRemovals (c : Checkout H) : Prop := c.index.get_staged_entries.entries = [] → c.index.removed = []

theorem adds_alike_iff (env : Env) (c : Checkout H) (cwd : Path) (paths : List Path) :
    Same (c.av_add env paths) (c.repo_add env cwd paths) ↔ c.AddsAlike env cwd paths := by
  rw [same_iff]
  refine forall_congr' fun path => forall_congr' fun file => forall_congr' fun fresh => ?_
  have count : (c.cli_paths env paths).count path = _ := cli_count fresh paths
  rw [mem_sdk_paths fresh,← List.count_pos_iff,count]
  have some_given : 0 < paths.countP (c.reaches env c.root (some c.root) (c.root ++ path)) ↔
      ∃ given ∈ paths, c.reaches env c.root (some c.root) (c.root ++ path) given = true := List.countP_pos_iff
  rw [← some_given]
  cases c.accepts paths <;> cases is_pointer_file file <;> simp

theorem commits_alike_iff (c : Checkout H) : c.av_commit = c.repo_commit ↔ c.NotOnlyRemovals := by
  unfold Checkout.av_commit Checkout.repo_commit Checkout.NotOnlyRemovals Checkout._commit_staged_locked
  cases c.index.get_staged_entries.entries with
  | nil =>
    cases c.index.removed with
    | nil => simp
    | cons path rest => simp
  | cons entry rest => simp

/-- Both front ends leave the same index and make the same commit exactly when they come to the same changed files, none twice
with new content, and no removal is staged alone. -/
theorem front_ends_agree_iff (env : Env) (c : Checkout H) (cwd : Path) (paths : List Path) :
    Same (c.av_add env paths) (c.repo_add env cwd paths) ∧ c.av_commit = c.repo_commit ↔
      c.AddsAlike env cwd paths ∧ c.NotOnlyRemovals := and_congr (adds_alike_iff env c cwd paths) (commits_alike_iff c)

/-- Lines of ASCII; no native extension and no attributes. -/
def plain : Env where
  walk := ⟨fun bytes => (bytes.map fun b => Char.ofNat b.toNat).splitOn '\n',true⟩
  staging := ⟨none,true,52428800⟩
  flags_for _ := []

/-- A repository at `/r` whose `.avignore` names logs, with a log in the directory `d`. -/
def logged : Checkout Name where
  fs := {
    files := Dict.ofList [(["r",".avignore"],⟨⟨letters "*.log",by decide⟩,1⟩),(["r","d","x.log"],⟨⟨letters "x",by decide⟩,1⟩)]
    dirs := [[],["r"],["r",".av"],["r","d"],["tmp"]]
  }
  root := ["r"]
  index := .empty
  objects := .empty
  head := .branch "main"
  refs := ∅

/-- From outside, `Repo.add` stages the log that `av add` ignores. -/
theorem outside_adds_ignored : ¬(Same (logged.av_add plain [["r","d"]]) (logged.repo_add plain ["tmp"] [["r","d"]]) ∧
    logged.av_commit = logged.repo_commit) := by
  intro agree
  have same := congrArg Option.isSome (agree.1.1 ["d","x.log"])
  have cli : ((logged.av_add plain [["r","d"]]).entries.get? ["d","x.log"]).isSome = false := by decide +kernel
  have sdk : ((logged.repo_add plain ["tmp"] [["r","d"]]).entries.get? ["d","x.log"]).isSome = true := by decide +kernel
  rw [cli,sdk] at same
  contradiction

end AetherVault.FrontEnds
