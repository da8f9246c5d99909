import AetherVault.Ignores
import Mathlib.Data.List.Induction
import Mathlib.Data.List.Infix

/-! `iter_working_files` as the walk that it is, over a tree of directories, with ignored directories taken out before the walk
goes into them. What it yields is said by the names and the rules alone: what a pattern stands for, and which rule decides. -/
namespace AetherVault.IgnoreMatching
open Lib PyString

/-- What one segment of a pattern stands for. -/
def Stands (segment : List Char) (last : Prop) (part : Path) : Prop :=
  if segment = ['*','*'] then last → part ≠ [] else ∃ name, part = [name] ∧ fnmatch name.toList segment = true

/-- The path falls into parts, one for each segment of the pattern. -/
def Splits (pattern : List (List Char)) (path : Path) : Prop := ∃ parts : List Path, parts.flatten = path ∧
  parts.length = pattern.length ∧ ∀ i segment part, pattern[i]? = some segment → parts[i]? = some part →
    Stands segment (i + 1 = pattern.length) part

def RuleMatches (rule : GitignoreRule) (rel_posix : Path) (name : String) (is_dir : Bool) : Prop :=
  (rule.dir_only = true → is_dir = true) ∧
    if rule.anchored = true then Splits (rule.pattern.splitOn '/') rel_posix else fnmatch name.toList rule.pattern = true

/-- The last rule that matches. -/
def Deciding (rules : List GitignoreRule) (rel_posix : Path) (name : String) (is_dir : Bool) (rule : GitignoreRule) : Prop :=
  ∃ before after, rules = before ++ rule::after ∧ RuleMatches rule rel_posix name is_dir ∧
    ∀ later ∈ after, ¬ RuleMatches later rel_posix name is_dir

/-- What the ignore files say, and `AV_NO_DEFAULT_IGNORES`. -/
structure Ignoring where
  avignore_patterns : List (List Char)
  gitignore_rules : List GitignoreRule
  default_ignores : Bool

variable (ignoring : Ignoring) (repo_root : Path)

def IgnoredByName (name : String) (is_dir : Bool) : Prop :=
  is_dir = true ∧ (name ∈ _IGNORED_DIRS ∨ ignoring.default_ignores = true ∧ name ∈ _DEFAULT_IGNORED_DIR_NAMES) ∨
    ∃ pattern ∈ ignoring.avignore_patterns, fnmatch name.toList pattern = true

def IgnoredByRule (path : Path) (name : String) (is_dir : Bool) : Prop := ∃ rel_posix rule, _rel_posix repo_root path = some rel_posix ∧
  Deciding ignoring.gitignore_rules rel_posix name is_dir rule ∧ rule.negate = false

def Ignored (dir : Path) (name : String) (is_dir : Bool) : Prop :=
  IgnoredByName ignoring name is_dir ∨ IgnoredByRule ignoring repo_root (dir ++ [name]) name is_dir

/-! The walk. -/

/-- A link to a directory is one with nothing below it. -/
inductive DirTree
  | dir (files : List String) (dirs : List (String × DirTree))

def DirTree.files : DirTree → List String
  | .dir files _ => files

def DirTree.dirs : DirTree → List (String × DirTree)
  | .dir _ dirs => dirs

inductive DirTree.Holds : DirTree → Path → Prop
  | file {tree : DirTree} {name : String} (member : name ∈ tree.files) : tree.Holds [name]
  | inside {tree sub : DirTree} {name : String} {rel : Path} (member : (name,sub) ∈ tree.dirs) (held : sub.Holds rel) : tree.Holds (name::rel)

def _gitignored (path : Path) (name : String) (is_dir : Bool) : Bool :=
  (_rel_posix repo_root path).any fun rel => _is_gitignored rel name is_dir ignoring.gitignore_rules

def keeps_dirname (dirpath : Path) (d : String) : Bool :=
  if d ∈ _IGNORED_DIRS then false
  else if ignoring.default_ignores ∧ d ∈ _DEFAULT_IGNORED_DIR_NAMES then false
  else if _matches_avignore d ignoring.avignore_patterns then false
  else !_gitignored ignoring repo_root (dirpath ++ [d]) d true

def yields_file (dirpath : Path) (f : String) : Bool :=
  if Path.endswith [f] ".pyc" ∨ Path.endswith [f] ".av-pointer" then false
  else if _matches_avignore f ignoring.avignore_patterns then false
  else !_gitignored ignoring repo_root (dirpath ++ [f]) f false

def kept_dirnames (dirpath : Path) (dirs : List (String × DirTree)) : List (String × DirTree) :=
  (dirs.filter fun d => keeps_dirname ignoring repo_root dirpath d.1).mergeSort fun a b => a.1 ≤ b.1

theorem mem_kept_dirnames {dirpath : Path} {dirs : List (String × DirTree)} {d : String × DirTree} :
    d ∈ kept_dirnames ignoring repo_root dirpath dirs ↔ d ∈ dirs ∧ keeps_dirname ignoring repo_root dirpath d.1 = true := by
  rw [kept_dirnames,List.mem_mergeSort,List.mem_filter]

theorem DirTree.sizeOf_lt {tree : DirTree} {d : String × DirTree} (member : d ∈ tree.dirs) : sizeOf d.2 < sizeOf tree := by
  cases tree with
  | dir files dirs =>
    have inside := List.sizeOf_lt_of_mem member
    have part : sizeOf d = 1 + sizeOf d.1 + sizeOf d.2 := rfl
    rw [DirTree.dir.sizeOf_spec]
    have dirs_eq : (DirTree.dir files dirs).dirs = dirs := rfl
    rw [dirs_eq] at inside
    omega

/-- The files of a directory come before those of the directories in it, and each in the order of their names. -/
def iter_working_files (dirpath : Path) (tree : DirTree) : List Path :=
  ((tree.files.mergeSort fun a b => a ≤ b).filter (yields_file ignoring repo_root dirpath)).map (fun f => dirpath ++ [f]) ++
    (kept_dirnames ignoring repo_root dirpath tree.dirs).attach.flatMap fun d => iter_working_files (dirpath ++ [d.val.1]) d.val.2
termination_by sizeOf tree
decreasing_by exact DirTree.sizeOf_lt ((mem_kept_dirnames ignoring repo_root).mp d.property).1

/-! What a pattern stands for. -/

theorem splits_nil {path : Path} : Splits [] path ↔ path = [] := by
  constructor
  · intro splits
    obtain ⟨parts,flat,size,-⟩ := splits
    rw [← flat,List.length_eq_zero_iff.mp size,List.flatten_nil]
  · intro empty
    exact ⟨[],empty.symm,rfl,fun i segment part inside => by simp at inside⟩

theorem splits_cons {segment : List Char} {rest : List (List Char)} {path : Path} : Splits (segment::rest) path ↔
    ∃ part remaining, path = part ++ remaining ∧ Stands segment (rest = []) part ∧ Splits rest remaining := by
  have last : (0 + 1 = (segment::rest).length) = (rest = []) := by
    rw [List.length_cons,eq_iff_iff,← List.length_eq_zero_iff]
    omega
  have later (i : Nat) : (i + 1 + 1 = (segment::rest).length) = (i + 1 = rest.length) := by rw [List.length_cons,Nat.add_right_cancel_iff]
  constructor
  · intro splits
    obtain ⟨parts,flat,size,stand⟩ := splits
    cases parts with
    | nil => contradiction
    | cons part parts =>
      refine ⟨part,parts.flatten,flat.symm,?_,parts,rfl,Nat.succ.inj size,?_⟩
      · have first := stand 0 segment part rfl rfl
        rwa [last] at first
      · intro i other part' inside inside'
        have next := stand (i + 1) other part' inside inside'
        rwa [later] at next
  · intro found
    obtain ⟨part,remaining,split,first,parts,flat,size,stand⟩ := found
    refine ⟨part::parts,by rw [split,List.flatten_cons,flat],by rw [List.length_cons,List.length_cons,size],?_⟩
    intro i other part' inside inside'
    cases i with
    | zero =>
      obtain rfl := Option.some.inj inside
      obtain rfl := Option.some.inj inside'
      rwa [last]
    | succ i =>
      rw [later]
      exact stand i other part' inside inside'

theorem glob_segments_match_iff (pattern : List (List Char)) (path : Path) : _glob_segments_match pattern path = true ↔ Splits pattern path := by
  induction pattern generalizing path with
  | nil => rw [splits_nil,_glob_segments_match,List.isEmpty_iff]
  | cons head rest ih =>
    rw [splits_cons]
    unfold _glob_segments_match
    by_cases stars : head = ['*','*']
    · simp only [if_pos stars,Stands]
      by_cases last : rest = []
      · -- The last `**` takes all that is left.
        rw [if_pos last,last]
        simp only [splits_nil,Bool.not_eq_true',List.isEmpty_eq_false_iff]
        constructor
        · intro nonempty
          exact ⟨path,[],(List.append_nil _).symm,fun _ => nonempty,rfl⟩
        · intro found
          obtain ⟨part,remaining,split,some_part,none_left⟩ := found
          rw [split,none_left,List.append_nil]
          exact some_part trivial
      · rw [if_neg last,List.any_eq_true]
        constructor
        · intro found
          obtain ⟨remaining,member,matched⟩ := found
          obtain ⟨part,split⟩ := (List.mem_tails _ _).mp member
          exact ⟨part,remaining,split.symm,fun none => absurd none last,(ih remaining).mp matched⟩
        · intro found
          obtain ⟨part,remaining,split,-,rest_splits⟩ := found
          exact ⟨remaining,(List.mem_tails _ _).mpr ⟨part,split.symm⟩,(ih remaining).mpr rest_splits⟩
    · simp only [if_neg stars,Stands]
      cases path with
      | nil =>
        constructor
        · intro matched
          contradiction
        · intro found
          obtain ⟨part,remaining,split,⟨name,one,-⟩,-⟩ := found
          rw [one] at split
          contradiction
      | cons first path =>
        dsimp only
        rw [Bool.and_eq_true,ih]
        constructor
        · intro both
          exact ⟨[first],path,rfl,⟨first,rfl,both.1⟩,both.2⟩
        · intro found
          obtain ⟨part,remaining,split,⟨name,one,matched⟩,rest_splits⟩ := found
          rw [one] at split
          obtain ⟨rfl,rfl⟩ := List.cons.inj split
          exact ⟨matched,rest_splits⟩

/-! Which rule decides. -/

theorem rule_matches_iff (rule : GitignoreRule) (rel_posix : Path) (name : String) (is_dir : Bool) :
    _gitignore_rule_matches rule rel_posix name is_dir = true ↔ RuleMatches rule rel_posix name is_dir := by
  unfold _gitignore_rule_matches RuleMatches
  rw [← glob_segments_match_iff]
  cases rule.dir_only <;> cases is_dir <;> cases rule.anchored <;> simp

theorem deciding_concat {rules : List GitignoreRule} {last rule : GitignoreRule} {rel_posix : Path} {name : String} {is_dir : Bool} :
    Deciding (rules ++ [last]) rel_posix name is_dir rule ↔ RuleMatches last rel_posix name is_dir ∧ rule = last ∨
      ¬ RuleMatches last rel_posix name is_dir ∧ Deciding rules rel_posix name is_dir rule := by
  constructor
  · intro deciding
    obtain ⟨before,after,split,matched,quiet⟩ := deciding
    rcases List.eq_nil_or_concat after with empty | ⟨earlier,final,ends⟩
    · rw [empty] at split
      obtain ⟨-,same⟩ := List.append_inj' split rfl
      obtain rfl := (List.cons.inj same).1
      exact .inl ⟨matched,rfl⟩
    · rw [ends,List.concat_eq_append] at split quiet
      rw [← List.cons_append,← List.append_assoc] at split
      obtain ⟨shorter,same⟩ := List.append_inj' split rfl
      obtain rfl := (List.cons.inj same).1
      exact .inr ⟨quiet _ (List.mem_append_right _ List.mem_cons_self),before,earlier,shorter,matched,
        fun later member => quiet later (List.mem_append_left _ member)⟩
  · intro either
    rcases either with ⟨matched,rfl⟩ | ⟨unmatched,before,after,split,matched,quiet⟩
    · exact ⟨rules,[],rfl,matched,fun later member => absurd member List.not_mem_nil⟩
    · refine ⟨before,after ++ [last],by rw [split,List.append_assoc,List.cons_append],matched,fun later member => ?_⟩
      rcases List.mem_append.mp member with old | new
      · exact quiet later old
      · rwa [List.mem_singleton.mp new]

theorem is_gitignored_iff (rules : List GitignoreRule) (rel_posix : Path) (name : String) (is_dir : Bool) :
    _is_gitignored rel_posix name is_dir rules = true ↔ ∃ rule, Deciding rules rel_posix name is_dir rule ∧ rule.negate = false := by
  induction rules using List.reverseRecOn with
  | nil =>
    constructor
    · intro ignored
      contradiction
    · intro found
      obtain ⟨rule,⟨before,after,split,-⟩,-⟩ := found
      exact absurd split.symm (List.append_ne_nil_of_right_ne_nil _ (List.cons_ne_nil _ _))
  | append_singleton rules last ih =>
    have folded : _is_gitignored rel_posix name is_dir (rules ++ [last]) =
        if _gitignore_rule_matches last rel_posix name is_dir then !last.negate else _is_gitignored rel_posix name is_dir rules := by
      rw [_is_gitignored,List.foldl_append]
      rfl
    have decided := rule_matches_iff last rel_posix name is_dir
    simp only [folded,deciding_concat]
    by_cases matched : RuleMatches last rel_posix name is_dir
    · rw [if_pos (decided.mpr matched)]
      simp [matched]
    · rw [if_neg (fun found => matched (decided.mp found)),ih]
      simp [matched]

/-! What the walk takes. -/

theorem gitignored_iff (path : Path) (name : String) (is_dir : Bool) :
    _gitignored ignoring repo_root path name is_dir = true ↔ IgnoredByRule ignoring repo_root path name is_dir := by
  unfold _gitignored IgnoredByRule
  cases _rel_posix repo_root path with
  | none => simp
  | some rel => simp [is_gitignored_iff]

theorem matches_avignore_iff (name : String) (patterns : List (List Char)) :
    _matches_avignore name patterns = true ↔ ∃ pattern ∈ patterns, fnmatch name.toList pattern = true := List.any_eq_true

theorem keeps_dirname_iff (dirpath : Path) (d : String) :
    keeps_dirname ignoring repo_root dirpath d = true ↔ ¬ Ignored ignoring repo_root dirpath d true := by
  unfold keeps_dirname Ignored IgnoredByName
  rw [← gitignored_iff,← matches_avignore_iff]
  split
  · simp [*]
  · split
    · simp [*]
    · split <;> simp [*]

/-- Neither compiled Python nor a pointer. -/
def Plain (name : String) : Prop := Path.endswith [name] ".pyc" = false ∧ Path.endswith [name] ".av-pointer" = false

theorem yields_file_iff (dirpath : Path) (f : String) :
    yields_file ignoring repo_root dirpath f = true ↔ Plain f ∧ ¬ Ignored ignoring repo_root dirpath f false := by
  unfold yields_file Ignored IgnoredByName Plain
  rw [← gitignored_iff,← matches_avignore_iff]
  cases Path.endswith [f] ".pyc" <;> cases Path.endswith [f] ".av-pointer" <;> split <;> simp_all

/-- No entry on the way to the file is ignored: each directory below the root as one, and the file. -/
def Unignored (root rel : Path) : Prop :=
  ∀ above name below, rel = above ++ name::below → ¬ Ignored ignoring repo_root (root ++ above) name (below ≠ [])

theorem unignored_file {root : Path} {name : String} :
    Unignored ignoring repo_root root [name] ↔ ¬ Ignored ignoring repo_root root name false := by
  constructor
  · intro unignored
    have file := unignored [] name [] rfl
    rwa [List.append_nil] at file
  · intro file above name' below split
    rcases List.append_eq_singleton_iff.mp split.symm with ⟨rfl,rest⟩ | ⟨-,rest⟩
    · obtain ⟨rfl,rfl⟩ := List.cons.inj rest
      rwa [List.append_nil]
    · contradiction

theorem unignored_below {root rel : Path} {d : String} (more : rel ≠ []) : Unignored ignoring repo_root root (d::rel) ↔
    ¬ Ignored ignoring repo_root root d true ∧ Unignored ignoring repo_root (root ++ [d]) rel := by
  constructor
  · intro unignored
    refine ⟨?_,fun above name below split => ?_⟩
    · have first := unignored [] d rel rfl
      rwa [List.append_nil,decide_eq_true more] at first
    · have later := unignored (d::above) name below (congrArg (d::·) split)
      rwa [List.append_assoc]
  · intro both above name below split
    cases above with
    | nil =>
      obtain ⟨rfl,rfl⟩ := List.cons.inj split
      rw [List.append_nil,decide_eq_true more]
      exact both.1
    | cons first above =>
      obtain ⟨rfl,rest⟩ := List.cons.inj split
      have later := both.2 above name below rest
      rwa [List.append_assoc] at later

theorem DirTree.Holds.ne_nil {tree : DirTree} {rel : Path} (held : tree.Holds rel) : rel ≠ [] := by
  cases held <;> exact List.cons_ne_nil _ _

/-- By the recursion of the walk, one directory after the other. -/
theorem mem_walk (root : Path) (tree : DirTree) (path : Path) : path ∈ iter_working_files ignoring repo_root root tree ↔
    ∃ rel, path = root ++ rel ∧ tree.Holds rel ∧ Plain path.name ∧ Unignored ignoring repo_root root rel := by
  induction root, tree using iter_working_files.induct ignoring repo_root with
  | case1 root tree ih =>
    rw [iter_working_files,List.mem_append,List.mem_map,List.mem_flatMap]
    simp only [List.mem_filter,List.mem_mergeSort,yields_file_iff]
    constructor
    · intro either
      rcases either with ⟨f,⟨member,plain,kept⟩,rfl⟩ | ⟨d,-,found⟩
      · refine ⟨[f],rfl,.file member,?_,(unignored_file ignoring repo_root).mpr kept⟩
        rwa [Path.name,List.getLastD_concat]
      · obtain ⟨member,kept⟩ := (mem_kept_dirnames ignoring repo_root).mp d.property
        obtain ⟨rel,same,held,plain,unignored⟩ := (ih d).mp found
        refine ⟨d.val.1::rel,by rw [same,List.append_assoc]; rfl,.inside member held,plain,?_⟩
        exact (unignored_below ignoring repo_root held.ne_nil).mpr ⟨(keeps_dirname_iff ignoring repo_root root d.val.1).mp kept,unignored⟩
    · intro found
      obtain ⟨rel,rfl,held,plain,unignored⟩ := found
      cases held with
      | @file _ name member =>
        rw [Path.name,List.getLastD_concat] at plain
        exact .inl ⟨name,⟨member,plain,(unignored_file ignoring repo_root).mp unignored⟩,rfl⟩
      | @inside _ sub name rel member held =>
        obtain ⟨kept,later⟩ := (unignored_below ignoring repo_root held.ne_nil).mp unignored
        have listed := (mem_kept_dirnames ignoring repo_root).mpr ⟨member,(keeps_dirname_iff ignoring repo_root root name).mpr kept⟩
        refine .inr ⟨⟨(name,sub),listed⟩,List.mem_attach _ _,(ih ⟨(name,sub),listed⟩).mpr ⟨rel,?_,held,plain,later⟩⟩
        rw [List.append_assoc]
        rfl

/-! The files of the repository, taken one by one. -/

section Files

variable (env : WalkEnv) (fs : FileSystem)

/-- What the ignore files of the repository say. -/
def Ignoring.load : Ignoring := ⟨load_avignore_patterns env fs repo_root,load_gitignore_rules env fs repo_root,env.default_ignores⟩

theorem skips_dir_iff (dir : Path) (d : String) :
    skips_dir env fs repo_root (dir ++ [d]) = true ↔ Ignored (.load repo_root env fs) repo_root dir d true := by
  have name : Path.name (dir ++ [d]) = d := List.getLastD_concat
  have ruled := gitignored_iff (.load repo_root env fs) repo_root (dir ++ [d]) d true
  rw [Ignored,IgnoredByName,← ruled,← matches_avignore_iff]
  simp [skips_dir,gitignored,_gitignored,name,Ignoring.load,or_assoc]

theorem skips_file_iff (dir : Path) (f : String) :
    skips_file env fs repo_root (dir ++ [f]) = false ↔ Plain f ∧ ¬ Ignored (.load repo_root env fs) repo_root dir f false := by
  have ruled := gitignored_iff (.load repo_root env fs) repo_root (dir ++ [f]) f false
  rw [Ignored,IgnoredByName,← ruled,← matches_avignore_iff]
  simp [skips_file,gitignored,_gitignored,Path.endswith,Plain,Path.name,Ignoring.load,and_assoc]

theorem mem_folders {root rel dir : Path} : dir ∈ folders root (root ++ rel) ↔
    ∃ above name below, rel = above ++ name::below ∧ below ≠ [] ∧ dir = root ++ above ++ [name] := by
  rw [folders,List.mem_filter,List.mem_inits,Bool.and_eq_true,decide_eq_true_eq,decide_eq_true_eq,List.length_append]
  constructor
  · intro found
    obtain ⟨⟨below,split⟩,deeper,shorter⟩ := found
    obtain ⟨mid,rfl⟩ := List.prefix_of_prefix_length_le (List.prefix_append root rel) ⟨below,split⟩ deeper.le
    rw [List.append_assoc,List.append_cancel_left_eq] at split
    rcases List.eq_nil_or_concat mid with empty | ⟨above,name,ends⟩
    · rw [empty,List.append_nil] at deeper
      omega
    · rw [ends,List.concat_eq_append] at split shorter ⊢
      refine ⟨above,name,below,by rw [← split,List.append_assoc]; rfl,fun empty => ?_,(List.append_assoc _ _ _).symm⟩
      rw [← split,empty,List.append_nil,List.length_append] at shorter
      omega
  · intro found
    obtain ⟨above,name,below,rfl,more,rfl⟩ := found
    have positive := List.length_pos_of_ne_nil more
    refine ⟨⟨below,by simp⟩,?_,?_⟩
    · simp only [List.length_append,List.length_singleton]
      omega
    · simp only [List.length_append,List.length_cons,List.length_nil]
      omega

/-- A file that the walk of a tree comes to is one that is visible from the root. -/
theorem visible_iff (root rel : Path) (more : rel ≠ []) : visible env fs root repo_root (root ++ rel) = true ↔
    Plain (Path.name (root ++ rel)) ∧ Unignored (.load repo_root env fs) repo_root root rel := by
  obtain ⟨above,f,rfl⟩ := (List.eq_nil_or_concat' rel).resolve_left more
  have start : root.isPrefixOf (root ++ (above ++ [f])) = true := List.isPrefixOf_iff_prefix.mpr (List.prefix_append _ _)
  have longer : root.length < (root ++ (above ++ [f])).length := by
    rw [List.length_append,List.length_append,List.length_singleton]
    omega
  have file := skips_file_iff repo_root env fs (root ++ above) f
  have name : Path.name (root ++ (above ++ [f])) = f := by rw [← List.append_assoc]; exact List.getLastD_concat
  rw [List.append_assoc] at file
  simp only [visible,start,longer,decide_true,Bool.true_and,Bool.and_eq_true,List.all_eq_true,Bool.not_eq_true',file,name]
  constructor
  · intro both
    obtain ⟨dirs,plain,unignored⟩ := both
    refine ⟨plain,fun above' name' below split ignored => ?_⟩
    by_cases last : below = []
    · rw [last] at split ignored
      obtain ⟨same,same'⟩ := List.append_inj' split rfl
      obtain rfl := (List.cons.inj same').1
      rw [← same] at ignored
      exact unignored ignored
    · rw [decide_eq_true last] at ignored
      have kept := dirs _ (mem_folders.mpr ⟨above',name',below,split,last,rfl⟩)
      rw [(skips_dir_iff repo_root env fs (root ++ above') name').mpr ignored] at kept
      contradiction
  · intro both
    obtain ⟨plain,unignored⟩ := both
    refine ⟨fun dir member => ?_,plain,unignored above f [] rfl⟩
    obtain ⟨above',name',below,split,last,rfl⟩ := mem_folders.mp member
    have kept := unignored above' name' below split
    rw [decide_eq_true last,← skips_dir_iff] at kept
    exact Bool.eq_false_iff.mpr kept

/-- The walk yields what the repository's files are filtered to. -/
theorem walk_files (cwd root : Path) (tree : DirTree) (mirrors : ∀ rel, tree.Holds rel ↔ fs.files.contains (root ++ rel) = true ∧ rel ≠ [])
    (path : Path) : path ∈ iter_working_files (.load repo_root env fs) repo_root root tree ↔
      path ∈ AetherVault.iter_working_files env fs cwd root (some repo_root) := by
  rw [mem_walk,AetherVault.iter_working_files,List.mem_filter,Option.getD_some,Dict.mem_keys,← Dict.contains_iff]
  constructor
  · intro found
    obtain ⟨rel,rfl,held,plain,unignored⟩ := found
    exact ⟨((mirrors rel).mp held).1,(visible_iff repo_root env fs root rel held.ne_nil).mpr ⟨plain,unignored⟩⟩
  · intro found
    obtain ⟨there,seen⟩ := found
    have below := seen
    simp only [visible,Bool.and_eq_true,decide_eq_true_eq,List.isPrefixOf_iff_prefix] at below
    obtain ⟨⟨⟨⟨rel,rfl⟩,longer⟩,-⟩,-⟩ := below
    have more : rel ≠ [] := by
      intro empty
      rw [empty,List.append_nil] at longer
      omega
    obtain ⟨plain,unignored⟩ := (visible_iff repo_root env fs root rel more).mp seen
    exact ⟨rel,rfl,(mirrors rel).mpr ⟨there,more⟩,plain,unignored⟩

end Files

/-- A pattern matches a path exactly when the path falls into parts that its segments stand for; and the walk yields a file
exactly when neither its name nor the last rule that matches takes it out, nor a directory on the way to it. -/
theorem ignore_matching : (∀ pattern path, _glob_segments_match pattern path = true ↔ Splits pattern path) ∧
    ∀ (ignoring : Ignoring) (repo_root root : Path) (tree : DirTree) (path : Path),
      path ∈ iter_working_files ignoring repo_root root tree ↔
        ∃ rel, path = root ++ rel ∧ tree.Holds rel ∧ Plain path.name ∧ Unignored ignoring repo_root root rel :=
  ⟨glob_segments_match_iff,mem_walk⟩

end AetherVault.IgnoreMatching
