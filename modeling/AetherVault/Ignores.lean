import AetherVault.Staging
import AetherVault.Lib.PyString

/-! `iter_working_files`: which files below a directory a walk of the working tree comes to, under the ignore files of
the repository whose rules it takes. -/
namespace AetherVault
open Lib PyString

/-- Files and directories, by their absolute paths. -/
structure FileSystem where
  files : Dict Path WorkFile
  dirs : List Path

/-- What the process brings: how the text of an ignore file falls into lines, and `AV_NO_DEFAULT_IGNORES`. -/
structure WalkEnv where
  splitlines : Bytes → List (List Char)
  default_ignores : Bool

namespace FileSystem

def is_dir (fs : FileSystem) (path : Path) : Bool := path ∈ fs.dirs

def is_file (fs : FileSystem) (path : Path) : Bool := fs.files.contains path

/-- The nearest directory on the way up that holds an `.av`. -/
def find_repo_root (fs : FileSystem) (cwd : Path) : Option Path := cwd.inits.reverse.find? fun parent => fs.is_dir (parent ++ [".av"])

end FileSystem

variable (env : WalkEnv) (fs : FileSystem)

def read_ignore_lines (path : Path) : List (List Char) :=
  match fs.files.get? path with
  | none => []
  | some file => env.splitlines file.data.bytes

def load_avignore_patterns (repo_root : Path) : List (List Char) :=
  (read_ignore_lines env fs (repo_root ++ [".avignore"])).filterMap fun raw =>
    let line := strip raw
    if line = [] ∨ line.head? = some '#' then none else some (line.reverse.dropWhile (· = '/')).reverse

def _matches_avignore (name : String) (patterns : List (List Char)) : Bool := patterns.any fun pattern => fnmatch name.toList pattern

structure GitignoreRule where
  pattern : List Char
  negate : Bool
  dir_only : Bool
  anchored : Bool

/-- The last characters first. -/
def drop_trailing_spaces : List Char → List Char
  | ' ' :: '\\' :: rest => ' ' :: '\\' :: rest
  | ' '::rest => drop_trailing_spaces rest
  | cs => cs

def unescape_spaces : List Char → List Char
  | '\\' :: ' ' :: rest => ' ' :: unescape_spaces rest
  | c::rest => c::unescape_spaces rest
  | [] => []

def _strip_ignore_trailing_spaces (line : List Char) : List Char := unescape_spaces (drop_trailing_spaces line.reverse).reverse

/-- A line without a rule is `none`. -/
def parse_gitignore_line (raw : List Char) : Option GitignoreRule :=
  let line := _strip_ignore_trailing_spaces raw
  let negate := line.head? = some '!'
  let bare := if negate then line.tail else line
  let dir_only := bare.getLast? = some '/' ∧ !(['\\','/'].isSuffixOf bare)
  let named := if dir_only then bare.dropLast else bare
  let anchored := '/' ∈ named.dropLast ∨ named.head? = some '/'
  let pattern := named.dropWhile (· = '/')
  if strip line = [] ∨ (lstrip line).head? = some '#' ∨ pattern = [] then none else some ⟨pattern,negate,dir_only,anchored⟩

def load_gitignore_rules (repo_root : Path) : List GitignoreRule :=
  (read_ignore_lines env fs (repo_root ++ [".gitignore"])).filterMap parse_gitignore_line

/-- `**` stands for any number of segments, for at least one where it comes last. -/
def _glob_segments_match : List (List Char) → Path → Bool
  | [],path => path.isEmpty
  | head::rest,path =>
    if head = ['*','*'] then
      if rest = [] then !path.isEmpty else path.tails.any (_glob_segments_match rest)
    else match path with
      | [] => false
      | first::path => fnmatch first.toList head && _glob_segments_match rest path

def _gitignore_rule_matches (rule : GitignoreRule) (rel_posix : Path) (name : String) (is_dir : Bool) : Bool :=
  if rule.dir_only && !is_dir then false
  else if rule.anchored then _glob_segments_match (rule.pattern.splitOn '/') rel_posix
  else fnmatch name.toList rule.pattern

/-- The last rule that matches wins. -/
def _is_gitignored (rel_posix : Path) (name : String) (is_dir : Bool) (rules : List GitignoreRule) : Bool :=
  rules.foldl (fun ignored rule => if _gitignore_rule_matches rule rel_posix name is_dir then !rule.negate else ignored) false

def _IGNORED_DIRS : List String := [".av",".git","__pycache__"]

def _DEFAULT_IGNORED_DIR_NAMES : List String :=
  ["venv",".venv","env","node_modules","build","dist",".tox",".nox",".mypy_cache",".pytest_cache",".ruff_cache",".eggs",
    "site-packages",".ipynb_checkpoints"]

/-- A path outside is `none`, the repository itself a dot. -/
def _rel_posix (repo_root path : Path) : Option Path :=
  if repo_root.isPrefixOf path then
    if path = repo_root then some ["."] else some (path.drop repo_root.length)
  else none

def gitignored (repo_root path : Path) (is_dir : Bool) : Bool :=
  (_rel_posix repo_root path).any fun rel => _is_gitignored rel path.name is_dir (load_gitignore_rules env fs repo_root)

def skips_dir (repo_root path : Path) : Bool :=
  path.name ∈ _IGNORED_DIRS || env.default_ignores && path.name ∈ _DEFAULT_IGNORED_DIR_NAMES ||
    _matches_avignore path.name (load_avignore_patterns env fs repo_root) || gitignored env fs repo_root path true

def skips_file (repo_root path : Path) : Bool :=
  path.endswith ".pyc" || path.endswith ".av-pointer" ||
    _matches_avignore path.name (load_avignore_patterns env fs repo_root) || gitignored env fs repo_root path false

/-- The directories between the root of a walk and a file below it. -/
def folders (root path : Path) : List Path := path.inits.filter fun dir => root.length < dir.length && dir.length < path.length

/-- A walk comes to a file below its root unless it skips the file or a directory on the way. -/
def visible (root repo_root path : Path) : Bool :=
  root.isPrefixOf path && root.length < path.length && (folders root path).all (fun dir => !skips_dir env fs repo_root dir) &&
    !skips_file env fs repo_root path

/-- The files are named without an order, which nothing that is made of them depends on. -/
def iter_working_files (cwd root : Path) (repo_root : Option Path) : List Path :=
  let repo_root := repo_root.getD ((fs.find_repo_root cwd).getD root)
  fs.files.keys.filter fun path => visible env fs root repo_root path

end AetherVault
