import AetherVault.Safetensors

/-! The staging index and the trees it is committed as. A legacy reader can take a
field of an unrelated entry for a hash, so an entry's hash is a `Digest`. -/
namespace AetherVault
open Lib

/-- A repository path, by its segments. -/
abbrev Path := List String

instance Path.lawful : LawfulBEq Path := inferInstance

instance suffix_lawful : LawfulBEq (List Char) := inferInstance

def Path.name (path : Path) : String := path.getLastD ""

def Path.text (path : Path) : String := "/".intercalate path

/-- `lower()`; the Kelvin sign is the one other character that lowers to an ASCII letter. -/
def lower (c : Char) : Char := if c = '\u212a' then 'k' else c.toLower

/-- `Path.suffix`: from the last dot on, unless it opens or ends the name. -/
def suffix (name : List Char) : List Char :=
  let extension := (name.reverse.takeWhile (· != '.')).reverse
  if extension.length + 1 < name.length ∧ extension ≠ [] then '.'::extension else []

def Path.suffix (path : Path) : List Char := (AetherVault.suffix path.name.toList).map lower

def Path.endswith (path : Path) (ending : String) : Bool := ending.toList.isSuffixOf path.name.toList

inductive FileType
  | code
  | artifact
  | file
  deriving DecidableEq

def FileType.upper : FileType → String
  | .code => "CODE"
  | .artifact => "ARTIFACT"
  | .file => "FILE"

/-- What a reader may find where it expects a content hash. -/
inductive Digest (H : Type)
  | sha (h : H)
  | size (n : Nat)
  | kind (type : FileType)
  | layers (parts : List (Layer H))
  | chunks (parts : List (Chunk H))
  deriving DecidableEq

structure TreeEntry (H : Type) where
  hash : Digest H
  size : Nat
  type : FileType
  layers : List (Layer H)
  chunks : List (Chunk H)
  deriving DecidableEq

abbrev Tree (H : Type) := Dict Path (TreeEntry H)

structure IndexEntry (H : Type) where
  hash : Digest H
  size : Nat
  mtime_ns : Nat
  type : FileType
  staged : Bool
  pointer : Option Path
  layers : List (Layer H)
  chunks : List (Chunk H)
  deriving DecidableEq

/-- The pointer file next to an artifact. -/
def Path.pointer (path : Path) : Path := path.dropLast ++ [path.name ++ ".av-pointer"]

def pointer_of (path : Path) (type : FileType) : Option Path :=
  if type = .artifact then some path.pointer else none

structure Index (H : Type) where
  entries : Dict Path (IndexEntry H)
  removed : List Path

namespace Index

variable {H : Type} [DecidableEq H]

def empty : Index H := ⟨∅,[]⟩

def classify_file (path : Path) : FileType :=
  if path.suffix ∈ [".py",".json",".yaml",".yml",".toml",".cfg",".md",".txt"].map String.toList
  then .code else .artifact

/-- Whether the content counts as new is decided against the entry being replaced. -/
def add_entry (idx : Index H) (path : Path) (hash : Digest H) (size mtime_ns : Nat) (file_type : FileType)
    (pointer : Option Path) : Index H :=
  let changed := match idx.entries.get? path with
    | none => true
    | some existing => decide (existing.hash ≠ hash)
  { entries := idx.entries.set path ⟨hash,size,mtime_ns,file_type,changed,pointer,[],[]⟩
    removed := idx.removed.erase path }

/-- `add_entry`, and then `["layers"]` and `["chunks"]` of the new entry where there are any. -/
def add_split_entry (idx : Index H) (path : Path) (hash : Digest H) (size mtime_ns : Nat) (file_type : FileType)
    (pointer : Option Path) (layers : List (Layer H)) (chunks : List (Chunk H)) : Index H :=
  let added := idx.add_entry path hash size mtime_ns file_type pointer
  let layered := if layers = [] then added.entries else added.entries.modify path (fun e => {e with layers := layers})
  {added with entries := if chunks = [] then layered else layered.modify path (fun e => {e with chunks := chunks})}

/-- What `add_entry` calls `changed`. -/
def changed (idx : Index H) (path : Path) (hash : Digest H) : Bool :=
  (idx.entries.get? path).all (fun existing => decide (existing.hash ≠ hash))

theorem add_entry_entries (idx : Index H) (path : Path) (hash : Digest H) (size mtime_ns : Nat) (type : FileType)
    (pointer : Option Path) : (idx.add_entry path hash size mtime_ns type pointer).entries =
      idx.entries.set path ⟨hash,size,mtime_ns,type,idx.changed path hash,pointer,[],[]⟩ := by
  unfold Index.add_entry changed
  cases idx.entries.get? path <;> rfl

theorem add_split_entry_get (idx : Index H) (path other : Path) (hash : Digest H) (size mtime_ns : Nat)
    (type : FileType) (pointer : Option Path) (layers : List (Layer H)) (chunks : List (Chunk H)) :
    (idx.add_split_entry path hash size mtime_ns type pointer layers chunks).entries.get? other =
      if other = path then some ⟨hash,size,mtime_ns,type,idx.changed path hash,pointer,layers,chunks⟩
      else idx.entries.get? other := by
  unfold add_split_entry
  by_cases cut : layers = [] <;> by_cases chunked : chunks = [] <;> by_cases same : other = path <;>
    simp [add_entry_entries,Dict.get?_modify,Dict.get?_set,cut,chunked,same]

def stage_removal (idx : Index H) (path : Path) : Index H :=
  { entries := idx.entries.erase path
    removed := if path ∈ idx.removed then idx.removed else idx.removed ++ [path] }

def get_staged_entries (idx : Index H) : Dict Path (IndexEntry H) := idx.entries.filter (fun _ e => e.staged)

def clear_staged (idx : Index H) : Index H :=
  { entries := idx.entries.map (fun _ e => {e with staged := false}),removed := [] }

end Index

def IndexEntry.tree_entry {H : Type} (e : IndexEntry H) : TreeEntry H := ⟨e.hash,e.size,e.type,e.layers,e.chunks⟩

/-- The tree that `commit_staged` snapshots from the index. -/
def Index.tree {H : Type} [DecidableEq H] (idx : Index H) : Tree H := idx.entries.map (fun _ e => e.tree_entry)

example : Index.classify_file ["src","Train.PY"] = .code := by decide

end AetherVault
