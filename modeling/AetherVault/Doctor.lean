import AetherVault.World
import AetherVault.Pointers
import AetherVault.Lib.FileTree
import AetherVault.Lib.SecureHash

/-! `av doctor --fix`: its four repairs, and the order they come in. Hashes are read from files as they are, so any text can stand
for one. -/
namespace AetherVault.Doctor
open Lib Lib.CodePoints Lib.FileTree Pointers

def hexdigest (content : Bytes) : Str :=
  (SecureHash.hexadecimal (SecureHash.digest (SecureHash.bits content))).map Char.toNat

abbrev Files := FileTree.Tree Str Bytes

def up : Str := lit ".."

/-- A path that starts at a directory; an absolute one starts at the root. -/
structure Route where
  start : List Str
  rest : List Str

/-- What `pathlib` keeps of a text. -/
def components (text : Str) : List Str := (split 47 text).filter fun part => part ≠ [] && part ≠ lit "."

def Route.join (route : Route) (text : Str) : Route :=
  if text.head? = some 47 then ⟨[],components text⟩ else ⟨route.start,route.rest ++ components text⟩

def present (files : Files) (route : Route) : Bool := (lookup up files route.start route.rest).isSome

structure Entry where
  hash : Str
  size : Int
  mtime_ns : Nat
  type : FileType
  staged : Bool
  pointer : Option Str
  layers : List Str
  chunks : List Str

structure Index where
  entries : Dict Str Entry
  removed : List Str

/-- The new entry has neither layers nor chunks; the index is saved at once. -/
def Index.add_entry (idx : Index) (rel_path hash : Str) (size : Int) (mtime_ns : Nat) (file_type : FileType)
    (pointer : Option Str) : Index :=
  let changed := (idx.entries.get? rel_path).all fun existing => decide (existing.hash ≠ hash)
  { entries := idx.entries.set rel_path ⟨hash,size,mtime_ns,file_type,changed,pointer,[],[]⟩
    removed := idx.removed.erase rel_path }

/-- `none` for a queue that cannot be read. -/
structure Disk where
  files : Files
  index : Index
  pending_push : Option (List (QueueEntry Str))

inductive Reply
  | content (bytes : Bytes)
  | failed
  | refused

structure Server where
  available : Bool
  object : Str → Reply

/-- A commit of another process: what its hash is taken of, and the file it is written to. -/
structure Commit where
  hashed : Bytes
  data : Bytes
  ref_name : Option String

inductive Delivery
  | delivered
  | kept
  | refused
  | unreadable

/-- What a run meets: the server when it comes to an entry, and the other processes between its own steps. -/
structure Surroundings where
  av_dir : List Str
  decimals : Decimals
  pointers : Dict Str (Option Str)
  at_orphan : Str → Server
  at_pointer : Str → Server
  at_queue : Bool
  at_flush : Bool
  delivers : QueueEntry Str → Delivery
  loaded : List Commit
  checked : List Commit
  saved : List Commit
  pushed : List Commit

section Doctor

variable (w : Surroundings)

def object_path (h : Str) : Route := ((Route.mk w.av_dir [lit "objects"]).join (h.take 2)).join (h.drop 2)

def commit_path (commit_hash : Str) : Route := (Route.mk w.av_dir [lit "commits"]).join (commit_hash ++ lit ".json")

/-- The bytes that belong to the hash are there. -/
def available (files : Files) (h : Str) : Bool :=
  match lookup up files (object_path w h).start (object_path w h).rest with
  | some (.file content) => hexdigest content = h
  | some .directory => false
  | none => false

/-- `none` where it raises. A reply that does not hash to the name leaves only the directories made for it. -/
def download_object (server : Server) (files : Files) (h : Str) : Files × Option Bool :=
  match server.object h with
  | .refused => (files,none)
  | .failed => (files,some false)
  | .content bytes =>
    match mkdirs up files (object_path w h).start (object_path w h).rest.dropLast with
    | (made,none) => (made,none)
    | (made,some parent) =>
      match (object_path w h).rest.getLast? with
      | none => (made,none)
      | some name =>
        if hexdigest bytes ≠ h then (made,some false)
        else match publish made (parent ++ [name]) bytes with
          | none => (made,none)
          | some later => (later,some true)

/-- `all(...)` over the downloads. -/
def download_all (server : Server) : Files → List Str → Files × Option Bool
  | files,[] => (files,some true)
  | files,h::rest =>
    match download_object w server files h with
    | (later,some true) => download_all server later rest
    | (later,some false) => (later,some false)
    | (later,none) => (later,none)

/-! Orphaned pointer entries. -/

def _missing_parts (files : Files) (parts : List Str) : List Str := parts.filter fun h => !present files (object_path w h)

def _artifact_content_missing (files : Files) (entry : Entry) : Bool :=
  if entry.layers ≠ [] then _missing_parts w files entry.layers ≠ []
  else if entry.chunks ≠ [] then _missing_parts w files entry.chunks ≠ []
  else !present files (object_path w entry.hash)

def orphaned (disk : Disk) : List (Str × Entry) :=
  disk.index.entries.entries.filter fun e => e.2.pointer.any (· ≠ []) && _artifact_content_missing w disk.files e.2

def wanted (files : Files) (entry : Entry) : List Str :=
  if entry.layers ≠ [] then _missing_parts w files entry.layers
  else if entry.chunks ≠ [] then _missing_parts w files entry.chunks
  else [entry.hash]

/-- A loop over what is broken, and what it has mended. -/
structure Loop where
  disk : Disk
  mended : List Str
  raised : Bool

def Loop.next (s : Loop) (disk : Disk) (path : Str) : Option Bool → Loop
  | none => ⟨disk,s.mended,true⟩
  | some false => ⟨disk,s.mended,false⟩
  | some true => ⟨disk,s.mended ++ [path],false⟩

def recover (s : Loop) (orphan : Str × Entry) : Loop :=
  if s.raised then s
  else if (w.at_orphan orphan.1).available then
    let got := download_all w (w.at_orphan orphan.1) s.disk.files (wanted w s.disk.files orphan.2)
    s.next {s.disk with files := got.1} orphan.1 got.2
  else s.next s.disk orphan.1 (some false)

/-! Stale pointer files. -/

def pointer_of (original : Str) : Str := original ++ lit ".av-pointer"

/-- The pointer files by the paths they stand next to. -/
def stale (disk : Disk) : List (Str × Option Str) := w.pointers.entries.filter fun p => !disk.index.entries.contains p.1

def parsed (text : Option Str) : Option (Str × Int) :=
  text.bind fun content => (parse_pointer w.decimals content).bind fun res =>
    res.hash.bind fun h => res.size.map fun size => (h,size)

def fetch (server : Server) (files : Files) (h : Str) : Files × Option Bool :=
  if present files (object_path w h) then (files,some true)
  else if server.available then download_object w server files h
  else (files,some false)

def relink (s : Loop) (pointer : Str × Option Str) : Loop :=
  if s.raised then s
  else match parsed w pointer.2 with
    | none => s
    | some found =>
      match fetch w (w.at_pointer pointer.1) s.disk.files found.1 with
      | (files,some true) => s.next {s.disk with
          files := files
          index := s.disk.index.add_entry pointer.1 found.1 found.2 0 .artifact (some (pointer_of pointer.1))} pointer.1 (some true)
      | (files,other) => s.next {s.disk with files := files} pointer.1 other

/-! The queue. -/

def queue_pending_push (pending : List (QueueEntry Str)) (commit_hash : Str) (ref_name : Option String) : List (QueueEntry Str) :=
  if pending.any fun entry => entry.commit_hash == commit_hash then pending else pending ++ [⟨commit_hash,ref_name⟩]

/-- What the processes share, and the commits that others have queued. -/
structure Shared where
  files : Files
  pending : List (QueueEntry Str)
  queued : List Str

/-- The commit is written before it is queued. -/
def finalize (s : Shared) (commit : Commit) : Shared :=
  match mkdirs up s.files w.av_dir [lit "commits"] with
  | (made,none) => {s with files := made}
  | (made,some commits_dir) =>
    match publish made (commits_dir ++ [hexdigest commit.hashed ++ lit ".json"]) commit.data with
    | none => {s with files := made}
    | some later =>
      ⟨later,queue_pending_push s.pending (hexdigest commit.hashed) commit.ref_name,s.queued ++ [hexdigest commit.hashed]⟩

def recoverable (files : Files) (pending : List (QueueEntry Str)) : List (QueueEntry Str) :=
  pending.filter fun entry => present files (commit_path w entry.commit_hash)

def unrecoverable (files : Files) (pending : List (QueueEntry Str)) : List (QueueEntry Str) :=
  pending.filter fun entry => !present files (commit_path w entry.commit_hash)

structure Cleared where
  shared : Shared
  recoverable : List (QueueEntry Str)
  unrecoverable : List (QueueEntry Str)

/-- `save_pending_push` writes what was read before, without the lock of the queue. -/
def clear_pending (files : Files) (pending : List (QueueEntry Str)) : Cleared :=
  let read := w.loaded.foldl (finalize w) ⟨files,pending,[]⟩
  let lost := unrecoverable w read.files pending
  let kept := recoverable w read.files pending
  let now := w.checked.foldl (finalize w) read
  ⟨if lost = [] then now else {now with pending := kept},kept,lost⟩

/-- What has been delivered when the loop is through, or when it raises and how. -/
def deliver (files : Files) : List (QueueEntry Str) → List Str × Option Delivery
  | [] => ([],none)
  | entry::rest =>
    if present files (commit_path w entry.commit_hash) then
      match w.delivers entry with
      | .delivered => (entry.commit_hash::(deliver files rest).1,(deliver files rest).2)
      | .kept => deliver files rest
      | .refused => ([],some .refused)
      | .unreadable => ([],some .unreadable)
    else (entry.commit_hash::(deliver files rest).1,(deliver files rest).2)

def remove_pending_push (pending : List (QueueEntry Str)) (commit_hashes : List Str) : List (QueueEntry Str) :=
  pending.filter fun entry => entry.commit_hash ∉ commit_hashes

/-- The second part is what is still pending, `none` where it raises. -/
def flush_pending_push (s : Shared) : Shared × Option (List (QueueEntry Str)) :=
  let tried := w.saved.foldl (finalize w) s
  let now := w.pushed.foldl (finalize w) tried
  if tried.pending = [] || !w.at_flush then (now,some now.pending)
  else
    let sent := deliver w tried.files tried.pending
    let remaining := remove_pending_push now.pending sent.1
    match sent.2 with
    | none => ({now with pending := remaining},some remaining)
    | some .unreadable => (now,none)
    | some _ => ({now with pending := remaining},none)

/-! Leftover temporary files. -/

/-- What `*.tmp.*` matches. -/
def temporary (name : Str) : Bool := name.tails.any (lit ".tmp.").isPrefixOf

def leftovers (files : Files) : List (List Str) :=
  files.keys.filter fun path => w.av_dir.isPrefixOf path && w.av_dir ≠ path && path.getLast?.any temporary

/-! The four repairs. -/

inductive Report
  | relinked_orphan (path : Str)
  | relinked_pointer (original : Str)
  | cleared (entries : List (QueueEntry Str))
  | pushed (tried still : List (QueueEntry Str))
  | removed (paths : List (List Str))

structure Run where
  disk : Disk
  reports : List Report
  raised : Bool

def Run.andThen (run : Run) (pass : Disk → Run) : Run :=
  if run.raised then run else {pass run.disk with reports := run.reports ++ (pass run.disk).reports}

/-- A loop reports when it is through. -/
def Loop.run (s : Loop) (report : Str → Report) : Run := ⟨s.disk,if s.raised then [] else s.mended.map report,s.raised⟩

def mend_orphans (disk : Disk) : Run := ((orphaned w disk).foldl (recover w) ⟨disk,[],false⟩).run .relinked_orphan

def mend_pointers (disk : Disk) : Run := ((stale w disk).foldl (relink w) ⟨disk,[],false⟩).run .relinked_pointer

/-- What was pushed is counted against the entries read at first. -/
def push_report (tried still : List (QueueEntry Str)) : List Report :=
  if tried.length = still.length then [] else [.pushed tried still]

def mend_queue (disk : Disk) : Run :=
  match disk.pending_push with
  | none => ⟨disk,[],true⟩
  | some pending =>
    let after := clear_pending w disk.files pending
    let report := if after.unrecoverable = [] then [] else [.cleared after.unrecoverable]
    if after.recoverable = [] || !w.at_queue then
      ⟨{disk with files := after.shared.files,pending_push := some after.shared.pending},report,false⟩
    else
      let flushed := flush_pending_push w after.shared
      let left := {disk with files := flushed.1.files,pending_push := some flushed.1.pending}
      match flushed.2 with
      | none => ⟨left,report,true⟩
      | some still => ⟨left,report ++ push_report after.recoverable still,false⟩

/-- The removal is reported before it is tried. -/
def remove_leftovers (disk : Disk) : Run :=
  let swept := unlink_all disk.files (leftovers w disk.files)
  ⟨{disk with files := swept.1},if leftovers w disk.files = [] then [] else [.removed (leftovers w disk.files)],!swept.2⟩

def doctor (disk : Disk) : Run :=
  (((mend_orphans w disk).andThen (mend_pointers w)).andThen (mend_queue w)).andThen (remove_leftovers w)

end Doctor

end AetherVault.Doctor
