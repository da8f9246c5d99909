import AetherVault.WorkTrees
import Mathlib.Data.List.Infix

/-! A checkout that fails: what of the working tree it has changed by then. -/
namespace AetherVault.WorkTrees
open Lib Hashing

/-! Files on the disk. -/

namespace Disk

variable (disk : Disk)

theorem file_at_write (path other : Path) (file : File) :
    (disk.write path file).file_at other = if other = path then some file else disk.file_at other := by
  unfold file_at write
  rw [Dict.get?_set]
  by_cases same : other = path <;> simp [same]

theorem file_at_erase (path other : Path) : file_at (disk.erase path) other = if other = path then none else disk.file_at other := by
  unfold file_at
  rw [Dict.get?_erase]
  by_cases same : other = path <;> simp [same]

theorem mkdir_get (path other : Path) : (disk.mkdir_parents path).get? other =
    (disk.get? other).or (if other ∈ ancestors path then some .dir else none) := by
  unfold mkdir_parents
  induction ancestors path generalizing disk with
  | nil => simp
  | cons parent rest ih =>
    have one : (if disk.contains parent then disk else disk.set parent .dir).get? other =
        (disk.get? other).or (if other = parent then some .dir else none) := by
      cases held : disk.contains parent with
      | true =>
        rw [if_pos rfl]
        by_cases same : other = parent
        · obtain ⟨node,found⟩ := (Dict.contains_iff _ _).mp held
          rw [same,found]
          rfl
        · rw [if_neg same,Option.or_none]
      | false =>
        rw [if_neg Bool.false_ne_true,Dict.get?_set]
        by_cases same : other = parent
        · rw [same,(Dict.contains_false _ _).mp held]
          simp
        · simp [same]
    rw [List.foldl_cons,ih,one]
    cases disk.get? other with
    | some node => rfl
    | none => by_cases same : other = parent <;> simp [same]

theorem file_at_mkdir (path other : Path) : (disk.mkdir_parents path).file_at other = disk.file_at other := by
  unfold file_at
  rw [mkdir_get]
  cases disk.get? other with
  | some node => rfl
  | none => by_cases above : other ∈ ancestors path <;> simp [above]

end Disk

theorem mem_ancestors {path parent : Path} : parent ∈ Disk.ancestors path ↔ parent <+: path ∧ parent ≠ path := by
  rw [Disk.ancestors,List.mem_filter,List.mem_inits,decide_eq_true_eq]

/-- A directory is made only above `path`. -/
theorem get_mkdir_below (disk : Disk) {path other : Path} (below : path <+: other) :
    (disk.mkdir_parents path).get? other = disk.get? other := by
  have beside : other ∉ Disk.ancestors path := by
    intro above
    obtain ⟨onto,differ⟩ := mem_ancestors.mp above
    exact differ (onto.eq_of_length_le below.length_le)
  rw [Disk.mkdir_get,if_neg beside,Option.or_none]

theorem is_dir_mkdir (disk : Disk) {path other : Path} (below : path <+: other) :
    (disk.mkdir_parents path).is_dir other = disk.is_dir other := by
  rw [Disk.is_dir,get_mkdir_below disk below]
  rfl

variable {H : Type} [DecidableEq H] [Hashing H] [HexDigest H]

/-! What restoring one file comes to, where all object files it needs are there. -/

omit [Hashing H] [HexDigest H] in
/-- The shards in their order, put together. -/
def joined (objects : ObjectFiles H) : List H → Option Bytes
  | [] => some []
  | h::rest => (objects.get? h).bind fun file => (joined objects rest).map fun others => file.content ++ others

def split (e : TreeEntry H) : Bool := e.layers ≠ [] || e.chunks ≠ []

/-- What is written, if the object files hold what the entry's hash says. -/
def restored (now : Nat) (objects : ObjectFiles H) (e : TreeEntry H) : Option File :=
  if split e then ((joined objects (shards_of e.layers e.chunks)).filter fun content => e.hash = .sha (sha256 content)).map fun content => ⟨content,now⟩
  else match e.hash with
    | .sha h => (objects.get? h).filter fun file => sha256 file.content = h
    | _ => none

def target (disk : Disk) (path : Path) (e : TreeEntry H) : Path :=
  if split e then path else match e.hash with
    | .sha h => copied_to disk path h
    | _ => path

/-- A file or a directory is in the way, or what the object files hold is not the entry's content. -/
def fails (now : Nat) (objects : ObjectFiles H) (disk : Disk) (path : Path) (e : TreeEntry H) : Bool :=
  disk.blocked path || disk.is_dir (target disk path e) || (restored now objects e).isNone

/-- A hash that can be cut into the name of an object file. -/
def legible (e : TreeEntry H) : Bool :=
  match e.hash with
  | .sha _ => true
  | .kind _ => true
  | _ => false

/-- A split file is opened for writing before its shards are read, and deleted when they do not fit. -/
def wrecks (now : Nat) (objects : ObjectFiles H) (disk : Disk) (path : Path) (e : TreeEntry H) : Bool :=
  legible e && split e && !disk.blocked path && !disk.is_dir path && (restored now objects e).isNone

/-- Every object that a restore looks for is there. -/
def Present (objects : ObjectFiles H) (e : TreeEntry H) : Prop := entry_missing objects false e = false

def put (disk : Disk) (path : Path) (e : TreeEntry H) (file : File) : Disk := (disk.mkdir_parents path).write (target disk path e) file

section
variable {now : Nat} {registry : Registry H} {objects : ObjectFiles H} {disk : Disk} {path : Path} {e : TreeEntry H}

variable (now registry) in
omit [Hashing H] [HexDigest H] in
theorem fetch_shards_local {shards : List H} (present : ∀ h ∈ shards, objects.contains h = true) :
    ∃ content, joined objects shards = some content ∧ fetch_shards now registry objects shards = (objects,some content) := by
  induction shards with
  | nil => exact ⟨[],rfl,rfl⟩
  | cons h rest ih =>
    obtain ⟨file,found⟩ := (Dict.contains_iff _ _).mp (present h List.mem_cons_self)
    obtain ⟨others,whole,fetched⟩ := ih fun other member => present other (List.mem_cons_of_mem _ member)
    refine ⟨file.content ++ others,?_,?_⟩
    · rw [joined,found,whole]
      rfl
    · simp only [fetch_shards,fetch_shard,found,fetched,Option.map_some]

omit [HexDigest H] in
theorem shards_present (present : Present objects e) : ∀ h ∈ shards_of e.layers e.chunks, objects.contains h = true := by
  intro h member
  have among : h ∈ parts_of e := by
    unfold shards_of at member
    unfold parts_of
    split at member
    · rename_i layered
      rw [if_pos layered]
      exact member
    · rename_i unlayered
      rw [if_neg unlayered]
      obtain ⟨chunk,chunk_in,same⟩ := List.mem_map.mp member
      exact List.mem_map.mpr ⟨chunk,(List.mem_insertionSort _).mp chunk_in,same⟩
  unfold Present entry_missing at present
  rw [if_pos (List.ne_nil_of_mem among),List.any_eq_false] at present
  simpa using present h among

omit [HexDigest H] in
theorem object_present {h : H} (present : Present objects e) (parts : split e = false) (hash : e.hash = .sha h) :
    ∃ file, objects.get? h = some file := by
  simp only [split,Bool.or_eq_false_iff,decide_eq_false_iff_not,not_not] at parts
  unfold Present entry_missing parts_of at present
  cases found : objects.get? h with
  | some file => exact ⟨file,rfl⟩
  | none => simp [parts.1,parts.2,hash,found] at present

omit [DecidableEq H] [Hashing H] in
theorem target_mkdir : target (disk.mkdir_parents path) path e = target disk path e := by
  unfold target copied_to
  rw [is_dir_mkdir disk List.prefix_rfl]

omit [DecidableEq H] [Hashing H] in
theorem target_below : path <+: target disk path e := by
  unfold target copied_to
  split
  · exact List.prefix_rfl
  · split
    · split
      · exact List.prefix_append _ _
      · exact List.prefix_rfl
    · exact List.prefix_rfl

omit [HexDigest H] in
/-- A hash that is no object's name is no content's either. -/
theorem restored_odd (odd : ∀ h, e.hash ≠ .sha h) : restored now objects e = none := by
  unfold restored
  split
  · rw [Option.map_eq_none_iff,Option.filter_eq_none_iff]
    intro content _
    simpa using odd (sha256 content)
  · split
    · rename_i h same
      exact absurd same (odd h)
    · rfl

omit [HexDigest H] in
/-- The split branch, once the parents are there. -/
theorem reassemble_local (present : Present objects e) (parts : split e = true) (free : disk.is_dir path = false) :
    reassemble now registry true ⟨disk,objects⟩ path e.hash (shards_of e.layers e.chunks) =
      (restored now objects e).elim (⟨disk.erase path,objects⟩,false) fun file => (⟨disk.write path file,objects⟩,true) := by
  obtain ⟨content,whole,fetched⟩ := fetch_shards_local now registry (shards_present present)
  unfold reassemble restored
  rw [if_neg (by simp [free]),fetched,if_pos parts,whole,Option.filter_some]
  by_cases same : e.hash = .sha (sha256 content)
  · simp [same]
  · simp [same]

theorem whole_local {h : H} (present : Present objects e) (parts : split e = false) (hash : e.hash = .sha h) :
    materialize_whole now registry true ⟨disk,objects⟩ path h =
      (restored now objects e).elim (⟨disk,objects⟩,false) fun file => copy_object ⟨disk,objects⟩ path h file := by
  obtain ⟨file,found⟩ := object_present present parts hash
  have content : restored now objects e = (objects.get? h).filter fun file => sha256 file.content = h := by
    unfold restored
    rw [if_neg (by simp [parts]),hash]
  unfold materialize_whole
  rw [content,found,Option.filter_some]
  by_cases same : sha256 file.content = h
  · simp [same]
  · simp [same]

section
variable {verify : Bool} {place : Place H}

theorem materialize_refused (refused : legible e = false ∨ place.disk.blocked path = true) :
    materialize_file now registry verify place path e = (place,false) := by
  unfold materialize_file
  cases refused with
  | inl odd => cases hash : e.hash <;> simp_all [legible]
  | inr stuck => cases hash : e.hash <;> simp [stuck]

theorem materialize_split (read : legible e = true) (open_way : place.disk.blocked path = false) (parts : split e = true) :
    materialize_file now registry verify place path e =
      reassemble now registry verify {place with disk := place.disk.mkdir_parents path} path e.hash (shards_of e.layers e.chunks) := by
  have cut : e.layers ≠ [] ∨ e.chunks ≠ [] := by simpa [split] using parts
  unfold materialize_file
  cases hash : e.hash <;> simp_all [legible]

theorem materialize_sha {h : H} (hash : e.hash = .sha h) (open_way : place.disk.blocked path = false) (parts : split e = false) :
    materialize_file now registry verify place path e =
      materialize_whole now registry verify {place with disk := place.disk.mkdir_parents path} path h := by
  have whole : ¬(e.layers ≠ [] ∨ e.chunks ≠ []) := by simpa [split] using parts
  unfold materialize_file
  rw [hash]
  dsimp only
  rw [if_neg (by simp [open_way]),if_neg whole]

theorem materialize_nameless (read : legible e = true) (odd : ∀ h, e.hash ≠ .sha h) (open_way : place.disk.blocked path = false)
    (parts : split e = false) : materialize_file now registry verify place path e =
      ({place with disk := place.disk.mkdir_parents path},false) := by
  have whole : ¬(e.layers ≠ [] ∨ e.chunks ≠ []) := by simpa [split] using parts
  unfold materialize_file
  cases hash : e.hash <;> simp_all [legible]

end

omit [DecidableEq H] [Hashing H] in
theorem free_mkdir (free : disk.is_dir (target disk path e) = false) :
    (disk.mkdir_parents path).is_dir (target (disk.mkdir_parents path) path e) = false := by
  rw [is_dir_mkdir disk target_below,target_mkdir]
  exact free

variable (registry) in
theorem materialize_ok (present : Present objects e) (fine : fails now objects disk path e = false) : ∃ file,
    restored now objects e = some file ∧
    materialize_file now registry true ⟨disk,objects⟩ path e = (⟨put disk path e file,objects⟩,true) := by
  simp only [fails,Bool.or_eq_false_iff] at fine
  obtain ⟨⟨open_way,free⟩,there⟩ := fine
  obtain ⟨file,content⟩ := Option.ne_none_iff_exists'.mp (Option.isNone_eq_false_iff.mp there |> Option.isSome_iff_ne_none.mp)
  have hash : ∃ h, e.hash = .sha h := by
    by_contra odd
    rw [restored_odd fun h same => odd ⟨h,same⟩] at content
    contradiction
  obtain ⟨h,hash⟩ := hash
  refine ⟨file,content,?_⟩
  have free := free_mkdir free
  unfold put
  rw [← target_mkdir]
  cases parts : split e with
  | true =>
    have here : target (disk.mkdir_parents path) path e = path := if_pos parts
    rw [here] at free ⊢
    rw [materialize_split (by simp [legible,hash]) open_way parts,reassemble_local present parts free,content]
    rfl
  | false =>
    have here : target (disk.mkdir_parents path) path e = copied_to (disk.mkdir_parents path) path h := by
      unfold target
      rw [if_neg (by simp [parts]),hash]
    rw [here] at free ⊢
    rw [materialize_sha hash open_way parts,whole_local present parts hash,content,Option.elim_some,copy_object,if_neg (by simp [free])]

variable (registry) in
/-- A failure leaves the files as they were, but for the one that it wrecks. -/
theorem materialize_fails (present : Present objects e) (failed : fails now objects disk path e = true) : ∃ after,
    materialize_file now registry true ⟨disk,objects⟩ path e = (⟨after,objects⟩,false) ∧ ∀ other,
      after.file_at other = if wrecks now objects disk path e = true ∧ other = path then none else disk.file_at other := by
  have unchanged (after : Disk) (same : ∀ other, after.file_at other = disk.file_at other) (spared : wrecks now objects disk path e = false)
      (other : Path) : after.file_at other = if wrecks now objects disk path e = true ∧ other = path then none else disk.file_at other := by
    rw [same,if_neg (by simp [spared])]
  cases read : legible e with
  | false => exact ⟨disk,materialize_refused (Or.inl read),unchanged disk (fun _ => rfl) (by simp [wrecks,read])⟩
  | true =>
  cases open_way : disk.blocked path with
  | true => exact ⟨disk,materialize_refused (Or.inr open_way),unchanged disk (fun _ => rfl) (by simp [wrecks,open_way])⟩
  | false =>
  have made := unchanged (disk.mkdir_parents path) (disk.file_at_mkdir path)
  cases parts : split e with
  | true =>
    have here : target disk path e = path := if_pos parts
    rw [materialize_split read open_way parts]
    cases free : disk.is_dir path with
    | true =>
      have full : (disk.mkdir_parents path).is_dir path = true := by rw [is_dir_mkdir disk List.prefix_rfl,free]
      exact ⟨_,if_pos full,made (by simp [wrecks,free])⟩
    | false =>
      have unfit : restored now objects e = none := by simpa [fails,open_way,here,free] using failed
      have room : (disk.mkdir_parents path).is_dir path = false := by rw [is_dir_mkdir disk List.prefix_rfl,free]
      rw [reassemble_local present parts room,unfit]
      refine ⟨_,rfl,fun other => ?_⟩
      rw [Disk.file_at_erase,Disk.file_at_mkdir]
      simp [wrecks,read,open_way,parts,free,unfit]
  | false =>
    have spared : wrecks now objects disk path e = false := by simp [wrecks,parts]
    by_cases named : ∃ h, e.hash = .sha h
    · obtain ⟨h,hash⟩ := named
      rw [materialize_sha hash open_way parts,whole_local present parts hash]
      cases content : restored now objects e with
      | none => exact ⟨_,rfl,made spared⟩
      | some file =>
        have here : target (disk.mkdir_parents path) path e = copied_to (disk.mkdir_parents path) path h := by
          unfold target
          rw [if_neg (by simp [parts]),hash]
        have full : disk.is_dir (target disk path e) = true := by simpa [fails,open_way,content] using failed
        rw [← is_dir_mkdir disk target_below,← target_mkdir,here] at full
        exact ⟨_,if_pos full,made spared⟩
    · rw [materialize_nameless read (fun h same => named ⟨h,same⟩) open_way parts]
      exact ⟨_,rfl,made spared⟩

omit [DecidableEq H] [Hashing H] in
theorem file_at_put (file : File) (other : Path) :
    (put disk path e file).file_at other = if other = target disk path e then some file else disk.file_at other := by
  rw [put,Disk.file_at_write,Disk.file_at_mkdir]

end

/-! One file after the other. -/

/-- The bytes of every file are the same. -/
def SameFiles (disk after : Disk) : Prop := ∀ path, (after.file_at path).map File.content = (disk.file_at path).map File.content

def in_place (now : Nat) (objects : ObjectFiles H) (disk : Disk) (path : Path) (e : TreeEntry H) : Bool :=
  (disk.file_at (target disk path e)).map File.content = (restored now objects e).map File.content

/-- None of the files fails in its turn. -/
def through (now : Nat) (objects : ObjectFiles H) (disk : Disk) : List (Path × TreeEntry H) → Bool
  | [] => true
  | item::rest => !fails now objects disk item.1 item.2 &&
    (restored now objects item.2).all fun file => through now objects (put disk item.1 item.2 file) rest

/-- Where a file is not in place yet, none of those behind it fails; before that, none fails that is deleted for it. -/
def careful (now : Nat) (objects : ObjectFiles H) (disk : Disk) : List (Path × TreeEntry H) → Bool
  | [] => true
  | item::rest =>
    if fails now objects disk item.1 item.2 then !(wrecks now objects disk item.1 item.2 && (disk.file_at item.1).isSome)
    else (restored now objects item.2).all fun file =>
      if in_place now objects disk item.1 item.2 then careful now objects (put disk item.1 item.2 file) rest
      else through now objects (put disk item.1 item.2 file) rest

section
variable {now : Nat} {registry : Registry H} {objects : ObjectFiles H} {disk : Disk} {items : List (Path × TreeEntry H)}

theorem restore_files_objects (present : ∀ item ∈ items, Present objects item.2) :
    (restore_files now registry true ⟨disk,objects⟩ items).1.objects = objects := by
  induction items generalizing disk with
  | nil => rfl
  | cons item rest ih =>
    rw [restore_files]
    cases fate : fails now objects disk item.1 item.2 with
    | true =>
      obtain ⟨after,done,-⟩ := materialize_fails registry (present item List.mem_cons_self) fate
      rw [done]
      rfl
    | false =>
      obtain ⟨file,-,done⟩ := materialize_ok registry (present item List.mem_cons_self) fate
      rw [done]
      exact ih fun other member => present other (List.mem_cons_of_mem _ member)

theorem restore_files_through (registry : Registry H) (present : ∀ item ∈ items, Present objects item.2) :
    (restore_files now registry true ⟨disk,objects⟩ items).2 = through now objects disk items := by
  induction items generalizing disk with
  | nil => rfl
  | cons item rest ih =>
    rw [restore_files,through]
    cases fate : fails now objects disk item.1 item.2 with
    | true =>
      obtain ⟨after,done,-⟩ := materialize_fails registry (present item List.mem_cons_self) fate
      rw [done]
      rfl
    | false =>
      obtain ⟨file,content,done⟩ := materialize_ok registry (present item List.mem_cons_self) fate
      rw [done,content]
      exact ih fun other member => present other (List.mem_cons_of_mem _ member)

theorem in_place_same {item : Path × TreeEntry H} {file : File} (content : restored now objects item.2 = some file)
    (here : in_place now objects disk item.1 item.2 = true) : SameFiles disk (put disk item.1 item.2 file) := by
  intro path
  rw [file_at_put]
  by_cases same : path = target disk item.1 item.2
  · simp only [in_place,content,decide_eq_true_eq] at here
    rw [if_pos same,same,here]
  · rw [if_neg same]

/-- Where the condition holds, a failure leaves every file as it was. -/
theorem careful_same (present : ∀ item ∈ items, Present objects item.2) (careful_here : careful now objects disk items = true)
    (failed : (restore_files now registry true ⟨disk,objects⟩ items).2 = false) :
    SameFiles disk (restore_files now registry true ⟨disk,objects⟩ items).1.disk := by
  induction items generalizing disk with
  | nil => contradiction
  | cons item rest ih =>
    have others : ∀ other ∈ rest, Present objects other.2 := fun other member => present other (List.mem_cons_of_mem _ member)
    rw [restore_files] at failed ⊢
    rw [careful] at careful_here
    cases fate : fails now objects disk item.1 item.2 with
    | true =>
      obtain ⟨after,done,files⟩ := materialize_fails registry (present item List.mem_cons_self) fate
      rw [done]
      rw [fate,if_pos rfl] at careful_here
      intro path
      change (after.file_at path).map File.content = _
      rw [files]
      split
      · rename_i wrecked
        have nothing : disk.file_at item.1 = none := by simpa [wrecked.1] using careful_here
        rw [wrecked.2,nothing]
      · rfl
    | false =>
      obtain ⟨file,content,done⟩ := materialize_ok registry (present item List.mem_cons_self) fate
      rw [done] at failed ⊢
      rw [fate,if_neg Bool.false_ne_true,content,Option.all_some] at careful_here
      cases here : in_place now objects disk item.1 item.2 with
      | true =>
        rw [here,if_pos rfl] at careful_here
        intro path
        exact (ih others careful_here failed path).trans (in_place_same content here path)
      | false =>
        rw [here,if_neg Bool.false_ne_true,← restore_files_through registry others] at careful_here
        exact absurd (careful_here.symm.trans failed) Bool.true_eq_false.mp

/-- Neither path is the other, nor lies below it. -/
def Apart (p q : Path) : Prop := ¬p <+: q ∧ ¬q <+: p

omit [DecidableEq H] [Hashing H] in
/-- What is restored apart from a path comes to no file below that path. -/
theorem target_apart {path p below : Path} {e : TreeEntry H} (apart : Apart p path) (under : p <+: below) : below ≠ target disk path e := by
  intro same
  have onto : path <+: below := same ▸ target_below
  cases List.prefix_or_prefix_of_prefix under onto with
  | inl first => exact apart.1 first
  | inr second => exact apart.2 second

theorem restore_files_elsewhere (present : ∀ item ∈ items, Present objects item.2) {p below : Path} (under : p <+: below)
    (apart : ∀ item ∈ items, Apart p item.1) :
    (restore_files now registry true ⟨disk,objects⟩ items).1.disk.file_at below = disk.file_at below := by
  induction items generalizing disk with
  | nil => rfl
  | cons item rest ih =>
    rw [restore_files]
    have away := apart item List.mem_cons_self
    cases fate : fails now objects disk item.1 item.2 with
    | true =>
      obtain ⟨after,done,files⟩ := materialize_fails registry (present item List.mem_cons_self) fate
      rw [done]
      refine (files below).trans (if_neg fun wrecked => away.1 ?_)
      exact wrecked.2 ▸ under
    | false =>
      obtain ⟨file,content,done⟩ := materialize_ok registry (present item List.mem_cons_self) fate
      rw [done]
      have untouched : (put disk item.1 item.2 file).file_at below = disk.file_at below := by
        rw [file_at_put,if_neg (target_apart away under)]
      rw [← untouched]
      exact ih (fun other member => present other (List.mem_cons_of_mem _ member))
        fun other member => apart other (List.mem_cons_of_mem _ member)

/-- Where no path lies below another, it holds in every failure that leaves the files as they were. -/
theorem careful_of_same (registry : Registry H) (present : ∀ item ∈ items, Present objects item.2)
    (apart : items.Pairwise fun item other => Apart item.1 other.1)
    (same : (restore_files now registry true ⟨disk,objects⟩ items).2 = false →
      SameFiles disk (restore_files now registry true ⟨disk,objects⟩ items).1.disk) : careful now objects disk items = true := by
  induction items generalizing disk with
  | nil => rfl
  | cons item rest ih =>
    obtain ⟨away,apart⟩ := List.pairwise_cons.mp apart
    have others : ∀ other ∈ rest, Present objects other.2 := fun other member => present other (List.mem_cons_of_mem _ member)
    rw [restore_files] at same
    rw [careful]
    cases fate : fails now objects disk item.1 item.2 with
    | true =>
      obtain ⟨after,done,files⟩ := materialize_fails registry (present item List.mem_cons_self) fate
      rw [done] at same
      rw [if_pos rfl]
      cases wrecked : wrecks now objects disk item.1 item.2 with
      | false => rfl
      | true =>
        have gone := (same rfl item.1).symm
        change _ = (after.file_at item.1).map File.content at gone
        rw [files,wrecked,if_pos ⟨rfl,rfl⟩,Option.map_none,Option.map_eq_none_iff] at gone
        rw [gone]
        rfl
    | false =>
      obtain ⟨file,content,done⟩ := materialize_ok registry (present item List.mem_cons_self) fate
      rw [done] at same
      rw [if_neg Bool.false_ne_true,content,Option.all_some]
      cases here : in_place now objects disk item.1 item.2 with
      | true =>
        rw [if_pos rfl]
        refine ih others apart fun failed path => ?_
        exact (same failed path).trans (in_place_same content here path).symm
      | false =>
        rw [if_neg Bool.false_ne_true,← restore_files_through registry others]
        by_contra stopped
        have kept := same (by simpa using stopped) (target disk item.1 item.2)
        have written : (restore_files now registry true ⟨put disk item.1 item.2 file,objects⟩ rest).1.disk.file_at
            (target disk item.1 item.2) = some file := by
          rw [restore_files_elsewhere others target_below away,file_at_put,if_pos rfl]
        change ((restore_files now registry true ⟨put disk item.1 item.2 file,objects⟩ rest).1.disk.file_at
          (target disk item.1 item.2)).map File.content = _ at kept
        rw [written] at kept
        simp [in_place,content,← kept] at here

omit [Hashing H] [HexDigest H] in
theorem downloads_keep (missing : List H) {objects : ObjectFiles H} {h : H} (held : objects.contains h = true) :
    (missing.foldl (fun objects h => (registry h).elim objects fun content => objects.set h ⟨content,now⟩) objects).contains h = true := by
  induction missing generalizing objects with
  | nil => exact held
  | cons other rest ih =>
    rw [List.foldl_cons]
    refine ih ?_
    cases registry other with
    | none => exact held
    | some content => exact Dict.contains_set _ _ _ held

omit [HexDigest H] in
theorem present_of_hashes {e : TreeEntry H} (held : ∀ h ∈ entry_hashes e, objects.contains h = true) (named : entry_hashes e ≠ []) :
    Present objects e := by
  unfold Present entry_missing
  split
  · rename_i parts
    rw [List.any_eq_false]
    intro h among
    have listed : h ∈ e.layers.map (·.hash) ++ e.chunks.map (·.hash) := by
      unfold parts_of at among
      split at among
      · exact List.mem_append_left _ among
      · exact List.mem_append_right _ among
    rw [held h (by unfold entry_hashes; dsimp only; rw [if_pos (List.ne_nil_of_mem listed)]; exact listed)]
    exact Bool.false_ne_true
  · rename_i whole
    have bare : e.layers = [] ∧ e.chunks = [] := by
      unfold parts_of at whole
      split at whole
      · rename_i layered
        exact absurd (by simpa using layered) whole
      · rename_i unlayered
        exact ⟨by simpa using unlayered,by simpa using whole⟩
    cases hash : e.hash with
    | sha h =>
      have only : entry_hashes e = [h] := by simp [entry_hashes,bare.1,bare.2,hash]
      obtain ⟨file,found⟩ := (Dict.contains_iff _ _).mp (held h (by rw [only]; exact List.mem_singleton_self h))
      simp [found]
    | _ => simp [entry_hashes,bare.1,bare.2,hash] at named

omit [HexDigest H] in
/-- Where nothing stands against the restore, every object that it looks for is there. -/
theorem prepare_present {server : Option (Registry H)} {tree : Tree H} (ready : (prepare now server objects tree true).2 = true) :
    ∀ item ∈ tree.entries, Present (prepare now server objects tree true).1 item.2 := by
  intro item member
  unfold prepare at ready ⊢
  cases server with
  | none =>
    have none_missing := List.map_eq_nil_iff.mp (List.isEmpty_iff.mp ready)
    have there := List.filter_eq_nil_iff.mp none_missing item member
    unfold Present
    unfold entry_missing at there ⊢
    split
    · rename_i parts
      simpa [parts] using there
    · rename_i whole
      cases hash : item.2.hash with
      | sha h =>
        cases found : objects.get? h with
        | some file => simp [found]
        | none => simp [whole,hash,found] at there
      | _ => simp [whole,hash] at there
  | some registry =>
    simp only [ensure_objects_local,Bool.and_eq_true,List.all_eq_true] at ready
    have held : ∀ h ∈ entry_hashes item.2, (ensure_objects_local now registry objects tree).1.contains h = true := by
      intro h among
      cases here : objects.contains h with
      | true => exact downloads_keep _ here
      | false =>
        refine ready.1 h (List.mem_filter.mpr ⟨List.mem_flatMap.mpr ⟨item,member,among⟩,?_⟩)
        rw [here]
        rfl
    exact present_of_hashes held (by simpa using ready.2 item member)

omit [DecidableEq H] [Hashing H] [HexDigest H] in
theorem prefix_free_apart {tree : Tree H} (prefix_free : PrefixFree tree) :
    tree.entries.Pairwise fun item other => Apart item.1 other.1 := by
  have distinct : tree.entries.Pairwise fun item other => item.1 ≠ other.1 := List.pairwise_map.mp tree.distinct
  have held (item : Path × TreeEntry H) (member : item ∈ tree.entries) : tree.contains item.1 = true :=
    (Dict.contains_iff _ _).mpr ⟨item.2,(Dict.mem_entries _ _ _).mp member⟩
  refine distinct.imp_of_mem fun {item other} first second differ => ⟨fun under => ?_,fun under => ?_⟩
  · exact differ (prefix_free _ _ (held item first) (held other second) under)
  · exact differ (prefix_free _ _ (held other second) (held item first) under).symm

end

/-- The files of the working tree, the index and HEAD are as they were. -/
def Untouched (repo after : Repo H) : Prop := SameFiles repo.disk after.disk ∧ after.index = repo.index ∧ after.head = repo.head

/-- Once the checks have passed, every file of the target that is restored before one fails was in place, and the one that fails is
not deleted for it. -/
def Spares (now : Nat) (server : Option (Registry H)) (force : Bool) (repo : Repo H) (target : Tree H) : Prop :=
  (force = true ∨ _collect_dirty_paths repo target = []) → tree_is_flat target = true →
    (prepare now server repo.objects target true).2 = true →
      careful now (prepare now server repo.objects target true).1 repo.disk target.entries = true

section
variable {now : Nat} {server : Option (Registry H)} {force : Bool} {repo : Repo H} {target : Tree H} {head : Head H}

/-- What the loop over the target's files comes to, from the object files that are there by then. -/
def restored_files (now : Nat) (server : Option (Registry H)) (repo : Repo H) (target : Tree H) : Place H × Bool :=
  restore_files now (server.getD fun _ => none) true ⟨repo.disk,(prepare now server repo.objects target true).1⟩ target.entries

/-- A checkout that passes its checks goes through exactly where its files do. -/
theorem checkout_passed (passed : force = true ∨ _collect_dirty_paths repo target = []) (flat : tree_is_flat target = true)
    (ready : (prepare now server repo.objects target true).2 = true) : checkout now server force repo target head =
      if (restored_files now server repo target).2 then
        ({settle {repo with toPlace := (restored_files now server repo target).1} (target.map tree_index_entry) with head := head},true)
      else ({repo with toPlace := (restored_files now server repo target).1},false) := by
  have go : ¬(!force && !(_collect_dirty_paths repo target).isEmpty) = true := by
    cases passed with
    | inl forced => simp [forced]
    | inr clean => simp [clean]
  unfold checkout _materialize_tree restored_files
  rw [if_neg go,if_pos flat]
  simp only [ready,Bool.not_true,Bool.false_eq_true,if_false]
  split <;> simp

theorem materialize_legacy (now : Nat) (server : Option (Registry H)) (verify : Bool) (repo : Repo H) (odd : tree_is_flat target = false) :
    _materialize_tree now server verify repo target = (legacy_items target).elim (repo,false) fun items =>
      (settle repo (items.foldl (fun idx item => idx.add_entry item.1 item.2 0 0 .code none) Index.empty).entries,true) := by
  unfold _materialize_tree
  rw [if_neg (by simp [odd])]
  cases legacy_items target <;> rfl

/-- Where nothing is restored nothing is changed. -/
theorem checkout_refused (refused : (force = true ∨ _collect_dirty_paths repo target = []) → tree_is_flat target = true →
    (prepare now server repo.objects target true).2 = false) (failed : (checkout now server force repo target head).2 = false) :
    Untouched repo (checkout now server force repo target head).1 := by
  have same : SameFiles repo.disk repo.disk := fun _ => rfl
  unfold checkout _materialize_tree at failed ⊢
  split
  · exact ⟨same,rfl,rfl⟩
  · rename_i go
    rw [if_neg go] at failed
    have passed : force = true ∨ _collect_dirty_paths repo target = [] := by
      cases forced : force with
      | true => exact Or.inl rfl
      | false => exact Or.inr (by simpa [forced] using go)
    cases flat : tree_is_flat target with
    | true =>
      have unready := refused passed flat
      simp only [unready,Bool.not_false,if_true,Bool.false_eq_true,if_false]
      exact ⟨same,rfl,rfl⟩
    | false =>
      simp only [flat,Bool.false_eq_true,if_false] at failed ⊢
      cases legacy : legacy_items target with
      | none => exact ⟨same,rfl,rfl⟩
      | some items => simp [legacy] at failed

/-- A checkout that fails has changed nothing where it spares the files, and where no path of the target lies below another,
only there. -/
theorem checkout_all_or_nothing (now : Nat) (server : Option (Registry H)) (force : Bool) (repo : Repo H) (target : Tree H)
    (head : Head H) :
    (Spares now server force repo target → (checkout now server force repo target head).2 = false →
      Untouched repo (checkout now server force repo target head).1) ∧
    (PrefixFree target → ((checkout now server force repo target head).2 = false →
      Untouched repo (checkout now server force repo target head).1) → Spares now server force repo target) := by
  constructor
  · intro spares failed
    by_cases passed : force = true ∨ _collect_dirty_paths repo target = []
    · cases flat : tree_is_flat target with
      | true =>
        cases ready : (prepare now server repo.objects target true).2 with
        | true =>
          rw [checkout_passed passed flat ready] at failed ⊢
          cases done : (restored_files now server repo target).2 with
          | true => simp [done] at failed
          | false =>
            rw [if_neg Bool.false_ne_true]
            exact ⟨careful_same (prepare_present ready) (spares passed flat ready) done,rfl,rfl⟩
        | false => exact checkout_refused (fun _ _ => ready) failed
      | false => exact checkout_refused (fun _ flat' => absurd (flat.symm.trans flat') Bool.false_ne_true) failed
    · exact checkout_refused (fun passed' => absurd passed' passed) failed
  · intro prefix_free untouched passed flat ready
    rw [checkout_passed passed flat ready] at untouched
    refine careful_of_same (server.getD fun _ => none) (prepare_present ready) (prefix_free_apart prefix_free) fun failed => ?_
    change (restored_files now server repo target).2 = false at failed
    rw [failed,if_neg Bool.false_ne_true] at untouched
    exact (untouched rfl).1

end

def object_file (content : Bytes) : Name × File := (sha256 content,⟨content,1⟩)

/-- Two clean files, and a damaged shard among the objects. -/
def damaged : Repo Name where
  disk := Dict.ofList [(["a.py"],.file ⟨[1],1⟩),(["b.pt"],.file ⟨[2],1⟩)]
  objects := Dict.ofList [object_file [9],(sha256 [3,4],⟨[0],1⟩)]
  index := ⟨Dict.ofList [(["a.py"],⟨.sha (sha256 [1]),1,1,.code,false,none,[],[]⟩),
    (["b.pt"],⟨.sha (sha256 [2]),1,1,.artifact,false,none,[],[]⟩)],[]⟩
  head := .branch "main"

def torn : Tree Name := Dict.ofList [(["a.py"],⟨.sha (sha256 [9]),1,.code,[],[]⟩),
  (["b.pt"],⟨.sha (sha256 [3,4]),2,.artifact,[],[⟨sha256 [3,4],2,0⟩]⟩)]

/-- The checkout fails at the second file, with the first rewritten and the second deleted. -/
theorem torn_checkout_changes_files : (checkout 5 none false damaged torn (.branch "other")).2 = false ∧
    ¬Untouched damaged (checkout 5 none false damaged torn (.branch "other")).1 := by
  refine ⟨by decide +kernel,fun untouched => ?_⟩
  have before : (damaged.disk.file_at ["b.pt"]).map File.content = some [2] := by decide +kernel
  have after : ((checkout 5 none false damaged torn (.branch "other")).1.disk.file_at ["b.pt"]).map File.content = none := by
    decide +kernel
  have same := untouched.1 ["b.pt"]
  rw [before,after] at same
  contradiction

end AetherVault.WorkTrees
