import AetherVault.CheckoutRollback
import AetherVault.MergeLaws

/-! A checkout that goes through: the files, the index and the directories in their way. -/
namespace AetherVault.WorkTrees
open Lib Hashing

/-! What is deleted. -/

namespace Disk

variable (disk : Disk)

theorem file_at_rmdir (dirs : List Path) (path : Path) : (disk.rmdir_empty dirs).file_at path = disk.file_at path := by
  induction dirs generalizing disk with
  | nil => rfl
  | cons dir rest ih =>
    rw [rmdir_empty]
    split
    · rfl
    · rename_i removable
      simp only [Bool.or_eq_true,Bool.not_eq_true',not_or,Bool.not_eq_false,is_dir,decide_eq_true_eq] at removable
      rw [ih,file_at_erase]
      split
      · rename_i same
        rw [same,file_at,removable.1]
      · rfl

theorem file_at_removed (path other : Path) : (disk.remove_file_and_pointer path).file_at other =
    if other = path ∨ other = path.pointer then none else disk.file_at other := by
  have unlinked (disk : Disk) (path : Path) : (disk.unlink path).file_at other = if other = path then none else disk.file_at other := by
    unfold unlink
    split
    · exact file_at_erase disk path other
    · rename_i absent
      split
      · rename_i same
        simpa [same] using absent
      · rfl
  have removed : (disk.remove_file path).file_at other = if other = path then none else disk.file_at other := by
    unfold remove_file
    split
    · rw [file_at_rmdir,file_at_erase]
    · rename_i absent
      split
      · rename_i same
        simpa [same] using absent
      · rfl
  rw [remove_file_and_pointer,unlinked,removed]
  by_cases first : other = path <;> by_cases second : other = path.pointer <;> simp [first,second]

theorem file_at_removed_all (paths : List Path) (other : Path) : (paths.foldl remove_file_and_pointer disk).file_at other =
    if ∃ path ∈ paths, other = path ∨ other = path.pointer then none else disk.file_at other := by
  induction paths generalizing disk with
  | nil => simp
  | cons path rest ih =>
    rw [List.foldl_cons,ih,file_at_removed]
    by_cases later : ∃ path ∈ rest, other = path ∨ other = path.pointer
    · rw [if_pos later,if_pos]
      obtain ⟨again,member,same⟩ := later
      exact ⟨again,List.mem_cons_of_mem _ member,same⟩
    · rw [if_neg later]
      by_cases here : other = path ∨ other = path.pointer
      · rw [if_pos here,if_pos ⟨path,List.mem_cons_self,here⟩]
      · rw [if_neg here,if_neg]
        intro found
        obtain ⟨again,member,same⟩ := found
        cases List.mem_cons.mp member with
        | inl first => exact here (first ▸ same)
        | inr among => exact later ⟨again,among,same⟩

end Disk

variable {H : Type} [DecidableEq H] [Hashing H] [HexDigest H]

/-! Files that are all restored. -/

section
variable {now : Nat} {registry : Registry H} {objects : ObjectFiles H} {disk : Disk} {items : List (Path × TreeEntry H)}

omit [DecidableEq H] [Hashing H] in
theorem put_get_other {item : Path × TreeEntry H} (file : File) {other : Path} (apart : Apart item.1 other) :
    (put disk item.1 item.2 file).get? other = disk.get? other := by
  have beside : other ∉ Disk.ancestors item.1 := fun above => apart.2 (mem_ancestors.mp above).1
  have differ : other ≠ target disk item.1 item.2 := fun same => apart.1 (same ▸ target_below)
  rw [put,Disk.write,Dict.get?_set_other _ _ _ _ differ,Disk.mkdir_get,if_neg beside,Option.or_none]

omit [DecidableEq H] [Hashing H] in
theorem blocked_put_other {item : Path × TreeEntry H} (file : File) {other : Path} (apart : Apart item.1 other) :
    (put disk item.1 item.2 file).blocked other = disk.blocked other := by
  unfold Disk.blocked
  rw [Bool.eq_iff_iff,List.any_eq_true,List.any_eq_true]
  refine exists_congr fun parent => and_congr_right fun above => ?_
  have differ : parent ≠ target disk item.1 item.2 := by
    intro same
    have onto : item.1 <+: parent := same ▸ target_below
    exact apart.1 (onto.trans (mem_ancestors.mp above).1)
  rw [file_at_put,if_neg differ]

omit [DecidableEq H] [Hashing H] in
theorem target_clear {path : Path} {e : TreeEntry H} (free : disk.is_dir path = false) : target disk path e = path := by
  unfold target copied_to
  rw [free]
  split
  · rfl
  · split <;> rfl

/-- Where nothing is in the way of any file, each is restored in its place, and no other file is touched. -/
theorem all_restored (registry : Registry H) (present : ∀ item ∈ items, Present objects item.2) (fits : ∀ item ∈ items, restored now objects item.2 ≠ none)
    (clear : ∀ item ∈ items, disk.blocked item.1 = false ∧ disk.is_dir item.1 = false)
    (apart : items.Pairwise fun item other => Apart item.1 other.1) :
    ∃ after, restore_files now registry true ⟨disk,objects⟩ items = (⟨after,objects⟩,true) ∧
      (∀ item ∈ items, after.file_at item.1 = restored now objects item.2) ∧
      ∀ path, (∀ item ∈ items, path ≠ item.1) → after.file_at path = disk.file_at path := by
  induction items generalizing disk with
  | nil => exact ⟨disk,rfl,fun _ impossible => absurd impossible List.not_mem_nil,fun _ _ => rfl⟩
  | cons item rest ih =>
    obtain ⟨away,apart⟩ := List.pairwise_cons.mp apart
    obtain ⟨open_way,free⟩ := clear item List.mem_cons_self
    have here : target disk item.1 item.2 = item.1 := target_clear free
    have fine : fails now objects disk item.1 item.2 = false := by
      rw [fails,open_way,here,free]
      simpa [Option.isSome_iff_ne_none] using fits item List.mem_cons_self
    obtain ⟨file,content,done⟩ := materialize_ok registry (present item List.mem_cons_self) fine
    have still_clear : ∀ other ∈ rest, (put disk item.1 item.2 file).blocked other.1 = false ∧
        (put disk item.1 item.2 file).is_dir other.1 = false := by
      intro other member
      obtain ⟨open_way,free⟩ := clear other (List.mem_cons_of_mem _ member)
      refine ⟨(blocked_put_other file (away other member)).trans open_way,?_⟩
      rw [Disk.is_dir,put_get_other file (away other member)]
      exact free
    obtain ⟨after,whole,each,beside⟩ := ih (fun other member => present other (List.mem_cons_of_mem _ member))
      (fun other member => fits other (List.mem_cons_of_mem _ member)) still_clear apart
    refine ⟨after,?_,?_,?_⟩
    · rw [restore_files,done]
      exact whole
    · intro other member
      cases List.mem_cons.mp member with
      | inl first =>
        have later : ∀ other ∈ rest, item.1 ≠ other.1 := fun other member same => (away other member).1 (same ▸ List.prefix_rfl)
        rw [first,beside item.1 later,file_at_put,here,if_pos rfl,content]
      | inr among => exact each other among
    · intro path differ
      rw [beside path fun other member => differ other (List.mem_cons_of_mem _ member),file_at_put,here,
        if_neg (differ item List.mem_cons_self)]

/-! What was in the way stays there while the files are restored. -/

theorem through_cons {item : Path × TreeEntry H} {rest : List (Path × TreeEntry H)} (whole : through now objects disk (item::rest) = true) :
    fails now objects disk item.1 item.2 = false ∧ ∃ file, restored now objects item.2 = some file ∧
      through now objects (put disk item.1 item.2 file) rest = true := by
  rw [through,Bool.and_eq_true,Bool.not_eq_true'] at whole
  obtain ⟨fine,later⟩ := whole
  cases content : restored now objects item.2 with
  | none => simp [fails,content] at fine
  | some file =>
    rw [content,Option.all_some] at later
    exact ⟨fine,file,rfl,later⟩

theorem through_open {item : Path × TreeEntry H} (whole : through now objects disk items = true) (member : item ∈ items) :
    disk.blocked item.1 = false := by
  induction items generalizing disk with
  | nil => contradiction
  | cons first rest ih =>
    obtain ⟨fine,file,-,later⟩ := through_cons whole
    cases List.mem_cons.mp member with
    | inl same =>
      simp only [fails,Bool.or_eq_false_iff] at fine
      exact same ▸ fine.1.1
    | inr among =>
      have open_way := ih later among
      unfold Disk.blocked at open_way ⊢
      rw [List.any_eq_false] at open_way ⊢
      intro parent above held
      refine open_way parent above ?_
      rw [file_at_put]
      split
      · rfl
      · exact held

theorem through_dir (present : ∀ item ∈ items, Present objects item.2) {path : Path} (dir : disk.is_dir path = true)
    (whole : through now objects disk items = true) :
    (restore_files now registry true ⟨disk,objects⟩ items).1.disk.is_dir path = true := by
  induction items generalizing disk with
  | nil => exact dir
  | cons item rest ih =>
    obtain ⟨fine,file,content,later⟩ := through_cons whole
    obtain ⟨written,known,done⟩ := materialize_ok registry (present item List.mem_cons_self) fine
    cases Option.some.inj (content.symm.trans known)
    rw [restore_files,done]
    refine ih (fun other member => present other (List.mem_cons_of_mem _ member)) ?_ later
    simp only [fails,Bool.or_eq_false_iff] at fine
    have differ : path ≠ target disk item.1 item.2 := by
      intro same
      rw [same] at dir
      exact Bool.false_ne_true (fine.1.2.symm.trans dir)
    have found : disk.get? path = some .dir := by simpa [Disk.is_dir] using dir
    rw [Disk.is_dir,put,Disk.write,Dict.get?_set_other _ _ _ _ differ,Disk.mkdir_get,found]
    rfl

end

/-! The whole checkout. -/

/-- The files and the index are those of the tree: nothing is modified or staged. -/
structure Shows (repo : Repo H) (tree : Tree H) : Prop where
  entries : ∀ path e, tree.get? path = some e → ∃ file entry, repo.disk.file_at path = some file ∧
    e.hash = .sha (sha256 file.content) ∧ e.size = file.content.length ∧ repo.index.entries.get? path = some entry ∧
    entry.tree_entry = e ∧ entry.mtime_ns = file.mtime_ns ∧ entry.staged = false
  paths : ∀ path, repo.index.entries.contains path = tree.contains path

/-- All objects of the entry are there and hold its content. -/
def Stored (now : Nat) (objects : ObjectFiles H) (e : TreeEntry H) : Prop :=
  (∀ h ∈ entry_hashes e, objects.contains h = true) ∧ ∃ file, restored now objects e = some file ∧ e.size = file.content.length

/-- No file of the target is named as the keys of an old tree, none has a file, a directory or other untracked content in its way,
and none is named as the pointer of a tracked file that goes. -/
structure Clear (force : Bool) (repo : Repo H) (target : Tree H) : Prop where
  flat : tree_is_flat target = true
  way : ∀ path, target.contains path = true → repo.disk.blocked path = false ∧ repo.disk.is_dir path = false
  untracked : force = false → ∀ path e, target.get? path = some e → overwritten repo path e = false
  pointers : ∀ path, repo.index.entries.contains path = true → target.contains path = false → target.contains path.pointer = false

section
variable {now : Nat} {server : Option (Registry H)} {force : Bool} {repo : Repo H} {source target : Tree H} {head : Head H}

omit [HexDigest H] in
theorem tracked_clean (shows : Shows repo source) (untracked : ∀ path e, target.get? path = some e → overwritten repo path e = false) :
    _collect_dirty_paths repo target = [] := by
  unfold _collect_dirty_paths
  rw [List.append_eq_nil_iff,List.map_eq_nil_iff,List.map_eq_nil_iff,List.filter_eq_nil_iff,List.filter_eq_nil_iff]
  constructor
  · intro item member
    rw [untracked item.1 item.2 ((Dict.mem_entries _ _ _).mp member)]
    exact Bool.false_ne_true
  · intro item member
    have held := (Dict.mem_entries _ _ _).mp member
    have tracked : source.contains item.1 = true := by
      rw [← shows.paths,Dict.contains_iff]
      exact ⟨item.2,held⟩
    obtain ⟨e,found⟩ := (Dict.contains_iff _ _).mp tracked
    obtain ⟨file,entry,at_path,-,size,indexed,same,mtime,unstaged⟩ := shows.entries item.1 e found
    cases Option.some.inj (held.symm.trans indexed)
    have size_same : item.2.size = file.content.length := by
      rw [← size,← same]
      rfl
    simp [dirty_entry,at_path,unstaged,mtime,size_same]

omit [HexDigest H] in
theorem stored_named {objects : ObjectFiles H} {e : TreeEntry H} (stored : Stored now objects e) : entry_hashes e ≠ [] := by
  intro none_named
  obtain ⟨-,file,content,-⟩ := stored
  have hash : ∃ h, e.hash = .sha h := by
    by_contra odd
    rw [restored_odd fun h same => odd ⟨h,same⟩] at content
    contradiction
  obtain ⟨h,hash⟩ := hash
  unfold entry_hashes at none_named
  dsimp only at none_named
  split at none_named
  · contradiction
  · rw [hash] at none_named
    contradiction

omit [HexDigest H] in
theorem stored_present {objects : ObjectFiles H} {e : TreeEntry H} (stored : Stored now objects e) : Present objects e :=
  present_of_hashes stored.1 (stored_named stored)

omit [HexDigest H] in
theorem stored_verified {objects : ObjectFiles H} {e : TreeEntry H} (stored : Stored now objects e) :
    entry_missing objects true e = false := by
  have present := stored_present stored
  obtain ⟨-,file,content,-⟩ := stored
  unfold Present at present
  unfold entry_missing at present ⊢
  split
  · rename_i parts
    rwa [if_pos parts] at present
  · rename_i whole
    rw [if_neg whole] at present
    have parts : split e = false := by
      unfold parts_of at whole
      split at whole
      · rename_i layered
        exact absurd (by simpa using layered) whole
      · rename_i unlayered
        simpa [split] using ⟨by simpa using unlayered,by simpa using whole⟩
    cases hash : e.hash with
    | sha h =>
      rw [restored,if_neg (by simp [parts]),hash] at content
      obtain ⟨found,same⟩ := Option.filter_eq_some_iff.mp content
      simpa [found] using same
    | _ => simp [hash] at present

omit [HexDigest H] in
/-- Where all objects of the target are stored, no check stands against it and nothing is downloaded. -/
theorem stored_ready (stored : ∀ item ∈ target.entries, Stored now repo.objects item.2) :
    prepare now server repo.objects target true = (repo.objects,true) := by
  unfold prepare
  cases server with
  | none =>
    have nothing : tree_missing_objects repo.objects target true = [] := by
      unfold tree_missing_objects
      rw [List.map_eq_nil_iff,List.filter_eq_nil_iff]
      intro item member
      rw [stored_verified (stored item member)]
      exact Bool.false_ne_true
    rw [nothing]
    rfl
  | some registry =>
    have nothing : ((target.entries.flatMap fun item => entry_hashes item.2).filter fun h => !repo.objects.contains h) = [] := by
      rw [List.filter_eq_nil_iff]
      intro h among
      obtain ⟨item,member,named⟩ := List.mem_flatMap.mp among
      rw [(stored item member).1 h named]
      exact Bool.false_ne_true
    have named : (target.entries.all fun item => entry_hashes item.2 ≠ []) = true := by
      rw [List.all_eq_true]
      intro item member
      simpa using stored_named (stored item member)
    simp only [ensure_objects_local,nothing,named]
    rfl

omit [Hashing H] [HexDigest H] in
theorem mem_removed (repo : Repo H) (entries : Dict Path (IndexEntry H)) (old : Path) :
    old ∈ repo.index.entries.keys.filter (fun path => !entries.contains path) ↔
      repo.index.entries.contains old = true ∧ entries.contains old = false := by
  rw [List.mem_filter,Dict.mem_keys,Dict.contains_iff,Bool.not_eq_true']

omit [Hashing H] [HexDigest H] in
theorem settled_gone {entries : Dict Path (IndexEntry H)} {old path : Path} (tracked : repo.index.entries.contains old = true)
    (left_out : entries.contains old = false) (named : path = old ∨ path = old.pointer) :
    (settle repo entries).disk.file_at path = none := by
  refine (Disk.file_at_removed_all _ _ _).trans (if_pos ⟨old,?_,named⟩)
  exact (mem_removed repo entries old).mpr ⟨tracked,left_out⟩

omit [Hashing H] [HexDigest H] in
theorem settled_kept {entries : Dict Path (IndexEntry H)} {path : Path} (stays : ∀ old, repo.index.entries.contains old = true →
    entries.contains old = false → path ≠ old ∧ path ≠ old.pointer) : (settle repo entries).disk.file_at path = repo.disk.file_at path := by
  refine (Disk.file_at_removed_all _ _ _).trans (if_neg fun found => ?_)
  obtain ⟨old,member,named⟩ := found
  obtain ⟨tracked,left_out⟩ := (mem_removed repo entries old).mp member
  obtain ⟨other,pointer⟩ := stays old tracked left_out
  cases named with
  | inl same => exact other same
  | inr same => exact pointer same

omit [Hashing H] [HexDigest H] in
theorem settled_none {entries : Dict Path (IndexEntry H)} {path : Path} (absent : repo.disk.file_at path = none) :
    (settle repo entries).disk.file_at path = none := by
  refine (Disk.file_at_removed_all _ _ _).trans ?_
  split
  · rfl
  · exact absent

omit [Hashing H] [HexDigest H] in
theorem settled_index (repo : Repo H) (target : Tree H) (path : Path) :
    (settle repo (target.map tree_index_entry)).index.entries.get? path =
      (target.get? path).map fun e => settled_entry (settle repo (target.map tree_index_entry)).disk path (tree_index_entry path e) := by
  unfold settle
  simp [Dict.get?_map,Function.comp_def]

omit [DecidableEq H] [Hashing H] [HexDigest H] in
theorem mapped_contains (path : Path) : (target.map tree_index_entry).contains path = target.contains path := by
  unfold Dict.contains
  rw [Dict.get?_map,Option.isSome_map]

omit [HexDigest H] in
theorem restored_hash {objects : ObjectFiles H} {e : TreeEntry H} {file : File} (content : restored now objects e = some file) :
    e.hash = .sha (sha256 file.content) := by
  unfold restored at content
  split at content
  · obtain ⟨bytes,kept,rfl⟩ := Option.map_eq_some_iff.mp content
    simpa using (Option.filter_eq_some_iff.mp kept).2
  · split at content
    · rename_i h hash
      obtain ⟨-,same⟩ := Option.filter_eq_some_iff.mp content
      rw [hash]
      simpa using (show sha256 file.content = h by simpa using same).symm
    · contradiction

/-- Where nothing is in the way, the checkout goes through and the files and the index are the target's. -/
theorem clear_reaches (shows : Shows repo source) (prefix_free : PrefixFree target)
    (stored : ∀ item ∈ target.entries, Stored now repo.objects item.2) (clear : Clear force repo target) :
    (checkout now server force repo target head).2 = true ∧ Shows (checkout now server force repo target head).1 target ∧
      ∀ path, source.contains path = true → target.contains path = false →
        (checkout now server force repo target head).1.disk.file_at path = none := by
  have passed : force = true ∨ _collect_dirty_paths repo target = [] := by
    cases forced : force with
    | true => exact Or.inl rfl
    | false => exact Or.inr (tracked_clean shows (clear.untracked forced))
  have ready : prepare now server repo.objects target true = (repo.objects,true) := stored_ready stored
  have within (item : Path × TreeEntry H) (member : item ∈ target.entries) : target.contains item.1 = true :=
    (Dict.contains_iff _ _).mpr ⟨item.2,(Dict.mem_entries _ _ _).mp member⟩
  have fits : ∀ item ∈ target.entries, restored now repo.objects item.2 ≠ none := by
    intro item member unfit
    obtain ⟨-,file,content,-⟩ := stored item member
    rw [unfit] at content
    contradiction
  obtain ⟨after,whole,each,-⟩ := all_restored (server.getD fun _ => none) (fun item member => stored_present (stored item member)) fits
    (fun item member => clear.way item.1 (within item member)) (prefix_free_apart prefix_free)
  have files : restored_files now server repo target = (⟨after,repo.objects⟩,true) := by
    rw [restored_files,ready]
    exact whole
  have done : checkout now server force repo target head =
      ({settle {repo with toPlace := ⟨after,repo.objects⟩} (target.map tree_index_entry) with head := head},true) := by
    rw [checkout_passed passed clear.flat (by rw [ready]),files]
    rfl
  rw [done]
  refine ⟨rfl,⟨?_,?_⟩,?_⟩
  · intro path e found
    have member : (path,e) ∈ target.entries := (Dict.mem_entries _ _ _).mpr found
    obtain ⟨-,file,content,size⟩ := stored (path,e) member
    have here : (settle {repo with toPlace := ⟨after,repo.objects⟩} (target.map tree_index_entry)).disk.file_at path = some file := by
      refine (settled_kept fun old tracked left_out => ?_).trans ((each (path,e) member).trans content)
      rw [mapped_contains] at left_out
      have kept : target.contains path = true := within (path,e) member
      constructor
      · intro same
        rw [same,left_out] at kept
        contradiction
      · intro same
        rw [same,clear.pointers old tracked left_out] at kept
        contradiction
    have hash : e.hash = .sha (sha256 file.content) := restored_hash content
    refine ⟨file,settled_entry (settle {repo with toPlace := ⟨after,repo.objects⟩} (target.map tree_index_entry)).disk path
      (tree_index_entry path e),here,hash,size,?_,?_,?_,?_⟩
    · exact (settled_index _ target path).trans (by rw [found]; rfl)
    · rw [settled_entry,here]
      exact congrArg (fun size => TreeEntry.mk e.hash size e.type e.layers e.chunks) size.symm
    · rw [settled_entry,here]
    · rw [settled_entry,here]
  · intro path
    unfold Dict.contains
    rw [show _ = _ from settled_index _ target path,Option.isSome_map]
  · intro path tracked left_out
    refine settled_gone ?_ (by rw [mapped_contains,left_out]) (Or.inl rfl)
    rw [shows.paths,tracked]

/-- A checkout that goes through has passed its checks. -/
theorem checkout_ok (went : (checkout now server force repo target head).2 = true) :
    force = true ∨ _collect_dirty_paths repo target = [] := by
  unfold checkout at went
  split at went
  · contradiction
  · rename_i go
    cases forced : force with
    | true => exact Or.inl rfl
    | false => exact Or.inr (by simpa [forced] using go)

omit [Hashing H] [HexDigest H] in
theorem legacy_index {items : List (Path × Digest H)} (read : legacy_items target = some items) :
    (items.foldl (fun idx item => idx.add_entry item.1 item.2 0 0 .code none) Index.empty).entries.get? ["code"] = none := by
  unfold legacy_items at read
  split at read
  · contradiction
  · cases read
    unfold legacy_code
    cases target.get? ["code"] with
    | none => rfl
    | some e => simp [Index.add_entry_entries,Dict.get?_set,Index.empty]

/-- A tree that is read as an old one leaves an index without the file of that name. -/
theorem legacy_misses (went : (checkout now server force repo target head).2 = true) (odd : tree_is_flat target = false) :
    ¬Shows (checkout now server force repo target head).1 target := by
  intro shown
  have named := shown.paths ["code"]
  have go : ¬(!force && !(_collect_dirty_paths repo target).isEmpty) = true := by
    intro refused
    rw [checkout,if_pos refused] at went
    contradiction
  have legacy := materialize_legacy now server true repo odd
  rw [checkout,if_neg go,legacy] at went named
  cases read : legacy_items target with
  | none =>
    rw [read] at went
    contradiction
  | some items =>
    rw [read] at named
    have held : target.contains ["code"] = true := by
      unfold legacy_items at read
      cases artifacts : target.contains ["artifacts"] with
      | true => simp [artifacts] at read
      | false => simpa [tree_is_flat,artifacts] using odd
    rw [held] at named
    have absent := legacy_index read
    simp [settle,Dict.contains,Dict.get?_map,absent] at named

theorem reaches_clear (stored : ∀ item ∈ target.entries, Stored now repo.objects item.2)
    (went : (checkout now server force repo target head).2 = true) (shown : Shows (checkout now server force repo target head).1 target) :
    Clear force repo target := by
  have passed := checkout_ok went
  have ready : prepare now server repo.objects target true = (repo.objects,true) := stored_ready stored
  have present : ∀ item ∈ target.entries, Present repo.objects item.2 := fun item member => stored_present (stored item member)
  have flat : tree_is_flat target = true := by
    by_contra odd
    exact legacy_misses went (by simpa using odd) shown
  have files : (restored_files now server repo target).2 = true := by
    by_contra stopped
    rw [checkout_passed passed flat (by rw [ready]),if_neg stopped] at went
    contradiction
  rw [checkout_passed passed flat (by rw [ready]),if_pos files] at shown
  have whole : through now repo.objects repo.disk target.entries = true := by
    rw [← restore_files_through (server.getD fun _ => none) present]
    rw [restored_files,ready] at files
    exact files
  have there (path : Path) (contained : target.contains path = true) : ∃ file,
      (settle {repo with toPlace := (restored_files now server repo target).1} (target.map tree_index_entry)).disk.file_at path = some file := by
    obtain ⟨e,found⟩ := (Dict.contains_iff _ _).mp contained
    obtain ⟨file,entry,at_path,-⟩ := shown.entries path e found
    exact ⟨file,at_path⟩
  refine ⟨flat,fun path contained => ?_,fun forced path e found => ?_,fun path tracked left_out => ?_⟩
  · obtain ⟨e,found⟩ := (Dict.contains_iff _ _).mp contained
    have member : (path,e) ∈ target.entries := (Dict.mem_entries _ _ _).mpr found
    refine ⟨through_open whole member,?_⟩
    by_contra dir
    have still : (restored_files now server repo target).1.disk.is_dir path = true := by
      rw [restored_files,ready]
      exact through_dir present (by simpa using dir) whole
    have absent : (restored_files now server repo target).1.disk.file_at path = none := by
      simp only [Disk.is_dir,decide_eq_true_eq] at still
      rw [Disk.file_at,still]
    obtain ⟨file,at_path⟩ := there path contained
    rw [settled_none absent] at at_path
    contradiction
  · have clean : _collect_dirty_paths repo target = [] := by
      cases passed with
      | inl forced' => exact absurd (forced.symm.trans forced') Bool.false_ne_true
      | inr clean => exact clean
    have first := List.map_eq_nil_iff.mp (List.append_eq_nil_iff.mp clean).1
    simpa using List.filter_eq_nil_iff.mp first (path,e) ((Dict.mem_entries _ _ _).mpr found)
  · by_contra contained
    obtain ⟨file,at_path⟩ := there path.pointer (by simpa using contained)
    have gone : (settle {repo with toPlace := (restored_files now server repo target).1} (target.map tree_index_entry)).disk.file_at
        path.pointer = none := settled_gone tracked ((mapped_contains path).trans left_out) (Or.inr rfl)
    rw [gone] at at_path
    contradiction

/-- From a clean working tree and with all objects of the target there, a checkout reaches the target exactly when nothing is in
the way. -/
theorem checkout_reaches_iff (now : Nat) (server : Option (Registry H)) (force : Bool) (repo : Repo H) (source target : Tree H)
    (head : Head H) (shows : Shows repo source) (prefix_free : PrefixFree target)
    (stored : ∀ item ∈ target.entries, Stored now repo.objects item.2) :
    ((checkout now server force repo target head).2 = true ∧ Shows (checkout now server force repo target head).1 target ∧
      ∀ path, source.contains path = true → target.contains path = false →
        (checkout now server force repo target head).1.disk.file_at path = none) ↔ Clear force repo target := by
  constructor
  · intro reached
    exact reaches_clear stored reached.1 reached.2.1
  · intro clear
    exact clear_reaches shows prefix_free stored clear

end

/-- A file in a directory, committed. -/
def nested : Repo Name where
  disk := Dict.ofList [(["a"],.dir),(["a","b.py"],.file ⟨[1],1⟩)]
  objects := Dict.ofList [object_file [1]]
  index := ⟨Dict.ofList [(["a","b.py"],⟨.sha (sha256 [1]),1,1,.code,false,none,[],[]⟩)],[]⟩
  head := .branch "main"

theorem nested_shows : Shows nested (one_path ["a","b.py"]) := by
  constructor
  · intro path e found
    have same : path = ["a","b.py"] := (one_path_contains _ path).mp ((Dict.contains_iff _ _).mpr ⟨e,found⟩)
    subst path
    have entry : file_entry [1] = e := Option.some.inj ((Dict.get?_set_same _ _ _).symm.trans found)
    subst e
    exact ⟨⟨[1],1⟩,⟨.sha (sha256 [1]),1,1,.code,false,none,[],[]⟩,rfl,rfl,rfl,rfl,rfl,rfl,rfl⟩
  · intro path
    rw [Bool.eq_iff_iff,one_path_contains,Dict.contains_iff]
    simp [nested,Dict.ofList,Dict.get?_set]

theorem nested_stored (path : Path) : ∀ item ∈ (one_path path).entries, Stored 5 nested.objects item.2 := by
  have there : Stored 5 nested.objects (file_entry [1]) := ⟨by decide +kernel,⟨[1],1⟩,by decide +kernel,rfl⟩
  intro item member
  have only : item = (path,file_entry [1]) := List.mem_singleton.mp member
  rw [only]
  exact there

theorem checkout_reaches_iff_nested : ((checkout 5 none false nested (one_path ["c"]) (.branch "other")).2 = true ∧
    Shows (checkout 5 none false nested (one_path ["c"]) (.branch "other")).1 (one_path ["c"]) ∧
    ∀ path, (one_path ["a","b.py"]).contains path = true → (one_path ["c"]).contains path = false →
      (checkout 5 none false nested (one_path ["c"]) (.branch "other")).1.disk.file_at path = none) ↔ Clear false nested (one_path ["c"]) :=
  checkout_reaches_iff 5 none false nested (one_path ["a","b.py"]) (one_path ["c"]) (.branch "other") nested_shows
    (one_path_prefix_free ["c"]) (nested_stored ["c"])

/-- The file is copied into the directory that it is to replace, and the checkout reports success. -/
theorem directory_not_replaced : Shows nested (one_path ["a","b.py"]) ∧ PrefixFree (one_path ["a"]) ∧
    (∀ item ∈ (one_path ["a"]).entries, Stored 5 nested.objects item.2) ∧
    (checkout 5 none false nested (one_path ["a"]) (.branch "other")).2 = true ∧
    ¬Shows (checkout 5 none false nested (one_path ["a"]) (.branch "other")).1 (one_path ["a"]) := by
  refine ⟨nested_shows,one_path_prefix_free ["a"],nested_stored ["a"],by decide +kernel,fun shown => ?_⟩
  obtain ⟨file,entry,at_path,-⟩ := shown.entries ["a"] (file_entry [1]) (Dict.get?_set_same _ _ _)
  have absent : (checkout 5 none false nested (one_path ["a"]) (.branch "other")).1.disk.file_at ["a"] = none := by decide +kernel
  rw [absent] at at_path
  contradiction

end AetherVault.WorkTrees
