import AetherVault.DoctorFiles
import AetherVault.Lib.Runs

/-! Whether the next run of `av doctor --fix` still finds what was reported as fixed. -/
namespace AetherVault.Doctor
open Lib Lib.CodePoints Lib.FileTree

section Repairs

variable {w : Surroundings}

/-! The loop over the orphans. -/

/-- What is looked for of an entry. -/
def Entry.parts (entry : Entry) : List Str :=
  if entry.layers ≠ [] then entry.layers else if entry.chunks ≠ [] then entry.chunks else [entry.hash]

theorem mem_missing_parts {files : Files} {parts : List Str} {h : Str} :
    h ∈ _missing_parts w files parts ↔ h ∈ parts ∧ present files (object_path w h) = false := by
  simp [_missing_parts]

theorem missing_iff (files : Files) (entry : Entry) :
    _artifact_content_missing w files entry = true ↔ ∃ h ∈ entry.parts, present files (object_path w h) = false := by
  have some_missing (parts : List Str) : decide (_missing_parts w files parts ≠ []) = true ↔
      ∃ h ∈ parts, present files (object_path w h) = false := by
    rw [decide_eq_true_iff,ne_eq,← List.isEmpty_iff,Bool.not_eq_true,List.isEmpty_eq_false_iff_exists_mem]
    simp only [mem_missing_parts]
  unfold _artifact_content_missing Entry.parts
  by_cases layered : entry.layers ≠ []
  · rw [if_pos layered,if_pos layered,some_missing]
  · rw [if_neg layered,if_neg layered]
    by_cases chunked : entry.chunks ≠ []
    · rw [if_pos chunked,if_pos chunked,some_missing]
    · rw [if_neg chunked,if_neg chunked]
      simp

/-- Every part of the entry is either there or asked for. -/
theorem wanted_part {files : Files} {entry : Entry} {h : Str} (part : h ∈ entry.parts) :
    present files (object_path w h) = true ∨ h ∈ wanted w files entry := by
  have missing_part {parts : List Str} (member : h ∈ parts) :
      present files (object_path w h) = true ∨ h ∈ _missing_parts w files parts := by
    cases there : present files (object_path w h) with
    | true => exact Or.inl rfl
    | false => exact Or.inr (mem_missing_parts.mpr ⟨member,there⟩)
  unfold Entry.parts at part
  unfold wanted
  by_cases layered : entry.layers ≠ []
  · rw [if_pos layered] at part ⊢
    exact missing_part part
  · rw [if_neg layered] at part ⊢
    by_cases chunked : entry.chunks ≠ []
    · rw [if_pos chunked] at part ⊢
      exact missing_part part
    · rw [if_neg chunked] at part ⊢
      exact Or.inr part

variable (w) in
/-- What has come of the orphans of `start` so far. -/
structure Recovering (start : Disk) (s : Loop) : Prop where
  index : s.disk.index = start.index
  queue : s.disk.pending_push = start.pending_push
  builds : Builds w start.files s.disk.files
  whole : ∀ path ∈ s.mended, ∃ entry, (path,entry) ∈ orphaned w start ∧
    ∀ h ∈ entry.parts, present s.disk.files (object_path w h) = true

@[simp] theorem Loop.next_disk (s : Loop) (disk : Disk) (path : Str) (result : Option Bool) :
    (s.next disk path result).disk = disk := by
  rcases result with - | - | - <;> rfl

theorem Loop.mem_next {s : Loop} {disk : Disk} {path other : Str} {result : Option Bool} :
    other ∈ (s.next disk path result).mended ↔ other ∈ s.mended ∨ result = some true ∧ other = path := by
  rcases result with - | - | - <;> simp [Loop.next]

theorem recover_keeps {start : Disk} {s : Loop} {orphan : Str × Entry} (recovering : Recovering w start s)
    (member : orphan ∈ orphaned w start) : Recovering w start (recover w s orphan) := by
  obtain ⟨index,queue,builds,whole⟩ := recovering
  unfold recover
  split
  · exact ⟨index,queue,builds,whole⟩
  · split
    · have more := download_all_builds (w := w) (w.at_orphan orphan.1) s.disk.files (wanted w s.disk.files orphan.2)
      have earlier (path : Str) (mended : path ∈ s.mended) : ∃ entry, (path,entry) ∈ orphaned w start ∧
          ∀ h ∈ entry.parts, present (download_all w (w.at_orphan orphan.1) s.disk.files (wanted w s.disk.files orphan.2)).1
            (object_path w h) = true := by
        obtain ⟨entry,found,parts⟩ := whole path mended
        exact ⟨entry,found,fun h part => more.present (parts h part)⟩
      refine ⟨?_,?_,?_,?_⟩
      · rw [Loop.next_disk,index]
      · rw [Loop.next_disk,queue]
      · rw [Loop.next_disk]
        exact builds.trans more
      · intro path mended
        rw [Loop.next_disk]
        rcases Loop.mem_next.mp mended with before | ⟨downloaded,rfl⟩
        · exact earlier path before
        · refine ⟨orphan.2,member,fun h part => ?_⟩
          rcases wanted_part part with there | asked
          · exact more.present there
          · exact available_present w (download_all_available downloaded asked)
    · refine ⟨?_,?_,?_,?_⟩
      · rw [Loop.next_disk,index]
      · rw [Loop.next_disk,queue]
      · rw [Loop.next_disk]
        exact builds
      · intro path mended
        rw [Loop.next_disk]
        rcases Loop.mem_next.mp mended with before | ⟨failed,-⟩
        · exact whole path before
        · cases failed

theorem recovered (start : Disk) : Recovering w start ((orphaned w start).foldl (recover w) ⟨start,[],false⟩) := by
  have first : Recovering w start ⟨start,[],false⟩ := ⟨rfl,rfl,Builds.refl start.files,by simp⟩
  refine Runs.run_keeps (fun s orphan => recover_keeps) first fun before orphan after split => ?_
  rw [split]
  exact List.mem_append_right before List.mem_cons_self

/-! The loop over the stale pointer files. -/

variable (w) in
/-- What is found in the object's place is the object. -/
def Honest (s : Loop) (pointer : Str × Option Str) : Prop :=
  s.raised = false → ∀ found, parsed w pointer.2 = some found → present s.disk.files (object_path w found.1) = true →
    available w s.disk.files found.1 = true

theorem fetch_settles (server : Server) (files : Files) (h : Str) : Settles w files (fetch w server files h).1 := by
  unfold fetch
  split
  · exact Settles.refl files
  · rename_i missing
    split
    · exact download_settles server (Bool.not_eq_true _ ▸ missing)
    · exact Settles.refl files

theorem fetch_some {server : Server} {files : Files} {h : Str} (fetched : (fetch w server files h).2 = some true) :
    present (fetch w server files h).1 (object_path w h) = true ∧ (available w (fetch w server files h).1 h = true ↔
      (present files (object_path w h) = true → available w files h = true)) := by
  unfold fetch at fetched ⊢
  split
  · rename_i there
    exact ⟨there,fun held _ => held,fun held => held there⟩
  · rename_i missing
    rw [if_neg missing] at fetched
    split
    · rename_i reachable
      rw [if_pos reachable] at fetched
      have held := download_available fetched
      exact ⟨available_present w held,iff_of_true held fun there => absurd there missing⟩
    · rename_i unreachable
      rw [if_neg unreachable] at fetched
      cases fetched

theorem fetch_present {server : Server} {files : Files} {h : Str} (there : present files (object_path w h) = true) :
    fetch w server files h = (files,some true) := if_pos there

/-- The pointer is left as it is, or its path is in the index with what was found. -/
theorem relink_cases (s : Loop) (pointer : Str × Option Str) :
    (Honest w s pointer ∧ (relink w s pointer).disk.index = s.disk.index ∧ (relink w s pointer).mended = s.mended ∧
      (relink w s pointer).disk.pending_push = s.disk.pending_push ∧ Settles w s.disk.files (relink w s pointer).disk.files) ∨
    ∃ h size, (relink w s pointer).disk.index =
        s.disk.index.add_entry pointer.1 h size 0 .artifact (some (pointer_of pointer.1)) ∧
      (relink w s pointer).mended = s.mended ++ [pointer.1] ∧
      (relink w s pointer).disk.pending_push = s.disk.pending_push ∧ Settles w s.disk.files (relink w s pointer).disk.files ∧
      present (relink w s pointer).disk.files (object_path w h) = true ∧
      (available w (relink w s pointer).disk.files h = true ↔ Honest w s pointer) := by
  unfold relink
  split
  · rename_i ended
    exact Or.inl ⟨fun running => Bool.noConfusion (running.symm.trans ended),rfl,rfl,rfl,Settles.refl _⟩
  · rename_i running
    split
    · rename_i unread
      refine Or.inl ⟨fun _ found read => ?_,rfl,rfl,rfl,Settles.refl _⟩
      rw [unread] at read
      cases read
    · rename_i found read
      have settles := fetch_settles (w := w) (w.at_pointer pointer.1) s.disk.files found.1
      split
      · rename_i files fetched
        have same : (fetch w (w.at_pointer pointer.1) s.disk.files found.1).2 = some true := by rw [fetched]
        obtain ⟨there,exactly⟩ := fetch_some same
        rw [fetched] at settles there exactly
        refine Or.inr ⟨found.1,found.2,rfl,rfl,rfl,settles,there,exactly.trans ?_⟩
        constructor
        · intro honest _ other again
          obtain rfl := Option.some.inj (read.symm.trans again)
          exact honest
        · intro honest
          exact honest (Bool.not_eq_true _ ▸ running) found read
      · rename_i files other failed fetched
        rw [fetched] at settles
        refine Or.inl ⟨fun _ another again there => ?_,by rw [Loop.next_disk],?_,by rw [Loop.next_disk],?_⟩
        · obtain rfl := Option.some.inj (read.symm.trans again)
          rw [fetch_present there] at fetched
          exact absurd (Prod.mk.inj fetched).2.symm failed
        · rcases other with - | - | -
          · rfl
          · rfl
          · exact absurd rfl failed
        · rw [Loop.next_disk]
          exact settles

@[simp] theorem add_entry_get (idx : Index) (path other hash : Str) (size : Int) (mtime_ns : Nat) (type : FileType)
    (pointer : Option Str) : (idx.add_entry path hash size mtime_ns type pointer).entries.get? other =
      if other = path then
        some ⟨hash,size,mtime_ns,type,(idx.entries.get? path).all fun old => decide (old.hash ≠ hash),pointer,[],[]⟩
      else idx.entries.get? other :=
  Dict.get?_set idx.entries path other _

variable (w) in
/-- What has come of the stale pointer files of `start` so far. -/
structure Linking (start : Disk) (s : Loop) : Prop where
  queue : s.disk.pending_push = start.pending_push
  settles : Settles w start.files s.disk.files
  kept : ∀ path, start.index.entries.contains path = true → s.disk.index.entries.get? path = start.index.entries.get? path
  added : ∀ path entry, s.disk.index.entries.get? path = some entry → start.index.entries.get? path = none →
    present s.disk.files (object_path w entry.hash) = true
  listed : ∀ path ∈ s.mended, s.disk.index.entries.contains path = true

variable (w) in
/-- Every entry that has been added has its content. -/
def Whole (start : Disk) (s : Disk) : Prop :=
  ∀ path entry, s.index.entries.get? path = some entry → start.index.entries.get? path = none →
    available w s.files entry.hash = true

theorem relink_keeps {start : Disk} {s : Loop} {pointer : Str × Option Str} (linking : Linking w start s)
    (untracked : start.index.entries.contains pointer.1 = false) : Linking w start (relink w s pointer) := by
  obtain ⟨-,index,mended,queue,settles⟩ | ⟨h,size,index,mended,queue,settles,there,-⟩ := relink_cases (w := w) s pointer
  · refine ⟨queue.trans linking.queue,linking.settles.trans settles,?_,?_,?_⟩
    · rw [index]
      exact linking.kept
    · rw [index]
      intro path entry found new
      exact settles.toBuilds.present (linking.added path entry found new)
    · rw [index,mended]
      exact linking.listed
  · refine ⟨queue.trans linking.queue,linking.settles.trans settles,?_,?_,?_⟩
    · intro path tracked
      have other : path ≠ pointer.1 := fun same => Bool.noConfusion (untracked.symm.trans (same ▸ tracked))
      rw [index,add_entry_get,if_neg other]
      exact linking.kept path tracked
    · intro path entry found new
      rw [index,add_entry_get] at found
      split at found
      · rw [← Option.some.inj found]
        exact there
      · exact settles.toBuilds.present (linking.added path entry found new)
    · intro path member
      rw [Dict.contains,index,add_entry_get]
      split
      · rfl
      · rename_i other
        rw [mended] at member
        rcases List.mem_append.mp member with before | now
        · exact linking.listed path before
        · exact absurd (List.mem_singleton.mp now) other

/-- A step leaves everything whole exactly when it was and the pointer is honest. -/
theorem relink_whole_iff {start : Disk} {s : Loop} {pointer : Str × Option Str} (linking : Linking w start s)
    (untracked : start.index.entries.contains pointer.1 = false) (fresh : s.disk.index.entries.contains pointer.1 = false) :
    Whole w start (relink w s pointer).disk ↔ Whole w start s.disk ∧ Honest w s pointer := by
  have before {path : Str} {entry : Entry} (found : s.disk.index.entries.get? path = some entry)
      (new : start.index.entries.get? path = none) (settles : Settles w s.disk.files (relink w s pointer).disk.files) :
      available w (relink w s pointer).disk.files entry.hash = true ↔ available w s.disk.files entry.hash = true :=
    ⟨settles.frozen _ (linking.added path entry found new),settles.content _⟩
  obtain ⟨honest,index,-,-,settles⟩ | ⟨h,size,index,-,-,settles,-,exactly⟩ := relink_cases (w := w) s pointer
  · unfold Whole
    rw [and_iff_left honest,index]
    constructor
    · intro whole path entry found new
      exact (before found new settles).mp (whole path entry found new)
    · intro whole path entry found new
      exact (before found new settles).mpr (whole path entry found new)
  · rw [← exactly]
    constructor
    · intro whole
      constructor
      · intro path entry found new
        have other : path ≠ pointer.1 := by
          intro same
          rw [same,(Dict.contains_false _ _).mp fresh] at found
          cases found
        refine (before found new settles).mp (whole path entry ?_ new)
        rw [index,add_entry_get,if_neg other,found]
      · have now := add_entry_get s.disk.index pointer.1 pointer.1 h size 0 .artifact (some (pointer_of pointer.1))
        rw [if_pos rfl,← index] at now
        exact whole pointer.1 _ now ((Dict.contains_false _ _).mp untracked)
    · intro both path entry found new
      rw [index,add_entry_get] at found
      split at found
      · rw [← Option.some.inj found]
        exact both.2
      · exact (before found new settles).mpr (both.1 path entry found new)

theorem relink_fresh {s : Loop} {pointer : Str × Option Str} {path : Str} (fresh : s.disk.index.entries.contains path = false)
    (other : path ≠ pointer.1) : (relink w s pointer).disk.index.entries.contains path = false := by
  obtain ⟨-,index,-⟩ | ⟨h,size,index,-⟩ := relink_cases (w := w) s pointer
  · rw [index]
    exact fresh
  · rw [Dict.contains,index,add_entry_get,if_neg other]
    exact fresh

theorem relinking_iff {start : Disk} {s : Loop} {rest : List (Str × Option Str)} (linking : Linking w start s)
    (untracked : ∀ p ∈ rest, start.index.entries.contains p.1 = false)
    (fresh : ∀ p ∈ rest, s.disk.index.entries.contains p.1 = false) (distinct : (rest.map Prod.fst).Nodup) :
    Whole w start (rest.foldl (relink w) s).disk ↔ Whole w start s.disk ∧ Runs.Every (relink w) (Honest w) s rest := by
  induction rest generalizing s with
  | nil => exact (and_iff_left Runs.every_nil).symm
  | cons pointer rest ih =>
    obtain ⟨once,distinct⟩ := List.nodup_cons.mp distinct
    have here := untracked pointer List.mem_cons_self
    have fresh_later (p : Str × Option Str) (member : p ∈ rest) :
        (relink w s pointer).disk.index.entries.contains p.1 = false := by
      refine relink_fresh (fresh p (List.mem_cons_of_mem _ member)) fun same => once ?_
      exact same ▸ List.mem_map_of_mem member
    have later := ih (relink_keeps linking here) (fun p member => untracked p (List.mem_cons_of_mem _ member)) fresh_later distinct
    rw [List.foldl_cons,later,relink_whole_iff linking here (fresh pointer List.mem_cons_self),Runs.every_cons,and_assoc]

theorem linking_start (start : Disk) : Linking w start ⟨start,[],false⟩ where
  queue := rfl
  settles := Settles.refl start.files
  kept _ _ := rfl
  added path entry found new := by
    rw [new] at found
    cases found
  listed path member := absurd member List.not_mem_nil

theorem stale_untracked {start : Disk} {pointer : Str × Option Str} (member : pointer ∈ stale w start) :
    start.index.entries.contains pointer.1 = false := by
  have missing := (List.mem_filter.mp member).2
  exact Bool.not_eq_true' _ ▸ missing

theorem linked (start : Disk) : Linking w start ((stale w start).foldl (relink w) ⟨start,[],false⟩) := by
  refine Runs.run_keeps (fun s pointer => relink_keeps) (linking_start start) fun before pointer after split => ?_
  refine stale_untracked (w := w) ?_
  rw [split]
  exact List.mem_append_right before List.mem_cons_self

theorem linked_iff (start : Disk) : Whole w start ((stale w start).foldl (relink w) ⟨start,[],false⟩).disk ↔
    Runs.Every (relink w) (Honest w) ⟨start,[],false⟩ (stale w start) := by
  have distinct : ((stale w start).map Prod.fst).Nodup := w.pointers.distinct.sublist (List.filter_sublist.map Prod.fst)
  have none_yet : Whole w start start := by
    intro path entry found new
    rw [new] at found
    cases found
  rw [relinking_iff (linking_start start) (fun _ => stale_untracked) (fun _ => stale_untracked) distinct]
  exact and_iff_right none_yet

/-! The queue, and what other processes add to it. -/

variable (w) in
/-- An entry of a commit that is there. -/
def Filed (files : Files) (entry : QueueEntry Str) : Prop :=
  ∃ content, entry.commit_hash = hexdigest content ∧
    reach up files w.av_dir [lit "commits",hexdigest content ++ lit ".json"] = some (commit_place w content) ∧
    (files.get? (commit_place w content)).isSome = true

theorem Filed.present {files : Files} {entry : QueueEntry Str} (filed : Filed w files entry) :
    present files (commit_path w entry.commit_hash) = true := by
  obtain ⟨content,digest,reached,there⟩ := filed
  obtain ⟨node,found⟩ := Option.isSome_iff_exists.mp there
  rw [digest,commit_path_digest]
  refine lookup_some.mpr ⟨_,node,reached,?_⟩
  rw [node_at,if_neg (by simp [commit_place]),found]

theorem Filed.builds {before later : Files} {entry : QueueEntry Str} (filed : Filed w before entry)
    (stands : Stands before later) : Filed w later entry := by
  obtain ⟨content,digest,reached,there⟩ := filed
  exact ⟨content,digest,stands.reaches reached,stands.there _ there⟩

theorem Filed.swept {files : Files} {entry : QueueEntry Str} (filed : Filed w files entry) : Filed w (swept w files) entry := by
  obtain ⟨content,digest,reached,there⟩ := filed
  refine ⟨content,digest,swept_reach reached (commit_stays files content),?_⟩
  rw [swept_other (commit_stays files content)]
  exact there

variable (w) in
/-- What other processes do to what they share with a run: they only add commits that are there. -/
structure Joined (s t : Shared) : Prop where
  settles : Settles w s.files t.files
  added : ∃ more, t.pending = s.pending ++ more ∧ ∀ entry ∈ more, Filed w t.files entry
  queued : ∀ h ∈ t.queued, h ∈ s.queued ∨ ∃ entry ∈ t.pending, entry.commit_hash = h

theorem Joined.refl (s : Shared) : Joined w s s :=
  ⟨Settles.refl s.files,⟨[],(List.append_nil _).symm,by simp⟩,fun _ member => Or.inl member⟩

theorem Joined.trans {a b c : Shared} (first : Joined w a b) (second : Joined w b c) : Joined w a c := by
  obtain ⟨more,pending,filed⟩ := first.added
  obtain ⟨others,later,more_filed⟩ := second.added
  refine ⟨first.settles.trans second.settles,⟨more ++ others,?_,?_⟩,?_⟩
  · rw [later,pending,List.append_assoc]
  · intro entry member
    rcases List.mem_append.mp member with early | late
    · exact (filed entry early).builds second.settles.stands
    · exact more_filed entry late
  · intro h member
    rcases second.queued h member with before | now
    · rcases first.queued h before with start | ⟨entry,waiting,same⟩
      · exact Or.inl start
      · refine Or.inr ⟨entry,?_,same⟩
        rw [later]
        exact List.mem_append_left others waiting
    · exact Or.inr now

theorem finalize_joined (s : Shared) (commit : Commit) : Joined w s (finalize w s commit) := by
  unfold finalize
  have grows := mkdirs_grows up s.files w.av_dir [lit "commits"]
  split
  · rename_i made leads
    rw [leads] at grows
    exact ⟨grows_settles grows,⟨[],(List.append_nil _).symm,by simp⟩,fun _ member => Or.inl member⟩
  · rename_i made commits_dir leads
    rw [leads] at grows
    split
    · exact ⟨grows_settles grows,⟨[],(List.append_nil _).symm,by simp⟩,fun _ member => Or.inl member⟩
    · rename_i later published
      have file := publish_get published (commits_dir ++ [hexdigest commit.hashed ++ lit ".json"])
      rw [if_pos rfl] at file
      have reached := mkdirs_leads leads (publish_stands published).directory (commit_name_up commit.hashed) file
      have down : up ∉ [lit "commits"] ++ [hexdigest commit.hashed ++ lit ".json"] := by
        intro goes_up
        rcases List.mem_cons.mp goes_up with fixed | name
        · contradiction
        · exact commit_name_up commit.hashed (List.mem_singleton.mp name).symm
      have place : commits_dir ++ [hexdigest commit.hashed ++ lit ".json"] = commit_place w commit.hashed := reach_down down reached
      rw [place] at published file reached
      have apart (h : Str) (same : object_place w h = commit_place w commit.hashed) : False := by
        have names := List.append_cancel_left same
        exact absurd (List.cons.inj names).1 (by decide)
      have filed : Filed w later ⟨hexdigest commit.hashed,commit.ref_name⟩ :=
        ⟨commit.hashed,rfl,reached,by rw [file]; rfl⟩
      have settles := publish_settles (grows_settles grows) published (fun h same => (apart h same).elim)
        fun h same => (apart h same).elim
      unfold queue_pending_push
      split
      · rename_i again
        obtain ⟨entry,member,same⟩ := List.any_eq_true.mp again
        refine ⟨settles,⟨[],(List.append_nil _).symm,by simp⟩,fun h member' => ?_⟩
        rcases List.mem_append.mp member' with before | now
        · exact Or.inl before
        · exact Or.inr ⟨entry,member,(beq_iff_eq.mp same).trans (List.mem_singleton.mp now).symm⟩
      · refine ⟨settles,⟨[_],rfl,?_⟩,fun h member => ?_⟩
        · intro entry member
          rw [List.mem_singleton.mp member]
          exact filed
        · rcases List.mem_append.mp member with before | now
          · exact Or.inl before
          · exact Or.inr ⟨_,List.mem_append_right _ List.mem_cons_self,(List.mem_singleton.mp now).symm⟩

theorem finalized (s : Shared) (commits : List Commit) : Joined w s (commits.foldl (finalize w) s) :=
  Runs.run_holds (fun t commit joined => joined.trans (finalize_joined t commit)) (Joined.refl s) commits

theorem clear_settles (files : Files) (pending : List (QueueEntry Str)) :
    Settles w files (clear_pending w files pending).shared.files := by
  have joined := (finalized (w := w) ⟨files,pending,[]⟩ w.loaded).trans (finalized _ w.checked)
  unfold clear_pending
  simp only
  split <;> exact joined.settles

/-- After the clearing the queue holds what could be recovered, and commits that are there. -/
theorem clear_pending_added (files : Files) (pending : List (QueueEntry Str)) : ∃ more,
    (clear_pending w files pending).shared.pending = (clear_pending w files pending).recoverable ++ more ∧
      ∀ entry ∈ more, Filed w (clear_pending w files pending).shared.files entry := by
  have joined := (finalized (w := w) ⟨files,pending,[]⟩ w.loaded).trans (finalized _ w.checked)
  unfold clear_pending
  simp only
  split
  · rename_i whole
    obtain ⟨more,now,filed⟩ := joined.added
    refine ⟨more,?_,filed⟩
    have all : recoverable w (w.loaded.foldl (finalize w) ⟨files,pending,[]⟩).files pending = pending := by
      refine List.filter_eq_self.mpr fun entry member => ?_
      have found := List.filter_eq_nil_iff.mp whole entry member
      simpa using found
    rw [now,all]
  · exact ⟨[],(List.append_nil _).symm,by simp⟩

/-- What another process queues while something is cleared stays exactly when it could be recovered at the time of the reading. -/
theorem clear_queued_iff (files : Files) (pending : List (QueueEntry Str)) :
    (∀ h ∈ (clear_pending w files pending).shared.queued,
      ∃ entry ∈ (clear_pending w files pending).shared.pending, entry.commit_hash = h) ↔
    (clear_pending w files pending).unrecoverable = [] ∨ ∀ h ∈ (clear_pending w files pending).shared.queued,
      ∃ entry ∈ (clear_pending w files pending).recoverable, entry.commit_hash = h := by
  have joined := (finalized (w := w) ⟨files,pending,[]⟩ w.loaded).trans (finalized _ w.checked)
  unfold clear_pending
  simp only
  split
  · rename_i whole
    refine iff_of_true (fun h member => ?_) (Or.inl whole)
    exact (joined.queued h member).resolve_left List.not_mem_nil
  · rename_i lost
    exact (or_iff_right lost).symm

/-- What is left after the pushing is a selection by the commit hash. -/
theorem flush_left (s : Shared) : Settles w s.files (flush_pending_push w s).1.files ∧ ∃ more keep,
    (flush_pending_push w s).1.pending = (s.pending ++ more).filter keep ∧
      (∀ entry ∈ more, Filed w (flush_pending_push w s).1.files entry) ∧
      ∀ still, (flush_pending_push w s).2 = some still → still = (flush_pending_push w s).1.pending := by
  have joined := (finalized (w := w) s w.saved).trans (finalized _ w.pushed)
  obtain ⟨more,now,filed⟩ := joined.added
  have unchanged : (s.pending ++ more).filter (fun _ => true) = s.pending ++ more := List.filter_true _
  have without (commit_hashes : List Str) :
      remove_pending_push (w.pushed.foldl (finalize w) (w.saved.foldl (finalize w) s)).pending commit_hashes =
        (s.pending ++ more).filter fun entry => entry.commit_hash ∉ commit_hashes := by
    rw [remove_pending_push,now]
  unfold flush_pending_push
  simp only
  split
  · exact ⟨joined.settles,more,_,now.trans unchanged.symm,filed,fun still left => (Option.some.inj left).symm⟩
  · split
    · exact ⟨joined.settles,more,_,without _,filed,fun still left => (Option.some.inj left).symm⟩
    · exact ⟨joined.settles,more,_,now.trans unchanged.symm,filed,fun still left => by cases left⟩
    · exact ⟨joined.settles,more,_,without _,filed,fun still left => by cases left⟩

/-- What was counted as pushed is not in the queue any more. -/
theorem pushed_count (tried more : List (QueueEntry Str)) (keep : QueueEntry Str → Bool) :
    tried.length ≤ ((tried ++ more).filter keep).length + (tried.filter (· ∉ (tried ++ more).filter keep)).length := by
  have parts := List.length_eq_length_filter_add (l := tried) keep
  have kept : (tried.filter keep).length ≤ ((tried ++ more).filter keep).length := by
    rw [List.filter_append,List.length_append]
    exact Nat.le_add_right _ _
  have gone : (tried.filter fun entry => !keep entry).length ≤ (tried.filter (· ∉ (tried ++ more).filter keep)).length := by
    have absent (entry : QueueEntry Str) (dropped : (!keep entry) = true) : entry ∉ (tried ++ more).filter keep := by
      intro member
      rw [(List.mem_filter.mp member).2] at dropped
      contradiction
    exact (List.monotone_filter_right tried fun entry dropped => decide_eq_true (absent entry dropped)).length_le
  omega

theorem clear_disjoint {files : Files} {pending : List (QueueEntry Str)} {entry : QueueEntry Str}
    (lost : entry ∈ (clear_pending w files pending).unrecoverable) : entry ∉ (clear_pending w files pending).recoverable := by
  intro kept
  have absent := (List.mem_filter.mp lost).2
  rw [(List.mem_filter.mp kept).2] at absent
  contradiction

theorem mend_queue_cases (disk : Disk) : disk.pending_push = none ∧ mend_queue w disk = ⟨disk,[],true⟩ ∨
    ∃ pending files more keep, disk.pending_push = some pending ∧ Settles w disk.files files ∧
      (mend_queue w disk).disk = {disk with
        files := files
        pending_push := some (((clear_pending w disk.files pending).recoverable ++ more).filter keep)} ∧
      (∀ entry ∈ more, Filed w files entry) ∧ ∀ report ∈ (mend_queue w disk).reports,
        report = .cleared (clear_pending w disk.files pending).unrecoverable ∨
        report = .pushed (clear_pending w disk.files pending).recoverable
          (((clear_pending w disk.files pending).recoverable ++ more).filter keep) := by
  unfold mend_queue
  split
  · rename_i unreadable
    exact Or.inl ⟨unreadable,rfl⟩
  · rename_i pending readable
    have settles := clear_settles (w := w) disk.files pending
    obtain ⟨more,now,filed⟩ := clear_pending_added (w := w) disk.files pending
    have said {report : Report} (member : report ∈ if (clear_pending w disk.files pending).unrecoverable = [] then []
        else [Report.cleared (clear_pending w disk.files pending).unrecoverable]) :
        report = .cleared (clear_pending w disk.files pending).unrecoverable := by
      split at member
      · exact absurd member List.not_mem_nil
      · exact List.mem_singleton.mp member
    refine Or.inr ?_
    simp only
    split
    · refine ⟨pending,_,more,fun _ => true,readable,settles,?_,filed,fun report member => Or.inl (said member)⟩
      rw [now,List.filter_true]
    · obtain ⟨further,others,keep,left,others_filed,outcome⟩ := flush_left (w := w) (clear_pending w disk.files pending).shared
      have all_filed : ∀ entry ∈ more ++ others,
          Filed w (flush_pending_push w (clear_pending w disk.files pending).shared).1.files entry := by
        intro entry member
        rcases List.mem_append.mp member with early | late
        · exact (filed entry early).builds further.stands
        · exact others_filed entry late
      rw [now,List.append_assoc] at left
      split
      · refine ⟨pending,_,more ++ others,keep,readable,settles.trans further,?_,all_filed,fun report member => Or.inl (said member)⟩
        rw [left]
      · rename_i still pushed
        refine ⟨pending,_,more ++ others,keep,readable,settles.trans further,?_,all_filed,fun report member => ?_⟩
        · rw [left]
        · rcases List.mem_append.mp member with first | second
          · exact Or.inl (said first)
          · rw [push_report,outcome still pushed,left] at second
            split at second
            · exact absurd second List.not_mem_nil
            · exact Or.inr (List.mem_singleton.mp second)

/-! The reports, and the disk they are about. -/

def Report.relinked : Report → Bool
  | .relinked_orphan _ => true
  | .relinked_pointer _ => true
  | .cleared _ => false
  | .pushed _ _ => false
  | .removed _ => false

variable (w) in
/-- What has been re-linked so far is in the index and there. -/
structure Tracked (start : Disk) (run : Run) : Prop where
  added : ∀ path entry, run.disk.index.entries.get? path = some entry → start.index.entries.get? path = none →
    present run.disk.files (object_path w entry.hash) = true
  orphans : ∀ path, .relinked_orphan path ∈ run.reports → ∃ entry, run.disk.index.entries.get? path = some entry ∧
    entry.pointer.any (· ≠ []) = true ∧ ∀ h ∈ entry.parts, present run.disk.files (object_path w h) = true
  pointers : ∀ original, .relinked_pointer original ∈ run.reports → run.disk.index.entries.contains original = true

theorem Tracked.later {start : Disk} {run next : Run} (tracked : Tracked w start run) (index : next.disk.index = run.disk.index)
    (builds : Builds w run.disk.files next.disk.files)
    (said : ∀ report ∈ next.reports, report ∈ run.reports ∨ report.relinked = false) : Tracked w start next where
  added path entry found new := builds.present (tracked.added path entry (index ▸ found) new)
  orphans path member := by
    obtain ⟨entry,found,pointer,parts⟩ := tracked.orphans path ((said _ member).resolve_right Bool.noConfusion)
    exact ⟨entry,index ▸ found,pointer,fun h part => builds.present (parts h part)⟩
  pointers original member := index ▸ tracked.pointers original ((said _ member).resolve_right Bool.noConfusion)

theorem Loop.mem_run {s : Loop} {report : Str → Report} {said : Report} (member : said ∈ (s.run report).reports) :
    ∃ path ∈ s.mended, report path = said := by
  unfold Loop.run at member
  dsimp only at member
  split at member
  · exact absurd member List.not_mem_nil
  · exact List.mem_map.mp member

theorem mem_andThen {run : Run} {pass : Disk → Run} {said : Report} (member : said ∈ (run.andThen pass).reports) :
    said ∈ run.reports ∨ run.raised = false ∧ said ∈ (pass run.disk).reports := by
  unfold Run.andThen at member
  split at member
  · exact Or.inl member
  · rename_i running
    exact (List.mem_append.mp member).imp_right fun now => ⟨Bool.not_eq_true _ ▸ running,now⟩

theorem andThen_raised {run : Run} (pass : Disk → Run) (ended : run.raised = true) : run.andThen pass = run := if_pos ended

theorem andThen_running {run : Run} (pass : Disk → Run) (running : run.raised = false) :
    run.andThen pass = {pass run.disk with reports := run.reports ++ (pass run.disk).reports} :=
  if_neg (Bool.not_eq_true _ ▸ running)

variable (w)

theorem mend_orphans_index (start : Disk) : (mend_orphans w start).disk.index = start.index := (recovered start).index

theorem mend_orphans_tracked (start : Disk) : Tracked w start (mend_orphans w start) where
  added path entry found new := by
    rw [mend_orphans_index,new] at found
    cases found
  orphans path member := by
    obtain ⟨other,mended,same⟩ := Loop.mem_run member
    obtain rfl := Report.relinked_orphan.inj same
    obtain ⟨entry,orphan,parts⟩ := (recovered start).whole other mended
    obtain ⟨listed,broken⟩ := List.mem_filter.mp orphan
    refine ⟨entry,?_,(Bool.and_eq_true _ _ ▸ broken).1,parts⟩
    rw [mend_orphans_index]
    exact (Dict.mem_entries _ _ _).mp listed
  pointers original member := by
    obtain ⟨other,-,same⟩ := Loop.mem_run member
    cases same

def linked_run (start : Disk) : Run := (mend_orphans w start).andThen (mend_pointers w)

def queued_run (start : Disk) : Run := (linked_run w start).andThen (mend_queue w)

theorem mend_pointers_tracked {start : Disk} {run : Run} (tracked : Tracked w start run) (index : run.disk.index = start.index) :
    Tracked w start (run.andThen (mend_pointers w)) := by
  cases ended : run.raised with
  | true => exact (andThen_raised (mend_pointers w) ended).symm ▸ tracked
  | false =>
    rw [andThen_running _ ended]
    obtain ⟨-,settles,kept,added,listed⟩ := linked (w := w) run.disk
    refine ⟨?_,?_,?_⟩
    · intro path entry found new
      exact added path entry found (index ▸ new)
    · intro path member
      rcases List.mem_append.mp member with before | now
      · obtain ⟨entry,found,pointer,parts⟩ := tracked.orphans path before
        have tracked_here := (Dict.contains_iff run.disk.index.entries path).mpr ⟨entry,found⟩
        exact ⟨entry,(kept path tracked_here).trans found,pointer,fun h part => settles.toBuilds.present (parts h part)⟩
      · obtain ⟨other,-,same⟩ := Loop.mem_run now
        cases same
    · intro original member
      rcases List.mem_append.mp member with before | now
      · obtain ⟨entry,found⟩ := (Dict.contains_iff _ _).mp (tracked.pointers original before)
        exact (Dict.contains_iff _ _).mpr ⟨entry,(kept original (tracked.pointers original before)).trans found⟩
      · obtain ⟨other,mended,same⟩ := Loop.mem_run now
        obtain rfl := Report.relinked_pointer.inj same
        exact listed other mended

theorem linked_run_tracked (start : Disk) : Tracked w start (linked_run w start) :=
  mend_pointers_tracked w (mend_orphans_tracked w start) (mend_orphans_index w start)

theorem linked_run_relinked {start : Disk} {report : Report} (member : report ∈ (linked_run w start).reports) :
    report.relinked = true := by
  rcases mem_andThen member with first | ⟨-,second⟩
  · obtain ⟨path,-,rfl⟩ := Loop.mem_run first
    rfl
  · obtain ⟨path,-,rfl⟩ := Loop.mem_run second
    rfl

theorem linked_run_whole_iff (start : Disk) : Whole w start (linked_run w start).disk ↔ ((mend_orphans w start).raised = false →
    Runs.Every (relink w) (Honest w) ⟨(mend_orphans w start).disk,[],false⟩ (stale w (mend_orphans w start).disk)) := by
  have index := mend_orphans_index w start
  unfold linked_run
  cases ended : (mend_orphans w start).raised with
  | true =>
    rw [andThen_raised _ ended]
    refine iff_of_true (fun path entry found new => ?_) (fun running => Bool.noConfusion running)
    rw [index,new] at found
    cases found
  | false =>
    have same (disk : Disk) : Whole w start disk ↔ Whole w (mend_orphans w start).disk disk := by
      unfold Whole
      rw [index]
    rw [andThen_running _ ended,same,forall_prop_of_true rfl]
    exact linked_iff _

theorem queued_run_settles (start : Disk) : Settles w (linked_run w start).disk.files (queued_run w start).disk.files := by
  unfold queued_run
  cases ended : (linked_run w start).raised with
  | true =>
    rw [andThen_raised _ ended]
    exact Settles.refl _
  | false =>
    rw [andThen_running _ ended]
    obtain ⟨-,raised⟩ | ⟨pending,files,more,keep,-,settles,now,-⟩ := mend_queue_cases (w := w) (linked_run w start).disk
    · rw [raised]
      exact Settles.refl _
    · dsimp only
      rw [now]
      exact settles

theorem queued_run_index (start : Disk) : (queued_run w start).disk.index = (linked_run w start).disk.index := by
  unfold queued_run
  cases ended : (linked_run w start).raised with
  | true => rw [andThen_raised _ ended]
  | false =>
    rw [andThen_running _ ended]
    obtain ⟨-,raised⟩ | ⟨pending,files,more,keep,-,-,now,-⟩ := mend_queue_cases (w := w) (linked_run w start).disk
    · rw [raised]
    · dsimp only
      rw [now]

/-- What is reported of the queue holds of the queue that is left. -/
theorem queued_run_said {start : Disk} {report : Report} (member : report ∈ (queued_run w start).reports) :
    report ∈ (linked_run w start).reports ∨ ∃ pending, (queued_run w start).disk.pending_push = some pending ∧
      ((∃ lost, report = .cleared lost ∧ ∀ entry ∈ lost, entry ∈ pending → Filed w (queued_run w start).disk.files entry) ∨
      ∃ tried still, report = .pushed tried still ∧ tried.length ≤ still.length + (tried.filter (· ∉ pending)).length) := by
  rcases mem_andThen member with before | ⟨running,now⟩
  · exact Or.inl before
  · refine Or.inr ?_
    unfold queued_run
    rw [andThen_running _ running]
    obtain ⟨-,raised⟩ | ⟨pending,files,more,keep,-,-,disk,filed,said⟩ := mend_queue_cases (w := w) (linked_run w start).disk
    · rw [raised] at now
      exact absurd now List.not_mem_nil
    · dsimp only
      rw [disk]
      refine ⟨_,rfl,?_⟩
      rcases said report now with rfl | rfl
      · refine Or.inl ⟨_,rfl,fun entry lost left => ?_⟩
        rcases List.mem_append.mp (List.mem_of_mem_filter left) with kept | added
        · exact absurd kept (clear_disjoint lost)
        · exact filed entry added
      · exact Or.inr ⟨_,_,rfl,pushed_count _ more keep⟩

theorem queued_run_tracked (start : Disk) : Tracked w start (queued_run w start) := by
  refine (linked_run_tracked w start).later (queued_run_index w start) (queued_run_settles w start).toBuilds fun report member => ?_
  refine (queued_run_said w member).imp_right fun about => ?_
  obtain ⟨pending,-,⟨lost,rfl,-⟩ | ⟨tried,still,rfl,-⟩⟩ := about
  · rfl
  · rfl

theorem queued_run_whole_iff (start : Disk) : Whole w start (queued_run w start).disk ↔ Whole w start (linked_run w start).disk := by
  have settles := queued_run_settles w start
  have tracked := linked_run_tracked w start
  unfold Whole
  rw [queued_run_index]
  constructor
  · intro whole path entry found new
    exact settles.frozen _ (tracked.added path entry found new) (whole path entry found new)
  · intro whole path entry found new
    exact settles.content _ (whole path entry found new)

/-! Whether the repairs stick. -/

/-- Nothing that is reported as fixed is found by the next run, what has been re-linked has its content, and the commits other
processes queue while something is cleared are still queued then. -/
structure Sticks (start : Disk) : Prop where
  orphans : ∀ path, .relinked_orphan path ∈ (doctor w start).reports → path ∉ (orphaned w (doctor w start).disk).map Prod.fst
  pointers : ∀ original, .relinked_pointer original ∈ (doctor w start).reports →
    original ∉ (stale w (doctor w start).disk).map Prod.fst
  cleared : ∀ entries, .cleared entries ∈ (doctor w start).reports → ∃ pending,
    (doctor w start).disk.pending_push = some pending ∧ ∀ entry ∈ entries, entry ∉ unrecoverable w (doctor w start).disk.files pending
  pushed : ∀ tried still, .pushed tried still ∈ (doctor w start).reports → ∃ pending,
    (doctor w start).disk.pending_push = some pending ∧ tried.length ≤ still.length + (tried.filter (· ∉ pending)).length
  removed : ∀ paths, .removed paths ∈ (doctor w start).reports → ∀ path ∈ paths, path ∉ leftovers w (doctor w start).disk.files
  linked : Whole w start (doctor w start).disk
  queued : (linked_run w start).raised = false → ∀ pending, (linked_run w start).disk.pending_push = some pending →
    ∀ h ∈ (clear_pending w (linked_run w start).disk.files pending).shared.queued,
      ∃ entry ∈ (clear_pending w (linked_run w start).disk.files pending).shared.pending, entry.commit_hash = h

/-- Every pointer is honest when it comes to it; what is queued while something is cleared was already recoverable; and when it
comes to the leftovers they are files, and none is a part of an entry that has been re-linked. -/
structure Sound (start : Disk) : Prop where
  pointers : (mend_orphans w start).raised = false →
    Runs.Every (relink w) (Honest w) ⟨(mend_orphans w start).disk,[],false⟩ (stale w (mend_orphans w start).disk)
  queue : (linked_run w start).raised = false → ∀ pending, (linked_run w start).disk.pending_push = some pending →
    (clear_pending w (linked_run w start).disk.files pending).unrecoverable = [] ∨
      ∀ h ∈ (clear_pending w (linked_run w start).disk.files pending).shared.queued,
        ∃ entry ∈ (clear_pending w (linked_run w start).disk.files pending).recoverable, entry.commit_hash = h
  files : (queued_run w start).raised = false → ∀ path ∈ leftovers w (queued_run w start).disk.files,
    (queued_run w start).disk.files.get? path ≠ some .directory
  parts : (queued_run w start).raised = false → ∀ path entry, .relinked_orphan path ∈ (queued_run w start).reports →
    (queued_run w start).disk.index.entries.get? path = some entry → ∀ h ∈ entry.parts, ∀ place,
      reach up (queued_run w start).disk.files (object_path w h).start (object_path w h).rest = some place →
        place ∉ leftovers w (queued_run w start).disk.files

variable {w}

theorem doctor_raised {start : Disk} (ended : (queued_run w start).raised = true) : doctor w start = queued_run w start :=
  andThen_raised _ ended

theorem doctor_disk {start : Disk} (running : (queued_run w start).raised = false) :
    (doctor w start).disk = {(queued_run w start).disk with files := swept w (queued_run w start).disk.files} := by
  change ((queued_run w start).andThen (remove_leftovers w)).disk = _
  rw [andThen_running _ running]
  rfl

theorem doctor_index (start : Disk) : (doctor w start).disk.index = (queued_run w start).disk.index := by
  cases ended : (queued_run w start).raised with
  | true => rw [doctor_raised ended]
  | false => rw [doctor_disk ended]

theorem doctor_queue (start : Disk) : (doctor w start).disk.pending_push = (queued_run w start).disk.pending_push := by
  cases ended : (queued_run w start).raised with
  | true => rw [doctor_raised ended]
  | false => rw [doctor_disk ended]

theorem doctor_said {start : Disk} {report : Report} (member : report ∈ (doctor w start).reports) :
    report ∈ (queued_run w start).reports ∨ (queued_run w start).raised = false ∧
      report = .removed (leftovers w (queued_run w start).disk.files) := by
  refine (mem_andThen member).imp_right fun now => ⟨now.1,?_⟩
  have said := now.2
  unfold remove_leftovers at said
  dsimp only at said
  split at said
  · exact absurd said List.not_mem_nil
  · exact List.mem_singleton.mp said

theorem doctor_repeats {start : Disk} {report : Report} (member : report ∈ (queued_run w start).reports) :
    report ∈ (doctor w start).reports := by
  cases ended : (queued_run w start).raised with
  | true => rw [doctor_raised ended]; exact member
  | false =>
    change report ∈ ((queued_run w start).andThen (remove_leftovers w)).reports
    rw [andThen_running _ ended]
    exact List.mem_append_left _ member

theorem doctor_removed {start : Disk} (running : (queued_run w start).raised = false)
    (some_left : leftovers w (queued_run w start).disk.files ≠ []) :
    .removed (leftovers w (queued_run w start).disk.files) ∈ (doctor w start).reports := by
  change _ ∈ ((queued_run w start).andThen (remove_leftovers w)).reports
  rw [andThen_running _ running]
  refine List.mem_append_right _ ?_
  unfold remove_leftovers
  dsimp only
  rw [if_neg some_left]
  exact List.mem_cons_self

theorem never_removed {start : Disk} {paths : List (List Str)} : .removed paths ∉ (queued_run w start).reports := by
  intro member
  rcases queued_run_said w member with before | ⟨pending,-,⟨lost,same,-⟩ | ⟨tried,still,same,-⟩⟩
  · exact Bool.noConfusion (linked_run_relinked w before)
  · cases same
  · cases same

theorem doctor_available_iff (start : Disk) (h : Str) :
    available w (doctor w start).disk.files h = true ↔ available w (queued_run w start).disk.files h = true := by
  cases ended : (queued_run w start).raised with
  | true => rw [doctor_raised ended]
  | false =>
    rw [doctor_disk ended]
    exact swept_available_iff _ h

theorem doctor_filed {start : Disk} {entry : QueueEntry Str} (filed : Filed w (queued_run w start).disk.files entry) :
    Filed w (doctor w start).disk.files entry := by
  cases ended : (queued_run w start).raised with
  | true => rw [doctor_raised ended]; exact filed
  | false =>
    rw [doctor_disk ended]
    exact filed.swept

theorem doctor_whole_iff (start : Disk) : Whole w start (doctor w start).disk ↔ ((mend_orphans w start).raised = false →
    Runs.Every (relink w) (Honest w) ⟨(mend_orphans w start).disk,[],false⟩ (stale w (mend_orphans w start).disk)) := by
  rw [← linked_run_whole_iff,← queued_run_whole_iff]
  unfold Whole
  simp only [doctor_index,doctor_available_iff]

theorem mem_orphaned {disk : Disk} {path : Str} : path ∈ (orphaned w disk).map Prod.fst ↔
    ∃ entry, disk.index.entries.get? path = some entry ∧ entry.pointer.any (· ≠ []) = true ∧
      ∃ h ∈ entry.parts, present disk.files (object_path w h) = false := by
  constructor
  · intro member
    obtain ⟨⟨path,entry⟩,orphan,rfl⟩ := List.mem_map.mp member
    obtain ⟨listed,broken⟩ := List.mem_filter.mp orphan
    rw [Bool.and_eq_true] at broken
    exact ⟨entry,(Dict.mem_entries _ _ _).mp listed,broken.1,(missing_iff _ _).mp broken.2⟩
  · intro broken
    obtain ⟨entry,found,pointer,missing⟩ := broken
    refine List.mem_map.mpr ⟨(path,entry),List.mem_filter.mpr ⟨(Dict.mem_entries _ _ _).mpr found,?_⟩,rfl⟩
    rw [Bool.and_eq_true]
    exact ⟨pointer,(missing_iff _ _).mpr missing⟩

theorem doctor_pointers {start : Disk} {original : Str} (member : .relinked_pointer original ∈ (doctor w start).reports) :
    original ∉ (stale w (doctor w start).disk).map Prod.fst := by
  intro still
  obtain ⟨pointer,found,rfl⟩ := List.mem_map.mp still
  have untracked := stale_untracked found
  rw [doctor_index] at untracked
  rcases doctor_said member with before | ⟨-,same⟩
  · rw [(queued_run_tracked w start).pointers pointer.1 before] at untracked
    contradiction
  · cases same

theorem doctor_cleared {start : Disk} {entries : List (QueueEntry Str)} (member : .cleared entries ∈ (doctor w start).reports) :
    ∃ pending, (doctor w start).disk.pending_push = some pending ∧
      ∀ entry ∈ entries, entry ∉ unrecoverable w (doctor w start).disk.files pending := by
  rcases doctor_said member with before | ⟨-,same⟩
  · rcases queued_run_said w before with first | ⟨pending,left,⟨lost,same,filed⟩ | ⟨tried,still,same,-⟩⟩
    · exact Bool.noConfusion (linked_run_relinked w first)
    · obtain rfl := Report.cleared.inj same
      refine ⟨pending,(doctor_queue start).trans left,fun entry cleared found => ?_⟩
      obtain ⟨waiting,absent⟩ := List.mem_filter.mp found
      rw [(doctor_filed (filed entry cleared waiting)).present] at absent
      contradiction
    · cases same
  · cases same

theorem doctor_pushed {start : Disk} {tried still : List (QueueEntry Str)}
    (member : .pushed tried still ∈ (doctor w start).reports) :
    ∃ pending, (doctor w start).disk.pending_push = some pending ∧
      tried.length ≤ still.length + (tried.filter (· ∉ pending)).length := by
  rcases doctor_said member with before | ⟨-,same⟩
  · rcases queued_run_said w before with first | ⟨pending,left,⟨lost,same,-⟩ | ⟨tried,still,same,count⟩⟩
    · exact Bool.noConfusion (linked_run_relinked w first)
    · cases same
    · obtain ⟨rfl,rfl⟩ := Report.pushed.inj same
      exact ⟨pending,(doctor_queue start).trans left,count⟩
  · cases same

/-- A leftover that is a directory is still there after the removal. -/
theorem doctor_directory {start : Disk} (running : (queued_run w start).raised = false) {path : List Str}
    (member : path ∈ leftovers w (queued_run w start).disk.files)
    (folder : (queued_run w start).disk.files.get? path = some .directory) :
    path ∈ leftovers w (doctor w start).disk.files := by
  have stays := unlink_all_directory _ (leftovers w (queued_run w start).disk.files) folder
  rw [doctor_disk running]
  refine mem_leftovers.mpr ⟨?_,(mem_leftovers.mp member).2⟩
  change ((unlink_all _ _).1.get? path).isSome = true
  rw [stays]
  rfl

theorem sticks_sound {start : Disk} (sticks : Sticks w start) : Sound w start := by
  have files (running : (queued_run w start).raised = false) (path : List Str)
      (member : path ∈ leftovers w (queued_run w start).disk.files) : (queued_run w start).disk.files.get? path ≠ some .directory := by
    intro folder
    have said := doctor_removed running (List.ne_nil_of_mem member)
    exact sticks.removed _ said path member (doctor_directory running member folder)
  refine ⟨(doctor_whole_iff start).mp sticks.linked,?_,files,?_⟩
  · intro running pending readable
    exact (clear_queued_iff _ pending).mp (sticks.queued running pending readable)
  · intro running path entry said found h part place reached member
    obtain ⟨other,again,pointer,-⟩ := (queued_run_tracked w start).orphans path said
    obtain rfl := Option.some.inj (found.symm.trans again)
    have lost := swept_gone reached member (leftover_gone (files running) member)
    refine sticks.orphans path (doctor_repeats said) (mem_orphaned.mpr ⟨entry,?_,pointer,h,part,?_⟩)
    · rw [doctor_index]
      exact found
    · rw [doctor_disk running]
      exact lost

theorem sound_sticks {start : Disk} (sound : Sound w start) : Sticks w start where
  orphans path said broken := by
    obtain ⟨entry,found,-,h,part,missing⟩ := mem_orphaned.mp broken
    rcases doctor_said said with before | ⟨-,same⟩
    · obtain ⟨other,again,-,parts⟩ := (queued_run_tracked w start).orphans path before
      rw [doctor_index] at found
      obtain rfl := Option.some.inj (found.symm.trans again)
      have there := parts h part
      cases ended : (queued_run w start).raised with
      | true =>
        rw [doctor_raised ended,there] at missing
        contradiction
      | false =>
        rw [doctor_disk ended,swept_present there (sound.parts ended path entry before found h part)] at missing
        contradiction
    · cases same
  pointers original said := doctor_pointers said
  cleared entries said := doctor_cleared said
  pushed tried still said := doctor_pushed said
  removed paths said path member left := by
    rcases doctor_said said with before | ⟨running,same⟩
    · exact never_removed before
    · obtain rfl := Report.removed.inj same
      have there := (mem_leftovers.mp left).1
      rw [doctor_disk running,leftover_gone (sound.files running) member] at there
      contradiction
  linked := (doctor_whole_iff start).mpr sound.pointers
  queued running pending readable := (clear_queued_iff _ pending).mpr (sound.queue running pending readable)

/-- The repairs of a run stick exactly when, at each of its steps, none of three things is in the way. -/
theorem repairs_stick_iff (w : Surroundings) (start : Disk) : Sticks w start ↔ Sound w start :=
  ⟨sticks_sound,sound_sticks⟩

end Repairs

/-! A commit that is queued between the reading and the writing of the queue. -/

def racing : Surroundings where
  av_dir := [lit ".av"]
  decimals := Decimals.plain
  pointers := ∅
  at_orphan _ := ⟨false,fun _ => .failed⟩
  at_pointer _ := ⟨false,fun _ => .failed⟩
  at_queue := false
  at_flush := false
  delivers _ := .kept
  loaded := []
  checked := [⟨[],[],some "p/main"⟩]
  saved := []
  pushed := []

/-- The queue still names a commit whose file is gone. -/
def waiting : Disk := ⟨∅,⟨∅,[]⟩,some [⟨lit "abc",some "p/main"⟩]⟩

theorem queued_meanwhile_lost : ¬Sticks racing waiting := by
  intro sticks
  have queued : (clear_pending racing waiting.files [⟨lit "abc",some "p/main"⟩]).shared.queued = [hexdigest []] := rfl
  have left : (clear_pending racing waiting.files [⟨lit "abc",some "p/main"⟩]).shared.pending = [] := rfl
  obtain ⟨entry,member,-⟩ := sticks.queued rfl _ rfl (hexdigest []) (by
    change hexdigest [] ∈ (clear_pending racing waiting.files _).shared.queued
    rw [queued]
    exact List.mem_cons_self)
  change entry ∈ (clear_pending racing waiting.files _).shared.pending at member
  rw [left] at member
  exact List.not_mem_nil member

end AetherVault.Doctor
