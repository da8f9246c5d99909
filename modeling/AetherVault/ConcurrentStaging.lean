import AetherVault.FrontEnds
import Mathlib.Data.List.Induction

/-! Processes that stage, remove, unstage and commit in one repository at once: which of them read
the index before they have the lock, and what is left of it when every one saves. -/
namespace AetherVault.ConcurrentStaging
open Lib Hashing Index Solo FrontEnds

variable {H : Type} [DecidableEq H] [Hashing H]

/-- A file as it is when an add comes to it. -/
structure Given where
  path : Path
  file : WorkFile
  flags : List String

inductive Command
  | av_add (files : List Given)
  | rm (paths : List Path)
  | unstage (paths : List Path)
  | av_commit
  | repo_add (files : List Given)
  | repo_commit

/-- The index on disk, and the tree of HEAD. -/
structure Repository (H : Type) [DecidableEq H] where
  index : Index H
  head : Tree H

/-- What a process does next; `seen` is the index as it was loaded. -/
inductive Task (H : Type) [DecidableEq H]
  | wait
  | merge (seen : Index H)
  | hold (seen : Index H)
  | save (seen idx : Index H)
  | advance (seen : Index H)
  | clear (seen : Index H)

structure Machine (H : Type) [DecidableEq H] where
  repo : Repository H
  lock : Option Nat
  tasks : Dict Nat (Command × Task H)
  /-- The commands that have ended, in the order they did. -/
  finished : List Command

inductive Move
  | start (i : Nat) (command : Command)
  | enter (i : Nat)
  | write (i : Nat)

/-! What the commands compute. -/

def staging (env : StageEnv) (idx : Index H) (given : Given) : Option (StageResult H) :=
  (_compute_stage_result env .empty given.file given.path (classify_file given.path) (idx.entries.get? given.path) given.flags).2

def av_staged (env : StageEnv) (idx : Index H) (files : List Given) : List (StageResult H) :=
  files.filterMap fun given => if is_pointer_file given.file then none else staging env idx given

def av_merged (env : StageEnv) (seen current : Index H) (files : List Given) : Index H :=
  let items := av_staged env seen files
  items.foldl (merge_staged (items.foldl apply_stage_result seen)) current

/-- `stage_one_file`, and whether anything has changed so far. -/
def repo_stage (env : StageEnv) (staged : Index H × Bool) (given : Given) : Index H × Bool :=
  if given.path.endswith ".av-pointer" then staged
  else match staging env staged.1 given with
    | none => staged
    | some result => (apply_stage_result staged.1 result,true)

def repo_staged (env : StageEnv) (seen : Index H) (files : List Given) : Index H × Bool :=
  files.foldl (repo_stage env) (seen,false)

/-- `none` where nothing tracked is below one of the paths. -/
def removed (idx : Index H) (paths : List Path) : Option (Index H) :=
  if paths.any fun path => tracked_below idx path = [] then none
  else some ((paths.flatMap (tracked_below idx)).dedup.foldl stage_removal idx)

/-- `none` for the `KeyError` of a path that is not in the index any more. -/
def revert (head : Tree H) (idx : Index H) (path : Path) : Option (Index H) :=
  if !idx.entries.contains path then none
  else match head.get? path with
    | some head_data => some {idx with entries := idx.entries.set path (unstaged_entry path head_data)}
    | none => some {idx with entries := idx.entries.erase path}

def unstaged (repo : Repository H) (paths : List Path) : Option (Index H) :=
  if unstaging repo.index paths = [] then none else (unstaging repo.index paths).foldlM (revert repo.head) repo.index

/-! The processes. `av add` and the two functions of the SDK load the index before they have the lock,
and `Repo.add` never takes it. -/

/-- What is left to do after the part that runs without the lock, if anything. -/
def unlocked (env : StageEnv) (idx : Index H) : Command → Option (Task H)
  | .av_add files => if av_staged env idx files = [] then none else some (.merge idx)
  | .rm _ => some .wait
  | .unstage _ => some .wait
  | .av_commit => some .wait
  | .repo_add files => if (repo_staged env idx files).2 then some (.save idx (repo_staged env idx files).1) else none
  | .repo_commit => if idx.get_staged_entries.entries = [] then none else some (.hold idx)

def Task.waits : Task H → Bool
  | .wait => true
  | .merge _ => true
  | .hold _ => true
  | _ => false

/-- What is left to do with the lock, once the index is loaded again. -/
def locked (env : StageEnv) (repo : Repository H) : Command → Task H → Option (Task H)
  | .av_add files,.merge seen => some (.save repo.index (av_merged env seen repo.index files))
  | .rm paths,_ => (removed repo.index paths).map (.save repo.index)
  | .unstage paths,_ => (unstaged repo paths).map (.save repo.index)
  | .av_commit,_ => if repo.index.get_staged_entries.entries = [] ∧ repo.index.removed = [] then none else some (.advance repo.index)
  | .repo_commit,.hold seen => some (.advance seen)
  | _,_ => none

def Machine.finish (m : Machine H) (i : Nat) (command : Command) (repo : Repository H) : Machine H :=
  ⟨repo,if m.lock = some i then none else m.lock,m.tasks.erase i,m.finished ++ [command]⟩

def start (env : StageEnv) (m : Machine H) (i : Nat) (command : Command) : Machine H :=
  if m.tasks.contains i then m
  else match unlocked env m.repo.index command with
    | none => {m with finished := m.finished ++ [command]}
    | some task => {m with tasks := m.tasks.set i (command,task)}

def enter (env : StageEnv) (m : Machine H) (i : Nat) (command : Command) (task : Task H) : Machine H :=
  if m.lock.isSome || !task.waits then m
  else match locked env m.repo command task with
    | none => m.finish i command m.repo
    | some next => {m with lock := some i,tasks := m.tasks.set i (command,next)}

/-- A commit moves HEAD first and saves the index with its flags down after it. -/
def write (m : Machine H) (i : Nat) (command : Command) : Task H → Machine H
  | .save _ idx => m.finish i command {m.repo with index := idx}
  | .advance seen => {m with repo := {m.repo with head := seen.tree},tasks := m.tasks.set i (command,.clear seen)}
  | .clear seen => m.finish i command {m.repo with index := seen.clear_staged}
  | _ => m

def step (env : StageEnv) (m : Machine H) : Move → Machine H
  | .start i command => start env m i command
  | .enter i => (m.tasks.get? i).elim m fun task => enter env m i task.1 task.2
  | .write i => (m.tasks.get? i).elim m fun task => write m i task.1 task.2

/-- Nobody is there. -/
def idle (repo : Repository H) : Machine H := ⟨repo,none,∅,[]⟩

def run (env : StageEnv) (m : Machine H) (moves : List Move) : Machine H := moves.foldl (step env) m

/-! One command with nobody else there. -/

def Task.done (repo : Repository H) : Task H → Repository H
  | .save _ idx => {repo with index := idx}
  | .advance seen => ⟨seen.clear_staged,seen.tree⟩
  | _ => repo

def alone (env : StageEnv) (repo : Repository H) (command : Command) : Repository H :=
  match unlocked env repo.index command with
  | none => repo
  | some task => if task.waits then (locked env repo command task).elim repo (Task.done repo) else task.done repo

def serial (env : StageEnv) (repo : Repository H) (commands : List Command) : Repository H := commands.foldl (alone env) repo

/-- Up to its staged flag. -/
def unflagged (e : IndexEntry H) : IndexEntry H := {e with staged := false}

/-- What a process goes by still stands: `av add` sees the entries of its paths that it saw first, and
the other writes find the index that they were made from. -/
def Fits (m : Machine H) : Move → Prop
  | .start _ _ => True
  | .enter i => ∀ command task, m.tasks.get? i = some (command,task) → match command,task with
    | .av_add files,.merge seen => ∀ given ∈ files,
        (m.repo.index.entries.get? given.path).map unflagged = (seen.entries.get? given.path).map unflagged
    | _,.hold seen => m.repo.index = seen
    | _,_ => True
  | .write i => ∀ command task, m.tasks.get? i = some (command,task) → match task with
    | .save seen _ => m.repo.index = seen
    | .advance seen => m.repo.index = seen
    | .clear seen => m.repo.index = seen
    | _ => True

/-! What a run is asked for. -/

/-- Outside these paths the index is as it was. -/
structure Elsewhere (named : Path → Prop) (before after : Index H) : Prop where
  entries : ∀ path, ¬ named path → after.entries.get? path = before.entries.get? path
  removed : ∀ path, ¬ named path → (path ∈ after.removed ↔ path ∈ before.removed)

/-- The paths that a command is about; a commit is about none, it takes the flags down. -/
def Names (idx : Index H) (path : Path) : Command → Prop
  | .av_add files => path ∈ files.map (·.path)
  | .rm paths => ∃ below ∈ paths, below.isPrefixOf path = true
  | .unstage paths => path ∈ unstaging idx paths
  | .repo_add files => path ∈ files.map (·.path)
  | .av_commit => False
  | .repo_commit => False

def Alike (a b : Index H) (path : Path) : Prop := (a.entries.get? path).map unflagged = (b.entries.get? path).map unflagged

def Leaves (before after : Index H) : Command → Prop
  | .av_commit => ∀ path, Alike after before path
  | .repo_commit => ∀ path, Alike after before path
  | command => Elsewhere (fun path => Names before path command) before after

/-- An add takes the flag down for what HEAD has; what is unstaged goes back without losing chunks. -/
def LowersRightly (env : StageEnv) (repo : Repository H) : Command → Prop
  | .av_add files => AddsRightly files
  | .repo_add files => AddsRightly files
  | .unstage paths => ∀ path ∈ unstaging repo.index paths, ∀ e, repo.head.get? path = some e → e.chunks = []
  | _ => True
where
  AddsRightly (files : List Given) : Prop := ∀ given ∈ files, ∀ result, staging env Index.empty given = some result →
    (staging env repo.index given).isSome ∧ repo.index.changed given.path (.sha result.hash) = false ∨
        2 ≤ (files.map (·.path)).count given.path →
      (repo.head.get? given.path).map recorded = some (staged_record result)

def Careful (env : StageEnv) (m : Machine H) : Move → Prop
  | .write i => ∀ command seen idx, m.tasks.get? i = some (command,.save seen idx) → LowersRightly env m.repo command
  | _ => True

/-- Every move fits where it is made. -/
def FitRun (env : StageEnv) (m : Machine H) : List Move → Prop
  | [] => True
  | move::rest => Fits m move ∧ Careful env m move ∧ FitRun env (step env m move) rest

/-- The repository is what the ended commands make of it one after the other, but for a commit that has
moved HEAD and not yet saved the index; and a flag is down only where HEAD has the content. -/
structure Sound (env : StageEnv) (first : Repository H) (m : Machine H) : Prop where
  index : m.repo.index = (serial env first m.finished).index
  head : (∀ i command seen, m.tasks.get? i ≠ some (command,.clear seen)) → m.repo.head = (serial env first m.finished).head
  tracked : Tracks m.repo.head m.repo.index

/-- Only a command that ends changes the index, and only at its paths. -/
def Passes (before after : Machine H) : Prop := after.repo.index = before.repo.index ∨
  ∃ command, after.finished = before.finished ++ [command] ∧ Leaves before.repo.index after.repo.index command

/-! What is staged depends on the index at the given paths alone, and not on its flags. -/

omit [DecidableEq H] [Hashing H] in
theorem any_unflagged (known : Option (IndexEntry H)) (size mtime_ns : Nat) :
    known.any (fun e => size == e.size && mtime_ns == e.mtime_ns) =
      (known.map unflagged).any fun e => size == e.size && mtime_ns == e.mtime_ns := by
  cases known <;> rfl

theorem staging_alike {env : StageEnv} {a b : Index H} {given : Given} (alike : Alike a b given.path) :
    staging env a given = staging env b given := by
  have known : (a.entries.get? given.path).any (fun e => given.file.size == e.size && given.file.mtime_ns == e.mtime_ns) =
      (b.entries.get? given.path).any fun e => given.file.size == e.size && given.file.mtime_ns == e.mtime_ns := by
    rw [any_unflagged (a.entries.get? given.path),any_unflagged (b.entries.get? given.path),show _ = _ from alike]
  unfold staging _compute_stage_result
  rw [known]

omit [Hashing H] in
theorem changed_alike {a b : Index H} {path : Path} (alike : Alike a b path) (hash : Digest H) :
    a.changed path hash = b.changed path hash := by
  have read (idx : Index H) : idx.changed path hash = ((idx.entries.get? path).map unflagged).all fun e => decide (e.hash ≠ hash) := by
    unfold changed
    cases idx.entries.get? path <;> rfl
  rw [read,read,show _ = _ from alike]

theorem staging_shape {env : StageEnv} {idx : Index H} {given : Given} {result : StageResult H}
    (staged : staging env idx given = some result) : result.rel_path = given.path := by
  obtain ⟨_,_,_,_,_,_,path,-⟩ := _compute_stage_result_shape staged
  exact path

/-- A file is staged as what it is, whatever the index has of it. -/
theorem staging_empty {env : StageEnv} {idx : Index H} {given : Given} {result : StageResult H}
    (staged : staging env idx given = some result) : staging env .empty given = some result := by
  unfold staging _compute_stage_result at staged ⊢
  split at staged
  · contradiction
  · rw [if_neg (by simp [Index.empty])]
    exact staged

theorem av_staged_alike {env : StageEnv} {a b : Index H} {files : List Given} (alike : ∀ given ∈ files, Alike a b given.path) :
    av_staged env a files = av_staged env b files := by
  apply List.filterMap_congr
  intro given member
  rw [staging_alike (alike given member)]

theorem av_staged_path {env : StageEnv} {idx : Index H} {files : List Given} {item : StageResult H}
    (member : item ∈ av_staged env idx files) : item.rel_path ∈ files.map (·.path) := by
  obtain ⟨given,inside,staged⟩ := List.mem_filterMap.mp member
  split at staged
  · contradiction
  · exact List.mem_map.mpr ⟨given,inside,(staging_shape staged).symm⟩

omit [Hashing H] in
/-- Of two alike indexes, staging makes the same entries; what was the same before stays so. -/
theorem applied_alike (items : List (StageResult H)) (done : List Path) {a b : Index H} (alike : ∀ item ∈ items, Alike a b item.rel_path)
    (same : ∀ path ∈ done, a.entries.get? path = b.entries.get? path) :
    ∀ path ∈ done ++ items.map (·.rel_path), (items.foldl apply_stage_result a).entries.get? path =
      (items.foldl apply_stage_result b).entries.get? path := by
  induction items generalizing done a b with
  | nil => simpa using same
  | cons item rest ih =>
    have changed := changed_alike (alike item List.mem_cons_self) (.sha item.hash)
    have later := ih (a := apply_stage_result a item) (b := apply_stage_result b item) (done ++ [item.rel_path]) ?_ ?_
    · simpa using later
    · intro other member
      unfold Alike
      rw [apply_stage_result_get,apply_stage_result_get,changed]
      split
      · rfl
      · exact alike other (List.mem_cons_of_mem _ member)
    · intro path member
      rw [apply_stage_result_get,apply_stage_result_get,changed]
      split
      · rfl
      · rename_i away
        cases List.mem_append.mp member with
        | inl before => exact same path before
        | inr here => exact absurd (List.mem_singleton.mp here) away

theorem av_merged_alike {env : StageEnv} {seen current : Index H} {files : List Given}
    (alike : ∀ given ∈ files, Alike current seen given.path) : av_merged env seen current files = av_merged env current current files := by
  unfold av_merged
  rw [av_staged_alike alike]
  have paths : ∀ item ∈ av_staged env seen files, Alike current seen item.rel_path := by
    intro item member
    obtain ⟨given,inside,path⟩ := List.mem_map.mp (av_staged_path member)
    exact path ▸ alike given inside
  have entries := applied_alike _ [] paths (by simp)
  generalize av_staged env seen files = items at entries
  apply List.foldl_ext
  intro merged item member
  simp only [merge_staged,entries item.rel_path (List.mem_append_right _ (List.mem_map.mpr ⟨item,member,rfl⟩))]

/-! What a process is about to write is what its command makes alone of the index that it goes by. -/

section Tasks

variable {env : StageEnv} {repo : Repository H} {command : Command}

theorem alone_none (none : unlocked env repo.index command = none) : alone env repo command = repo := by simp [alone,none]

/-- What a commit makes of the index that it has. -/
def Commits (env : StageEnv) (command : Command) (seen : Index H) : Prop :=
  ∀ head, alone env ⟨seen,head⟩ command = ⟨seen.clear_staged,seen.tree⟩

/-- Every task that is not begun, or begun without the lock. -/
def Ready (env : StageEnv) (m : Machine H) (i : Nat) (command : Command) : Task H → Prop
  | .wait => ∀ idx : Index H, unlocked env idx command = some .wait
  | .merge seen => ∃ files, command = .av_add files ∧ av_staged env seen files ≠ []
  | .hold seen => command = .repo_commit ∧ seen.get_staged_entries.entries ≠ []
  | .save seen idx => (∀ head, alone env ⟨seen,head⟩ command = ⟨idx,head⟩) ∨
      m.lock = some i ∧ alone env ⟨seen,m.repo.head⟩ command = ⟨idx,m.repo.head⟩
  | .advance seen => m.lock = some i ∧ Commits env command seen
  | .clear seen => m.lock = some i ∧ m.repo.head = seen.tree ∧ Commits env command seen

theorem unlocked_ready {m : Machine H} {i : Nat} {task : Task H} (planned : unlocked env m.repo.index command = some task) :
    Ready env m i command task := by
  cases command with
  | av_add files =>
    simp only [unlocked] at planned
    split at planned
    · contradiction
    · rename_i staged
      exact Option.some.inj planned ▸ ⟨files,rfl,staged⟩
  | rm paths => exact Option.some.inj planned ▸ fun idx => rfl
  | unstage paths => exact Option.some.inj planned ▸ fun idx => rfl
  | av_commit => exact Option.some.inj planned ▸ fun idx => rfl
  | repo_add files =>
    simp only [unlocked] at planned
    split at planned
    · rename_i changed
      exact Option.some.inj planned ▸ Or.inl fun head => by simp [alone,unlocked,changed,Task.waits,Task.done]
    · contradiction
  | repo_commit =>
    simp only [unlocked] at planned
    split at planned
    · contradiction
    · rename_i staged
      exact Option.some.inj planned ▸ ⟨rfl,staged⟩

theorem unlocked_not_clear {idx seen : Index H} : unlocked env idx command ≠ some (.clear seen) := by
  cases command <;> simp [unlocked]

/-- With the lock, a task that still fits goes on as the command does alone. -/
theorem locked_alone {m : Machine H} {i : Nat} {task : Task H} (held : m.tasks.get? i = some (command,task)) (waits : task.waits = true)
    (ready : Ready env m i command task) (fits : Fits m (.enter i)) :
    alone env m.repo command = (locked env m.repo command task).elim m.repo (Task.done m.repo) := by
  have fits := fits command task held
  cases task with
  | wait => simp [alone,ready m.repo.index,Task.waits]
  | merge seen =>
    obtain ⟨files,rfl,staged⟩ := ready
    have alike : ∀ given ∈ files, Alike m.repo.index seen given.path := fits
    rw [← av_staged_alike alike] at staged
    simp [alone,unlocked,staged,Task.waits,locked,av_merged_alike alike]
  | hold seen =>
    obtain ⟨rfl,staged⟩ := ready
    have same : m.repo.index = seen := fits
    rw [← same] at staged ⊢
    simp [alone,unlocked,staged,Task.waits]
  | save seen idx => contradiction
  | advance seen => contradiction
  | clear seen => contradiction

theorem locked_shape {task next : Task H} (planned : locked env repo command task = some next) :
    (∃ idx, next = .save repo.index idx) ∨ ∃ seen, next = .advance seen := by
  cases command with
  | av_add files =>
    cases task <;> first | contradiction | exact Or.inl ⟨_,(Option.some.inj planned).symm⟩
  | rm paths =>
    obtain ⟨idx,-,same⟩ := Option.map_eq_some_iff.mp planned
    exact Or.inl ⟨idx,same.symm⟩
  | unstage paths =>
    obtain ⟨idx,-,same⟩ := Option.map_eq_some_iff.mp planned
    exact Or.inl ⟨idx,same.symm⟩
  | av_commit =>
    simp only [locked] at planned
    split at planned
    · contradiction
    · exact Or.inr ⟨_,(Option.some.inj planned).symm⟩
  | repo_add files => contradiction
  | repo_commit =>
    cases task <;> first | contradiction | exact Or.inr ⟨_,(Option.some.inj planned).symm⟩

theorem locked_commits {m : Machine H} {i : Nat} {task : Task H} {seen : Index H} (ready : Ready env m i command task)
    (planned : locked env m.repo command task = some (.advance seen)) : Commits env command seen := by
  intro head
  cases command with
  | av_add files => cases task <;> simp [locked] at planned
  | rm paths => simp [locked] at planned
  | unstage paths => simp [locked] at planned
  | av_commit =>
    simp only [locked] at planned
    split at planned
    · contradiction
    · rename_i some_change
      cases Option.some.inj planned
      simp [alone,unlocked,Task.waits,locked,some_change,Task.done]
  | repo_add files => simp [locked] at planned
  | repo_commit =>
    cases task <;> try contradiction
    cases Option.some.inj planned
    simp [alone,unlocked,ready.2,Task.waits,locked,Task.done]

/-! Runs whose moves fit. -/

/-- The repository is what the ended commands make of it one after the other, but for a commit that has
moved HEAD and not yet saved the index. -/
structure Serial (env : StageEnv) (first : Repository H) (m : Machine H) : Prop where
  ready : ∀ i command task, m.tasks.get? i = some (command,task) → Ready env m i command task
  index : m.repo.index = (serial env first m.finished).index
  head : (∀ i command seen, m.tasks.get? i ≠ some (command,.clear seen)) → m.repo.head = (serial env first m.finished).head

variable {first : Repository H} {m : Machine H} {i : Nat} {task : Task H}

theorem serial_concat (env : StageEnv) (first : Repository H) (commands : List Command) (command : Command) :
    serial env first (commands ++ [command]) = alone env (serial env first commands) command := by
  simp [serial]

theorem Serial.start (sound : Serial env first m) (i : Nat) (command : Command) : Serial env first (start env m i command) := by
  unfold ConcurrentStaging.start
  split
  · exact sound
  · rename_i free
    have absent : m.tasks.get? i = none := (Dict.contains_false _ _).mp (by simpa using free)
    cases planned : unlocked env m.repo.index command with
    | none =>
      have nothing : serial env first (m.finished ++ [command]) = serial env first m.finished := by
        rw [serial_concat,alone_none (by rw [← sound.index,planned])]
      exact ⟨sound.ready,by rw [nothing,sound.index],fun none => by rw [nothing,sound.head none]⟩
    | some task =>
      refine ⟨?_,sound.index,fun none => sound.head fun j other seen held => ?_⟩
      · intro j other kind held
        rw [Dict.get?_set] at held
        split at held
        · rename_i here
          cases Option.some.inj held
          exact here ▸ unlocked_ready planned
        · exact sound.ready j other kind held
      · apply none j other seen
        rw [Dict.get?_set,if_neg,held]
        intro here
        rw [here,absent] at held
        contradiction

theorem Serial.enter (sound : Serial env first m) (held : m.tasks.get? i = some (command,task)) (fits : Fits m (.enter i)) :
    Serial env first (enter env m i command task) := by
  unfold ConcurrentStaging.enter
  split
  · exact sound
  · rename_i open_lock
    have free : m.lock = none := by
      cases lock : m.lock with
      | none => rfl
      | some j => simp [lock] at open_lock
    have waits : task.waits = true := by
      by_contra busy
      simp [busy] at open_lock
    have settled : ∀ j other seen, m.tasks.get? j ≠ some (other,.clear seen) := by
      intro j other seen held
      have locked := (sound.ready j other _ held).1
      rw [free] at locked
      contradiction
    have repo : m.repo = serial env first m.finished := by
      have index := sound.index
      have head := sound.head settled
      cases at_repo : m.repo
      cases at_serial : serial env first m.finished
      simp_all
    have made := locked_alone held waits (sound.ready i command task held) fits
    cases planned : locked env m.repo command task with
    | none =>
      rw [planned] at made
      have nothing : serial env first (m.finished ++ [command]) = m.repo := by rw [serial_concat,← repo,made]; rfl
      refine ⟨?_,by rw [Machine.finish,nothing],fun _ => by rw [Machine.finish,nothing]⟩
      intro j other kind found
      rw [Machine.finish,Dict.get?_erase] at found
      split at found
      · contradiction
      · have before := sound.ready j other kind found
        cases kind <;> simp_all [Ready,Machine.finish]
    | some next =>
      rw [planned] at made
      refine ⟨?_,sound.index,fun _ => sound.head settled⟩
      intro j other kind found
      rw [Dict.get?_set] at found
      split at found
      · rename_i here
        subst here
        cases Option.some.inj found
        cases locked_shape planned with
        | inl saves =>
          obtain ⟨idx,rfl⟩ := saves
          exact Or.inr ⟨rfl,made⟩
        | inr advances =>
          obtain ⟨seen,rfl⟩ := advances
          exact ⟨rfl,locked_commits (sound.ready j command task held) planned⟩
      · have before := sound.ready j other kind found
        cases kind <;> simp_all [Ready]

omit [Hashing H] in
theorem at_index {seen : Index H} (same : repo.index = seen) : repo = ⟨seen,repo.head⟩ := by
  subst same
  rfl

/-- The repository that a save leaves is what the command makes alone of the one it finds. -/
theorem Serial.save {seen idx : Index H} (sound : Serial env first m) (held : m.tasks.get? i = some (command,.save seen idx))
    (same : m.repo.index = seen) : alone env m.repo command = {m.repo with index := idx} := by
  subst same
  cases sound.ready i command _ held with
  | inl everywhere => exact everywhere m.repo.head
  | inr here => exact here.2

theorem Serial.write (sound : Serial env first m) (held : m.tasks.get? i = some (command,task)) (fits : Fits m (.write i)) :
    Serial env first (write m i command task) := by
  have fits := fits command task held
  have ready := sound.ready i command task held
  have others (repo : Repository H) (head : m.lock ≠ some i → repo.head = m.repo.head) : ∀ j other kind,
      (m.finish i command repo).tasks.get? j = some (other,kind) → Ready env (m.finish i command repo) j other kind := by
    intro j other kind found
    rw [Machine.finish,Dict.get?_erase] at found
    split at found
    · contradiction
    · rename_i apart
      have before := sound.ready j other kind found
      have kept (locked : m.lock = some j) : (m.finish i command repo).lock = some j ∧ repo.head = m.repo.head := by
        have open_to : m.lock ≠ some i := fun mine => apart (Option.some.inj (locked.symm.trans mine))
        exact ⟨by rw [Machine.finish,if_neg open_to,locked],head open_to⟩
      cases kind with
      | wait => exact before
      | merge seen => exact before
      | hold seen => exact before
      | save seen idx =>
        exact before.imp_right fun here => by rw [show (m.finish i command repo).repo = repo from rfl,(kept here.1).2]; exact ⟨(kept here.1).1,here.2⟩
      | advance seen => exact ⟨(kept before.1).1,before.2⟩
      | clear seen => exact ⟨(kept before.1).1,(kept before.1).2.trans before.2.1,before.2.2⟩
  cases task with
  | wait => exact sound
  | merge seen => exact sound
  | hold seen => exact sound
  | save seen idx =>
    have same : m.repo.index = seen := fits
    have index : (alone env (serial env first m.finished) command).index = idx ∧
        (m.repo.head = (serial env first m.finished).head → (alone env (serial env first m.finished) command).head = m.repo.head) := by
      have at_serial : (serial env first m.finished).index = seen := sound.index ▸ same
      cases ready with
      | inl everywhere =>
        rw [at_index at_serial,everywhere]
        exact ⟨rfl,fun same => same.symm⟩
      | inr here =>
        have settled : ∀ j other seen, m.tasks.get? j ≠ some (other,.clear seen) := by
          intro j other seen' found
          have mine := (sound.ready j other _ found).1.symm.trans here.1
          rw [Option.some.inj mine,held] at found
          simp at found
        rw [at_index at_serial,← sound.head settled,here.2]
        exact ⟨rfl,fun _ => rfl⟩
    refine ⟨others _ fun _ => rfl,?_,?_⟩
    · show idx = (serial env first (m.finished ++ [command])).index
      rw [serial_concat,index.1]
    · intro none
      show m.repo.head = (serial env first (m.finished ++ [command])).head
      rw [serial_concat]
      refine (index.2 (sound.head fun j other seen' found => ?_)).symm
      apply none j other seen'
      show (m.tasks.erase i).get? j = _
      rw [Dict.get?_erase,if_neg,found]
      intro here
      rw [here,held] at found
      simp at found
  | advance seen =>
    refine ⟨?_,sound.index,fun none => absurd ?_ (none i command seen)⟩
    · intro j other kind found
      rw [write,Dict.get?_set] at found
      split at found
      · rename_i here
        subst here
        cases Option.some.inj found
        exact ⟨ready.1,rfl,ready.2⟩
      · rename_i apart
        have before := sound.ready j other kind found
        have locked : m.lock ≠ some j := fun other => apart (Option.some.inj (other.symm.trans ready.1))
        cases kind with
        | wait => exact before
        | merge seen => exact before
        | hold seen => exact before
        | save seen idx => exact Or.inl (before.resolve_right fun here => locked here.1)
        | advance seen => exact absurd before.1 locked
        | clear seen => exact absurd before.1 locked
    · simp [write]
  | clear seen =>
    have same : m.repo.index = seen := fits
    have made : alone env (serial env first m.finished) command = ⟨seen.clear_staged,seen.tree⟩ := by
      have at_serial : (serial env first m.finished).index = seen := sound.index ▸ same
      rw [at_index at_serial,ready.2.2]
    refine ⟨others _ fun _ => rfl,?_,fun _ => ?_⟩
    · show seen.clear_staged = (serial env first (m.finished ++ [command])).index
      rw [serial_concat,made]
    · show m.repo.head = (serial env first (m.finished ++ [command])).head
      rw [serial_concat,made]
      exact ready.2.1

theorem Serial.step (sound : Serial env first m) (move : Move) (fits : Fits m move) : Serial env first (step env m move) := by
  cases move with
  | start i command => exact sound.start i command
  | enter i =>
    rw [ConcurrentStaging.step]
    cases held : m.tasks.get? i with
    | none => exact sound
    | some task => exact sound.enter held fits
  | write i =>
    rw [ConcurrentStaging.step]
    cases held : m.tasks.get? i with
    | none => exact sound
    | some task => exact sound.write held fits

end Tasks

/-! The paths that a command leaves alone. -/

section Elsewhere

variable {named : Path → Prop} {a b c : Index H} {env : StageEnv}

omit [DecidableEq H] [Hashing H] in
theorem Elsewhere.refl (named : Path → Prop) (idx : Index H) : Elsewhere named idx idx := ⟨fun _ _ => rfl,fun _ _ => Iff.rfl⟩

omit [DecidableEq H] [Hashing H] in
theorem Elsewhere.trans (one : Elsewhere named a b) (two : Elsewhere named b c) : Elsewhere named a c where
  entries path apart := (two.entries path apart).trans (one.entries path apart)
  removed path apart := (two.removed path apart).trans (one.removed path apart)

theorem apart_of {path other : Path} (here : named path) (away : ¬ named other) : other ≠ path := by
  intro same
  rw [same] at away
  exact away here

omit [Hashing H] in
theorem apply_elsewhere (idx : Index H) {result : StageResult H} (here : named result.rel_path) :
    Elsewhere named idx (apply_stage_result idx result) where
  entries path apart := by rw [apply_stage_result_get,if_neg (apart_of here apart)]
  removed path apart := List.mem_erase_of_ne (apart_of here apart)

omit [DecidableEq H] [Hashing H] in
theorem stage_removal_elsewhere (idx : Index H) {path : Path} (here : named path) : Elsewhere named idx (idx.stage_removal path) where
  entries other apart := by rw [stage_removal,Dict.get?_erase,if_neg (apart_of here apart)]
  removed other apart := by
    have away : other ≠ path := apart_of here apart
    unfold stage_removal
    split
    · rfl
    · simp [away]

omit [DecidableEq H] [Hashing H] in
theorem removals_elsewhere (paths : List Path) (within : ∀ path ∈ paths, named path) (idx : Index H) :
    Elsewhere named idx (paths.foldl stage_removal idx) := by
  induction paths generalizing idx with
  | nil => exact .refl named idx
  | cons path rest ih =>
    exact (stage_removal_elsewhere idx (within path List.mem_cons_self)).trans
      (ih (fun other member => within other (List.mem_cons_of_mem path member)) _)

omit [DecidableEq H] [Hashing H] in
theorem revert_elsewhere {head : Tree H} {idx next : Index H} {path : Path} (here : named path)
    (reverted : revert head idx path = some next) : Elsewhere named idx next := by
  unfold revert at reverted
  split at reverted
  · contradiction
  · cases found : head.get? path with
    | some head_data =>
      rw [found] at reverted
      cases Option.some.inj reverted
      exact ⟨fun other apart => Dict.get?_set_other _ _ _ _ (apart_of here apart),fun other apart => Iff.rfl⟩
    | none =>
      rw [found] at reverted
      cases Option.some.inj reverted
      exact ⟨fun other apart => by rw [Dict.get?_erase,if_neg (apart_of here apart)],fun other apart => Iff.rfl⟩

omit [DecidableEq H] [Hashing H] in
theorem reverts_elsewhere {head : Tree H} (paths : List Path) (within : ∀ path ∈ paths, named path) {idx next : Index H}
    (reverted : paths.foldlM (revert head) idx = some next) : Elsewhere named idx next := by
  induction paths generalizing idx with
  | nil => exact Option.some.inj reverted ▸ .refl named idx
  | cons path rest ih =>
    rw [List.foldlM_cons] at reverted
    obtain ⟨between,first,later⟩ := Option.bind_eq_some_iff.mp reverted
    exact (revert_elsewhere (within path List.mem_cons_self) first).trans
      (ih (fun other member => within other (List.mem_cons_of_mem path member)) later)

omit [Hashing H] in
/-- Every path that has been staged has its entry. -/
theorem applied_held (items : List (StageResult H)) (idx : Index H) :
    ∀ path, (idx.entries.contains path = true ∨ path ∈ items.map (·.rel_path)) →
      (items.foldl apply_stage_result idx).entries.contains path = true := by
  induction items generalizing idx with
  | nil => exact fun path held => held.resolve_right (by simp)
  | cons item rest ih =>
    intro path held
    apply ih
    rw [Dict.contains,apply_stage_result_get]
    by_cases here : path = item.rel_path
    · simp [here]
    · rw [if_neg here]
      exact held.imp_right fun member => (List.mem_cons.mp member).resolve_left here

theorem av_merged_elsewhere (seen current : Index H) {files : List Given} (within : ∀ given ∈ files, named given.path) :
    Elsewhere named current (av_merged env seen current files) := by
  obtain ⟨entries,counts⟩ := merge_all (av_staged env seen files) current
    fun item member => applied_held _ seen item.rel_path (Or.inr (List.mem_map.mpr ⟨item,member,rfl⟩))
  have apart {path : Path} (away : ¬ named path) : path ∉ (av_staged env seen files).map (·.rel_path) := by
    intro member
    obtain ⟨item,inside,rfl⟩ := List.mem_map.mp member
    obtain ⟨given,listed,same⟩ := List.mem_map.mp (av_staged_path inside)
    exact away (same ▸ within given listed)
  constructor
  · intro path away
    exact (entries path).trans (if_neg (apart away))
  · intro path away
    have count := counts path
    rw [List.count_eq_zero_of_not_mem (apart away),Nat.sub_zero] at count
    rw [← List.count_pos_iff,← List.count_pos_iff (l := current.removed),← count]
    rfl

theorem repo_staged_elsewhere (seen : Index H) {files : List Given} (within : ∀ given ∈ files, named given.path) :
    Elsewhere named seen (repo_staged env seen files).1 := by
  have general (staged : Index H × Bool) : Elsewhere named staged.1 (files.foldl (repo_stage env) staged).1 := by
    induction files generalizing staged with
    | nil => exact .refl named staged.1
    | cons given rest ih =>
      refine .trans ?_ (ih (fun other member => within other (List.mem_cons_of_mem given member)) _)
      unfold repo_stage
      split
      · exact .refl named staged.1
      · cases made : staging env staged.1 given with
        | none => exact .refl named staged.1
        | some result => exact apply_elsewhere staged.1 (staging_shape made ▸ within given List.mem_cons_self)
  exact general (seen,false)

omit [DecidableEq H] [Hashing H] in
theorem Leaves.refl (idx : Index H) (command : Command) : Leaves idx idx command := by
  cases command with
  | av_commit => exact fun path => rfl
  | repo_commit => exact fun path => rfl
  | av_add files => exact Elsewhere.refl _ idx
  | rm paths => exact Elsewhere.refl _ idx
  | unstage paths => exact Elsewhere.refl _ idx
  | repo_add files => exact Elsewhere.refl _ idx

omit [DecidableEq H] [Hashing H] in
theorem clear_staged_alike (idx : Index H) (path : Path) : Alike idx.clear_staged idx path := by
  unfold Alike clear_staged
  rw [Dict.get?_map,Option.map_map]
  rfl

/-- What a command does alone to the index: nothing, or what it computes of it. -/
theorem alone_index (env : StageEnv) (repo : Repository H) (command : Command) : (alone env repo command).index = repo.index ∨
    match command with
    | .av_add files => (alone env repo command).index = av_merged env repo.index repo.index files
    | .rm paths => removed repo.index paths = some (alone env repo command).index
    | .unstage paths => unstaged repo paths = some (alone env repo command).index
    | .repo_add files => (alone env repo command).index = (repo_staged env repo.index files).1
    | _ => alone env repo command = ⟨repo.index.clear_staged,repo.index.tree⟩ := by
  cases command with
  | av_add files => by_cases staged : av_staged env repo.index files = [] <;> simp [alone,unlocked,staged,Task.waits,locked,Task.done]
  | rm paths => cases made : removed repo.index paths <;> simp [alone,unlocked,Task.waits,locked,made,Task.done]
  | unstage paths => cases made : unstaged repo paths <;> simp [alone,unlocked,Task.waits,locked,made,Task.done]
  | repo_add files => by_cases changed : (repo_staged env repo.index files).2 = true <;> simp [alone,unlocked,changed,Task.waits,Task.done]
  | av_commit =>
    by_cases nothing : repo.index.get_staged_entries.entries = [] ∧ repo.index.removed = []
    · simp [alone,unlocked,Task.waits,locked,nothing]
    · exact Or.inr (by simp [alone,unlocked,Task.waits,locked,nothing,Task.done])
  | repo_commit =>
    by_cases nothing : repo.index.get_staged_entries.entries = []
    · simp [alone,unlocked,nothing]
    · exact Or.inr (by simp [alone,unlocked,Task.waits,locked,nothing,Task.done])

theorem alone_leaves (env : StageEnv) (repo : Repository H) (command : Command) :
    Leaves repo.index (alone env repo command).index command := by
  have files_named (files : List Given) : ∀ given ∈ files, given.path ∈ files.map (·.path) :=
    fun given member => List.mem_map.mpr ⟨given,member,rfl⟩
  cases alone_index env repo command with
  | inl same =>
    rw [same]
    exact .refl _ command
  | inr made =>
    cases command with
    | av_add files =>
      rw [made]
      show Elsewhere (fun path => path ∈ files.map (·.path)) _ _
      exact av_merged_elsewhere _ _ (files_named files)
    | repo_add files =>
      rw [made]
      show Elsewhere (fun path => path ∈ files.map (·.path)) _ _
      exact repo_staged_elsewhere _ (files_named files)
    | unstage paths =>
      dsimp only at made
      unfold unstaged at made
      split at made
      · contradiction
      · show Elsewhere (fun path => path ∈ unstaging repo.index paths) _ _
        exact reverts_elsewhere _ (fun path member => member) made
    | rm paths =>
      dsimp only at made
      unfold removed at made
      split at made
      · contradiction
      · rw [← Option.some.inj made]
        have within : ∀ path ∈ (paths.flatMap (tracked_below repo.index)).dedup, ∃ below ∈ paths, below.isPrefixOf path = true := by
          intro path member
          obtain ⟨below,listed,tracked⟩ := List.mem_flatMap.mp (List.mem_dedup.mp member)
          exact ⟨below,listed,(List.mem_filter.mp tracked).2⟩
        show Elsewhere (fun path => ∃ below ∈ paths, below.isPrefixOf path = true) _ _
        exact removals_elsewhere _ within repo.index
    | av_commit =>
      rw [made]
      exact clear_staged_alike repo.index
    | repo_commit =>
      rw [made]
      exact clear_staged_alike repo.index

end Elsewhere

/-! The flags after a command. -/

section Flags

variable {env : StageEnv} {repo : Repository H} {head : Tree H} {seen idx : Index H} {files done rest : List Given} {given : Given}

/-- What the first files have made of the index. -/
structure StagedSoFar (head : Tree H) (seen : Index H) (done : List Given) (idx : Index H) : Prop where
  tracks : Tracks head idx
  untouched : ∀ path, path ∉ done.map (·.path) → idx.entries.get? path = seen.entries.get? path

omit [DecidableEq H] [Hashing H] in
theorem StagedSoFar.skip (so_far : StagedSoFar head seen done idx) (given : Given) : StagedSoFar head seen (done ++ [given]) idx where
  tracks := so_far.tracks
  untouched path away := so_far.untouched path fun member => away (by
    rw [List.map_append]
    exact List.mem_append_left _ member)

theorem StagedSoFar.stage (so_far : StagedSoFar repo.head repo.index done idx) (careful : LowersRightly.AddsRightly env repo files)
    (split : files = done ++ given::rest) {result : StageResult H} (staged : staging env Index.empty given = some result)
    (first : given.path ∉ done.map (·.path) → (staging env repo.index given).isSome) :
    StagedSoFar repo.head repo.index (done ++ [given]) (apply_stage_result idx result) where
  tracks := by
    have path := staging_shape staged
    apply apply_stage_result_tracks so_far.tracks
    rw [path]
    intro lowered
    apply careful given (by simp [split]) result staged
    by_cases again : given.path ∈ done.map (·.path)
    · right
      rw [split,List.map_append,List.map_cons,List.count_append,List.count_cons_self]
      have := List.count_pos_iff.mpr again
      omega
    · left
      refine ⟨first again,?_⟩
      rw [changed,← so_far.untouched given.path again]
      exact lowered
  untouched path away := by
    rw [List.map_append,List.mem_append,not_or] at away
    rw [apply_stage_result_get,staging_shape staged,if_neg (by simpa using away.2)]
    exact so_far.untouched path away.1

theorem av_so_far (careful : LowersRightly.AddsRightly env repo files) (tracks : Tracks repo.head repo.index)
    (split : files = done ++ rest) :
    StagedSoFar repo.head repo.index done ((av_staged env repo.index done).foldl apply_stage_result repo.index) := by
  induction done using List.reverseRecOn generalizing rest with
  | nil => exact ⟨tracks,fun path away => rfl⟩
  | append_singleton done given ih =>
    have split : files = done ++ given::rest := by simpa using split
    have so_far := ih split
    simp only [av_staged] at so_far ⊢
    rw [List.filterMap_append,List.foldl_append]
    by_cases pointer : is_pointer_file given.file = true
    · simpa [pointer] using so_far.skip given
    · cases staged : staging env repo.index given with
      | none => simpa [pointer,staged] using so_far.skip given
      | some result =>
        simpa [pointer,staged] using so_far.stage careful split (staging_empty staged) fun _ => by simp [staged]

theorem repo_so_far (careful : LowersRightly.AddsRightly env repo files) (tracks : Tracks repo.head repo.index)
    (split : files = done ++ rest) : StagedSoFar repo.head repo.index done (repo_staged env repo.index done).1 := by
  induction done using List.reverseRecOn generalizing rest with
  | nil => exact ⟨tracks,fun path away => rfl⟩
  | append_singleton done given ih =>
    have split : files = done ++ given::rest := by simpa using split
    have so_far := ih split
    rw [repo_staged,List.foldl_append,← repo_staged]
    simp only [List.foldl_cons,List.foldl_nil,repo_stage]
    by_cases pointer : given.path.endswith ".av-pointer" = true
    · simpa [pointer] using so_far.skip given
    · cases staged : staging env (repo_staged env repo.index done).1 given with
      | none => simpa [pointer,staged] using so_far.skip given
      | some result =>
        simp only [pointer]
        apply so_far.stage careful split (staging_empty staged)
        intro first
        have alike : Alike (repo_staged env repo.index done).1 repo.index given.path := by rw [Alike,so_far.untouched given.path first]
        rw [← staging_alike alike,staged]
        rfl

omit [Hashing H] in
theorem merged_tracks {current : Index H} (staged : Tracks head seen) (tracks : Tracks head current) (items : List (StageResult H))
    (held : ∀ item ∈ items, seen.entries.contains item.rel_path = true) : Tracks head (items.foldl (merge_staged seen) current) := by
  induction items generalizing current with
  | nil => exact tracks
  | cons item rest ih =>
    exact ih (merge_staged_tracks staged tracks (held item List.mem_cons_self)) fun other member => held other (List.mem_cons_of_mem item member)

omit [DecidableEq H] [Hashing H] in
theorem removals_tracks (paths : List Path) (tracks : Tracks head idx) : Tracks head (paths.foldl stage_removal idx) := by
  induction paths generalizing idx with
  | nil => exact tracks
  | cons path rest ih => exact ih (stage_removal_tracks tracks path)

omit [DecidableEq H] [Hashing H] in
theorem reverts_tracks {paths : List Path} (whole : ∀ path ∈ paths, ∀ e, head.get? path = some e → e.chunks = []) {next : Index H}
    (tracks : Tracks head idx) (reverted : paths.foldlM (revert head) idx = some next) : Tracks head next := by
  induction paths generalizing idx with
  | nil => exact Option.some.inj reverted ▸ tracks
  | cons path rest ih =>
    rw [List.foldlM_cons] at reverted
    obtain ⟨between,first,later⟩ := Option.bind_eq_some_iff.mp reverted
    refine ih (fun other member => whole other (List.mem_cons_of_mem path member)) ?_ later
    unfold revert at first
    split at first
    · contradiction
    · cases found : head.get? path with
      | none =>
        rw [found] at first
        cases Option.some.inj first
        refine tracks.drop path rfl (fun other member _ => member) ?_
        intro held
        simp [Dict.contains,found] at held
      | some e =>
        rw [found] at first
        cases Option.some.inj first
        refine tracks.put path (unstaged_entry path e) (fun other => Dict.get?_set _ _ _ _) (fun other member _ => member) fun _ => ?_
        have bare := whole path List.mem_cons_self e found
        simp [found,recorded,unstaged_entry,IndexEntry.tree_entry,bare]

theorem alone_tracks (tracks : Tracks repo.head repo.index) {command : Command} (careful : LowersRightly env repo command)
    (still : (alone env repo command).head = repo.head) : Tracks repo.head (alone env repo command).index := by
  cases alone_index env repo command with
  | inl same => rwa [same]
  | inr made =>
    cases command with
    | av_add files =>
      rw [made]
      have staged := (av_so_far careful tracks (List.append_nil files).symm).tracks
      apply merged_tracks staged tracks
      exact fun item member => applied_held _ _ item.rel_path (Or.inr (List.mem_map.mpr ⟨item,member,rfl⟩))
    | repo_add files =>
      rw [made]
      exact (repo_so_far careful tracks (List.append_nil files).symm).tracks
    | unstage paths =>
      dsimp only at made
      unfold unstaged at made
      split at made
      · contradiction
      · exact reverts_tracks careful tracks made
    | rm paths =>
      dsimp only at made
      unfold removed at made
      split at made
      · contradiction
      · rw [← Option.some.inj made]
        exact removals_tracks _ tracks
    | av_commit =>
      rw [← still,made]
      exact (tree_mirrors _).cleared.tracks
    | repo_commit =>
      rw [← still,made]
      exact (tree_mirrors _).cleared.tracks

end Flags

/-! Whole runs. -/

section Runs

variable {env : StageEnv} {first : Repository H} {m : Machine H}

/-- Only a write touches the repository. -/
theorem start_repo (env : StageEnv) (m : Machine H) (i : Nat) (command : Command) : (step env m (.start i command)).repo = m.repo := by
  show (start env m i command).repo = m.repo
  unfold start
  split
  · rfl
  · cases unlocked env m.repo.index command <;> rfl

theorem enter_repo (env : StageEnv) (m : Machine H) (i : Nat) : (step env m (.enter i)).repo = m.repo := by
  show ((m.tasks.get? i).elim m fun task => enter env m i task.1 task.2).repo = m.repo
  cases m.tasks.get? i with
  | none => rfl
  | some task =>
    simp only [Option.elim_some,enter]
    split
    · rfl
    · cases locked env m.repo task.1 task.2 <;> rfl

theorem step_tracks (sound : Serial env first m) (tracks : Tracks m.repo.head m.repo.index) (move : Move) (fits : Fits m move)
    (careful : Careful env m move) : Tracks (step env m move).repo.head (step env m move).repo.index := by
  cases move with
  | start i command => rwa [start_repo]
  | enter i => rwa [enter_repo]
  | write i =>
    cases held : m.tasks.get? i with
    | none => simpa [step,held] using tracks
    | some task =>
      obtain ⟨command,task⟩ := task
      have fits := fits command task held
      have ready := sound.ready i command task held
      simp only [step,held,Option.elim_some]
      cases task with
      | wait => exact tracks
      | merge seen => exact tracks
      | hold seen => exact tracks
      | save seen idx =>
        have made := sound.save held fits
        have after := alone_tracks tracks (careful command seen idx held) (by rw [made])
        rw [made] at after
        exact after
      | advance seen =>
        have same : m.repo.index = seen := fits
        show Tracks seen.tree m.repo.index
        rw [same]
        exact (tree_mirrors seen).tracks
      | clear seen =>
        show Tracks m.repo.head seen.clear_staged
        rw [ready.2.1]
        exact (tree_mirrors seen).cleared.tracks

theorem step_passes (sound : Serial env first m) (move : Move) (fits : Fits m move) : Passes m (step env m move) := by
  cases move with
  | start i command => exact Or.inl (congrArg Repository.index (start_repo env m i command))
  | enter i => exact Or.inl (congrArg Repository.index (enter_repo env m i))
  | write i =>
    cases held : m.tasks.get? i with
    | none => exact Or.inl (by simp [step,held])
    | some task =>
      obtain ⟨command,task⟩ := task
      have fits := fits command task held
      have ready := sound.ready i command task held
      simp only [step,held,Option.elim_some]
      cases task with
      | wait => exact Or.inl rfl
      | merge seen => exact Or.inl rfl
      | hold seen => exact Or.inl rfl
      | save seen idx =>
        have leaves := alone_leaves env m.repo command
        rw [sound.save held fits] at leaves
        exact Or.inr ⟨command,rfl,leaves⟩
      | advance seen => exact Or.inl rfl
      | clear seen =>
        have same : m.repo.index = seen := fits
        have leaves := alone_leaves env m.repo command
        rw [at_index same,ready.2.2] at leaves
        exact Or.inr ⟨command,rfl,by simpa [write,Machine.finish,same] using leaves⟩

theorem fitting_serial {moves : List Move} (sound : Serial env first m) (tracks : Tracks m.repo.head m.repo.index)
    (fits : FitRun env m moves) (before after : List Move) (split : moves = before ++ after) :
    (Serial env first (run env m before) ∧ Tracks (run env m before).repo.head (run env m before).repo.index) ∧
      FitRun env (run env m before) after := by
  subst split
  induction before generalizing m with
  | nil => exact ⟨⟨sound,tracks⟩,fits⟩
  | cons move rest ih => exact ih (sound.step move fits.1) (step_tracks sound tracks move fits.1 fits.2.1) fits.2.2

theorem idle_serial (env : StageEnv) (first : Repository H) : Serial env first (idle first) where
  ready := by
    intro i command task held
    simp [idle] at held
  index := rfl
  head _ := rfl

/-- Any number of processes and any interleaving: while every write still goes by what it was made from,
the repository is at all times that of the commands one after the other, no command touches the paths
of another, and no flag is down wrongly. -/
theorem fitting_runs_sound (env : StageEnv) (first : Repository H) (tracks : Tracks first.head first.index) (moves : List Move)
    (fits : FitRun env (idle first) moves) : ∀ before after, moves = before ++ after →
      Sound env first (run env (idle first) before) ∧
      ∀ move rest, after = move::rest → Passes (run env (idle first) before) (run env (idle first) (before ++ [move])) := by
  intro before after split
  obtain ⟨⟨sound,tracked⟩,later⟩ := fitting_serial (idle_serial env first) tracks fits before after split
  constructor
  · exact ⟨sound.index,sound.head,tracked⟩
  · intro move rest next
    rw [next] at later
    show Passes _ ((before ++ [move]).foldl (step env) (idle first))
    rw [List.foldl_append]
    exact step_passes sound move later.1

/-- A process with nobody beside it does what its command does alone. -/
theorem run_alone (env : StageEnv) (repo : Repository H) (command : Command) :
    (run env (idle repo) [.start 0 command,.enter 0,.write 0,.write 0]).repo = alone env repo command := by
  cases planned : unlocked env repo.index command with
  | none => simp [run,idle,step,start,planned,alone,Dict.contains]
  | some task =>
    have began : step env (idle repo) (.start 0 command) = {idle repo with tasks := (∅ : Dict _ _).set 0 (command,task)} := by
      simp [idle,step,start,planned,Dict.contains]
    simp only [run,List.foldl_cons,List.foldl_nil,began]
    by_cases waits : task.waits = true
    · cases next : locked env repo command task with
      | none => simp [idle,step,enter,waits,next,alone,planned,Machine.finish,Dict.get?_erase]
      | some then_do =>
        cases locked_shape next with
        | inl saves =>
          obtain ⟨idx,rfl⟩ := saves
          simp [idle,step,enter,waits,next,alone,planned,Task.done,write,Machine.finish,Dict.get?_erase]
        | inr advances =>
          obtain ⟨seen,rfl⟩ := advances
          simp [idle,step,enter,waits,next,alone,planned,Task.done,write,Machine.finish]
    · cases task with
      | save seen idx => simp [idle,step,enter,waits,alone,planned,Task.done,write,Machine.finish,Dict.get?_erase]
      | advance seen => simp [idle,step,enter,waits,alone,planned,Task.done,write,Machine.finish]
      | clear seen => exact absurd planned unlocked_not_clear
      | wait => simp [Task.waits] at waits
      | merge seen => simp [Task.waits] at waits
      | hold seen => simp [Task.waits] at waits

end Runs

/-! One byte in a file. -/

theorem one_byte (b : UInt8) : [b].length < 2^64 := by simp

def given (name : String) (content : UInt8) (mtime_ns : Nat) : Given := ⟨[name],⟨⟨[content],one_byte content⟩,mtime_ns⟩,[]⟩

def blank : Repository Name := ⟨.empty,∅⟩

/-- The file `f` is committed with the content 1. -/
def committed : Repository Name :=
  let idx : Index Name := apply_stage_result .empty ⟨["f"],⟨[1]⟩,1,1,.artifact,none,[],[],""⟩
  ⟨idx.clear_staged,idx.tree⟩

theorem committed_tracks : Tracks committed.head committed.index := (tree_mirrors _).cleared.tracks

def add_beside_rm : List Move := [.start 0 (.av_add [given "g" 2 1]),.start 1 (.rm [["f"]]),.enter 1,.write 1,.enter 0,.write 0]

theorem add_beside_rm_fits : FitRun plain.staging (idle committed) add_beside_rm := by
  refine ⟨trivial,trivial,trivial,trivial,?_,trivial,?_,?_,?_,trivial,?_,?_,trivial⟩
  · intro command task held
    cases Option.some.inj (show some (Command.rm [["f"]],Task.wait) = some (command,task) from held)
    trivial
  · intro command task held
    cases held
    rfl
  · intro command seen idx held
    cases held
    trivial
  · intro command task held
    cases held
    intro file member
    cases List.mem_singleton.mp member
    decide +kernel
  · intro command task held
    cases held
    rfl
  · intro command seen idx held
    cases held
    intro file member result staged again
    cases List.mem_singleton.mp member
    cases again with
    | inl lowered => exact absurd (show true = false from lowered.2) (by simp)
    | inr twice => exact absurd (show 2 ≤ 1 from twice) (by simp)

theorem add_beside_rm_sound : Tracks committed.head committed.index ∧ FitRun plain.staging (idle committed) add_beside_rm ∧
    Sound plain.staging committed (run plain.staging (idle committed) add_beside_rm) :=
  ⟨committed_tracks,add_beside_rm_fits,(fitting_runs_sound plain.staging committed committed_tracks add_beside_rm add_beside_rm_fits
    add_beside_rm [] (List.append_nil _).symm).1⟩

/-- `Repo.add` saves the index as it was before `f` was added, which no order of the two gives; and an `av add`
that saw the content 1 puts it back with its flag down when HEAD has moved on to 2. -/
theorem stale_index_saved :
    ((run plain.staging (idle blank) [.start 0 (.repo_add [given "g" 2 1]),.start 1 (.av_add [given "f" 1 1]),.enter 1,.write 1,.write 0]).repo.index.entries.keys =
        [["g"]] ∧
      (serial plain.staging blank [.repo_add [given "g" 2 1],.av_add [given "f" 1 1]]).index.entries.keys = [["g"],["f"]] ∧
      (serial plain.staging blank [.av_add [given "f" 1 1],.repo_add [given "g" 2 1]]).index.entries.keys = [["f"],["g"]]) ∧
    let late := run plain.staging (idle committed) [.start 0 (.av_add [given "f" 1 2]),.start 1 (.av_add [given "f" 2 3]),.enter 1,.write 1,
      .start 1 .av_commit,.enter 1,.write 1,.write 1,.enter 0,.write 0]
    (late.repo.index.entries.get? ["f"]).map (fun e => (e.hash,e.staged)) = some (.sha ⟨[1]⟩,false) ∧
      (late.repo.head.get? ["f"]).map (·.hash) = some (.sha ⟨[2]⟩) := by
  decide +kernel

end AetherVault.ConcurrentStaging
