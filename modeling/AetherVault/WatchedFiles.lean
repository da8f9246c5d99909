import AetherVault.Watch
import Mathlib.Data.List.Induction

/-! What `av watch` commits, and what it does not miss. -/
namespace AetherVault.Watch
open Lib Hashing Index FrontEnds

variable {H : Type} [DecidableEq H] [Hashing H] {T : Type} {cfg : Config T} {turn : Turn T}

/-! What the index holds of a file. -/

def recorded (p : Progress H T) (rel : Path) : Option (Digest H × Nat × Nat) :=
  (p.index.entries.get? rel).map fun e => (e.hash,e.size,e.mtime_ns)

/-- The index has nothing staged for the file, and HEAD has what the index has. -/
def Clean (p : Progress H T) (rel : Path) : Prop :=
  ∀ e, p.index.entries.get? rel = some e → e.staged = false ∧ (p.head.get? rel).map TreeEntry.hash = some e.hash

def Held (p : Progress H T) (rel : Path) (content : Bytes) : Prop :=
  (recorded p rel).map Prod.fst = some (.sha (sha256 content))

/-- An entry with the size and mtime of the file has its content. -/
def Told (p : Progress H T) (rel : Path) (file : WorkFile) : Prop :=
  ∀ hash, recorded p rel = some (hash,file.size,file.mtime_ns) → hash = .sha (sha256 file.data.bytes)

/-- Size and mtime tell the content of the file from what the index had for it, and from all that has been staged of it before. -/
structure Trusted (index : Index H) (turns : List (Turn T)) (rel : Path) (file : WorkFile) : Prop where
  entry : ∀ e, index.entries.get? rel = some e → e.size = file.size → e.mtime_ns = file.mtime_ns →
    e.hash = .sha (sha256 file.data.bytes)
  staged : ∀ turn ∈ turns, ∀ g, turn.staging rel = some g → signature g = signature file → g.data.bytes = file.data.bytes

section
variable {p : Progress H T} {rel other : Path} {file : WorkFile}

theorem told_start {index : Index H} {objects : Objects H} {head : Tree H} {turns : List (Turn T)}
    (trusted : Trusted index turns rel file) : Told (start index objects head : Watching H T).progress rel file := by
  intro hash found
  obtain ⟨e,held,entry⟩ := Option.map_eq_some_iff.mp found
  simp only [Prod.mk.injEq] at entry
  obtain ⟨rfl,size,mtime⟩ := entry
  exact trusted.entry e held size mtime

theorem commit_cases (p : Progress H T) (rel : Path) : (p.index.get_staged_entries.entries = [] ∧ commit_staged p rel = p) ∨
    commit_staged p rel =
      {p with head := p.index.tree,commits := p.commits ++ [⟨rel,p.index.tree⟩],index := p.index.clear_staged} := by
  rw [commit_staged]
  split
  next nothing =>
    rw [Bool.and_eq_true,List.isEmpty_iff] at nothing
    exact .inl ⟨nothing.1,rfl⟩
  next => exact .inr rfl

theorem recorded_commit (p : Progress H T) (rel other : Path) : recorded (commit_staged p rel) other = recorded p other := by
  rcases commit_cases p rel with ⟨_,same⟩ | made
  · rw [same]
  · rw [made,recorded,recorded,Index.clear_staged,Dict.get?_map,Option.map_map]
    rfl

variable (cfg) in
/-- Staging leaves the index as it is where size and mtime are known, and else replaces the file's own entry. -/
theorem staged_index (p : Progress H T) (rel : Path) (file : WorkFile) :
    (p.index.entries.get? rel).any (compare_meta file) = true ∧ (stage_one_file cfg p rel file).index = p.index ∨
      ∀ other, (stage_one_file cfg p rel file).index.entries.get? other = if other = rel then
        some (staged_entry cfg.env file rel (p.index.changed rel (.sha (sha256 file.data.bytes))))
        else p.index.entries.get? other := by
  cases met : (p.index.entries.get? rel).any (compare_meta file) with
  | true =>
    refine .inl ⟨rfl,?_⟩
    have skips : (_compute_stage_result cfg.env.staging p.objects file rel (classify_file rel) (p.index.entries.get? rel)
        (cfg.env.flags_for rel)).2 = none := by
      have known : ((p.index.entries.get? rel).any fun e => file.size == e.size && file.mtime_ns == e.mtime_ns) = true := met
      rw [_compute_stage_result,if_pos known]
    rw [stage_one_file,skips]
    rfl
  | false =>
    obtain ⟨result,computed,at_path,entry⟩ := stage_computed cfg.env p.objects file rel met
    refine .inr fun other => ?_
    rw [stage_one_file,computed]
    exact (apply_staged p.index at_path entry).1 other

theorem recorded_staged (p : Progress H T) (rel : Path) (file : WorkFile) :
    recorded (stage_and_commit cfg p rel file) other = recorded (stage_one_file cfg p rel file) other :=
  recorded_commit _ rel other

theorem staged_other (p : Progress H T) (file : WorkFile) (apart : other ≠ rel) :
    (stage_one_file cfg p rel file).index.entries.get? other = p.index.entries.get? other := by
  rcases staged_index cfg p rel file with ⟨_,same⟩ | entries
  · rw [same]
  · rw [entries,if_neg apart]

variable (cfg) in
/-- The entry of a staged file: with its content, or one that had its size and mtime before. -/
theorem recorded_self (p : Progress H T) (rel : Path) (file : WorkFile) :
    (∃ hash, recorded p rel = some (hash,file.size,file.mtime_ns) ∧ recorded (stage_and_commit cfg p rel file) rel = recorded p rel) ∨
      recorded (stage_and_commit cfg p rel file) rel = some (.sha (sha256 file.data.bytes),file.size,file.mtime_ns) := by
  rw [recorded_staged]
  rcases staged_index cfg p rel file with ⟨met,same⟩ | entries
  · cases found : p.index.entries.get? rel with
    | none =>
      rw [found] at met
      contradiction
    | some e =>
      rw [found,Option.any_some,compare_meta,Bool.and_eq_true,beq_iff_eq,beq_iff_eq] at met
      refine .inl ⟨e.hash,?_,by rw [recorded,recorded,same]⟩
      rw [recorded,found,Option.map_some,met.1,met.2]
  · refine .inr ?_
    rw [recorded,entries,if_pos rfl]
    rfl

theorem clean_commit (backed : ∀ e, p.index.entries.get? other = some e →
    e.staged = true ∨ (p.head.get? other).map TreeEntry.hash = some e.hash) : Clean (commit_staged p rel) other := by
  intro e found
  rcases commit_cases p rel with ⟨nothing,same⟩ | made
  · rw [same] at found ⊢
    have unstaged := (staged_nothing p.index).mp nothing other e found
    exact ⟨unstaged,(backed e found).resolve_left (by simp [unstaged])⟩
  · rw [made,Index.clear_staged,Dict.get?_map] at found
    obtain ⟨before,held,rfl⟩ := Option.map_eq_some_iff.mp found
    refine ⟨rfl,?_⟩
    rw [made,Index.tree,Dict.get?_map,held]
    rfl

theorem clean_stage (clean : Clean p other) (rel : Path) (file : WorkFile) : Clean (stage_and_commit cfg p rel file) other := by
  have backed : ∀ e, (stage_one_file cfg p rel file).index.entries.get? other = some e →
      e.staged = true ∨ ((stage_one_file cfg p rel file).head.get? other).map TreeEntry.hash = some e.hash := by
    intro e found
    rcases staged_index cfg p rel file with ⟨_,same⟩ | entries
    · rw [same] at found
      exact .inr (clean e found).2
    · rw [entries] at found
      split at found
      next here =>
        obtain rfl := Option.some.inj found
        cases changes : p.index.changed rel (.sha (sha256 file.data.bytes)) with
        | true => exact .inl rfl
        | false =>
          refine .inr ?_
          rw [Index.changed] at changes
          cases before : p.index.entries.get? rel with
          | none =>
            rw [before] at changes
            contradiction
          | some old =>
            rw [before,Option.all_some,decide_eq_false_iff_not,not_not] at changes
            have kept := (clean old (here ▸ before)).2
            rw [changes] at kept
            exact kept
      next => exact .inr (clean e found).2
  exact clean_commit backed

end

section
variable {seen current : Dict Path (Nat × Nat)} {p after : Progress H T} {rel other : Path} {file : WorkFile}

theorem handled_clean (handled : Handled cfg turn seen current p rel after) (clean : Clean p other) : Clean after other := by
  cases handled with
  | ended | waits | armed | raised | knew => exact clean
  | staged => exact clean_stage clean rel _

theorem handled_recorded (handled : Handled cfg turn seen current p rel after) (apart : other ≠ rel) :
    recorded after other = recorded p other := by
  cases handled with
  | ended | waits | armed | raised | knew => rfl
  | staged =>
    rw [recorded_staged,recorded,staged_other p _ apart]
    rfl

theorem handled_told (handled : Handled cfg turn seen current p rel after) (told : Told p other file)
    (alike : ∀ g, turn.staging other = some g → signature g = signature file → g.data.bytes = file.data.bytes) :
    Told after other file := by
  by_cases here : other = rel
  · subst here
    cases handled with
    | ended | waits | armed | raised | knew => exact told
    | staged _ _ _ _ _ _ there =>
      intro hash found
      rcases recorded_self cfg p other _ with ⟨_,_,same⟩ | fresh
      · exact told hash (same ▸ found)
      · have pair := Option.some.inj (fresh.symm.trans found)
        simp only [Prod.mk.injEq] at pair
        obtain ⟨rfl,size,mtime⟩ := pair
        rw [alike _ there (Prod.ext mtime size)]
  · intro hash found
    rw [handled_recorded handled here] at found
    exact told hash found

end

theorem passes_recorded {seen current : Dict Path (Nat × Nat)} {rel : Path} {p q : Progress H T}
    (passes : Passes cfg turn seen current rel p q) : recorded q rel = recorded p rel := by
  induction passes with
  | refl => rfl
  | tail _ step ih =>
    obtain ⟨other,apart,handled⟩ := step
    rw [handled_recorded handled apart.symm,ih]

/-! A file that stands still. -/

/-- Every look at the file in this turn finds the same. -/
structure Quiet (turn : Turn T) (rel : Path) (file : WorkFile) : Prop where
  files : turn.files.get? rel = some file
  hashed : turn.hashed rel = some file.data.bytes
  staging : turn.staging rel = some file

/-- What such a turn stages of the file is the file. -/
theorem Quiet.alike {rel : Path} {file : WorkFile} (quiet : Quiet turn rel file) :
    ∀ g, turn.staging rel = some g → signature g = signature file → g.data.bytes = file.data.bytes := fun g there _ => by
  rw [Option.some.inj (quiet.staging.symm.trans there)]

section
variable {w : Watching H T} {rel : Path} {file : WorkFile} {since : T}

omit [DecidableEq H] [Hashing H] in
theorem walk_quiet (quiet : Quiet turn rel file) (taken : walked cfg rel = true) :
    (walk_tree cfg turn).get? rel = some (signature file) := by
  rw [walk_get?,if_pos taken,quiet.files]
  rfl

omit [DecidableEq H] [Hashing H] in
theorem quiet_listed (quiet : Quiet turn rel file) (taken : walked cfg rel = true) : rel ∈ (walk_tree cfg turn).keys :=
  (Dict.mem_keys _ _).mpr ⟨_,walk_quiet quiet taken⟩

theorem finish_watching {p : Progress H T} (watching : (finish_turn cfg p).status = .watching) : finish_turn cfg p = p := by
  rw [finish_turn] at watching ⊢
  split
  next stops =>
    rw [if_pos stops] at watching
    contradiction
  next => rfl

/-- A turn after which the loop goes on. -/
theorem tick_goes (going : (tick (polling cfg) turn w).progress.status = .watching) : w.progress.status = .watching ∧
    (tick (polling cfg) turn w).seen = walk_tree cfg turn ∧
      (tick (polling cfg) turn w).progress = watch_files cfg turn w.seen (walk_tree cfg turn) w.progress := by
  by_cases watching : w.progress.status = .watching
  · rw [tick_polling w watching] at going ⊢
    exact ⟨watching,rfl,finish_watching going⟩
  · rw [tick_ended w watching] at going
    exact absurd going watching

theorem watch_goes (turns : List (Turn T)) (going : (watch (polling cfg) w turns).progress.status = .watching) :
    w.progress.status = .watching := by
  induction turns generalizing w with
  | nil => exact going
  | cons turn turns ih => exact (tick_goes (ih going)).1

theorem watch_append (w : Watching H T) (turns more : List (Turn T)) :
    watch (polling cfg) w (turns ++ more) = watch (polling cfg) (watch (polling cfg) w turns) more := List.foldl_append

theorem watch_seen (turns : List (Turn T)) (going : (watch (polling cfg) w turns).progress.status = .watching) :
    ∀ turn ∈ turns.getLast?, (watch (polling cfg) w turns).seen = walk_tree cfg turn := by
  intro turn last
  obtain ⟨before,rfl⟩ := List.getLast?_eq_some_iff.mp last
  rw [watch_append] at going ⊢
  exact (tick_goes going).2.1

theorem tick_clean (going : (tick (polling cfg) turn w).progress.status = .watching) (clean : Clean w.progress rel) :
    Clean (tick (polling cfg) turn w).progress rel := by
  rw [(tick_goes going).2.2]
  exact watch_files_keep (P := fun q => Clean q rel) clean fun _ _ _ _ _ clean handled => handled_clean handled clean

theorem tick_told (going : (tick (polling cfg) turn w).progress.status = .watching) (told : Told w.progress rel file)
    (alike : ∀ g, turn.staging rel = some g → signature g = signature file → g.data.bytes = file.data.bytes) :
    Told (tick (polling cfg) turn w).progress rel file := by
  rw [(tick_goes going).2.2]
  exact watch_files_keep (P := fun q => Told q rel file) told fun _ _ _ _ _ told handled => handled_told handled told alike

theorem watch_keeps (turns : List (Turn T)) (going : (watch (polling cfg) w turns).progress.status = .watching)
    (clean : Clean w.progress rel) (told : Told w.progress rel file)
    (alike : ∀ turn ∈ turns, ∀ g, turn.staging rel = some g → signature g = signature file → g.data.bytes = file.data.bytes) :
    Clean (watch (polling cfg) w turns).progress rel ∧ Told (watch (polling cfg) w turns).progress rel file := by
  induction turns generalizing w with
  | nil => exact ⟨clean,told⟩
  | cons turn turns ih =>
    have goes := watch_goes turns going
    exact ih going (tick_clean goes clean) (tick_told goes told (alike turn List.mem_cons_self))
      fun later among => alike later (List.mem_cons_of_mem _ among)

/-- A file that is new, or not as it was seen last, has to wait from now on. -/
theorem tick_arms (quiet : Quiet turn rel file) (taken : walked cfg rel = true)
    (going : (tick (polling cfg) turn w).progress.status = .watching) (fresh : w.seen.get? rel ≠ some (signature file)) :
    (tick (polling cfg) turn w).progress.pending_since.get? rel = some turn.now := by
  have found := walk_quiet quiet taken
  obtain ⟨q,after,_,handled,onward⟩ := turn_covers cfg turn w.seen (quiet_listed quiet taken) w.progress
  obtain ⟨-,-,turned⟩ := tick_goes going
  rw [turned] at going ⊢
  have watching := passes_watching onward going
  rw [passes_pending onward]
  cases handled with
  | ended gone_by => exact absurd watching gone_by
  | armed => exact Dict.get?_set_same _ _ _
  | raised => contradiction
  | waits _ still | knew _ still | staged _ still => exact absurd (still.trans found) fresh

theorem tick_held (quiet : Quiet turn rel file) (taken : walked cfg rel = true)
    (going : (tick (polling cfg) turn w).progress.status = .watching) (held : Held w.progress rel file.data.bytes) :
    Held (tick (polling cfg) turn w).progress rel file.data.bytes := by
  obtain ⟨q,after,come,handled,onward⟩ := turn_covers cfg turn w.seen (quiet_listed quiet taken) w.progress
  rw [(tick_goes going).2.2,Held,passes_recorded onward]
  rw [Held,← passes_recorded come] at held
  cases handled with
  | ended | armed | waits | raised | knew => exact held
  | staged _ _ _ _ _ _ there =>
    rcases recorded_self cfg q rel _ with ⟨_,_,same⟩ | fresh
    · rwa [same]
    · rw [fresh,← Option.some.inj (quiet.staging.symm.trans there)]
      rfl

/-- A file that stands still goes on waiting, or the index has its content. -/
theorem tick_waits (quiet : Quiet turn rel file) (taken : walked cfg rel = true)
    (going : (tick (polling cfg) turn w).progress.status = .watching) (told : Told w.progress rel file)
    (same : w.seen.get? rel = some (signature file)) (waits : w.progress.pending_since.get? rel = some since) :
    (tick (polling cfg) turn w).progress.pending_since.get? rel = some since ∧ cfg.due since turn.now = false ∨
      Held (tick (polling cfg) turn w).progress rel file.data.bytes := by
  obtain ⟨q,after,come,handled,onward⟩ := turn_covers cfg turn w.seen (quiet_listed quiet taken) w.progress
  obtain ⟨-,-,turned⟩ := tick_goes going
  rw [turned] at going ⊢
  have watching := passes_watching onward going
  rw [← passes_pending come] at waits
  rw [passes_pending onward,Held,passes_recorded onward]
  cases handled with
  | ended gone_by => exact absurd watching gone_by
  | armed _ moved => exact absurd (same.trans (walk_quiet quiet taken).symm) moved
  | waits _ _ early => exact .inl ⟨waits,early since waits⟩
  | raised => contradiction
  | knew _ _ _ _ read knows =>
    obtain rfl := Option.some.inj (quiet.hashed.symm.trans read)
    right
    rw [known] at knows
    cases found : q.index.entries.get? rel with
    | none =>
      rw [found] at knows
      contradiction
    | some e =>
      rw [found,Option.any_some,Bool.and_eq_true,decide_eq_true_eq] at knows
      have kept : (settled q rel).index.entries.get? rel = some e := found
      rw [recorded,kept]
      exact congrArg some knows.1
  | staged _ _ _ _ _ _ there =>
    obtain rfl := Option.some.inj (quiet.staging.symm.trans there)
    right
    rcases recorded_self cfg q rel file with ⟨hash,before,kept⟩ | fresh
    · rw [kept,before]
      rw [passes_recorded come] at before
      exact congrArg some (told hash before)
    · rw [fresh]
      rfl

theorem watch_held (turns : List (Turn T)) (quiet : ∀ turn ∈ turns, Quiet turn rel file) (taken : walked cfg rel = true)
    (going : (watch (polling cfg) w turns).progress.status = .watching) (held : Held w.progress rel file.data.bytes) :
    Held (watch (polling cfg) w turns).progress rel file.data.bytes := by
  induction turns generalizing w with
  | nil => exact held
  | cons turn turns ih =>
    have goes := watch_goes turns going
    exact ih (fun later among => quiet later (List.mem_cons_of_mem _ among)) going
      (tick_held (quiet turn List.mem_cons_self) taken goes held)

theorem watch_waits (turns : List (Turn T)) (quiet : ∀ turn ∈ turns, Quiet turn rel file) (taken : walked cfg rel = true)
    (going : (watch (polling cfg) w turns).progress.status = .watching) (told : Told w.progress rel file)
    (same : w.seen.get? rel = some (signature file)) (waits : w.progress.pending_since.get? rel = some since) :
    (∀ turn ∈ turns, cfg.due since turn.now = false) ∨ Held (watch (polling cfg) w turns).progress rel file.data.bytes := by
  induction turns generalizing w with
  | nil => exact .inl fun _ none => absurd none List.not_mem_nil
  | cons turn turns ih =>
    have goes := watch_goes turns going
    have now := quiet turn List.mem_cons_self
    have later : ∀ turn ∈ turns, Quiet turn rel file := fun later among => quiet later (List.mem_cons_of_mem _ among)
    have told' := tick_told goes told now.alike
    rcases tick_waits now taken goes told same waits with ⟨waits,early⟩ | held
    · rcases ih later going told' (by rw [(tick_goes goes).2.1,walk_quiet now taken]) waits with early' | held
      · exact .inl fun other among => (List.mem_cons.mp among).elim (fun here => here ▸ early) (early' other)
      · exact .inr held
    · exact .inr (watch_held turns later taken going held)

end

theorem quiet_saved (now : Nat) : Quiet (saved now) ["a.ckpt"] checkpoint := ⟨rfl,rfl,rfl⟩

/-- Every walk of the last turns, from one at the time `since` on, has found the file with the same size and mtime. -/
def Standing (cfg : Config T) (turns : List (Turn T)) (rel : Path) (sig : Nat × Nat) (since : T) : Prop :=
  ∃ before first still, turns = before ++ first :: still ∧ first.now = since ∧
    ∀ turn ∈ first :: still, (walk_tree cfg turn).get? rel = some sig

/-- The commit was made in a turn up to which its file had stood still for the debounce time, and has the file as that turn
staged it. -/
def Settled (cfg : Config T) (index : Index H) (turns : List (Turn T)) (commit : AutoCommit H) : Prop :=
  ∃ before last after sig since file, turns = before ++ last :: after ∧ Standing cfg before commit.rel sig since ∧
    (walk_tree cfg last).get? commit.rel = some sig ∧ cfg.due since last.now = true ∧ last.staging commit.rel = some file ∧
    ∃ e, commit.tree.get? commit.rel = some e ∧ e.size = file.size ∧
      (Trusted index before commit.rel file → e.hash = .sha (sha256 file.data.bytes))

section
variable {index : Index H} {turns : List (Turn T)} {rel : Path} {sig : Nat × Nat} {since : T}

omit [DecidableEq H] [Hashing H] in
theorem Standing.onward (standing : Standing cfg turns rel sig since) (found : (walk_tree cfg turn).get? rel = some sig) :
    Standing cfg (turns ++ [turn]) rel sig since := by
  obtain ⟨before,first,still,rfl,begun,same⟩ := standing
  refine ⟨before,first,still ++ [turn],by simp,begun,fun other among => ?_⟩
  rw [← List.cons_append,List.mem_append,List.mem_singleton] at among
  rcases among with earlier | rfl
  · exact same other earlier
  · exact found

omit [DecidableEq H] in
theorem Settled.onward {commit : AutoCommit H} (settled : Settled cfg index turns commit) :
    Settled cfg index (turns ++ [turn]) commit := by
  obtain ⟨before,last,after,sig,since,file,rfl,rest⟩ := settled
  exact ⟨before,last,after ++ [turn],sig,since,file,by simp,rest⟩

/-- What one file adds to the commits. -/
theorem handled_commits {seen current : Dict Path (Nat × Nat)} {p after : Progress H T}
    (handled : Handled cfg turn seen current p rel after) {commit : AutoCommit H} (made : commit ∈ after.commits) :
    commit ∈ p.commits ∨ commit.rel = rel ∧ seen.get? rel = current.get? rel ∧ (∃ since, p.pending_since.get? rel = some since ∧
      cfg.due since turn.now = true) ∧ ∃ file, turn.staging rel = some file ∧
        ∃ e, commit.tree.get? rel = some e ∧ e.size = file.size ∧ (Told p rel file → e.hash = .sha (sha256 file.data.bytes)) := by
  cases handled with
  | ended | waits | armed | raised | knew => exact .inl made
  | staged _ still armed due _ _ there =>
    rename_i file
    have made : commit ∈ (commit_staged (stage_one_file cfg p rel file) rel).commits := made
    rcases commit_cases (stage_one_file cfg p rel file) rel with ⟨_,same⟩ | new
    · rw [same] at made
      exact .inl made
    · rw [new,List.mem_append,List.mem_singleton] at made
      rcases made with before | rfl
      · exact .inl before
      · have staged : ∃ hash, recorded (stage_and_commit cfg p rel file) rel = some (hash,file.size,file.mtime_ns) ∧
            (Told p rel file → hash = .sha (sha256 file.data.bytes)) := by
          rcases recorded_self cfg p rel file with ⟨hash,before,same⟩ | fresh
          · exact ⟨hash,same.trans before,fun told => told hash before⟩
          · exact ⟨_,fresh,fun _ => rfl⟩
        obtain ⟨hash,found,content⟩ := staged
        rw [recorded_staged] at found
        obtain ⟨e,held,parts⟩ := Option.map_eq_some_iff.mp found
        simp only [Prod.mk.injEq] at parts
        obtain ⟨rfl,size,-⟩ := parts
        refine .inr ⟨rfl,still,⟨_,armed,due⟩,file,there,e.tree_entry,?_,size,content⟩
        rw [Index.tree,Dict.get?_map,held]
        rfl

/-- The commits so far, the files that wait, and what the index has of any file that can be trusted. -/
structure Steady (cfg : Config T) (index : Index H) (turns : List (Turn T)) (w : Watching H T) : Prop where
  commits : ∀ commit ∈ w.progress.commits, Settled cfg index turns commit
  waits : w.progress.status = .watching → ∀ rel since sig, w.progress.pending_since.get? rel = some since →
    w.seen.get? rel = some sig → Standing cfg turns rel sig since
  told : w.progress.status = .watching → ∀ rel file, Trusted index turns rel file → Told w.progress rel file

section
variable {w : Watching H T}

/-- A commit of this turn is of a file that has waited long enough. -/
theorem Steady.commits_of_turn (steady : Steady cfg index turns w) (watching : w.progress.status = .watching) :
    ∀ commit ∈ (watch_files cfg turn w.seen (walk_tree cfg turn) w.progress).commits,
      Settled cfg index (turns ++ [turn]) commit := by
  refine watch_files_keep (P := fun q => ∀ commit ∈ q.commits, Settled cfg index (turns ++ [turn]) commit)
    (fun commit made => (steady.commits commit made).onward) fun q rel after listed come settled handled commit made => ?_
  rcases handled_commits handled made with before | ⟨rfl,still,⟨since,armed,due⟩,file,there,e,entry,size,content⟩
  · exact settled commit before
  · obtain ⟨sig,found⟩ := (Dict.mem_keys _ _).mp listed
    have standing := steady.waits watching commit.rel since sig ((passes_pending come).symm.trans armed) (still.trans found)
    refine ⟨turns,turn,[],sig,since,file,rfl,standing,found,due,there,e,entry,size,fun trusted => content fun hash held => ?_⟩
    rw [passes_recorded come] at held
    exact steady.told watching commit.rel file trusted hash held

/-- A file that waits at the end of this turn was armed in it, or has waited and stood still. -/
theorem Steady.waits_of_turn (steady : Steady cfg index turns w) (watching : w.progress.status = .watching)
    (going : (watch_files cfg turn w.seen (walk_tree cfg turn) w.progress).status = .watching)
    (armed : (watch_files cfg turn w.seen (walk_tree cfg turn) w.progress).pending_since.get? rel = some since)
    (found : (walk_tree cfg turn).get? rel = some sig) : Standing cfg (turns ++ [turn]) rel sig since := by
  obtain ⟨q,after,come,handled,onward⟩ := turn_covers cfg turn w.seen ((Dict.mem_keys _ _).mpr ⟨sig,found⟩) w.progress
  have goes := passes_watching onward going
  rw [passes_pending onward] at armed
  cases handled with
  | ended gone_by => exact absurd goes gone_by
  | armed =>
    rw [Dict.get?_set_same] at armed
    exact ⟨turns,turn,[],rfl,Option.some.inj armed,fun other among => by rwa [List.mem_singleton.mp among]⟩
  | waits _ still =>
    rw [passes_pending come] at armed
    exact (steady.waits watching rel since sig armed (still.trans found)).onward found
  | raised => contradiction
  | knew =>
    rw [settled,Dict.get?_erase,if_pos rfl] at armed
    contradiction
  | staged =>
    rw [stage_pending,Dict.get?_erase,if_pos rfl] at armed
    contradiction

theorem Steady.tick (steady : Steady cfg index turns w) : Steady cfg index (turns ++ [turn]) (tick (polling cfg) turn w) := by
  by_cases watching : w.progress.status = .watching
  · constructor
    · rw [tick_polling w watching]
      have commits : (finish_turn cfg (watch_files cfg turn w.seen (walk_tree cfg turn) w.progress)).commits =
          (watch_files cfg turn w.seen (walk_tree cfg turn) w.progress).commits := by
        rw [finish_turn]
        split <;> rfl
      rw [commits]
      exact steady.commits_of_turn watching
    · intro going rel since sig armed found
      obtain ⟨-,as_walked,turned⟩ := tick_goes going
      rw [as_walked] at found
      rw [turned] at armed going
      exact steady.waits_of_turn watching going armed found
    · intro going rel file trusted
      have before : Trusted index turns rel file := ⟨trusted.entry,fun t among => trusted.staged t (List.mem_append_left _ among)⟩
      exact tick_told going (steady.told watching rel file before)
        (trusted.staged turn (List.mem_append_right _ (List.mem_singleton_self turn)))
  · rw [tick_ended w watching]
    exact ⟨fun commit made => (steady.commits commit made).onward,fun gone_by => absurd gone_by watching,
      fun gone_by => absurd gone_by watching⟩

end

end

end AetherVault.Watch
