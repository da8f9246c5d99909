import AetherVault.ScopedCommits
import AetherVault.Lib.SetOrder
import Mathlib.Logic.Relation
import Mathlib.Data.Prod.Lex
import Mathlib.Data.String.Basic
import Mathlib.Data.List.Lex
import Mathlib.Algebra.Group.Nat.Defs

/-! `av watch`: files under a pattern are committed by themselves once their size and mtime have stood still for the debounce
time. The tree is walked at every turn, or only looked at where the file system has reported something. -/
namespace AetherVault.Watch
open Lib Hashing Index FrontEnds

variable {H : Type} [DecidableEq H] [Hashing H] {T : Type}

/-- `st_mtime_ns` and `st_size`. -/
def signature (file : WorkFile) : Nat × Nat := (file.mtime_ns,file.size)

structure Config (T : Type) where
  env : FrontEnds.Env
  pattern : String
  /-- Whether the second time is the debounce time or more after the first. -/
  due : T → T → Bool
  max_commits : Int
  using_watchdog : Bool

/-- What one turn of the loop meets: the clock, the paths reported since the turn before, the files of the working tree, and
what a file has come to when it is hashed and when it is staged. -/
structure Turn (T : Type) where
  now : T
  touched : List Path
  files : Dict Path WorkFile
  hashed : Path → Option Bytes
  staging : Path → Option WorkFile

inductive Status
  | watching
  | stopped
  | raised
  deriving DecidableEq

structure AutoCommit (H : Type) where
  rel : Path
  tree : Tree H

/-- The repository, and what the loop over the files writes. -/
structure Progress (H T : Type) [DecidableEq H] [Hashing H] where
  pending_since : Dict Path T
  commits_made : Nat
  status : Status
  index : Index H
  objects : Objects H
  head : Tree H
  commits : List (AutoCommit H)

structure Watching (H T : Type) [DecidableEq H] [Hashing H] where
  seen : Dict Path (Nat × Nat)
  first_tick : Bool
  progress : Progress H T

def start (index : Index H) (objects : Objects H) (head : Tree H) : Watching H T :=
  ⟨∅,true,∅,0,.watching,index,objects,head,[]⟩

variable (cfg : Config T) (turn : Turn T)

def matches_pattern (rel : Path) : Bool := PyString.fnmatch rel.text.toList cfg.pattern.toList

/-- A file that the walk takes; it stays out of every directory `.av`. -/
def walked (rel : Path) : Bool := decide (".av" ∉ rel.dropLast) && matches_pattern cfg rel

def walk_tree : Dict Path (Nat × Nat) := (turn.files.filter fun rel _ => walked cfg rel).map fun _ file => signature file

def drain : List Path := turn.touched.filter fun rel => decide (".av" ∉ rel) && matches_pattern cfg rel

def restat (current : Dict Path (Nat × Nat)) (rel : Path) : Dict Path (Nat × Nat) :=
  match turn.files.get? rel with
  | none => current.erase rel
  | some file => current.set rel (signature file)

def current_files (w : Watching H T) : Dict Path (Nat × Nat) :=
  if cfg.using_watchdog && !w.first_tick then (drain cfg turn ++ w.progress.pending_since.keys).foldl (restat turn) w.seen
  else walk_tree cfg turn

/-- In the order of their texts; on the paths of a file system the second component decides nothing. -/
def in_order (rels : List Path) : List Path :=
  (SetOrder.sorted (rels.map fun rel => toLex (rel.text,rel))).map fun key => (ofLex key).2

/-- `commit_staged`; what was made by it is the new HEAD. -/
def commit_staged (p : Progress H T) (rel : Path) : Progress H T :=
  if p.index.get_staged_entries.entries.isEmpty && p.index.removed.isEmpty then p
  else {p with head := p.index.tree,commits := p.commits ++ [⟨rel,p.index.tree⟩],index := p.index.clear_staged}

def settled (p : Progress H T) (rel : Path) : Progress H T := {p with pending_since := p.pending_since.erase rel}

def stage_one_file (p : Progress H T) (rel : Path) (file : WorkFile) : Progress H T :=
  let computed := _compute_stage_result cfg.env.staging p.objects file rel (classify_file rel) (p.index.entries.get? rel)
    (cfg.env.flags_for rel)
  {p with objects := computed.1,index := (computed.2.map (apply_stage_result p.index)).getD p.index}

def stage_and_commit (p : Progress H T) (rel : Path) (file : WorkFile) : Progress H T :=
  settled {commit_staged (stage_one_file cfg p rel file) rel with commits_made := p.commits_made + 1} rel

def known (p : Progress H T) (rel : Path) (bytes : Bytes) : Bool :=
  (p.index.entries.get? rel).any fun entry => decide (entry.hash = .sha (sha256 bytes)) && !entry.staged

/-- A file that has stood still; one that has gone meanwhile ends the loop. -/
def debounced (p : Progress H T) (rel : Path) : Progress H T :=
  match turn.hashed rel with
  | none => {p with status := .raised}
  | some bytes =>
    if known p rel bytes then settled p rel
    else match turn.staging rel with
      | none => {p with status := .raised}
      | some file => stage_and_commit cfg p rel file

def watch_file (seen current : Dict Path (Nat × Nat)) (p : Progress H T) (rel : Path) : Progress H T :=
  if p.status ≠ .watching then p
  else if seen.get? rel ≠ current.get? rel then {p with pending_since := p.pending_since.set rel turn.now}
  else if (p.pending_since.get? rel).any fun since => cfg.due since turn.now then debounced cfg turn p rel
  else p

def watch_files (seen current : Dict Path (Nat × Nat)) (p : Progress H T) : Progress H T :=
  (in_order current.keys).foldl (watch_file cfg turn seen current) p

def enough (p : Progress H T) : Bool := cfg.max_commits ≠ 0 && decide (cfg.max_commits ≤ Int.ofNat p.commits_made)

def finish_turn (p : Progress H T) : Progress H T :=
  if p.status = .watching ∧ enough cfg p = true then {p with status := .stopped} else p

def tick (w : Watching H T) : Watching H T :=
  if w.progress.status ≠ .watching then w
  else
    let current := current_files cfg turn w
    ⟨current,false,finish_turn cfg (watch_files cfg turn w.seen current w.progress)⟩

def watch (w : Watching H T) (turns : List (Turn T)) : Watching H T := turns.foldl (fun w turn => tick cfg turn w) w

/-! The two ways to look at the tree. -/

variable {cfg turn}

omit [DecidableEq H] [Hashing H] in
theorem walk_get? (rel : Path) :
    (walk_tree cfg turn).get? rel = if walked cfg rel then (turn.files.get? rel).map signature else none := by
  rw [walk_tree,Dict.get?_map,Dict.get?_filter]
  cases turn.files.get? rel with
  | none => simp
  | some file => by_cases taken : walked cfg rel <;> simp [taken]

theorem restat_get? (current : Dict Path (Nat × Nat)) (rel other : Path) :
    (restat turn current rel).get? other = if other = rel then (turn.files.get? rel).map signature else current.get? other := by
  rw [restat]
  cases turn.files.get? rel with
  | none => rw [Dict.get?_erase]; split <;> rfl
  | some file => rw [Dict.get?_set]; split <;> rfl

theorem restats_get? (rels : List Path) (current : Dict Path (Nat × Nat)) (other : Path) :
    (rels.foldl (restat turn) current).get? other =
      if other ∈ rels then (turn.files.get? other).map signature else current.get? other := by
  induction rels generalizing current with
  | nil => rfl
  | cons rel rels ih =>
    rw [List.foldl_cons,ih,restat_get?]
    by_cases later : other ∈ rels
    · simp [later]
    · by_cases here : other = rel
      · subst here
        simp [later]
      · simp [later,here]

omit [Hashing H] in
theorem in_order_congr {rels others : List Path} (same : rels.Perm others) : in_order rels = in_order others := by
  rw [in_order,in_order,SetOrder.sorted_congr (same.map _)]

theorem keys_perm {α : Type} {a b : Dict Path α} (same : ∀ rel, a.get? rel = b.get? rel) : a.keys.Perm b.keys := by
  refine (List.perm_ext_iff_of_nodup a.distinct b.distinct).mpr fun rel => ?_
  change rel ∈ a.keys ↔ rel ∈ b.keys
  rw [Dict.mem_keys,Dict.mem_keys,same]

/-- Only what two dictionaries say of each path matters, not the order they say it in. -/
theorem watch_files_congr {seen seen' current current' : Dict Path (Nat × Nat)} (as_seen : ∀ rel, seen.get? rel = seen'.get? rel)
    (same : ∀ rel, current.get? rel = current'.get? rel) (p : Progress H T) :
    watch_files cfg turn seen current p = watch_files cfg turn seen' current' p := by
  have one : watch_file cfg turn seen current = (watch_file cfg turn seen' current' : Progress H T → Path → Progress H T) := by
    funext p rel
    simp only [watch_file,as_seen,same]
  rw [watch_files,watch_files,one,in_order_congr (keys_perm same)]

/-! What the loop does with one file. -/

inductive Handled (cfg : Config T) (turn : Turn T) (seen current : Dict Path (Nat × Nat)) (p : Progress H T) (rel : Path) :
    Progress H T → Prop
  | ended (gone_by : p.status ≠ .watching) : Handled cfg turn seen current p rel p
  | armed (watching : p.status = .watching) (moved : seen.get? rel ≠ current.get? rel) :
      Handled cfg turn seen current p rel {p with pending_since := p.pending_since.set rel turn.now}
  | waits (watching : p.status = .watching) (still : seen.get? rel = current.get? rel)
      (early : ∀ since, p.pending_since.get? rel = some since → cfg.due since turn.now = false) :
      Handled cfg turn seen current p rel p
  | raised (watching : p.status = .watching) : Handled cfg turn seen current p rel {p with status := .raised}
  | knew (watching : p.status = .watching) (still : seen.get? rel = current.get? rel) {since : T}
      (armed : p.pending_since.get? rel = some since) (due : cfg.due since turn.now = true) {bytes : Bytes}
      (read : turn.hashed rel = some bytes) (knows : known p rel bytes = true) :
      Handled cfg turn seen current p rel (settled p rel)
  | staged (watching : p.status = .watching) (still : seen.get? rel = current.get? rel) {since : T}
      (armed : p.pending_since.get? rel = some since) (due : cfg.due since turn.now = true) {bytes : Bytes}
      (read : turn.hashed rel = some bytes) (new : known p rel bytes = false) {file : WorkFile}
      (there : turn.staging rel = some file) :
      Handled cfg turn seen current p rel (stage_and_commit cfg p rel file)

/-- A file that has stood still for the debounce time. -/
theorem debounced_handled {seen current : Dict Path (Nat × Nat)} {p : Progress H T} {rel : Path} (watching : p.status = .watching)
    (still : seen.get? rel = current.get? rel) {since : T} (armed : p.pending_since.get? rel = some since)
    (due : cfg.due since turn.now = true) : Handled cfg turn seen current p rel (debounced cfg turn p rel) := by
  cases read : turn.hashed rel with
  | none =>
    have gone : debounced cfg turn p rel = {p with status := .raised} := by simp only [debounced,read]
    rw [gone]
    exact .raised watching
  | some bytes =>
    cases knows : known p rel bytes with
    | true =>
      have done : debounced cfg turn p rel = settled p rel := by simp only [debounced,read,knows,if_true]
      rw [done]
      exact .knew watching still armed due read knows
    | false =>
      cases there : turn.staging rel with
      | none =>
        have gone : debounced cfg turn p rel = {p with status := .raised} := by
          simp only [debounced,read,knows,there,Bool.false_eq_true,if_false]
        rw [gone]
        exact .raised watching
      | some file =>
        have done : debounced cfg turn p rel = stage_and_commit cfg p rel file := by
          simp only [debounced,read,knows,there,Bool.false_eq_true,if_false]
        rw [done]
        exact .staged watching still armed due read knows there

variable (cfg turn) in
theorem watch_file_handled (seen current : Dict Path (Nat × Nat)) (p : Progress H T) (rel : Path) :
    Handled cfg turn seen current p rel (watch_file cfg turn seen current p rel) := by
  rw [watch_file]
  split
  next gone_by => exact .ended gone_by
  next watching =>
    have watching := not_not.mp watching
    split
    next moved => exact .armed watching moved
    next still =>
      have still := not_not.mp still
      cases armed : p.pending_since.get? rel with
      | none => exact .waits watching still fun since held => absurd (armed.symm.trans held) (Option.some_ne_none since).symm
      | some since =>
        rw [Option.any_some]
        cases due : cfg.due since turn.now with
        | false =>
          refine .waits watching still fun other held => ?_
          rwa [← Option.some.inj (armed.symm.trans held)]
        | true =>
          rw [if_pos rfl]
          exact debounced_handled watching still armed due

@[simp] theorem commit_pending (p : Progress H T) (rel : Path) : (commit_staged p rel).pending_since = p.pending_since := by
  rw [commit_staged]
  split <;> rfl

@[simp] theorem stage_pending (p : Progress H T) (rel : Path) (file : WorkFile) :
    (stage_and_commit cfg p rel file).pending_since = p.pending_since.erase rel := by
  rw [stage_and_commit,settled,commit_pending]
  rfl

theorem pending_other {seen current : Dict Path (Nat × Nat)} {p after : Progress H T} {rel other : Path}
    (handled : Handled cfg turn seen current p rel after) (apart : other ≠ rel) :
    after.pending_since.get? other = p.pending_since.get? other := by
  cases handled with
  | ended | waits | raised => rfl
  | armed => exact Dict.get?_set_other _ _ _ _ apart
  | knew => rw [settled,Dict.get?_erase,if_neg apart]
  | staged => rw [stage_pending,Dict.get?_erase,if_neg apart]

omit [DecidableEq H] [Hashing H] in
theorem in_order_perm (rels : List Path) : (in_order rels).Perm rels := by
  have back : (rels.map fun rel => toLex (rel.text,rel)).map (fun key => (ofLex key).2) = rels := by
    simp [List.map_map,Function.comp_def]
  have sorted := (List.mergeSort_perm (rels.map fun rel => toLex (rel.text,rel)) fun a b => decide (a ≤ b)).map
    fun key => (ofLex key).2
  rwa [back] at sorted

variable (cfg turn) in
/-- The loop has gone on with other files. -/
def Passes (seen current : Dict Path (Nat × Nat)) (rel : Path) : Progress H T → Progress H T → Prop :=
  Relation.ReflTransGen fun p after => ∃ other, other ≠ rel ∧ Handled cfg turn seen current p other after

/-- What each file keeps, the whole turn keeps; only other files come before it. -/
theorem watch_files_keep {seen current : Dict Path (Nat × Nat)} {P : Progress H T → Prop} {p : Progress H T} (holds : P p)
    (step : ∀ q rel after, rel ∈ current.keys → Passes cfg turn seen current rel p q → P q →
      Handled cfg turn seen current q rel after → P after) : P (watch_files cfg turn seen current p) := by
  have run (rels : List Path) (among : ∀ rel ∈ rels, rel ∈ current.keys) (distinct : rels.Nodup) (q : Progress H T) (so_far : P q)
      (passes : ∀ rel ∈ rels, Passes cfg turn seen current rel p q) : P (rels.foldl (watch_file cfg turn seen current) q) := by
    induction rels generalizing q with
    | nil => exact so_far
    | cons rel rels ih =>
      obtain ⟨apart,distinct⟩ := List.nodup_cons.mp distinct
      have handled := watch_file_handled cfg turn seen current q rel
      exact ih (fun other later => among other (List.mem_cons_of_mem _ later)) distinct _
        (step q rel _ (among rel List.mem_cons_self) (passes rel List.mem_cons_self) so_far handled) fun other later =>
          (passes other (List.mem_cons_of_mem _ later)).tail ⟨rel,fun same => apart (same ▸ later),handled⟩
  exact run _ (fun rel => (in_order_perm current.keys).mem_iff.mp)
    ((in_order_perm current.keys).nodup_iff.mpr current.distinct) p holds fun _ _ => .refl

/-- What waits at the end of a turn waited before, or is a file of the turn. -/
theorem pending_files {seen current : Dict Path (Nat × Nat)} {p : Progress H T} :
    ∀ rel ∈ (watch_files cfg turn seen current p).pending_since.keys, rel ∈ p.pending_since.keys ∨ rel ∈ current.keys := by
  refine watch_files_keep (P := fun q => ∀ rel ∈ q.pending_since.keys, rel ∈ p.pending_since.keys ∨ rel ∈ current.keys)
    (fun rel => .inl) fun q rel after listed _ before handled other waits => ?_
  by_cases here : other = rel
  · exact .inr (here ▸ listed)
  · obtain ⟨since,armed⟩ := (Dict.mem_keys _ _).mp waits
    rw [pending_other handled here] at armed
    exact before other ((Dict.mem_keys _ _).mpr ⟨since,armed⟩)

/-! Events in place of walks. -/

omit [DecidableEq H] [Hashing H] in
theorem mem_walk {rel : Path} (listed : rel ∈ (walk_tree cfg turn).keys) : walked cfg rel = true := by
  obtain ⟨sig,found⟩ := (Dict.mem_keys _ _).mp listed
  rw [walk_get?] at found
  by_contra not_taken
  rw [if_neg not_taken] at found
  contradiction

/-- The same settings without the file system's events. -/
def polling (cfg : Config T) : Config T := {cfg with using_watchdog := false}

/-- Every change of a watched file since the turn before has been reported, and no directory entry `.av` is such a file. -/
def Reports (cfg : Config T) (last turn : Turn T) : Prop :=
  ∀ rel, walked cfg rel = true → (last.files.get? rel).map signature ≠ (turn.files.get? rel).map signature →
    rel ∈ turn.touched ∧ ".av" ∉ rel

omit [DecidableEq H] [Hashing H] in
theorem drain_walked {rel : Path} (drained : rel ∈ drain cfg turn) : walked cfg rel = true := by
  rw [drain,List.mem_filter] at drained
  simp only [Bool.and_eq_true,decide_eq_true_eq] at drained
  rw [walked,Bool.and_eq_true,decide_eq_true_eq]
  exact ⟨fun inside => drained.2.1 (List.dropLast_subset rel inside),drained.2.2⟩

/-- Where every change is reported, looking where something was reported or is waiting finds what a walk finds. -/
theorem events_find {last : Turn T} (reports : Reports cfg last turn) {w : Watching H T}
    (seen : ∀ rel, w.seen.get? rel = (walk_tree cfg last).get? rel)
    (waiting : ∀ rel ∈ w.progress.pending_since.keys, walked cfg rel = true)
    (rel : Path) : ((drain cfg turn ++ w.progress.pending_since.keys).foldl (restat turn) w.seen).get? rel =
      (walk_tree cfg turn).get? rel := by
  rw [restats_get?,walk_get?]
  by_cases candidate : rel ∈ drain cfg turn ++ w.progress.pending_since.keys
  · have taken : walked cfg rel = true := (List.mem_append.mp candidate).elim drain_walked (waiting rel)
    rw [if_pos candidate,if_pos taken]
  · rw [if_neg candidate,seen,walk_get?]
    split
    next taken =>
      by_contra changed
      obtain ⟨reported,elsewhere⟩ := reports rel taken changed
      refine candidate (List.mem_append_left _ (List.mem_filter.mpr ⟨reported,?_⟩))
      rw [walked,Bool.and_eq_true] at taken
      rw [Bool.and_eq_true,decide_eq_true_eq]
      exact ⟨elsewhere,taken.2⟩
    next => rfl

/-- The two loops after the same turns. -/
structure Alike (cfg : Config T) (last : Option (Turn T)) (w v : Watching H T) : Prop where
  progress : w.progress = v.progress
  seen : ∀ rel, w.seen.get? rel = v.seen.get? rel
  waiting : ∀ rel ∈ v.progress.pending_since.keys, walked cfg rel = true
  latest : v.progress.status = .watching → (last = none → w.first_tick = true) ∧
    ∀ turn ∈ last, ∀ rel, v.seen.get? rel = (walk_tree cfg turn).get? rel

@[simp] theorem finish_pending (p : Progress H T) : (finish_turn cfg p).pending_since = p.pending_since := by
  rw [finish_turn]
  split <;> rfl

theorem tick_ended (w : Watching H T) (gone_by : w.progress.status ≠ .watching) : tick cfg turn w = w := if_pos gone_by

theorem tick_watching (w : Watching H T) (watching : w.progress.status = .watching) : tick cfg turn w =
    ⟨current_files cfg turn w,false,finish_turn cfg (watch_files cfg turn w.seen (current_files cfg turn w) w.progress)⟩ :=
  if_neg (not_not.mpr watching)

/-- A walk at every turn. -/
theorem tick_polling (w : Watching H T) (watching : w.progress.status = .watching) : tick (polling cfg) turn w =
    ⟨walk_tree cfg turn,false,finish_turn cfg (watch_files cfg turn w.seen (walk_tree cfg turn) w.progress)⟩ :=
  tick_watching w watching

theorem current_finds {last : Option (Turn T)} {w v : Watching H T} (alike : Alike cfg last w v)
    (watching : v.progress.status = .watching) (reports : ∀ l ∈ last, Reports cfg l turn) (rel : Path) :
    (current_files cfg turn w).get? rel = (walk_tree cfg turn).get? rel := by
  rw [current_files]
  split
  next events =>
    obtain ⟨first,found⟩ := alike.latest watching
    cases last with
    | none =>
      rw [first rfl] at events
      simp at events
    | some l =>
      have waiting := alike.waiting
      rw [← alike.progress] at waiting
      exact events_find (reports l rfl) (fun rel => (alike.seen rel).trans (found l rfl rel)) waiting rel
  next => rfl

theorem Alike.tick {last : Option (Turn T)} {w v : Watching H T} (alike : Alike cfg last w v)
    (reports : ∀ l ∈ last, Reports cfg l turn) : Alike cfg (some turn) (tick cfg turn w) (tick (polling cfg) turn v) := by
  by_cases watching : v.progress.status = .watching
  · have found := current_finds alike watching reports
    rw [tick_polling v watching,tick_watching w (alike.progress ▸ watching)]
    refine ⟨?_,found,?_,fun _ => ⟨fun none => by contradiction,fun t here rel => by rw [Option.some.inj here]⟩⟩
    · rw [alike.progress,watch_files_congr alike.seen found]
    · intro rel waits
      rw [finish_pending] at waits
      exact (pending_files rel waits).elim (alike.waiting rel) mem_walk
  · rw [tick_ended w (alike.progress ▸ watching),tick_ended v watching]
    exact ⟨alike.progress,alike.seen,alike.waiting,fun gone_by => absurd gone_by watching⟩

theorem runs_alike (turns : List (Turn T)) (last : Option (Turn T)) (reports : (last.toList ++ turns).IsChain (Reports cfg))
    {w v : Watching H T} (alike : Alike cfg last w v) : (watch cfg w turns).progress = (watch (polling cfg) v turns).progress := by
  induction turns generalizing last w v with
  | nil => exact alike.progress
  | cons turn turns ih =>
    cases last with
    | none => exact ih (some turn) reports (alike.tick fun l none => by contradiction)
    | some l =>
      obtain ⟨reported,reports⟩ := List.isChain_cons_cons.mp reports
      exact ih (some turn) reports (alike.tick fun l' here => by rwa [← Option.some.inj here])

def checkpoints : Config Nat :=
  ⟨⟨⟨fun _ => [],false⟩,⟨none,false,0⟩,fun _ => []⟩,"*.ckpt",fun since now => decide (since + 5 ≤ now),0,true⟩

theorem one_byte_fits : ([1] : Bytes).length < 2^64 := by decide

def checkpoint : WorkFile := ⟨⟨[1],one_byte_fits⟩,7⟩

def nothing_yet : Turn Nat := ⟨0,[],∅,fun _ => none,fun _ => none⟩

def saved (now : Nat) : Turn Nat :=
  ⟨now,[["a.ckpt"]],Dict.ofList [(["a.ckpt"],checkpoint)],fun _ => some [1],fun _ => some checkpoint⟩

section
variable {seen current : Dict Path (Nat × Nat)} {rel : Path} {p q after : Progress H T}

theorem passes_fold (rels : List Path) (apart : rel ∉ rels) (p : Progress H T) :
    Passes cfg turn seen current rel p (rels.foldl (watch_file cfg turn seen current) p) := by
  induction rels generalizing p with
  | nil => exact .refl
  | cons other rels ih =>
    rw [List.mem_cons,not_or] at apart
    rw [List.foldl_cons]
    exact .head ⟨other,Ne.symm apart.1,watch_file_handled _ _ _ _ _ _⟩ (ih apart.2 _)

variable (cfg turn seen) in
/-- Each file of a turn has its own place in it. -/
theorem turn_covers (listed : rel ∈ current.keys) (p : Progress H T) : ∃ q after, Passes cfg turn seen current rel p q ∧
    Handled cfg turn seen current q rel after ∧ Passes cfg turn seen current rel after (watch_files cfg turn seen current p) := by
  have distinct : (in_order current.keys).Nodup := (in_order_perm current.keys).nodup_iff.mpr current.distinct
  obtain ⟨before,behind,split⟩ := List.append_of_mem ((in_order_perm current.keys).mem_iff.mpr listed)
  rw [split] at distinct
  have apart := (List.nodup_cons.mp (List.nodup_middle.mp distinct)).1
  rw [List.mem_append,not_or] at apart
  rw [watch_files,split,List.foldl_append,List.foldl_cons]
  exact ⟨_,_,passes_fold before apart.1 p,watch_file_handled _ _ _ _ _ _,passes_fold behind apart.2 _⟩

theorem passes_pending (passes : Passes cfg turn seen current rel p q) : q.pending_since.get? rel = p.pending_since.get? rel := by
  induction passes with
  | refl => rfl
  | tail _ step ih =>
    obtain ⟨other,apart,handled⟩ := step
    rw [pending_other handled apart.symm,ih]

theorem handled_watching {other : Path} (handled : Handled cfg turn seen current p other after)
    (watching : after.status = .watching) :
    p.status = .watching := by
  cases handled with
  | ended => exact watching
  | armed before | waits before | raised before | knew before | staged before => exact before

theorem passes_watching (passes : Passes cfg turn seen current rel p q) (watching : q.status = .watching) : p.status = .watching := by
  induction passes using Relation.ReflTransGen.head_induction_on with
  | refl => exact watching
  | head step _ ih =>
    obtain ⟨other,_,handled⟩ := step
    exact handled_watching handled ih

end

end AetherVault.Watch
