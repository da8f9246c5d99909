import AetherVault.Cdc
import AetherVault.Safetensors
import AetherVault.Signing
import AetherVault.Lib.TaskPool

/-! Hashing on the shared thread pool (`core.cpp`): calls of several threads at once, each with its tasks among
those of the others, against the same calls made one after the other. -/
namespace AetherVault.ParallelHashing

open Lib Lib.TaskPool Hashing

variable {H : Type} [Hashing H]

/-- What one task comes to; `blank` where a task was skipped. -/
inductive Part (H : Type)
  | layer (result : LayerResult H)
  | chunk (result : Chunk H)
  | hash (h : H)
  | blank

def Part.layer? : Part H → Option (LayerResult H)
  | .layer result => some result
  | _ => none

def Part.chunk? : Part H → Option (Chunk H)
  | .chunk result => some result
  | _ => none

def Part.hash? : Part H → Option H
  | .hash h => some h
  | _ => none

/-! `hash_file_tree` -/

def PARALLEL_MIN_CHUNKS : UInt64 := 8

def hash_chunk (content : Bytes) (chunk_size : UInt64) (i : Nat) : Except String H :=
  let file_size := UInt64.ofNat content.length
  let offset := UInt64.ofNat i * chunk_size
  let to_read := min chunk_size (file_size - offset)
  let buffer := slice content offset.toNat to_read.toNat
  if buffer.length = to_read.toNat then .ok (sha256 buffer)
  else .error s!"Failed to read chunk at offset {offset}"

def num_chunks (file : FileData) (chunk_size : UInt64) : Nat :=
  ((UInt64.ofNat file.bytes.length + chunk_size - 1) / chunk_size).toNat

def sequential (file : FileData) (chunk_size : UInt64) : Bool :=
  UInt64.ofNat file.bytes.length < PARALLEL_MIN_CHUNKS * chunk_size

variable [HexDigest H]

def concatenated (hashes : List H) : Bytes := hashes.flatMap fun h => encode (HexDigest.hexdigest h).toList

/-- The digest of the digests of the chunks; of the whole content where it is small. -/
def hash_file_parallel (file : FileData) (chunk_size : UInt64) : Except String H :=
  if sequential file chunk_size then .ok (sha256 file.bytes)
  else ((List.range (num_chunks file chunk_size)).mapM (hash_chunk file.bytes chunk_size)).map fun hashes : List H =>
    sha256 (concatenated hashes)

/-! The calls. -/

inductive Request
  | split_and_hash_safetensors (native : Native) (path : String) (file : FileData)
  | chunk_and_hash_file (file : FileData) (sizes : ChunkSizes)
  | hash_file_tree (file : FileData) (chunk_size : UInt64)

inductive Answer (H : Type)
  | layers (results : List (LayerResult H))
  | chunks (results : List (Chunk H))
  | hash (h : H)

namespace Request

/-- The call by itself. -/
def alone : Request → Except String (Answer H)
  | .split_and_hash_safetensors native path file => (split_and_hash_safetensors_core native path file).map .layers
  | .chunk_and_hash_file file sizes => (chunk_and_hash_file_core file sizes).map .chunks
  | .hash_file_tree file chunk_size => (hash_file_parallel file chunk_size).map .hash

/-- All tasks at once, when there is no window. -/
def whole (tasks : Nat) : Nat := max tasks 1

def window (pool_size : Nat) : Nat := min (max pool_size 1) 4

/-- What the caller does before it hands out tasks: an answer that needs none, or the tasks. -/
def job (pool_size : Nat) : Request → Except (Except String (Answer H)) (Job String (Part H))
  | .split_and_hash_safetensors native path file =>
    match layer_table native.parse path file with
    | .error e => .error (.error e)
    | .ok table =>
      let layers := native.std_sort.sort table.layers
      .ok (Job.ofList layers (hash_layer path file.bytes) Part.layer .blank (whole layers.length) false)
  | .chunk_and_hash_file file sizes =>
    if sizes.invalid then .error (.error "Invalid chunk sizes: require min <= avg <= max, min > 0")
    else
      let cutter := CdcCutter.new sizes (UInt64.ofNat file.bytes.length)
      let ranges := chunk_ranges file.bytes.length (0::cut_offsets cutter file.bytes)
      .ok (Job.ofList ranges (hash_range file.bytes) Part.chunk .blank (whole ranges.length) false)
  | .hash_file_tree file chunk_size =>
    if sequential file chunk_size then .error (.ok (.hash (sha256 file.bytes)))
    else .ok (Job.ofList (List.range (num_chunks file chunk_size)) (hash_chunk file.bytes chunk_size) Part.hash .blank
      (window pool_size) true)

/-- What the caller makes of the outcomes of its tasks. -/
def answer : Request → List (Part H) → Answer H
  | .split_and_hash_safetensors _ _ _,parts => .layers (parts.filterMap Part.layer?)
  | .chunk_and_hash_file _ _,parts => .chunks (parts.filterMap Part.chunk?)
  | .hash_file_tree _ _,parts => .hash (sha256 (concatenated (parts.filterMap Part.hash?)))

def idle_job : Job String (Part H) := ⟨0,1,false,fun _ => .ok .blank,.blank⟩

/-- The tasks in the pool; none for a call that has its answer without. -/
def tasks (pool_size : Nat) (r : Request) : Job String (Part H) :=
  match r.job pool_size with
  | .error _ => idle_job
  | .ok job => job

/-- What the caller has, once it has it. -/
def outcome (pool_size : Nat) (r : Request) (c : Call String (Part H)) : Option (Except String (Answer H)) :=
  match r.job pool_size with
  | .error answer => some answer
  | .ok _ => match c.mode with
    | .returned => some (.ok (r.answer c.results))
    | .raised e => some (.error e)
    | _ => none

/-- The tasks of a call are the items that the call by itself goes through. -/
structure Listed (r : Request) (job : Job String (Part H)) (α ρ : Type) where
  items : List α
  hash_item : α → Except String ρ
  wrap : ρ → Part H
  unwrap : Part H → Option ρ
  window : Nat
  drains : Bool
  collect : List ρ → Answer H
  wrapped : ∀ result, unwrap (wrap result) = some result
  tasks : job = Job.ofList items hash_item wrap .blank window drains
  alone : r.alone = (items.mapM hash_item).map collect
  answer : ∀ parts, r.answer parts = collect (parts.filterMap unwrap)
  room : 0 < window

variable {pool_size : Nat} {r : Request} {job : Job String (Part H)} {c : Call String (Part H)}

theorem listed (planned : r.job pool_size = .ok job) : ∃ α ρ : Type, Nonempty (Listed r job α ρ) := by
  have positive (n : Nat) : 0 < whole n := Nat.lt_of_lt_of_le Nat.zero_lt_one (Nat.le_max_right n 1)
  cases r with
  | split_and_hash_safetensors native path file =>
    rw [Request.job] at planned
    cases read : layer_table native.parse path file with
    | error e =>
      rw [read] at planned
      contradiction
    | ok table =>
      rw [read] at planned
      refine ⟨_,_,⟨⟨native.std_sort.sort table.layers,hash_layer path file.bytes,Part.layer,Part.layer?,_,false,.layers,
        fun _ => rfl,(Except.ok.inj planned).symm,?_,fun _ => rfl,positive _⟩⟩⟩
      rw [Request.alone,split_and_hash_safetensors_core,read]
      rfl
  | chunk_and_hash_file file sizes =>
    rw [Request.job] at planned
    split at planned
    · contradiction
    · rename_i valid
      refine ⟨_,_,⟨⟨_,hash_range file.bytes,Part.chunk,Part.chunk?,_,false,.chunks,fun _ => rfl,(Except.ok.inj planned).symm,?_,
        fun _ => rfl,positive _⟩⟩⟩
      rw [Request.alone,chunk_and_hash_file_core,if_neg valid]
  | hash_file_tree file chunk_size =>
    rw [Request.job] at planned
    split at planned
    · contradiction
    · rename_i large
      refine ⟨_,_,⟨⟨_,hash_chunk file.bytes chunk_size,Part.hash,Part.hash?,window pool_size,true,
        fun hashes => .hash (sha256 (concatenated hashes)),fun _ => rfl,(Except.ok.inj planned).symm,?_,fun _ => rfl,?_⟩⟩⟩
      · rw [Request.alone,hash_file_parallel,if_neg large]
        cases ((List.range (num_chunks file chunk_size)).mapM (hash_chunk file.bytes chunk_size) : Except String (List H)) with
        | error e => rfl
        | ok hashes => rfl
      · rw [window]
        omega

theorem returned_alone (planned : r.job pool_size = .ok job) (sound : c.Sound job) (returned : c.mode = .returned) :
    r.alone = .ok (r.answer c.results) := by
  obtain ⟨α,ρ,⟨l⟩⟩ := listed planned
  rw [l.tasks] at sound
  rw [l.alone,l.answer,sound.returned_mapM l.wrapped returned]
  rfl

theorem raised_alone (planned : r.job pool_size = .ok job) (sound : c.Sound job) {e : String} (raised : c.mode = .raised e) :
    ∃ e', (r.alone : Except String (Answer H)) = .error e' := by
  obtain ⟨α,ρ,⟨l⟩⟩ := listed planned
  rw [l.tasks] at sound
  obtain ⟨e',fails⟩ := sound.raised_mapM raised
  exact ⟨e',by rw [l.alone,fails]; rfl⟩

theorem job_alone {early : Except String (Answer H)} (planned : r.job pool_size = .error early) : r.alone = early := by
  cases r with
  | split_and_hash_safetensors native path file =>
    rw [Request.job] at planned
    cases read : layer_table native.parse path file with
    | error e =>
      rw [read] at planned
      rw [Request.alone,split_and_hash_safetensors_core,read]
      exact Except.error.inj planned
    | ok table =>
      rw [read] at planned
      contradiction
  | chunk_and_hash_file file sizes =>
    rw [Request.job] at planned
    split at planned
    · rename_i invalid
      rw [Request.alone,chunk_and_hash_file_core,if_pos invalid]
      exact Except.error.inj planned
    · contradiction
  | hash_file_tree file chunk_size =>
    rw [Request.job] at planned
    split at planned
    · rename_i small
      rw [Request.alone,hash_file_parallel,if_pos small]
      exact Except.error.inj planned
    · contradiction

end Request

/-! Any number of calls on one pool. -/

section

variable {J W : Type} [Fintype J] [DecidableEq J] [Fintype W] [DecidableEq W]

def jobs (W : Type) [Fintype W] (requests : J → Request) (j : J) : Job String (Part H) := (requests j).tasks (Fintype.card W)

omit [HexDigest H] in
theorem tasks_eq {pool_size : Nat} {r : Request} {job : Job String (Part H)} (planned : r.job pool_size = .ok job) :
    r.tasks pool_size = job := by
  rw [Request.tasks,planned]

omit [Fintype J] [HexDigest H] in
theorem run_calls (requests : J → Request) {acts : List (Act J W)} {s : Pool J W String (Part H)}
    (ran : Pool.start.run (jobs W requests) acts = some s) : s.Sound (jobs W requests) :=
  Pool.run_sound Pool.start_sound ran

omit [Fintype J] in
/-- Whatever the order in which the workers take, run and finish the tasks of all the calls, each call that comes to an end
has what it would have by itself: the same results, or an error where it would have one. -/
theorem pool_answers (requests : J → Request) {acts : List (Act J W)} {s : Pool J W String (Part H)}
    (ran : Pool.start.run (jobs W requests) acts = some s) {j : J} {out : Except String (Answer H)}
    (has : (requests j).outcome (Fintype.card W) (s.calls j) = some out) : out.toOption = (requests j).alone.toOption := by
  have sound := (run_calls requests ran).calls j
  rw [Request.outcome] at has
  cases planned : ((requests j).job (Fintype.card W) : Except (Except String (Answer H)) (Job String (Part H))) with
  | error early =>
    simp only [planned,Option.some.injEq] at has
    rw [Request.job_alone planned,has]
  | ok job =>
    rw [jobs,tasks_eq planned] at sound
    simp only [planned] at has
    cases mode : (s.calls j).mode with
    | returned =>
      simp only [mode,Option.some.injEq] at has
      rw [Request.returned_alone planned sound mode,has]
    | raised e =>
      simp only [mode,Option.some.injEq] at has
      obtain ⟨e',fails⟩ := Request.raised_alone planned sound mode
      rw [fails,← has]
      rfl
    | _ => simp only [mode,reduceCtorEq] at has

theorem job_window {pool_size : Nat} {r : Request} : 0 < (r.tasks pool_size : Job String (Part H)).window := by
  cases planned : (r.job pool_size : Except (Except String (Answer H)) (Job String (Part H))) with
  | error early =>
    rw [Request.tasks,planned]
    exact Nat.zero_lt_one
  | ok job =>
    obtain ⟨α,ρ,⟨l⟩⟩ := Request.listed planned
    rw [tasks_eq planned,l.tasks]
    exact l.room

omit [HexDigest H] in
theorem tree_window {pool_size : Nat} (file : FileData) (chunk_size : UInt64) :
    ((Request.hash_file_tree file chunk_size).tasks pool_size : Job String (Part H)).window ≤ 4 := by
  rw [Request.tasks,Request.job]
  split
  · rename_i early planned
    exact (by decide : 1 ≤ 4)
  · rename_i job planned
    split at planned
    · contradiction
    · rw [← Except.ok.inj planned]
      exact Nat.min_le_right _ _

omit [Fintype J] [DecidableEq J] [DecidableEq W] in
theorem unfinished {requests : J → Request} {s : Pool J W String (Part H)} {j : J}
    (without : (requests j).outcome (Fintype.card W) (s.calls j) = none) : (s.calls j).mode.settled = false := by
  rw [Request.outcome] at without
  cases planned : ((requests j).job (Fintype.card W) : Except (Except String (Answer H)) (Job String (Part H))) with
  | error early => simp only [planned,reduceCtorEq] at without
  | ok job =>
    cases mode : (s.calls j).mode with
    | running => rfl
    | draining e => rfl
    | _ => simp only [planned,mode,reduceCtorEq] at without

/-! Two workers, a call that cuts an empty file into its one chunk, and a call that needs no task. -/

theorem nothing_fits : ([] : Bytes).length < 2^64 := Nat.two_pow_pos 64

def empty_file : FileData := ⟨[],nothing_fits⟩

def two_calls : Fin 2 → Request
  | 0 => .chunk_and_hash_file empty_file {}
  | 1 => .hash_file_tree empty_file 1

def one_task : List (Act (Fin 2) (Fin 2)) := [.call 0,.take 1,.work 1,.work 1,.work 1,.call 0,.call 0]

theorem one_task_runs : ((Pool.start.run (jobs (H := Name) (Fin 2) two_calls) one_task).bind fun s =>
    (two_calls 0).outcome (Fintype.card (Fin 2)) (s.calls 0)).isSome = true := by decide +kernel

theorem pool_answers_one : ∃ s, Pool.start.run (jobs (H := Name) (Fin 2) two_calls) one_task = some s ∧
    ∃ out, (two_calls 0).outcome (Fintype.card (Fin 2)) (s.calls 0) = some out ∧
      out.toOption = ((two_calls 0).alone : Except String (Answer Name)).toOption := by
  obtain ⟨out,both⟩ := Option.isSome_iff_exists.mp one_task_runs
  obtain ⟨s,ran,has⟩ := Option.bind_eq_some_iff.mp both
  exact ⟨s,ran,out,has,pool_answers two_calls ran has⟩

end

end AetherVault.ParallelHashing
