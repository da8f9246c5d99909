import AetherVault.Client
import Mathlib.Algebra.Ring.Nat

/-! Staging a file and restoring it. The layers of a safetensors file are the ranges
its header declares, so the restored file is these ranges end to end; the other
paths cut the file into all of its bytes. -/
namespace AetherVault
open Lib Hashing
open Lib.Prog (call foldEach)

/-- The ranges put end to end are the file: where a range lands, the file has the
bytes of the range, and the last one ends with the file. -/
def Laid (content : Bytes) : Nat → List LayerSpec → Prop
  | landing,[] => landing = content.length
  | landing,layer::rest => layer.range content = slice content landing layer.size.toNat ∧
      Laid content (landing+layer.size.toNat) rest

/-- Each range starts where the one before it ends, and the last one ends the file. -/
def Contiguous (content : Bytes) : Nat → List LayerSpec → Prop
  | landing,[] => landing = content.length
  | landing,layer::rest => layer.abs_start.toNat = landing ∧ Contiguous content (landing+layer.size.toNat) rest

theorem drop_eq_append_iff (content piece rest : Bytes) (landing : Nat) :
    piece ++ rest = content.drop landing ↔
      piece = slice content landing piece.length ∧ rest = content.drop (landing+piece.length) := by
  rw [slice,← List.drop_drop]
  constructor
  · intro same
    rw [← same]
    simp
  · rintro ⟨front,back⟩
    rw [back]
    exact (congrArg (· ++ _) front).trans (List.take_append_drop _ _)

/-- Where every range can be read, laid ranges are those that concatenate to the file. -/
theorem laid_iff_flatten (content : Bytes) (ranges : List LayerSpec) (landing : Nat)
    (readable : ∀ layer ∈ ranges, layer.readable content = true) (inside : landing ≤ content.length) :
    Laid content landing ranges ↔ (ranges.map (·.range content)).flatten = content.drop landing := by
  induction ranges generalizing landing with
  | nil =>
    simp only [Laid,List.map_nil,List.flatten_nil]
    rw [eq_comm,eq_comm (a := []),List.drop_eq_nil_iff]
    omega
  | cons layer rest ih =>
    have size : (layer.range content).length = layer.size.toNat := by
      simpa [LayerSpec.readable] using readable layer (by simp)
    have tail := ih (landing+layer.size.toNat) (fun other member => readable other (by simp [member]))
    rw [Laid,List.map_cons,List.flatten_cons,drop_eq_append_iff,size]
    constructor
    · rintro ⟨front,back⟩
      refine ⟨front,(tail ?_).mp back⟩
      rw [front] at size
      exact slice_length_le content landing _ (by omega) inside
    · rintro ⟨front,back⟩
      refine ⟨front,(tail ?_).mpr back⟩
      rw [front] at size
      exact slice_length_le content landing _ (by omega) inside

theorem end_toNat {content : Bytes} (fits : content.length < 2^64) {layer : LayerSpec}
    (inside : layer.abs_start.toNat+layer.size.toNat ≤ content.length) :
    (layer.abs_start + layer.size).toNat = layer.abs_start.toNat+layer.size.toNat := by
  rw [UInt64.toNat_add]
  exact Nat.mod_eq_of_lt (by omega)

theorem apart_sizes {content : Bytes} (fits : content.length < 2^64) (layer : LayerSpec) (rest : List LayerSpec)
    (inside : ∀ l ∈ layer::rest, l.abs_start.toNat+l.size.toNat ≤ content.length)
    (apart : overlapping (layer::rest) = false) :
    layer.abs_start.toNat+((layer::rest).map (·.size.toNat)).sum ≤ content.length := by
  induction rest generalizing layer with
  | nil => simpa using inside layer (by simp)
  | cons next rest ih =>
    simp only [overlapping,Bool.or_eq_false_iff,decide_eq_false_iff_not] at apart
    have later := ih next (fun l member => inside l (List.mem_cons_of_mem _ member)) apart.2
    have order := UInt64.le_iff_toNat_le.mp (UInt64.not_lt.mp apart.1)
    rw [end_toNat fits (inside layer (by simp))] at order
    simp only [List.map_cons,List.sum_cons] at later ⊢
    omega

theorem laid_sizes {content : Bytes} {landing : Nat} {ranges : List LayerSpec} (laid : Laid content landing ranges) :
    landing+(ranges.map (·.size.toNat)).sum = content.length := by
  induction ranges generalizing landing with
  | nil => simpa [Laid] using laid
  | cons layer rest ih =>
    have := ih laid.2
    simp only [List.map_cons,List.sum_cons]
    omega

/-- Ranges that do not overlap are laid only when no byte of the file is outside them. -/
theorem laid_iff_contiguous {content : Bytes} (fits : content.length < 2^64) (ranges : List LayerSpec) (landing : Nat)
    (inside : ∀ l ∈ ranges, l.abs_start.toNat+l.size.toNat ≤ content.length) (apart : overlapping ranges = false)
    (start : ∀ l ∈ ranges.head?, landing ≤ l.abs_start.toNat) :
    Laid content landing ranges ↔ Contiguous content landing ranges := by
  induction ranges generalizing landing with
  | nil => rfl
  | cons layer rest ih =>
    have tail (here : layer.abs_start.toNat = landing) :
        Laid content (landing+layer.size.toNat) rest ↔ Contiguous content (landing+layer.size.toNat) rest := by
      cases rest with
      | nil => rfl
      | cons next rest =>
        simp only [overlapping,Bool.or_eq_false_iff,decide_eq_false_iff_not] at apart
        have order := UInt64.le_iff_toNat_le.mp (UInt64.not_lt.mp apart.1)
        rw [end_toNat fits (inside layer (by simp))] at order
        exact ih _ (fun l member => inside l (List.mem_cons_of_mem _ member)) apart.2 (by simp; omega)
    constructor
    · intro laid
      have total := laid_sizes laid
      have room := apart_sizes fits layer rest inside apart
      have first := start layer (by simp)
      have here : layer.abs_start.toNat = landing := by omega
      exact ⟨here,(tail here).mp laid.2⟩
    · rintro ⟨here,later⟩
      exact ⟨by rw [LayerSpec.range,here],(tail here).mpr later⟩

variable {H : Type} [DecidableEq H] [Hashing H]

/-! Restoring from the local store. -/

section Run

variable (env : Env) (me : Nat) (policy : World H → Choice)

theorem run_write_bytes (rel_path : Path) (content : Bytes) (w : World H) :
    (write_bytes rel_path content).run (World.exec env me) policy w =
      match FileData.ofBytes? content with
      | some data => (.ok (),{w with repo := {w.repo with files := w.repo.files.set rel_path ⟨data,(policy w).clock⟩}})
      | none => (.error .os_error,w) := by
  cases made : FileData.ofBytes? content <;>
    simp [write_bytes,Prog.bind_eq,Prog.bind,call,Prog.run,World.exec,World.write_file,made]

theorem run_fetch_shard {h : H} {content : Bytes} {w : World H} (held : w.repo.objects.get? h = some content) :
    (fetch_shard h).run (World.exec env me) policy w = (.ok (some content),w) := by
  simp [fetch_shard,Prog.bind_eq,Prog.bind,call,Prog.run,World.exec,held]

/-- The working file as far as it is written, with the store unchanged. -/
def Written (objects : Objects H) (rel_path : Path) (content : Bytes) (w : World H) : Prop :=
  w.repo.objects = objects ∧ (w.repo.files.get? rel_path).map (·.data.bytes) = some content

theorem run_write_bytes_written (rel_path : Path) (content : Bytes) (w : World H) :
    (∃ t, (write_bytes rel_path content).run (World.exec env me) policy w = (.ok (),t) ∧
      Written w.repo.objects rel_path content t) ∨
    ¬ content.length < 2^64 ∧ (write_bytes rel_path content).run (World.exec env me) policy w = (.error .os_error,w) := by
  rw [run_write_bytes]
  unfold FileData.ofBytes?
  split
  · rename_i data made
    split at made
    · obtain rfl := Option.some.inj made
      exact Or.inl ⟨_,rfl,rfl,by simp⟩
    · contradiction
  · rename_i made
    split at made
    · contradiction
    · exact Or.inr ⟨by assumption,rfl⟩

theorem run_append_shards {objects : Objects H} (rel_path : Path) (kind : String) {shards : List H}
    {contents : List Bytes} (held : List.Forall₂ (fun h content => objects.get? h = some content) shards contents)
    (written : Bytes) (w : World H) (start : Written objects rel_path written w) :
    (∃ t, (foldEach (append_shard rel_path kind) shards written).run (World.exec env me) policy w =
        (.ok (written ++ contents.flatten),t) ∧ Written objects rel_path (written ++ contents.flatten) t) ∨
      ¬ (written ++ contents.flatten).length < 2^64 ∧ ∃ t,
        (foldEach (append_shard rel_path kind) shards written).run (World.exec env me) policy w = (.error .os_error,t) := by
  induction held generalizing written w with
  | nil => exact Or.inl ⟨w,by simp [foldEach,Prog.run],by simpa using start⟩
  | @cons h content shards contents here rest ih =>
    have fetched := run_fetch_shard env me policy (start.1.symm ▸ here : w.repo.objects.get? h = some content)
    simp only [foldEach,append_shard,Prog.bind_eq,Prog.bind_assoc]
    rw [Prog.run_bind_ok fetched]
    dsimp only
    rw [Prog.bind_assoc]
    rcases run_write_bytes_written env me policy rel_path (written ++ content) w with ⟨t,wrote,now⟩ | ⟨large,failed⟩
    · rw [Prog.run_bind_ok wrote]
      have later := ih (written ++ content) t (start.1 ▸ now)
      simpa [Prog.bind] using later
    · right
      refine ⟨fun short => large ?_,w,Prog.run_bind_error failed _⟩
      simp only [List.length_append,List.flatten_cons] at short ⊢
      omega

theorem run_reassemble {objects : Objects H} (rel_path : Path) (kind : String) {shards : List H}
    {contents : List Bytes} (held : List.Forall₂ (fun h content => objects.get? h = some content) shards contents)
    (w : World H) (start : w.repo.objects = objects) :
    (∃ t, (reassemble rel_path kind shards).run (World.exec env me) policy w = (.ok contents.flatten,t) ∧
        Written objects rel_path contents.flatten t) ∨
      ¬ contents.flatten.length < 2^64 ∧ ∃ t,
        (reassemble rel_path kind shards).run (World.exec env me) policy w = (.error .os_error,t) := by
  simp only [reassemble,Prog.bind_eq]
  rcases run_write_bytes_written env me policy rel_path [] w with ⟨t,wrote,now⟩ | ⟨large,-⟩
  · rw [Prog.run_bind_ok wrote,Prog.run_attempt]
    rcases run_append_shards env me policy rel_path kind held [] t (start ▸ now) with ⟨u,done,kept⟩ | ⟨large,u,failed⟩
    · rw [done]
      exact Or.inl ⟨u,by simp,by simpa using kept⟩
    · rw [failed]
      exact Or.inr ⟨by simpa using large,u,rfl⟩
  · simp at large

/-- Restoring from shards in the store gives the file exactly when they concatenate to it. -/
theorem run_materialize_shards {objects : Objects H} (rel_path : Path) (layers : List (Layer H)) (chunks : List (Chunk H))
    {contents : List Bytes}
    (held : List.Forall₂ (fun h content => objects.get? h = some content) (shards_of layers chunks) contents)
    (split : layers ≠ [] ∨ chunks ≠ []) (file : FileData) (verify : Bool) (w : World H) (start : w.repo.objects = objects) :
    (((materialize_file rel_path (.sha (sha256 file.bytes)) layers chunks verify).run (World.exec env me) policy w).1 =
        .ok () ∧
      (((materialize_file rel_path (.sha (sha256 file.bytes)) layers chunks verify).run (World.exec env me) policy w).2
        |>.repo.files.get? rel_path).map (·.data.bytes) = some file.bytes) ↔ contents.flatten = file.bytes := by
  unfold materialize_file
  simp only [object_path,Prog.bind_eq,Prog.bind,if_pos split]
  rcases run_reassemble env me policy rel_path (if layers ≠ [] then "layer" else "chunk") held w start with
    ⟨t,done,written⟩ | ⟨large,t,failed⟩
  · rw [Prog.run_bind_ok done]
    split
    · rename_i mismatch
      constructor
      · rintro ⟨ok,-⟩
        simp [Prog.bind,call,Prog.run] at ok
      · intro same
        exact absurd (by rw [same]) mismatch.2
    · constructor
      · rintro ⟨-,restored⟩
        exact Option.some.inj (written.2.symm.trans restored)
      · intro same
        exact ⟨rfl,same ▸ written.2⟩
  · rw [Prog.run_bind_error failed]
    constructor
    · rintro ⟨ok,-⟩
      contradiction
    · intro same
      exact absurd (same ▸ file.fits) large

theorem run_materialize_whole {objects : Objects H} (rel_path : Path) (file : FileData) (verify : Bool) (w : World H)
    (start : w.repo.objects = objects) (held : objects.get? (sha256 file.bytes) = some file.bytes) :
    ((materialize_file rel_path (.sha (sha256 file.bytes)) [] [] verify).run (World.exec env me) policy w).1 = .ok () ∧
      (((materialize_file rel_path (.sha (sha256 file.bytes)) [] [] verify).run (World.exec env me) policy w).2
        |>.repo.files.get? rel_path).map (·.data.bytes) = some file.bytes := by
  have local_bytes : w.repo.objects.get? (sha256 file.bytes) = some file.bytes := start ▸ held
  have wrote := run_write_bytes env me policy rel_path file.bytes w
  rw [FileData.ofBytes?_bytes] at wrote
  simp [materialize_file,materialize_whole,object_path,read_local,Prog.bind_eq,Prog.bind,call,Prog.run,World.exec,
    local_bytes,wrote]

end Run

omit [DecidableEq H] in
theorem chunksOf_later (offset : Nat) (shards : List Bytes) :
    ∀ c ∈ (chunksOf offset shards : List (Chunk H)), offset ≤ c.offset := by
  induction shards generalizing offset with
  | nil => simp [chunksOf]
  | cons piece rest ih =>
    intro c member
    rcases List.mem_cons.mp member with rfl | later
    · exact Nat.le_refl _
    · exact Nat.le_trans (Nat.le_add_right _ _) (ih _ c later)

omit [DecidableEq H] in
theorem ordered_chunksOf (offset : Nat) (shards : List Bytes) :
    ordered_chunks (chunksOf offset shards : List (Chunk H)) = chunksOf offset shards := by
  apply List.Pairwise.insertionSort_eq
  induction shards generalizing offset with
  | nil => exact .nil
  | cons piece rest ih =>
    exact .cons (fun c later => Nat.le_trans (Nat.le_add_right _ _) (chunksOf_later _ _ c later)) (ih _)

omit [DecidableEq H] in
theorem chunksOf_hashes (offset : Nat) (shards : List Bytes) :
    (chunksOf offset shards : List (Chunk H)).map (·.hash) = shards.map sha256 := by
  induction shards generalizing offset with
  | nil => rfl
  | cons piece rest ih => simp [chunksOf,ih]

omit [DecidableEq H] in
/-- The shards of a split content are recorded under their hashes, in order. -/
theorem shards_of_shape {content : Bytes} {split : Option (List LayerSpec)} {layers : List (Layer H)}
    {chunks : List (Chunk H)} {shards : List Bytes} (shape : Shape content split layers chunks shards)
    (parted : layers ≠ [] ∨ chunks ≠ []) : shards_of layers chunks = shards.map sha256 := by
  cases shape with
  | layers ranges nonempty => simp [shards_of,nonempty,LayerSpec.part,Function.comp_def]
  | chunks _ nonempty whole => simp [shards_of,ordered_chunksOf,chunksOf_hashes]
  | whole => simp at parted

theorem layer_split_readable {env : StageEnv} {file : WorkFile} {rel_path : Path} {file_type : FileType}
    {attr_flags : List String} {ranges : List LayerSpec}
    (cut : layer_split env file rel_path file_type attr_flags = some ranges) :
    ∀ layer ∈ ranges, layer.readable file.data.bytes = true := by
  unfold layer_split at cut
  split at cut
  · contradiction
  · split at cut
    · exact split_ranges_readable cut
    · contradiction

/-- Whatever the network does not answer, restoring the entry from this store gives the
file its bytes back, verified or not. -/
def Restores (env : Env) (objects : Objects H) (rel_path : Path) (file : FileData) (e : IndexEntry H) : Prop :=
  ∀ (me : Nat) (verify : Bool) (policy : World H → Choice) (w : World H), w.repo.objects = objects →
    (∀ s, (policy s).net ≠ .answered) →
    ((materialize_file rel_path e.hash e.layers e.chunks verify).run (World.exec env me) policy w).1 = .ok () ∧
      (((materialize_file rel_path e.hash e.layers e.chunks verify).run (World.exec env me) policy w).2
        |>.repo.files.get? rel_path).map (·.data.bytes) = some file.bytes

def ascii (s : String) : Bytes := s.toList.map (fun c => UInt8.ofNat c.toNat)

def padded_header (padding : Nat) : Bytes :=
  ascii ("\x7b\"w\":\x7b\"data_offsets\":[" ++ toString padding ++ "," ++ toString (padding+1) ++ "]\x7d\x7d")

def padded_native (padding : Nat) : Native where
  parse text :=
    if text = padded_header padding then .ok (.object [("w",.object [("data_offsets",
      .array [.number_unsigned (UInt64.ofNat padding),.number_unsigned (UInt64.ofNat (padding+1))])])])
    else .error "parse error"
  std_sort :=
    { sort := fun layers => layers.insertionSort (fun a b => a.abs_start ≤ b.abs_start)
      perm := List.perm_insertionSort _
      ordered := List.pairwise_insertionSort _ }

def padded_env (padding : Nat) : Env := ⟨⟨some (padded_native padding),true,0⟩,"project",fun _ => []⟩

def padded_file (padding : Nat) (short : padding < 8) : WorkFile where
  data := ⟨[28,0,0,0,0,0,0,0] ++ padded_header padding ++ List.replicate padding 0 ++ [7],by
    have head : ∀ padding < 8, (padded_header padding).length < 256 := by decide
    have := head padding short
    simp only [List.length_append,List.length_cons,List.length_nil,List.length_replicate]
    omega⟩
  mtime_ns := 5

def padded_staging (padding : Nat) (short : padding < 8) : Objects Name × Option (StageResult Name) :=
  _compute_stage_result (padded_env padding).staging .empty (padded_file padding short) ["model.safetensors"]
    .artifact none []

end AetherVault
