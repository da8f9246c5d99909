import AetherVault.LocalObjects
import AetherVault.Handlers
import AetherVault.Lib.Runs
import AetherVault.SignedCommits

/-! Whether the object files of a client keep to their names, over any sequence of commands. -/
namespace AetherVault.LocalObjects
open Lib Hashing
open Daemon (compact)

section Named

variable {H : Type} [DecidableEq H] [Hashing H]

def Named (files : CasFiles H) : Prop := ∀ h b, files.get? h = some b → sha256 b = h

theorem Named.empty : Named (∅ : CasFiles H) := by
  intro h b found
  contradiction

theorem Named.set_iff {files : CasFiles H} (named : Named files) (h : H) (b : Bytes) :
    Named (files.set h b) ↔ sha256 b = h := by
  constructor
  · intro after
    exact after h b (Dict.get?_set_same _ _ _)
  · intro digest other content found
    rw [Dict.get?_set] at found
    split at found
    · rename_i same
      rw [← Option.some.inj found,same]
      exact digest
    · exact named other content found

theorem Named.erase {files : CasFiles H} (named : Named files) (h : H) : Named (files.erase h) := by
  intro other content found
  rw [Dict.get?_erase] at found
  split at found
  · contradiction
  · exact named other content found

/-- What is published under a name that is free has to hash to it. -/
theorem Named.guarded_iff {files : CasFiles H} (named : Named files) (h : H) (b : Bytes) :
    Named (if files.contains h then files else files.set h b) ↔ files.contains h = true ∨ sha256 b = h := by
  by_cases taken : files.contains h = true
  · rw [if_pos taken]
    exact iff_of_true named (Or.inl taken)
  · rw [if_neg taken,named.set_iff]
    exact (or_iff_right taken).symm

/-! Two texts under one digest. -/

variable (H) in
def Collide (a b : Bytes) : Prop := a ≠ b ∧ (sha256 a : H) = sha256 b

omit [DecidableEq H] in
theorem same_digest_iff (a b : Bytes) : (sha256 a : H) = sha256 b ↔ a = b ∨ Collide H a b := by
  by_cases same : a = b
  · rw [same]
    exact iff_of_true rfl (Or.inl rfl)
  · rw [or_iff_right same]
    exact (and_iff_right same).symm

theorem full_bytes_iff (doc : Doc) : full_bytes doc = canonical_bytes doc ↔ doc.contains "signature" = false := by
  unfold full_bytes canonical_bytes
  rw [encode_injective.eq_iff,JsonValue.dumps_sorted_iff,JsonValue.arrange_dict_iff,Dict.contains_false]
  constructor
  · intro same
    have signature := same "signature"
    rw [Dict.get?_erase,if_pos rfl] at signature
    exact Option.map_eq_none_iff.mp signature
  · intro unsigned key
    rw [Dict.get?_erase]
    split
    · rename_i same
      rw [same,unsigned]
    · rfl

theorem write_object_named_iff {files : CasFiles H} (named : Named files) (doc : Doc) : Named (write_object files doc) ↔
    files.contains (object_id doc) = true ∨ doc.contains "signature" = false ∨
      Collide H (full_bytes doc) (canonical_bytes doc) := by
  rw [write_object,named.guarded_iff,object_id,same_digest_iff,full_bytes_iff]

variable (tools : SnapshotTools)

theorem indented_bytes_iff (snap : Doc) : indented_bytes snap = canonical_env_bytes tools snap ↔ snap.entries = [] := by
  unfold indented_bytes canonical_env_bytes
  rw [encode_injective.eq_iff]
  constructor
  · intro same
    by_contra some_member
    refine JsonValue.indented_dict_ne compact 2 (fun none => some_member ?_) _ same
    have sorted := (List.perm_insertionSort (fun a b => a.1 ≤ b.1) (JsonValue.arrange_members snap.entries)).length_eq
    rw [none,JsonValue.arrange_members_eq,List.length_map] at sorted
    exact List.length_eq_zero_iff.mp sorted.symm
  · intro none
    have empty : snap = ∅ := by
      obtain ⟨entries,distinct⟩ := snap
      subst none
      rfl
    rw [empty]
    rfl

/-- When a write leaves every file under the digest of its bytes. -/
def Fits (files : CasFiles H) : CasWrite H → Prop
  | .publish_reread hashed copied =>
    files.contains (sha256 hashed) = true ∨ copied = hashed ∨ Collide H copied hashed
  | .materialize h received copied =>
    files.contains h = true ∨
      ∀ content, download_object h received = some content → copied = content ∨ Collide H copied content
  | .write_object doc =>
    files.contains (object_id doc) = true ∨ doc.contains "signature" = false ∨
      Collide H (full_bytes doc) (canonical_bytes doc)
  | .fetch_snapshot sid reply =>
    ∀ snap, fetched_snapshot tools files sid reply = some snap →
      snap.entries = [] ∨ Collide H (indented_bytes snap) (canonical_env_bytes tools snap)
  | _ => True

theorem download_object_digest {h : H} {received : Option Bytes} {content : Bytes}
    (downloaded : download_object h received = some content) : sha256 content = h := by
  have kept := Option.filter_eq_some_iff.mp downloaded
  exact of_decide_eq_true kept.2

theorem materialize_named_iff {files : CasFiles H} (named : Named files) (h : H) (received : Option Bytes)
    (copied : Bytes) : Named (materialize_file files h received copied) ↔ files.contains h = true ∨
      ∀ content, download_object h received = some content → copied = content ∨ Collide H copied content := by
  unfold materialize_file
  by_cases taken : files.contains h = true
  · rw [if_pos taken]
    exact iff_of_true named (Or.inl taken)
  · rw [if_neg taken,or_iff_right taken]
    cases downloaded : download_object h received with
    | none => exact iff_of_true named fun content got => absurd got (Option.some_ne_none content).symm
    | some content =>
      have digest := download_object_digest downloaded
      have only : (∀ other, some content = some other → copied = other ∨ Collide H copied other) ↔
          copied = content ∨ Collide H copied content := by
        simp only [Option.some.injEq,forall_eq']
      rw [only,named.set_iff,← same_digest_iff,digest]

theorem fetched_snapshot_id {files : CasFiles H} {sid : H} {reply : Option Bytes} {snap : Doc}
    (fetched : fetched_snapshot tools files sid reply = some snap) : env_snapshot_id tools snap = sid := by
  unfold fetched_snapshot replied_snapshot at fetched
  split at fetched
  · split at fetched
    · exact of_decide_eq_true (Option.filter_eq_some_iff.mp fetched).2
    · contradiction
  · contradiction

/-- A store without the snapshot takes it from a reply that has it. -/
theorem fetched_of_loaded {content : Bytes} {sid : H} {members : List (String × JsonValue)}
    (loaded : tools.loads content = .value (.dict members)) (id : env_snapshot_id tools (Dict.ofList members) = sid) :
    fetched_snapshot tools ∅ sid (some content) = some (Dict.ofList members) := by
  have reply : replied_snapshot tools sid (some content) = some (Dict.ofList members) := by
    unfold replied_snapshot
    rw [Option.map_some,loaded]
    exact Option.filter_eq_some_iff.mpr ⟨rfl,decide_eq_true id⟩
  exact reply

theorem fetch_named_iff {files : CasFiles H} (named : Named files) (sid : H) (reply : Option Bytes) :
    Named (fetch_snapshot_by_id tools files sid reply) ↔
      ∀ snap, fetched_snapshot tools files sid reply = some snap →
        snap.entries = [] ∨ Collide H (indented_bytes snap) (canonical_env_bytes tools snap) := by
  unfold fetch_snapshot_by_id
  cases fetched : fetched_snapshot tools files sid reply with
  | none => exact iff_of_true named fun snap got => absurd got (Option.some_ne_none snap).symm
  | some snap =>
    have id := fetched_snapshot_id tools fetched
    have only : (∀ other, some snap = some other →
          other.entries = [] ∨ Collide H (indented_bytes other) (canonical_env_bytes tools other)) ↔
        snap.entries = [] ∨ Collide H (indented_bytes snap) (canonical_env_bytes tools snap) := by
      simp only [Option.some.injEq,forall_eq']
    rw [only,named.set_iff,← indented_bytes_iff tools,← same_digest_iff]
    exact Eq.congr_right id.symm

theorem step_named_iff {files : CasFiles H} (named : Named files) (write : CasWrite H) :
    Named (step tools files write) ↔ Fits tools files write := by
  cases write with
  | publish content =>
    exact iff_of_true ((named.guarded_iff _ _).mpr (Or.inr rfl)) trivial
  | publish_reread hashed copied =>
    exact (named.guarded_iff _ _).trans (or_congr_right (same_digest_iff copied hashed))
  | download h received =>
    refine iff_of_true ?_ trivial
    change Named ((download_object h received).elim files (files.set h))
    cases downloaded : download_object h received with
    | none => exact named
    | some content => exact (named.set_iff h content).mpr (download_object_digest downloaded)
  | materialize h received copied => exact materialize_named_iff named h received copied
  | write_object doc => exact write_object_named_iff named doc
  | store_snapshot snap => exact iff_of_true ((named.guarded_iff _ _).mpr (Or.inr rfl)) trivial
  | fetch_snapshot sid reply => exact fetch_named_iff tools named sid reply
  | unlink h => exact iff_of_true (named.erase h) trivial

/-! The registry's side. -/

/-- An upload of these bytes under this name gets through `store_object`, unless it is too large. -/
def Accepted (h : H) (content : Bytes) : Prop :=
  ∀ (config : ServerConfig) (tenant : Option Tenant) (policy : Registry H → Moment H) (r : Registry H),
    ((store_object config tenant h content).run (Registry.exec 0) policy r).1 =
      if (r.files.get? (tenant,h)).isNone ∧ config.max_upload_bytes > 0 ∧ content.length > config.max_upload_bytes
      then .error .too_large else .ok ()

/-- Every file is named by its digest, and so the registry takes each of them. -/
def Sound (files : CasFiles H) : Prop := Named files ∧ ∀ h b, files.get? h = some b → Accepted h b

theorem accepted_of_digest {h : H} {content : Bytes} (digest : sha256 content = h) : Accepted h content := by
  intro config tenant policy r
  have taken : ((r.files.get? (tenant,h)).map fun file => (file.content.length,file.mtime)).isSome =
      (r.files.get? (tenant,h)).isSome := Option.isSome_map
  unfold store_object
  change (Prog.run (Registry.exec 0) policy (if ((r.files.get? (tenant,h)).map fun file => (file.content.length,file.mtime)).isSome then _ else _) r).1 = _
  rw [taken]
  cases there : r.files.get? (tenant,h) with
  | some file => rfl
  | none =>
    simp only [Option.isSome_none,Bool.false_eq_true,if_false,Option.isNone_none,true_and]
    split
    · rfl
    · rw [if_neg (not_not_intro digest)]
      rfl

theorem sound_iff (files : CasFiles H) : Sound files ↔ Named files :=
  and_iff_left_of_imp fun named h b found => accepted_of_digest (named h b found)

/-- After every command of a sequence the store is sound exactly when every write of it fits. -/
theorem files_sound_iff (commands : List (ClientCommand H)) :
    Runs.Always (step tools) Sound ∅ (commands.flatMap ClientCommand.writes) ↔
      Runs.Every (step tools) (Fits tools) ∅ (commands.flatMap ClientCommand.writes) := by
  have always : Runs.Always (step tools) Sound ∅ (commands.flatMap ClientCommand.writes) ↔
      Runs.Always (step tools) Named ∅ (commands.flatMap ClientCommand.writes) :=
    forall_congr' fun before => forall_congr' fun after => imp_congr_right fun _ => sound_iff _
  rw [always]
  exact Runs.always_iff (I := fun _ => True) (G := Named) (fun _ _ _ => trivial)
    (fun _ write _ named => step_named_iff tools named write) trivial .empty _

/-! Staging. -/

omit [DecidableEq H] in
/-- Each part of the legacy passes has the digest of the range that was hashed. -/
theorem chunk_names {file : FileData} {results : List (Chunk H)} (cut : chunk_and_hash_file_core file {} = .ok results) :
    results.map Chunk.hash = results.map fun cr => sha256 (slice file.bytes cr.offset cr.size) := by
  have ok : (chunk_and_hash_file_core file {} : Except String (List (Chunk H))) = .ok (chunksOf 0 (file_pieces ⟨file,0⟩)) :=
    chunk_and_hash_file_core_ok file {} default_sizes_valid
  obtain rfl : chunksOf 0 (file_pieces ⟨file,0⟩) = results := Except.ok.inj (ok.symm.trans cut)
  have ranges := chunksOf_slices (H := H) [] [] (file_pieces ⟨file,0⟩)
  simp only [List.nil_append,List.append_nil,List.length_nil,file_pieces_flatten] at ranges
  have hashes (offset : Nat) (shards : List Bytes) : (chunksOf offset shards : List (Chunk H)).map Chunk.hash = shards.map sha256 := by
    induction shards generalizing offset with
    | nil => rfl
    | cons piece rest ih => rw [chunksOf,List.map_cons,ih,List.map_cons]
  calc (chunksOf 0 (file_pieces ⟨file,0⟩) : List (Chunk H)).map Chunk.hash
      = (file_pieces ⟨file,0⟩).map sha256 := hashes 0 _
    _ = ((chunksOf 0 (file_pieces ⟨file,0⟩) : List (Chunk H)).map fun cr => slice file.bytes cr.offset cr.size).map sha256 := by
        rw [ranges]
    _ = _ := List.map_map

omit [DecidableEq H] in
theorem layer_names {native : Native} {path : String} {file : FileData} {results : List (LayerResult H)}
    (cut : split_and_hash_safetensors_core native path file = .ok results) :
    results.map LayerResult.hash = results.map fun lr => sha256 (slice file.bytes lr.offset lr.size) := by
  have ranges := split_and_hash_safetensors_core_eq (H := H) native path file
  rw [cut] at ranges
  obtain ⟨layers,-,rfl⟩ := Option.map_eq_some_iff.mp ranges.symm
  rw [List.map_map,List.map_map]
  rfl

/-- A write that staging makes when every read of the file gives the same. -/
def Steady (write : CasWrite H) : Prop := ∃ content, write = .publish content ∨ write = .publish_reread content content

theorem Steady.fits {write : CasWrite H} (steady : Steady write) (files : CasFiles H) : Fits tools files write := by
  obtain ⟨content,rfl | rfl⟩ := steady
  · trivial
  · exact Or.inr (Or.inl rfl)

theorem published_steady (objects : Objects H) {write : CasWrite H} (member : write ∈ published objects) : Steady write := by
  obtain ⟨item,-,rfl⟩ := List.mem_map.mp member
  exact ⟨item.2,Or.inl rfl⟩

omit [DecidableEq H] [Hashing H] in
theorem reread_steady (file : FileData) (parts : List (Nat × Nat)) {write : CasWrite H}
    (member : write ∈ reread file (fun _ => file) parts) : Steady write := by
  obtain ⟨item,-,rfl⟩ := List.mem_map.mp member
  exact ⟨_,Or.inr rfl⟩

section Unchanged

variable (file : FileData) (env : StageEnv) (mtime_ns : Nat) (rel_path : Path) (attr_flags : List String)

theorem cut_layers_steady {write : CasWrite H}
    (member : write ∈ (cut_layers H env mtime_ns (fun _ => file) rel_path attr_flags).writes) : Steady write := by
  unfold cut_layers at member
  split at member
  · contradiction
  · split at member
    · dsimp only at member
      split at member
      · exact published_steady _ member
      · split at member
        · cases List.mem_append.mp member with
          | inl early => exact published_steady _ early
          | inr late => exact reread_steady file _ late
        · exact published_steady _ member
    · contradiction

theorem cut_chunks_steady {write : CasWrite H}
    (member : write ∈ (cut_chunks H env mtime_ns (fun _ => file) rel_path attr_flags).writes) : Steady write := by
  unfold cut_chunks at member
  split at member
  · dsimp only at member
    split at member
    · exact published_steady _ member
    · split at member
      · cases List.mem_append.mp member with
        | inl early => exact published_steady _ early
        | inr late => exact reread_steady file _ late
      · exact published_steady _ member
  · contradiction

theorem cut_chunks_hashed : (cut_chunks H env mtime_ns (fun _ => file) rel_path attr_flags).hashed.getD file = file := by
  have fused (s : Split H (Chunk H)) : (Cut.of_fused file s).hashed.getD file = file := by
    change (s.2.1.map fun _ => file).getD file = file
    cases s.2.1 <;> rfl
  unfold cut_chunks
  split
  · dsimp only
    split
    · exact fused _
    · split <;> exact fused _
  · rfl

/-- A file that nobody writes while it is staged is stored under its digest, whichever path staging takes. -/
theorem stage_writes_steady (size : Nat) (file_type : FileType) (existing_entry : Option (IndexEntry H)) {write : CasWrite H}
    (member : write ∈ stage_writes H env size mtime_ns (fun _ => file) rel_path file_type existing_entry attr_flags) :
    Steady write := by
  unfold stage_writes at member
  split at member
  · contradiction
  · split at member
    · dsimp only at member
      by_cases layered : (cut_layers H env mtime_ns (fun _ => file) rel_path attr_flags).split = true
      · simp only [layered,if_true,Bool.true_or,List.append_nil] at member
        exact cut_layers_steady file env mtime_ns rel_path attr_flags member
      · simp only [layered,Bool.false_eq_true,if_false,Bool.false_or] at member
        cases List.mem_append.mp member with
        | inl split =>
          cases List.mem_append.mp split with
          | inl layer => exact cut_layers_steady file env mtime_ns rel_path attr_flags layer
          | inr chunk => exact cut_chunks_steady file env mtime_ns rel_path attr_flags chunk
        | inr whole =>
          split at whole
          · contradiction
          · rw [cut_chunks_hashed] at whole
            exact ⟨file.bytes,Or.inr (List.mem_singleton.mp whole)⟩
    · exact ⟨file.bytes,Or.inl (List.mem_singleton.mp member)⟩

end Unchanged

end Named

/-! A signed document, and a snapshot that is fetched: neither keeps to its name. -/

section Misnamed

def signed_pack : Doc := Dict.ofList [("rules",.list []),("signature",.string "sig")]

def plain_tools : SnapshotTools where
  loads content := (JsonValue.loads (content.map fun b => Char.ofNat b.toNat)).elim .value_error .value
  equals n k := decide (n = Numeral.ofNat k)

def captured : Doc := Dict.ofList [("python",.string "3.12")]

theorem captured_loaded : plain_tools.loads (canonical_env_bytes plain_tools captured) = .value (.dict captured.entries) := by
  have text : (canonical_env_bytes plain_tools captured).map (fun b => Char.ofNat b.toNat) =
      JsonValue.text compact (.dict captured.entries) := by decide +kernel
  change (JsonValue.loads ((canonical_env_bytes plain_tools captured).map fun b => Char.ofNat b.toNat)).elim
    Improvers.Loaded.value_error Improvers.Loaded.value = _
  rw [text,JsonValue.loads_text]
  rfl

/-- A signed pack is stored under the digest of its unsigned text, and a snapshot that another clone captured under
the digest of its compact text. -/
theorem writers_misname :
    ¬Runs.Always (step plain_tools) Sound ∅ ([ClientCommand.single (.write_object signed_pack)].flatMap
        (ClientCommand.writes (H := Name))) ∧
      ¬Runs.Always (step plain_tools) Sound ∅ ([ClientCommand.single (.fetch_snapshot (env_snapshot_id plain_tools captured)
        (some (canonical_env_bytes plain_tools captured)))].flatMap (ClientCommand.writes (H := Name))) := by
  have apart {a b : Bytes} (collide : Collide Name a b) : False := collide.1 (Name.sha256_injective collide.2)
  constructor
  · intro always
    have fits := (files_sound_iff plain_tools _).mp always [] _ [] rfl
    cases fits with
    | inl taken => contradiction
    | inr unsigned =>
      cases unsigned with
      | inl unsigned => exact absurd unsigned (by decide)
      | inr collide => exact apart collide
  · intro always
    have every := (files_sound_iff plain_tools _).mp always
    have fits : Fits plain_tools ∅ (.fetch_snapshot (env_snapshot_id plain_tools captured : Name)
      (some (canonical_env_bytes plain_tools captured))) := every [] _ [] rfl
    cases fits (Dict.ofList captured.entries) (fetched_of_loaded plain_tools captured_loaded rfl) with
    | inl empty => contradiction
    | inr collide => exact apart collide

end Misnamed

end AetherVault.LocalObjects
