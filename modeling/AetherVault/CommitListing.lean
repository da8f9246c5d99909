import AetherVault.CommitRows

/-! What the listing serves in every ledger that pushes lead to: each commit with the
columns it was stored with and with what its directories kept of its tree. -/
namespace AetherVault
open Lib Hashing
open Lib.Discipline (Meets)

variable {H : Type} [DecidableEq H] [Hashing H] [TreeContent H] [HexDigest H]

/-- The directories of a tree are among the rows, under this root. -/
structure Built (space : Set (Listing H)) (rows : List (DBTree H)) (raw : Tree H) (root : H) : Prop where
  made : ∃ listing, merkle_dir (tree_depth raw) raw = .ok listing ∧ root = tree_hash listing
  inside : ∀ dir ∈ merkle_dirs (tree_depth raw) raw, dir ∈ space
  present : ∀ dir ∈ merkle_dirs (tree_depth raw) raw, dir ≠ [] → ∃ row ∈ rows, row.tree_hash = tree_hash dir

omit [HexDigest H] [DecidableEq H] in
theorem Built.grow {space : Set (Listing H)} {rows later : List (DBTree H)} {raw : Tree H} {root : H}
    (built : Built space rows raw root) (more : rows ⊆ later) : Built space later raw root where
  made := built.made
  inside := built.inside
  present := by
    intro dir member filled
    obtain ⟨row,held,under⟩ := built.present dir member filled
    exact ⟨row,more held,under⟩

namespace Ledger

/-- Every commit row has its columns and its directories. -/
structure Sound (space : Set (Listing H)) (l : Ledger H) : Prop where
  merkle : Merkle l.registry.trees
  inside : ∀ dir ∈ stored_dirs l.registry.trees, dir ∈ space
  built : ∀ h row, l.registry.commits.get? h = some row → ∃ raw, Built space l.registry.trees raw row.root_tree_hash
  columns : ∀ h, l.columns.contains h = l.registry.commits.contains h

omit [HexDigest H] in
theorem sound_empty (space : Set (Listing H)) : Sound space (empty : Ledger H) where
  merkle := ⟨by simp [empty,Registry.empty],by simp [empty,Registry.empty]⟩
  inside := by simp [empty,Registry.empty,stored_dirs]
  built := by simp [empty,Registry.empty]
  columns := fun _ => rfl

/-- The commit's columns are stored, and its tree as the server read it. -/
def Records (space : Set (Listing H)) (l : Ledger H) (h : H) (columns : CommitColumns H) (raw : Tree H) : Prop :=
  l.columns.get? h = some columns ∧
    ∃ row, l.registry.commits.get? h = some row ∧ Built space l.registry.trees raw row.root_tree_hash

/-- The directories that a push builds. -/
def Push.Within (push : Push H) (space : Set (Listing H)) : Prop :=
  ∀ raw, flat_tree push.commit.payload.tree = some raw → ∀ dir ∈ merkle_dirs (tree_depth raw) raw, dir ∈ space

section Push

variable (config : ServerConfig) (limits : PushLimits) (me : Nat) (policy : Registry H → Moment H) {l : Ledger H}
  {push : Push H} {space : Set (Listing H)}

omit [HexDigest H] in
theorem push_known {tenant : Tenant} {rejected : Bool} {r : Registry H} {h : H} {data : CommitData H}
    (there : r.commits.contains h = true) :
    (AetherVault.push_commit config tenant rejected h data).run (Registry.exec me) policy r = (.ok 409,r) := by
  have meets : (Registry.alone me anytime).Meets (AetherVault.push_commit config tenant rejected h data)
      (fun done t => done = .ok 409 ∧ t = r) r := by
    refine registry_read (b := true) (fun m => Prod.ext there rfl) ?_
    exact ⟨rfl,rfl⟩
  obtain ⟨done,same⟩ := registry_run meets policy
  exact Prod.ext done same

variable (l push) in
/-- A push changes nothing, or stores a commit that was not there with its columns and directories. -/
theorem push_commit_cases :
    ((l.push_commit config limits me policy push).2 = l ∧ (l.push_commit config limits me policy push).1 ≠ .ok 201) ∨
    ∃ columns raw listing created dirs, commit_columns push.username push.now push.commit = .ok columns ∧
      l.registry.commits.contains push.commit.hash = false ∧
      flat_tree push.commit.payload.tree = some raw ∧ merkle_dir (tree_depth raw) raw = .ok listing ∧
      (∀ dir, dir ∈ dirs ↔ dir ∈ merkle_dirs (tree_depth raw) raw) ∧
      Grown l.registry.trees [] push.tenant dirs created ∧
      (l.push_commit config limits me policy push).1 = .ok 201 ∧
      (l.push_commit config limits me policy push).2 = ⟨{l.registry with
        trees := l.registry.trees ++ created
        commits := l.registry.commits.set push.commit.hash ⟨push.tenant,tree_hash listing⟩},
        l.columns.set push.commit.hash columns⟩ := by
  unfold push_commit
  cases stored : commit_columns push.username push.now push.commit with
  | error e =>
    left
    refine ⟨rfl,?_⟩
    dsimp only
    split_ifs <;> simp
  | ok columns =>
    dsimp only
    rcases registry_run (push_stores me config push.tenant (limits.reject push.commit.payload) l.registry push.commit.hash
      push.data) policy with ⟨same,refused,-⟩ | ⟨raw,listing,created,dirs,flat,made,cover,grown,done,same⟩
    · left
      refine ⟨?_,refused⟩
      rw [same,if_neg refused]
    · right
      refine ⟨columns,raw,listing,created,dirs,rfl,?_,flat,made,cover,grown,done,?_⟩
      · by_contra there
        rw [push_known config me policy (by simpa using there)] at done
        simp at done
      · rw [same,if_pos done]

theorem push_accepts {columns : CommitColumns H} {raw : Tree H} {listing : Listing H}
    (stored : commit_columns push.username push.now push.commit = .ok columns)
    (fresh : l.registry.commits.contains push.commit.hash = false) (allowed : limits.reject push.commit.payload = false)
    (flat : flat_tree push.commit.payload.tree = some raw) (made : merkle_dir (tree_depth raw) raw = .ok listing) :
    (l.push_commit config limits me policy push).1 = .ok 201 := by
  unfold push_commit
  rw [stored]
  dsimp only
  rcases registry_run (push_stores me config push.tenant (limits.reject push.commit.payload) l.registry push.commit.hash
    push.data) policy with ⟨-,-,there | refused | unread | ⟨other,flat',unmade⟩⟩ | ⟨_,_,_,_,_,_,_,_,done,-⟩
  · simp [fresh] at there
  · simp [allowed] at refused
  · exact absurd (flat.symm.trans unread) (by simp)
  · obtain rfl : raw = other := Option.some.inj (flat.symm.trans flat')
    exact absurd made (unmade listing)
  · exact done

variable (within : push.Within space)
include within

theorem Sound.pushed (sound : l.Sound space) : (l.push_commit config limits me policy push).2.Sound space ∧
    ∀ h columns raw, l.Records space h columns raw → (l.push_commit config limits me policy push).2.Records space h columns raw := by
  rcases push_commit_cases config limits me policy l push with
    ⟨same,-⟩ | ⟨columns,raw,listing,created,dirs,-,fresh,flat,made,cover,grown,-,same⟩
  · rw [same]
    exact ⟨sound,fun _ _ _ records => records⟩
  · rw [same]
    have more : l.registry.trees ⊆ l.registry.trees ++ created := List.subset_append_left _ _
    have mine : Built space (l.registry.trees ++ created) raw (tree_hash listing) :=
      ⟨⟨listing,made,rfl⟩,within raw flat,fun dir member => grown.present dir ((cover dir).mpr member)⟩
    refine ⟨⟨grown.merkle (by simpa using sound.merkle),fun dir member => ?_,fun h row found => ?_,fun h => ?_⟩,?_⟩
    · rcases grown.origin dir member with old | new
      · exact sound.inside dir (by simpa using old)
      · exact within raw flat dir ((cover dir).mp new)
    · dsimp only at found
      rw [Dict.get?_set] at found
      split at found
      · obtain rfl := Option.some.inj found
        exact ⟨raw,mine⟩
      · obtain ⟨other,built⟩ := sound.built h row found
        exact ⟨other,built.grow more⟩
    · have agree := sound.columns h
      simp only [Dict.contains,Dict.get?_set] at agree ⊢
      split
      · rfl
      · exact agree
    · intro h cols other records
      obtain ⟨found,row,held,built⟩ := records
      have differ : h ≠ push.commit.hash := by
        rintro rfl
        simp [Dict.contains,held] at fresh
      exact ⟨by rw [Dict.get?_set_other _ _ _ _ differ]; exact found,row,
        by rw [Dict.get?_set_other _ _ _ _ differ]; exact held,built.grow more⟩

theorem push_records (accepted : (l.push_commit config limits me policy push).1 = .ok 201) :
    ∃ columns raw, commit_columns push.username push.now push.commit = .ok columns ∧
      flat_tree push.commit.payload.tree = some raw ∧
      (l.push_commit config limits me policy push).2.Records space push.commit.hash columns raw := by
  rcases push_commit_cases config limits me policy l push with
    ⟨-,refused⟩ | ⟨columns,raw,listing,created,dirs,stored,-,flat,made,cover,grown,-,same⟩
  · contradiction
  · refine ⟨columns,raw,stored,flat,?_⟩
    rw [same]
    exact ⟨by simp,⟨push.tenant,tree_hash listing⟩,by simp,⟨listing,made,rfl⟩,within raw flat,
      fun dir member => grown.present dir ((cover dir).mpr member)⟩

end Push

omit [HexDigest H] in
theorem mem_page_of_records {space : Set (Listing H)} {l : Ledger H} {h : H} {columns : CommitColumns H} {raw : Tree H}
    [HexDigest H] (records : l.Records space h columns raw) :
    h ∈ (l.page ⟨l.columns.entries.length,0,none,none⟩).map Prod.fst := by
  have member : (h,columns) ∈ l.rows ⟨l.columns.entries.length,0,none,none⟩ := by
    apply (List.mem_insertionSort _).mpr
    simp [(l.columns.mem_entries h columns).mpr records.1]
  have whole : (l.rows ⟨l.columns.entries.length,0,none,none⟩).length ≤ l.columns.entries.length := by
    rw [rows,List.length_insertionSort]
    exact List.length_filter_le _ _
  have page : l.page ⟨l.columns.entries.length,0,none,none⟩ = l.rows ⟨l.columns.entries.length,0,none,none⟩ :=
    List.take_of_length_le whole
  exact List.mem_map.mpr ⟨_,page ▸ member,rfl⟩

def push_all (config : ServerConfig) (limits : PushLimits) (me : Nat) (policy : Registry H → Moment H) (l : Ledger H)
    (pushes : List (Push H)) : Ledger H :=
  pushes.foldl (fun l push => (l.push_commit config limits me policy push).2) l

theorem Sound.push_all (config : ServerConfig) (limits : PushLimits) (me : Nat) (policy : Registry H → Moment H)
    {space : Set (Listing H)} {pushes : List (Push H)} (within : ∀ push ∈ pushes, push.Within space) {l : Ledger H}
    (sound : l.Sound space) : (l.push_all config limits me policy pushes).Sound space ∧
      ∀ h columns raw, l.Records space h columns raw →
        (l.push_all config limits me policy pushes).Records space h columns raw := by
  induction pushes generalizing l with
  | nil => exact ⟨sound,fun _ _ _ records => records⟩
  | cons push rest ih =>
    obtain ⟨next,keeps⟩ := sound.pushed config limits me policy (within push (by simp))
    obtain ⟨last,later⟩ := ih (fun other member => within other (List.mem_cons_of_mem _ member)) next
    exact ⟨last,fun h columns raw records => later h columns raw (keeps h columns raw records)⟩

end Ledger

/-! The page. -/

omit [Hashing H] [TreeContent H] [HexDigest H] [DecidableEq H] in
theorem Levels.more {rows : List (DBTree H)} {n m : Nat} {h : H} (levels : Levels rows n h) (more : n ≤ m) :
    Levels rows m h := by
  induction n generalizing m h with
  | zero => exact levels.elim
  | succ n ih =>
    obtain ⟨m,rfl⟩ : ∃ k, m = k + 1 := ⟨m - 1,by omega⟩
    exact fun row member under c below => ih (levels row member under c below) (by omega)

section Page

variable {space : Set (Listing H)} {l : Ledger H}

omit [HexDigest H] in
theorem Ledger.Sound.stored (sound : l.Sound space) (free : Set.InjOn tree_hash space) {raw : Tree H} {root : H}
    (built : Built space l.registry.trees raw root) :
    ∀ dir ∈ merkle_dirs (tree_depth raw) raw, Stored l.registry.trees dir := by
  intro dir member
  apply sound.merkle.stored _ member (built.present dir member)
  have among {dir : Listing H} (inside : dir ∈ stored_dirs l.registry.trees ++ merkle_dirs (tree_depth raw) raw) : dir ∈ space :=
    (List.mem_append.mp inside).elim (sound.inside dir) (built.inside dir)
  exact fun a left b right same => free (among left) (among right) same

omit [HexDigest H] in
theorem Ledger.Sound.deterministic (sound : l.Sound space) (free : Set.InjOn tree_hash space) :
    Deterministic l.registry.trees :=
  sound.merkle.deterministic fun a left b right same => free (sound.inside a left) (sound.inside b right) same

omit [HexDigest H] in
/-- Enough levels for every root of a list of commits. -/
theorem Ledger.Sound.levels (sound : l.Sound space) (free : Set.InjOn tree_hash space) (commits : List H) :
    ∃ n, ∀ root ∈ commits.filterMap l.root, Levels l.registry.trees n root := by
  induction commits with
  | nil => exact ⟨0,by simp⟩
  | cons h rest ih =>
    obtain ⟨n,deep⟩ := ih
    cases found : l.registry.commits.get? h with
    | none => exact ⟨n,by simpa [Ledger.root,found] using deep⟩
    | some row =>
      obtain ⟨raw,built⟩ := sound.built h row found
      obtain ⟨listing,made,root⟩ := built.made
      have mine : Levels l.registry.trees (tree_depth raw) row.root_tree_hash := by
        rw [root]
        exact levels_stored made (sound.stored free built)
      refine ⟨max n (tree_depth raw),fun root member => ?_⟩
      rw [List.filterMap_cons_some (b := row.root_tree_hash) (by simp [Ledger.root,found])] at member
      rcases List.mem_cons.mp member with rfl | inside
      · exact mine.more (le_max_right _ _)
      · exact (deep root inside).more (le_max_left _ _)

/-- With enough levels a page comes back, and in it every recorded commit with its
columns and with what is kept of its tree. -/
theorem Ledger.Sound.listed (sound : l.Sound space) (free : Set.InjOn tree_hash space) (q : Ledger.Query) :
    ∃ enough, ∀ levels ≥ enough, ∃ page, l.list_commits levels q = some page ∧
      (∀ row ∈ page.1, ∃ item ∈ l.rows q, row.get? "hash" = some (hash_json item.1)) ∧
      (∀ item ∈ l.page q, ∃ row ∈ page.1, row.get? "hash" = some (hash_json item.1)) ∧
      ∀ h columns raw, l.Records space h columns raw → ∀ row ∈ page.1, row.get? "hash" = some (hash_json h) →
        ∃ tree, row = (commit_dict h columns (l.root h)).set "tree" (tree_json tree) ∧
          ∀ path, tree.get? path = kept (tree_depth raw) raw path := by
  obtain ⟨n,deep⟩ := sound.levels free ((l.page q).map Prod.fst)
  refine ⟨n,fun levels enough => ?_⟩
  rw [List.filterMap_map] at deep
  obtain ⟨results,resolved,each⟩ := resolve_trees_leads (sound.deterministic free) _ deep enough
  have ran : l.list_commits levels q = some ((l.page q).map (l.row_dict results),
      if q.offset + q.limit < (l.rows q).length then some (q.offset + q.limit) else none) := by
    unfold Ledger.list_commits
    rw [show (fun row : H × CommitColumns H => l.root row.1) = l.root ∘ Prod.fst from rfl,resolved]
    rfl
  have hash_of (item : H × CommitColumns H) : (l.row_dict results item).get? "hash" = some (hash_json item.1) := by
    simp [Ledger.row_dict,commit_dict,Dict.ofList,Dict.get?_set]
  have in_rows {item : H × CommitColumns H} (member : item ∈ l.page q) : item ∈ l.rows q :=
    List.mem_of_mem_drop (List.mem_of_mem_take member)
  refine ⟨_,ran,fun row member => ?_,fun item member => ?_,fun h columns raw records row member at_hash => ?_⟩
  · obtain ⟨item,inside,rfl⟩ := List.mem_map.mp member
    exact ⟨item,in_rows inside,hash_of item⟩
  · exact ⟨_,List.mem_map_of_mem member,hash_of item⟩
  · obtain ⟨item,inside,rfl⟩ := List.mem_map.mp member
    rw [hash_of] at at_hash
    have same : item.1 = h := HexDigest.injective (JsonValue.string.inj (Option.some.inj at_hash))
    obtain ⟨found,stored,held,built⟩ := records
    have listed : l.columns.get? item.1 = some item.2 := by
      have sorted := (List.mem_insertionSort _).mp (in_rows inside)
      exact (l.columns.mem_entries _ _).mp (List.mem_filter.mp sorted).1
    obtain ⟨g,columns'⟩ := item
    obtain rfl : g = h := same
    obtain rfl : columns' = columns := Option.some.inj (listed.symm.trans found)
    have root : l.root g = some stored.root_tree_hash := by simp [Ledger.root,held]
    obtain ⟨tree,at_root,leads⟩ := each stored.root_tree_hash (List.mem_filterMap.mpr ⟨_,inside,root⟩)
    refine ⟨tree,by simp [Ledger.row_dict,root,at_root],fun path => Option.ext fun e => ?_⟩
    obtain ⟨listing,made,is_root⟩ := built.made
    rw [leads,is_root]
    exact leads_iff_kept made (sound.stored free built) path e

end Page

end AetherVault
