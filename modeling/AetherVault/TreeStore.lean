import AetherVault.Merkle

/-! What a push adds to the tree rows, and the round trip of a tree through them. -/
namespace AetherVault
open Lib Hashing
open Lib.Prog (call forEach foldEach leaf)
open Lib.Discipline (Meets)

variable {H : Type} [DecidableEq H]

/-! The invariant of the tree rows. -/

def listing (rows : List (DBTree H)) (tenant : Tenant) (h : H) : Listing H :=
  (rows.filter fun row => row.tenant_id == tenant && row.tree_hash == h).map fun row => (row.path_name,row.node)

def stored_dirs (rows : List (DBTree H)) : List (Listing H) := rows.map fun row => listing rows row.tenant_id row.tree_hash

variable [Hashing H] [TreeContent H]

/-- The rows of a directory are one listing that hashes to their key, with no name twice. -/
structure Merkle (rows : List (DBTree H)) : Prop where
  hashed : ∀ row ∈ rows, tree_hash (listing rows row.tenant_id row.tree_hash) = row.tree_hash
  distinct : ∀ row ∈ rows, ((listing rows row.tenant_id row.tree_hash).map Prod.fst).Nodup

def CollisionFree (dirs : List (Listing H)) : Prop := ∀ a ∈ dirs, ∀ b ∈ dirs, tree_hash a = tree_hash b → a = b

omit [Hashing H] [TreeContent H] in
theorem mem_listing {rows : List (DBTree H)} {tenant : Tenant} {h : H} {name : String} {node : TreeNode H} :
    (name,node) ∈ listing rows tenant h ↔ (⟨tenant,h,name,node⟩ : DBTree H) ∈ rows := by
  simp only [listing,List.mem_map,List.mem_filter,Bool.and_eq_true,beq_iff_eq,Prod.mk.injEq]
  constructor
  · rintro ⟨row,⟨member,rfl,rfl⟩,rfl,rfl⟩
    exact member
  · exact fun member => ⟨_,⟨member,rfl,rfl⟩,rfl,rfl⟩

omit [Hashing H] [TreeContent H] in
theorem mem_own_listing {rows : List (DBTree H)} {row : DBTree H} (member : row ∈ rows) :
    (row.path_name,row.node) ∈ listing rows row.tenant_id row.tree_hash := mem_listing.mpr member

/-- A directory whose hash is among the rows is there, and nothing else is under its hash. -/
theorem Merkle.stored {rows : List (DBTree H)} (merkle : Merkle rows) {dirs : List (Listing H)}
    (free : CollisionFree (stored_dirs rows ++ dirs)) {dir : Listing H} (member : dir ∈ dirs)
    (present : dir ≠ [] → ∃ row ∈ rows, row.tree_hash = tree_hash dir) : Stored rows dir := by
  have same {row : DBTree H} (inside : row ∈ rows) (under : row.tree_hash = tree_hash dir) :
      listing rows row.tenant_id row.tree_hash = dir :=
    free _ (List.mem_append_left _ (List.mem_map_of_mem inside)) _ (List.mem_append_right _ member)
      ((merkle.hashed row inside).trans under)
  intro name node
  constructor
  · rintro ⟨row,inside,under,rfl,rfl⟩
    rw [← same inside under]
    exact mem_own_listing inside
  · intro listed
    obtain ⟨row,inside,under⟩ := present (List.ne_nil_of_mem listed)
    rw [← same inside under] at listed
    exact ⟨_,mem_listing.mp listed,under,rfl,rfl⟩

theorem Merkle.deterministic {rows : List (DBTree H)} (merkle : Merkle rows) (free : CollisionFree (stored_dirs rows)) :
    Deterministic rows := by
  intro a left b right under name
  have same : listing rows a.tenant_id a.tree_hash = listing rows b.tenant_id b.tree_hash :=
    free _ (List.mem_map_of_mem left) _ (List.mem_map_of_mem right)
      ((merkle.hashed a left).trans (under.trans (merkle.hashed b right).symm))
  have at_a := mem_own_listing left
  rw [same,name] at at_a
  exact (Prod.mk.inj (List.inj_on_of_nodup_map (merkle.distinct b right) at_a (mem_own_listing right) rfl)).2

/-- A directory's rows, as the builder adds them. -/
def dir_rows (tenant : Tenant) (dir : Listing H) : List (DBTree H) :=
  dir.map fun entry => ⟨tenant,tree_hash dir,entry.1,entry.2⟩

theorem listing_dir_rows {rows : List (DBTree H)} {tenant : Tenant} {dir : Listing H} (other : Tenant) (h : H) :
    listing (rows ++ dir_rows tenant dir) other h =
      listing rows other h ++ if tenant = other ∧ tree_hash dir = h then dir else [] := by
  simp only [listing,dir_rows,List.filter_append,List.map_append,List.filter_map,List.map_map]
  congr 1
  split
  · rename_i same
    obtain ⟨rfl,rfl⟩ := same
    simp [Function.comp_def]
  · rename_i differ
    have none : (fun row => row.tenant_id == other && row.tree_hash == h) ∘
        (fun entry : String × TreeNode H => (⟨tenant,tree_hash dir,entry.1,entry.2⟩ : DBTree H)) = fun _ => false := by
      funext entry
      simpa using differ
    simp [none]

section Add

variable {rows : List (DBTree H)} {tenant : Tenant} {dir : Listing H}
  (fresh : ∀ row ∈ rows, row.tenant_id = tenant → row.tree_hash ≠ tree_hash dir)
include fresh

theorem listing_added {row : DBTree H} (member : row ∈ rows ++ dir_rows tenant dir) :
    (row ∈ rows ∧ listing (rows ++ dir_rows tenant dir) row.tenant_id row.tree_hash =
      listing rows row.tenant_id row.tree_hash) ∨
      row.tree_hash = tree_hash dir ∧ listing (rows ++ dir_rows tenant dir) row.tenant_id row.tree_hash = dir := by
  rw [listing_dir_rows]
  rcases List.mem_append.mp member with old | new
  · refine Or.inl ⟨old,?_⟩
    rw [if_neg fun same => fresh row old same.1.symm same.2.symm,List.append_nil]
  · obtain ⟨entry,-,rfl⟩ := List.mem_map.mp new
    have none : listing rows tenant (tree_hash dir) = [] := by
      simp only [listing,List.map_eq_nil_iff,List.filter_eq_nil_iff,Bool.and_eq_true,beq_iff_eq,not_and]
      exact fresh
    exact Or.inr ⟨rfl,by simp [none]⟩

theorem Merkle.add (merkle : Merkle rows) (distinct : (dir.map Prod.fst).Nodup) : Merkle (rows ++ dir_rows tenant dir) := by
  constructor
  · intro row member
    rcases listing_added fresh member with ⟨old,same⟩ | ⟨under,same⟩
    · rw [same,merkle.hashed row old]
    · rw [same,under]
  · intro row member
    rcases listing_added fresh member with ⟨old,same⟩ | ⟨-,same⟩
    · rw [same]
      exact merkle.distinct row old
    · rw [same]
      exact distinct

theorem stored_dirs_add {other : Listing H} (member : other ∈ stored_dirs (rows ++ dir_rows tenant dir)) :
    other ∈ stored_dirs rows ∨ other = dir := by
  obtain ⟨row,inside,rfl⟩ := List.mem_map.mp member
  rcases listing_added fresh inside with ⟨old,same⟩ | ⟨-,same⟩
  · rw [same]
    exact Or.inl (List.mem_map_of_mem old)
  · exact Or.inr same

end Add

/-! The builder on a registry that does not change meanwhile. -/

/-- What building a tree has added, and that all its directories are among the rows. -/
structure Grown (rows added : List (DBTree H)) (tenant : Tenant) (dirs : List (Listing H)) (later : List (DBTree H)) :
    Prop where
  merkle : Merkle (rows ++ added) → Merkle (rows ++ later)
  kept : added ⊆ later
  fresh : ∀ row ∈ later, row ∈ added ∨ ∀ other ∈ rows, other.tenant_id = row.tenant_id → other.tree_hash ≠ row.tree_hash
  origin : ∀ dir ∈ stored_dirs (rows ++ later), dir ∈ stored_dirs (rows ++ added) ∨ dir ∈ dirs
  present : ∀ dir ∈ dirs, dir ≠ [] → ∃ row ∈ rows ++ later, row.tree_hash = tree_hash dir

theorem Grown.refl (rows added : List (DBTree H)) (tenant : Tenant) : Grown rows added tenant [] added :=
  ⟨id,fun _ member => member,fun _ member => Or.inl member,fun _ member => Or.inl member,by simp⟩

theorem Grown.trans {rows a b c : List (DBTree H)} {tenant : Tenant} {first second : List (Listing H)}
    (one : Grown rows a tenant first b) (two : Grown rows b tenant second c) : Grown rows a tenant (first ++ second) c where
  merkle := two.merkle ∘ one.merkle
  kept := fun _ member => two.kept (one.kept member)
  fresh := fun row member => (two.fresh row member).elim (one.fresh row) Or.inr
  origin := by
    intro dir member
    rcases two.origin dir member with early | late
    · exact (one.origin dir early).imp id (List.mem_append_left _)
    · exact Or.inr (List.mem_append_right _ late)
  present := by
    intro dir member filled
    rcases List.mem_append.mp member with early | late
    · obtain ⟨row,inside,under⟩ := one.present dir early filled
      refine ⟨row,?_,under⟩
      rcases List.mem_append.mp inside with old | new
      · exact List.mem_append_left _ old
      · exact List.mem_append_right _ (two.kept new)
    · exact two.present dir late filled

/-- A turn of the builder's loop. -/
def build_node (build : Tree H → List (DBTree H) → Handler H (H × List (DBTree H)))
    (acc : Listing H × List (DBTree H)) (node : String × DirNode H) : Handler H (Listing H × List (DBTree H)) :=
  match node.2 with
  | .children tree => do
    let child ← build tree acc.2
    .pure (acc.1 ++ [(node.1,.child_tree_hash child.1)],child.2)
  | .info entry => .pure (acc.1 ++ [(node.1,.object_hash entry)],acc.2)

/-- The directory itself, once what is below it has been added. -/
def build_root (tenant : Tenant) (cas_tenant_id : Option Tenant) (built : Listing H × List (DBTree H)) :
    Handler H (H × List (DBTree H)) := do
  let root := tree_hash built.1
  let present ← if built.2.any (·.tree_hash == root) then .pure true else call (.tree_exists cas_tenant_id root)
  if present then .pure (root,built.2) else .pure (root,built.2 ++ dir_rows tenant built.1)

theorem build_merkle_tree_eq (tenant : Tenant) (cas_tenant_id : Option Tenant) (depth : Nat) (tree : Tree H)
    (added : List (DBTree H)) : build_merkle_tree tenant cas_tenant_id (depth + 1) tree added =
      (leaf (dir_nodes tree)).bind fun nodes =>
        (foldEach (build_node (build_merkle_tree tenant cas_tenant_id depth)) (sorted_nodes nodes) ([],added)).bind
          (build_root tenant cas_tenant_id) := rfl

section Build

variable {me : Nat} {r : Registry H} {tenant : Tenant} {cas_tenant_id : Option Tenant}
  (scope : cas_tenant_id.all (· == tenant) = true)
include scope

theorem build_root_grown {listing : Listing H} {added : List (DBTree H)} (distinct : (listing.map Prod.fst).Nodup) :
    (Registry.alone me anytime).Meets (build_root tenant cas_tenant_id (listing,added)) (fun done t => t = r ∧
      ∃ later, done = .ok (tree_hash listing,later) ∧ Grown r.trees added tenant [listing] later) r := by
  have found {row : DBTree H} (inside : row ∈ r.trees ++ added) (under : row.tree_hash = tree_hash listing) :
      Grown r.trees added tenant [listing] added :=
    ⟨id,fun _ member => member,fun _ member => Or.inl member,fun _ member => Or.inl member,fun dir member _ => by
      obtain rfl := List.mem_singleton.mp member
      exact ⟨row,inside,under⟩⟩
  have absent (fresh : ∀ row ∈ r.trees ++ added, row.tenant_id = tenant → row.tree_hash ≠ tree_hash listing) :
      Grown r.trees added tenant [listing] (added ++ dir_rows tenant listing) := by
    refine ⟨fun merkle => ?_,fun _ member => List.mem_append_left _ member,fun row member => ?_,fun dir member => ?_,
      fun dir member filled => ?_⟩
    · rw [← List.append_assoc]
      exact merkle.add fresh distinct
    · rcases List.mem_append.mp member with old | new
      · exact Or.inl old
      · obtain ⟨entry,-,rfl⟩ := List.mem_map.mp new
        exact Or.inr fun other inside => fresh other (List.mem_append_left _ inside)
    · rw [← List.append_assoc] at member
      exact (stored_dirs_add fresh member).imp id (by simp)
    · obtain rfl := List.mem_singleton.mp member
      obtain ⟨entry,rest,whole⟩ := List.exists_cons_of_ne_nil filled
      refine ⟨⟨tenant,tree_hash dir,entry.1,entry.2⟩,?_,rfl⟩
      simp [dir_rows,whole]
  unfold build_root
  by_cases mine : added.any (·.tree_hash == tree_hash listing) = true
  · simp only [mine,if_true]
    obtain ⟨row,inside,under⟩ := List.any_eq_true.mp mine
    exact ⟨rfl,added,rfl,found (List.mem_append_right _ inside) (by simpa using under)⟩
  · simp only [mine,Bool.false_eq_true,if_false]
    refine .bind (registry_call fun m _ => ?_)
    simp only [Registry.exec]
    by_cases there : r.tree_exists cas_tenant_id (tree_hash listing) = true
    · simp only [there,if_true]
      obtain ⟨row,inside,under⟩ := List.any_eq_true.mp there
      exact ⟨rfl,added,rfl,found (List.mem_append_left _ inside) (by simp at under; exact under.1)⟩
    · simp only [there,Bool.false_eq_true,if_false]
      refine ⟨rfl,_,rfl,absent fun row inside own under => ?_⟩
      rcases List.mem_append.mp inside with old | new
      · refine there (List.any_eq_true.mpr ⟨row,old,?_⟩)
        rw [own]
        simp [under,scope]
      · exact mine (List.any_eq_true.mpr ⟨row,new,by simp [under]⟩)

/-- The builder stores the directories of the tree, or the tree has no listing. -/
theorem build_grown {depth : Nat} {tree : Tree H} {added : List (DBTree H)} :
    (Registry.alone me anytime).Meets (build_merkle_tree tenant cas_tenant_id depth tree added) (fun done t => t = r ∧
      match done with
      | .ok (root,later) => ∃ listing, merkle_dir depth tree = .ok listing ∧ root = tree_hash listing ∧
          ∃ dirs, (∀ dir, dir ∈ dirs ↔ dir ∈ merkle_dirs depth tree) ∧ Grown r.trees added tenant dirs later
      | .error _ => ∀ listing, merkle_dir depth tree ≠ .ok listing) r := by
  induction depth generalizing tree added with
  | zero => exact ⟨rfl,fun listing => by simp [merkle_dir]⟩
  | succ depth ih =>
    rw [build_merkle_tree_eq]
    cases split : dir_nodes tree with
    | error e => exact ⟨rfl,fun listing => by simp [merkle_dir,split,Except.bind]⟩
    | ok nodes =>
      refine .bind (.bind (.foldEach (sorted_nodes nodes) ([],added) (J := fun rest acc t => t = r ∧
        ∃ before, sorted_nodes nodes = before ++ rest ∧ before.mapM (node_entry (merkle_dir depth)) = .ok acc.1 ∧
          ∃ dirs, (∀ dir, dir ∈ dirs ↔ ∃ node ∈ before, dir ∈ node.2.subtree.elim [] (merkle_dirs depth)) ∧
            Grown r.trees added tenant dirs acc.2) ?_ ?_ ?_))
      · exact ⟨rfl,[],rfl,rfl,[],by simp,.refl _ _ _⟩
      · rintro ⟨name,inside⟩ rest acc t ⟨rfl,before,whole,mapped,dirs,cover,grown⟩
        have extend {entry : String × TreeNode H} (made : node_entry (merkle_dir depth) (name,inside) = .ok entry) :
            (before ++ [(name,inside)]).mapM (node_entry (merkle_dir depth)) = .ok (acc.1 ++ [entry]) := by
          simp [List.mapM_append,mapped,made,bind,Except.bind,pure,Except.pure]
        cases inside with
        | info entry =>
          refine ⟨rfl,before ++ [(name,.info entry)],by simp [whole],extend rfl,dirs,fun dir => ?_,grown⟩
          simp [cover,DirNode.subtree]
        | children subtree =>
          refine .bind (ih.mono ?_)
          rintro result t ⟨rfl,reached⟩
          cases result with
          | error e =>
            refine ⟨rfl,fun listing made => ?_⟩
            rw [merkle_dir,split] at made
            obtain ⟨entry,-,at_node⟩ := (mapM_entries made).2.1 (name,.children subtree) (by simp [whole])
            cases below : merkle_dir depth subtree with
            | error e => simp [node_entry,below,Except.map] at at_node
            | ok inner => exact reached inner below
          | ok child =>
            obtain ⟨inner,made,root,more,deeper,later⟩ := reached
            refine ⟨rfl,before ++ [(name,.children subtree)],by simp [whole],?_,dirs ++ more,fun dir => ?_,grown.trans later⟩
            · rw [root]
              exact extend (by simp [node_entry,made,Except.map])
            · simp [cover,deeper,DirNode.subtree,or_and_right,exists_or]
      · rintro acc t ⟨rfl,before,whole,mapped,dirs,cover,grown⟩
        rw [List.append_nil] at whole
        subst before
        have made : merkle_dir (depth + 1) tree = .ok acc.1 := by simp [merkle_dir,split,Except.bind,mapped]
        refine (build_root_grown scope (listed mapped).distinct).mono ?_
        rintro result t ⟨rfl,later,rfl,rooted⟩
        refine ⟨rfl,acc.1,made,rfl,dirs ++ [acc.1],fun dir => ?_,grown.trans rooted⟩
        simp only [List.mem_append,cover,List.mem_singleton,merkle_dirs,made,split,Except.toOption,Option.toList_some,
          List.mem_flatMap]
        exact or_comm

end Build

/-! The depth the builder is started with is enough. -/

theorem le_foldl_max (ns : List Nat) (bound : Nat) : bound ≤ ns.foldl max bound ∧ ∀ n ∈ ns, n ≤ ns.foldl max bound := by
  induction ns generalizing bound with
  | nil => simp
  | cons n rest ih =>
    obtain ⟨start,each⟩ := ih (max bound n)
    refine ⟨by simp only [List.foldl_cons]; omega,fun other member => ?_⟩
    rcases List.mem_cons.mp member with rfl | inside
    · simp only [List.foldl_cons]
      omega
    · exact each other inside

omit [DecidableEq H] [Hashing H] [TreeContent H] in
theorem tree_depth_pos (tree : Tree H) : 0 < tree_depth tree := (le_foldl_max _ 1).1

omit [DecidableEq H] [Hashing H] [TreeContent H] in
theorem within_depth {tree : Tree H} (named : ∀ path, tree.contains path = true → path ≠ []) :
    Within (tree_depth tree) tree := by
  intro path held
  refine ⟨named path held,(le_foldl_max _ 1).2 _ (List.mem_map_of_mem ((tree.mem_keys path).mpr ?_))⟩
  exact (tree.contains_iff path).mp held

omit [DecidableEq H] [Hashing H] [TreeContent H] in
theorem tree_depth_same {tree other : Tree H} (same : ∀ path, other.get? path = tree.get? path) :
    tree_depth other = tree_depth tree := by
  have perm : other.keys.Perm tree.keys := (List.perm_ext_iff_of_nodup other.distinct tree.distinct).mpr fun path => by
    change path ∈ other.keys ↔ path ∈ tree.keys
    rw [Dict.mem_keys,Dict.mem_keys,same]
  exact (perm.map List.length).foldl_eq 1

/-! The round trip. -/

/-- Stored on a registry and read back, a tree is the same, and it has the same root
however its paths are ordered. -/
def RoundTrips (me : Nat) (config : ServerConfig) (tenant : Tenant) (r : Registry H) (tree : Tree H) : Prop :=
  ∀ policy, ∃ root created,
    (build_merkle_tree tenant (config.cas_isolation.cas_tenant_id tenant) (tree_depth tree) tree []).run
        (Registry.exec me) policy r = (.ok (root,created),r) ∧
      (∀ levels ≥ tree_depth tree, ∃ resolved, resolve_tree (r.trees ++ created) levels root = some resolved ∧
        ∀ path, resolved.get? path = tree.get? path) ∧
      ∀ other : Tree H, (∀ path, other.get? path = tree.get? path) → ∃ created',
        (build_merkle_tree tenant (config.cas_isolation.cas_tenant_id tenant) (tree_depth other) other []).run
          (Registry.exec me) policy r = (.ok (root,created'),r)

theorem resolve_built {r : Registry H} {tenant : Tenant} {depth : Nat} {tree : Tree H} {dirs : List (Listing H)}
    {created : List (DBTree H)} {listing : Listing H} (merkle : Merkle r.trees)
    (free : CollisionFree (stored_dirs r.trees ++ merkle_dirs depth tree)) (made : merkle_dir depth tree = .ok listing)
    (cover : ∀ dir, dir ∈ dirs ↔ dir ∈ merkle_dirs depth tree) (grown : Grown r.trees [] tenant dirs created)
    {levels : Nat} (enough : depth ≤ levels) :
    ∃ resolved, resolve_tree (r.trees ++ created) levels (tree_hash listing) = some resolved ∧
      ∀ path, resolved.get? path = kept depth tree path := by
  have later : Merkle (r.trees ++ created) := grown.merkle (by simpa using merkle)
  have source {dir : Listing H} (member : dir ∈ stored_dirs (r.trees ++ created)) :
      dir ∈ stored_dirs r.trees ++ merkle_dirs depth tree := by
    rcases grown.origin dir member with old | new
    · exact List.mem_append_left _ (by simpa using old)
    · exact List.mem_append_right _ ((cover dir).mp new)
  have free' : CollisionFree (stored_dirs (r.trees ++ created) ++ merkle_dirs depth tree) := by
    have widen {dir : Listing H} (member : dir ∈ stored_dirs (r.trees ++ created) ++ merkle_dirs depth tree) :
        dir ∈ stored_dirs r.trees ++ merkle_dirs depth tree :=
      (List.mem_append.mp member).elim source (List.mem_append_right _)
    exact fun a left b right => free a (widen left) b (widen right)
  have stored : ∀ dir ∈ merkle_dirs depth tree, Stored (r.trees ++ created) dir := fun dir member =>
    later.stored free' member (grown.present dir ((cover dir).mpr member))
  have deterministic : Deterministic (r.trees ++ created) := later.deterministic fun a left b right =>
    free' a (List.mem_append_left _ left) b (List.mem_append_left _ right)
  obtain ⟨resolved,ended,leads⟩ := resolve_tree_leads deterministic (levels_stored made stored) enough
  refine ⟨resolved,ended,fun path => Option.ext fun e => ?_⟩
  rw [leads,leads_iff_kept made stored]

theorem CasIsolation.cas_scope (cas_isolation : CasIsolation) (tenant : Tenant) :
    (cas_isolation.cas_tenant_id tenant).all (· == tenant) = true := by
  cases cas_isolation <;> simp [CasIsolation.cas_tenant_id]

theorem round_trips (me : Nat) (config : ServerConfig) (tenant : Tenant) (r : Registry H) (tree : Tree H)
    (merkle : Merkle r.trees) (named : ∀ path, tree.contains path = true → path ≠ [])
    (free : CollisionFree (stored_dirs r.trees ++ merkle_dirs (tree_depth tree) tree)) :
    RoundTrips me config tenant r tree ↔ PrefixFree tree := by
  have scope := config.cas_isolation.cas_scope tenant
  constructor
  · intro trips
    obtain ⟨root,created,ran,reads,-⟩ := trips fun _ => ⟨0,fun _ => false⟩
    have builds : (Registry.alone me anytime).Meets (build_merkle_tree tenant _ (tree_depth tree) tree []) _ r :=
      build_grown scope
    obtain ⟨-,reached⟩ := registry_run builds fun _ => ⟨0,fun _ => false⟩
    rw [ran] at reached
    obtain ⟨listing,made,rfl,dirs,cover,grown⟩ := reached
    obtain ⟨resolved,ended,same⟩ := reads _ le_rfl
    obtain ⟨again,ended',kept_same⟩ := resolve_built merkle free made cover grown le_rfl
    obtain rfl : resolved = again := by simpa [ended] using ended'
    intro p q one two before
    obtain ⟨a,at_p⟩ := (tree.contains_iff p).mp one
    obtain ⟨b,at_q⟩ := (tree.contains_iff q).mp two
    have kept_p : kept (tree_depth tree) tree p = some a := by rw [← kept_same,same,at_p]
    have kept_q : kept (tree_depth tree) tree q = some b := by rw [← kept_same,same,at_q]
    exact kept_prefix_free kept_p kept_q before
  · intro prefix_free policy
    have within := within_depth named
    obtain ⟨listing,made,-⟩ := merkle_dir_same prefix_free within (tree_depth_pos tree) fun _ => rfl
    have builds {other : Tree H} (made : merkle_dir (tree_depth other) other = .ok listing) :
        ∃ created dirs, (build_merkle_tree tenant (config.cas_isolation.cas_tenant_id tenant) (tree_depth other) other []).run
          (Registry.exec me) policy r = (.ok (tree_hash listing,created),r) ∧
          (∀ dir, dir ∈ dirs ↔ dir ∈ merkle_dirs (tree_depth other) other) ∧ Grown r.trees [] tenant dirs created := by
      have grows : (Registry.alone me anytime).Meets (build_merkle_tree tenant _ (tree_depth other) other []) _ r :=
        build_grown scope
      obtain ⟨unchanged,reached⟩ := registry_run grows policy
      cases done : ((build_merkle_tree tenant (config.cas_isolation.cas_tenant_id tenant) (tree_depth other) other []).run
          (Registry.exec me) policy r).1 with
      | error e =>
        rw [done] at reached
        exact absurd made (reached listing)
      | ok built =>
        rw [done] at reached
        obtain ⟨again,made',root,dirs,cover,grown⟩ := reached
        obtain rfl : listing = again := by simpa [made] using made'
        exact ⟨built.2,dirs,Prod.ext (done.trans (by rw [← root])) unchanged,cover,grown⟩
    obtain ⟨created,dirs,ran,cover,grown⟩ := builds made
    refine ⟨tree_hash listing,created,ran,fun levels enough => ?_,fun other same => ?_⟩
    · obtain ⟨resolved,ended,reads⟩ := resolve_built merkle free made cover grown enough
      exact ⟨resolved,ended,fun path => (reads path).trans (kept_eq prefix_free within path)⟩
    · obtain ⟨again,left,right⟩ := merkle_dir_same prefix_free within (tree_depth_pos tree) same
      obtain rfl : listing = again := by simpa [made] using left
      obtain ⟨created',-,ran',-⟩ := builds (tree_depth_same same ▸ right)
      exact ⟨created',ran'⟩

/-- A push that is accepted, and whose commit is served with the tree it came with. -/
def Served (me : Nat) (config : ServerConfig) (tenant : Tenant) (r : Registry H) (h : H) (data : CommitData H) : Prop :=
  ∀ policy, ∃ row later, (push_commit config tenant false h data).run (Registry.exec me) policy r = (.ok 201,later) ∧
    later.commits.get? h = some row ∧ ∀ levels ≥ tree_depth data.tree,
      ∃ resolved, resolve_tree later.trees levels row.root_tree_hash = some resolved ∧
        ∀ path, resolved.get? path = data.tree.get? path

omit [DecidableEq H] [Hashing H] [TreeContent H] in
theorem ServerError.status_code_error (e : ServerError) : e.status_code ≠ 201 := by cases e <;> decide

/-- A push is turned down and changes nothing, or stores the directories of its tree. -/
theorem push_stores (me : Nat) (config : ServerConfig) (tenant : Tenant) (rejected : Bool) (r : Registry H) (h : H)
    (data : CommitData H) : (Registry.alone me anytime).Meets (push_commit config tenant rejected h data) (fun done t =>
      (t = r ∧ done ≠ .ok 201 ∧ (r.commits.contains h = true ∨ rejected = true ∨ flat_tree data.tree = none ∨
        ∃ raw, flat_tree data.tree = some raw ∧ ∀ listing, merkle_dir (tree_depth raw) raw ≠ .ok listing)) ∨
      ∃ raw listing created dirs, flat_tree data.tree = some raw ∧ merkle_dir (tree_depth raw) raw = .ok listing ∧
        (∀ dir, dir ∈ dirs ↔ dir ∈ merkle_dirs (tree_depth raw) raw) ∧ Grown r.trees [] tenant dirs created ∧
        done = .ok 201 ∧ t = {r with
          trees := r.trees ++ created
          commits := r.commits.set h ⟨tenant,tree_hash listing⟩}) r := by
  refine registry_read (b := r.commits.contains h) (fun m => rfl) ?_
  by_cases there : r.commits.contains h = true
  · rw [if_pos there]
    exact Or.inl ⟨rfl,by simp,Or.inl there⟩
  · rw [if_neg there]
    by_cases refused : rejected = true
    · rw [if_pos refused]
      exact Or.inl ⟨rfl,by simp,Or.inr (Or.inl refused)⟩
    · rw [if_neg refused]
      cases flat : flat_tree data.tree with
      | none => exact Or.inl ⟨rfl,by simp,by simp⟩
      | some raw =>
        refine .attempt (.bind ((build_grown (config.cas_isolation.cas_scope tenant)).mono ?_))
        rintro done t ⟨rfl,built⟩
        cases done with
        | error e => exact Or.inl ⟨rfl,by simpa using e.status_code_error,Or.inr (Or.inr (Or.inr ⟨raw,rfl,built⟩))⟩
        | ok done =>
          obtain ⟨listing,made,root,dirs,cover,grown⟩ := built
          refine .bind (registry_call fun m _ => ?_)
          have free_keys : (done.2.any t.tree_key_taken) = false := by
            rw [List.any_eq_false]
            intro row member taken
            obtain ⟨other,inside,same⟩ := List.any_eq_true.mp taken
            rcases grown.fresh row member with none | apart
            · simp at none
            · simp only [Bool.and_eq_true,beq_iff_eq] at same
              exact apart other inside same.1.1 same.1.2
          have inserted : Registry.exec me _ m (.insert_commit done.2 h ⟨tenant,done.1⟩) t = (true,{t with
              trees := t.trees ++ done.2
              commits := t.commits.set h ⟨tenant,done.1⟩}) := by
            simp [Registry.exec,Registry.insert_commit,there,free_keys]
          rw [inserted]
          exact Or.inr ⟨raw,listing,done.2,dirs,rfl,made,cover,grown,rfl,by rw [root]⟩

theorem push_keeps_merkle (me : Nat) (config : ServerConfig) (tenant : Tenant) (rejected : Bool) (r : Registry H) (h : H)
    (data : CommitData H) (policy : Registry H → Moment H) (merkle : Merkle r.trees) :
    Merkle ((push_commit config tenant rejected h data).run (Registry.exec me) policy r).2.trees := by
  rcases registry_run (push_stores me config tenant rejected r h data) policy with ⟨same,-⟩ | ⟨raw,_,created,_,_,_,_,grown,_,same⟩
  · rw [same]
    exact merkle
  · rw [same]
    exact grown.merkle (by simpa using merkle)

omit [Hashing H] [TreeContent H] [DecidableEq H] in
/-- Where the tree is taken for one of the old shape, its `code` file is lost. -/
theorem flat_tree_cases {tree raw : Tree H} (flat : flat_tree tree = some raw) :
    tree_is_flat tree = true ∧ raw = tree ∨
      tree_is_flat tree = false ∧ tree.contains ["code"] = true ∧ raw.contains ["code"] = false ∧ PrefixFree raw ∧
        ∀ path, raw.contains path = true → path.length = 1 := by
  unfold flat_tree at flat
  by_cases shape : tree_is_flat tree = true
  · rw [if_pos shape] at flat
    exact Or.inl ⟨shape,(Option.some.inj flat).symm⟩
  · rw [if_neg shape] at flat
    obtain ⟨items,read,rfl⟩ := Option.map_eq_some_iff.mp flat
    unfold legacy_items at read
    split at read
    · contradiction
    · rename_i no_artifacts
      obtain rfl := Option.some.inj read
      have code : tree.contains ["code"] = true := by
        simpa [tree_is_flat,no_artifacts] using shape
      obtain ⟨entry,found⟩ := (tree.contains_iff _).mp code
      have short {path : Path} (held : (Dict.ofList ((legacy_code tree).map fun item =>
          (item.1,(⟨item.2,0,.code,[],[]⟩ : TreeEntry H)))).contains path = true) :
          path ∈ ([["hash"],["size"],["type"],["layers"],["chunks"]] : List Path) := by
        obtain ⟨e,at_path⟩ := (Dict.contains_iff _ _).mp held
        obtain ⟨item,member,same⟩ := List.mem_map.mp (Dict.get?_ofList at_path)
        rw [← (Prod.mk.inj same).1]
        simp only [legacy_code,found,List.mem_cons,List.not_mem_nil,or_false] at member
        rcases member with rfl | rfl | rfl | rfl | rfl <;> simp
      have single {path : Path} (inside : path ∈ ([["hash"],["size"],["type"],["layers"],["chunks"]] : List Path)) :
          path.length = 1 ∧ path ≠ ["code"] := by
        simp only [List.mem_cons,List.not_mem_nil,or_false] at inside
        rcases inside with rfl | rfl | rfl | rfl | rfl <;> decide
      refine Or.inr ⟨by simpa using shape,code,?_,?_,?_⟩
      · exact Bool.eq_false_iff.mpr fun held => (single (short held)).2 rfl
      · intro p q one two before
        exact before.eq_of_length ((single (short one)).1.trans (single (short two)).1.symm)
      · exact fun path held => (single (short held)).1

theorem served (me : Nat) (config : ServerConfig) (tenant : Tenant) (r : Registry H) (h : H) (data : CommitData H)
    (merkle : Merkle r.trees) (named : ∀ path, data.tree.contains path = true → path ≠ [])
    (fresh : r.commits.contains h = false)
    (free : ∀ raw, flat_tree data.tree = some raw →
      CollisionFree (stored_dirs r.trees ++ merkle_dirs (tree_depth raw) raw)) :
    Served me config tenant r h data ↔ PrefixFree data.tree ∧ tree_is_flat data.tree = true := by
  have outcome := registry_run (push_stores me config tenant false r h data)
  constructor
  · intro serves
    obtain ⟨row,later,ran,stored,reads⟩ := serves fun _ => ⟨0,fun _ => false⟩
    rcases outcome fun _ => ⟨0,fun _ => false⟩ with ⟨-,refused,-⟩ | ⟨raw,listing,created,dirs,flat,made,cover,grown,-,same⟩
    · exact absurd (congrArg Prod.fst ran) refused
    · rw [ran] at same
      subst same
      obtain rfl : ⟨tenant,tree_hash listing⟩ = row := by simpa using stored
      rcases flat_tree_cases flat with ⟨shape,rfl⟩ | ⟨-,code,lost,prefix_free,single⟩
      · refine ⟨fun p q one two before => ?_,shape⟩
        obtain ⟨resolved,ended,same⟩ := reads _ le_rfl
        obtain ⟨again,ended',kept_same⟩ := resolve_built merkle (free _ flat) made cover grown le_rfl
        obtain rfl : resolved = again := by simpa [ended] using ended'
        obtain ⟨a,at_p⟩ := (data.tree.contains_iff p).mp one
        obtain ⟨b,at_q⟩ := (data.tree.contains_iff q).mp two
        have kept_p : kept (tree_depth data.tree) data.tree p = some a := by rw [← kept_same,same,at_p]
        have kept_q : kept (tree_depth data.tree) data.tree q = some b := by rw [← kept_same,same,at_q]
        exact kept_prefix_free kept_p kept_q before
      · obtain ⟨resolved,ended,same⟩ := reads (max (tree_depth data.tree) (tree_depth raw)) (le_max_left _ _)
        obtain ⟨again,ended',kept_same⟩ := resolve_built merkle (free _ flat) made cover grown
          (le_max_right (tree_depth data.tree) (tree_depth raw))
        obtain rfl : resolved = again := by simpa [ended] using ended'
        have agree : data.tree.get? ["code"] = raw.get? ["code"] := by
          rw [← same,kept_same,kept_eq prefix_free (within_depth fun path held none => by simpa [none] using single path held)]
        simp [Dict.contains,agree] at code lost
        simp [lost] at code
  · rintro ⟨prefix_free,shape⟩ policy
    have flat : flat_tree data.tree = some data.tree := if_pos shape
    obtain ⟨listing,made,-⟩ := merkle_dir_same prefix_free (within_depth named) (tree_depth_pos data.tree) fun _ => rfl
    rcases outcome policy with ⟨-,-,why⟩ | ⟨raw,listing',created,dirs,flat',made',cover,grown,done,same⟩
    · exfalso
      rcases why with there | refused | none | ⟨raw,flat',unmade⟩
      · simp [fresh] at there
      · simp at refused
      · simp [flat] at none
      · obtain rfl : data.tree = raw := by simpa [flat] using flat'
        exact unmade listing made
    · obtain rfl : data.tree = raw := by simpa [flat] using flat'
      refine ⟨⟨tenant,tree_hash listing'⟩,_,Prod.ext done same,by simp,fun levels enough => ?_⟩
      obtain ⟨resolved,ended,reads⟩ := resolve_built merkle (free _ flat) made' cover grown enough
      exact ⟨resolved,ended,fun path => (reads path).trans (kept_eq prefix_free (within_depth named) path)⟩

theorem pushes_keep_merkle (me : Nat) (config : ServerConfig) (policy : Registry H → Moment H)
    (pushes : List (Tenant × Bool × H × CommitData H)) (r : Registry H) (merkle : Merkle r.trees) :
    Merkle (pushes.foldl (fun r push =>
      ((push_commit config push.1 push.2.1 push.2.2.1 push.2.2.2).run (Registry.exec me) policy r).2) r).trees := by
  induction pushes generalizing r with
  | nil => exact merkle
  | cons push rest ih => exact ih _ (push_keeps_merkle me config _ _ r _ _ policy merkle)

/-- On any registry with well-formed tree rows, in which the directories stored and
built do not collide: a tree comes back from the rows built for it exactly when no path
is a file and a directory too, and from a push when it also has no file `code` or
`artifacts` at its root. -/
theorem tree_round_trip (me : Nat) (config : ServerConfig) (tenant : Tenant) (r : Registry H) (h : H) (data : CommitData H)
    (merkle : Merkle r.trees) (named : ∀ path, data.tree.contains path = true → path ≠ [])
    (fresh : r.commits.contains h = false)
    (free : ∀ raw, raw = data.tree ∨ flat_tree data.tree = some raw →
      CollisionFree (stored_dirs r.trees ++ merkle_dirs (tree_depth raw) raw)) :
    (RoundTrips me config tenant r data.tree ↔ PrefixFree data.tree) ∧
      (Served me config tenant r h data ↔ PrefixFree data.tree ∧ tree_is_flat data.tree = true) :=
  ⟨round_trips me config tenant r data.tree merkle named (free _ (Or.inl rfl)),
    served me config tenant r h data merkle named fresh fun raw flat => free raw (Or.inr flat)⟩

def blank_entry : TreeEntry Name := ⟨.sha ⟨[]⟩,0,.code,[],[]⟩

def two_files : Tree Name := Dict.ofList [(["src","a.py"],blank_entry),(["b.py"],blank_entry)]

theorem tree_round_trip_two_files :
    RoundTrips 0 ⟨.shared,0,0⟩ "default" Registry.empty two_files ∧
      Served 0 ⟨.shared,0,0⟩ "default" Registry.empty (⟨[]⟩ : Name) ⟨[],"m",0,two_files⟩ := by
  have paths {path : Path} (held : two_files.contains path = true) : path = ["src","a.py"] ∨ path = ["b.py"] := by
    obtain ⟨e,found⟩ := (Dict.contains_iff _ _).mp held
    have member := Dict.get?_ofList found
    simp only [List.mem_cons,Prod.mk.injEq,List.not_mem_nil,or_false] at member
    exact member.imp And.left And.left
  have prefix_free : PrefixFree two_files := by
    intro p q one two before
    rcases paths one with rfl | rfl <;> rcases paths two with rfl | rfl <;> first | rfl | exact absurd before (by decide)
  have trips := tree_round_trip 0 ⟨.shared,0,0⟩ "default" Registry.empty (⟨[]⟩ : Name) ⟨[],"m",0,two_files⟩
    ⟨by simp [Registry.empty],by simp [Registry.empty]⟩ (fun path held => by rcases paths held with rfl | rfl <;> simp) rfl
    (fun raw which => by
      obtain rfl : raw = two_files := by
        rcases which with same | flat
        · exact same
        · exact (Option.some.inj flat).symm
      unfold CollisionFree
      decide)
  exact ⟨trips.1.mpr prefix_free,trips.2.mpr ⟨prefix_free,by decide⟩⟩

/-- What an index holds after `a/b` was staged, its directory replaced by a file and `a` staged. -/
def file_over_directory : Tree Name := Dict.ofList [(["a","b"],blank_entry),(["a"],blank_entry)]

/-- The tree is stored, and `a/b` is gone. -/
theorem directory_dropped :
    ¬RoundTrips 0 ⟨.shared,0,0⟩ "default" Registry.empty file_over_directory := by
  intro trips
  obtain ⟨root,created,ran,reads,-⟩ := trips fun _ => ⟨0,fun _ => false⟩
  obtain ⟨resolved,ended,same⟩ := reads 2 (by decide)
  have held : file_over_directory.get? ["a","b"] = some blank_entry := by decide
  have lost : ((build_merkle_tree "default" (CasIsolation.shared.cas_tenant_id "default") 2 file_over_directory []).run (Registry.exec 0)
      (fun _ => ⟨0,fun _ => false⟩) Registry.empty).1.toOption.all (fun built =>
        (resolve_tree built.2 2 built.1).all fun tree => tree.get? ["a","b"] == none) = true := by decide
  have depth : tree_depth file_over_directory = 2 := by decide
  rw [depth] at ran
  dsimp only at ran
  rw [ran] at lost
  simp only [Except.toOption,Option.all_some] at lost
  change resolve_tree created 2 root = some resolved at ended
  simp [ended,same,held] at lost

end AetherVault
