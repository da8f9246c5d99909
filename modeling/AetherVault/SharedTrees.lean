import AetherVault.Marking
import AetherVault.TreeStore

/-! Trees that several tenants push: each is stored once, under whoever is first, and
still every row is reached from a commit through rows of the commit's own tenant. -/
namespace AetherVault
namespace SharedTrees
open Lib Hashing
open Lib.Prog (call forEach foldEach leaf)
open Lib.Discipline (Meets)

variable {H : Type}

/-! No directory below the root is empty. -/

theorem subtree_filled {tree : Tree H} {nodes : Dict String (DirNode H)} (split : dir_nodes tree = .ok nodes) :
    ∀ name sub, nodes.get? name = some (.children sub) → ∃ rest e, rest ≠ [] ∧ sub.get? rest = some e := by
  refine add_nodes_keep (I := fun nodes => ∀ name sub, nodes.get? name = some (.children sub) →
    ∃ rest e, rest ≠ [] ∧ sub.get? rest = some e) ?_ (fun name sub found => by simp at found) split
  intro item _ nodes next added filled
  rcases add_node_cases added with ⟨-,rfl⟩ | ⟨name,-,rfl⟩ | ⟨name,first,more,tree,-,-,rfl⟩
  · exact filled
  · intro other sub found
    rw [Dict.get?_set] at found
    split at found
    · simp at found
    · exact filled other sub found
  · intro other sub found
    rw [Dict.get?_set] at found
    split at found
    · obtain rfl : tree.set (first::more) item.2 = sub := by simpa using found
      exact ⟨first::more,item.2,by simp,by simp⟩
    · exact filled other sub found

theorem add_node_filled {nodes next : Dict String (DirNode H)} {item : Path × TreeEntry H}
    (added : add_node nodes item = .ok next) (named : item.1 ≠ [] ∨ ∃ name, nodes.contains name = true) :
    ∃ name, next.contains name = true := by
  rcases add_node_cases added with ⟨empty,rfl⟩ | ⟨name,-,rfl⟩ | ⟨name,first,more,tree,-,-,rfl⟩
  · exact named.resolve_left (by simp [empty])
  · exact ⟨name,by simp [Dict.contains]⟩
  · exact ⟨name,by simp [Dict.contains]⟩

theorem dir_nodes_filled {tree : Tree H} {nodes : Dict String (DirNode H)} (split : dir_nodes tree = .ok nodes)
    {path : Path} {e : TreeEntry H} (held : tree.get? path = some e) (named : path ≠ []) : ∃ name, nodes.contains name = true := by
  have fold : ∀ (items : List (Path × TreeEntry H)) (start : Dict String (DirNode H)),
      items.foldlM add_node start = .ok nodes → (path,e) ∈ items ∨ (∃ name, start.contains name = true) →
        ∃ name, nodes.contains name = true := by
    intro items
    induction items with
    | nil =>
      intro start folded filled
      obtain rfl : start = nodes := Except.ok.inj folded
      exact filled.resolve_left (by simp)
    | cons item rest ih =>
      intro start folded filled
      rw [List.foldlM_cons] at folded
      cases added : add_node start item with
      | error e => simp [added,bind,Except.bind] at folded
      | ok next =>
        rw [added] at folded
        apply ih next folded
        cases filled with
        | inl listed =>
          cases List.mem_cons.mp listed with
          | inl here => exact .inr (add_node_filled added (.inl (here ▸ named)))
          | inr later => exact .inl later
        | inr before => exact .inr (add_node_filled added (.inr before))
  exact fold tree.entries ∅ split (.inl ((tree.mem_entries _ _).mpr held))

variable [Hashing H] [TreeContent H]

theorem subdirectory_filled {depth : Nat} {tree sub : Tree H} {nodes : Dict String (DirNode H)} {name : String} {below : Listing H}
    (split : dir_nodes tree = .ok nodes) (found : nodes.get? name = some (.children sub))
    (made : merkle_dir depth sub = .ok below) : below ≠ [] := by
  obtain ⟨rest,e,named,held⟩ := subtree_filled split name sub found
  cases depth with
  | zero => simp [merkle_dir] at made
  | succ depth =>
    obtain ⟨inner,split',describes⟩ := merkle_dir_succ made
    obtain ⟨other,there⟩ := dir_nodes_filled split' held named
    obtain ⟨node,at_other⟩ := (inner.contains_iff other).mp there
    cases node with
    | info entry => exact List.ne_nil_of_mem ((describes.entry other entry).mpr at_other)
    | children deeper =>
      obtain ⟨listing,made'⟩ := describes.made other deeper at_other
      exact List.ne_nil_of_mem ((describes.child other _).mpr ⟨deeper,listing,at_other,made',rfl⟩)

/-! The directories of a tree hang together. -/

def Parent (dirs : List (Listing H)) (a b : Listing H) : Prop := b ∈ dirs ∧ ∃ name, (name,.child_tree_hash (tree_hash b)) ∈ a

structure Directories (dirs : List (Listing H)) (top : Listing H) : Prop where
  top_listed : top ∈ dirs
  rooted : ∀ dir ∈ dirs, Relation.ReflTransGen (Parent dirs) top dir
  below : ∀ dir ∈ dirs, ∀ name c, (name,.child_tree_hash c) ∈ dir → ∃ child ∈ dirs, child ≠ [] ∧ tree_hash child = c

theorem directories {depth : Nat} {tree : Tree H} {top : Listing H} (made : merkle_dir depth tree = .ok top) :
    Directories (merkle_dirs depth tree) top := by
  induction depth generalizing tree top with
  | zero => simp [merkle_dir] at made
  | succ depth ih =>
    obtain ⟨nodes,split,describes⟩ := merkle_dir_succ made
    have listed (dir : Listing H) (member : dir ∈ merkle_dirs (depth + 1) tree) :
        dir = top ∨ ∃ name sub below, nodes.get? name = some (.children sub) ∧ merkle_dir depth sub = .ok below ∧
          dir ∈ merkle_dirs depth sub := by
      rw [merkle_dirs,made,split] at member
      cases List.mem_append.mp member with
      | inl here => exact .inl (by simpa [Except.toOption] using here)
      | inr deeper =>
        obtain ⟨node,sorted,inside⟩ := List.mem_flatMap.mp deeper
        obtain ⟨name,inner⟩ := node
        cases inner with
        | info entry => simp [DirNode.subtree] at inside
        | children sub =>
          have found := mem_sorted_nodes.mp sorted
          obtain ⟨below,made'⟩ := describes.made name sub found
          exact .inr ⟨name,sub,below,found,made',inside⟩
    constructor
    · exact merkle_dirs_self made
    · intro dir member
      cases listed dir member with
      | inl here =>
        subst dir
        exact .refl
      | inr deeper =>
        obtain ⟨name,sub,below,found,made',inside⟩ := deeper
        have within : merkle_dirs depth sub ⊆ merkle_dirs (depth + 1) tree := merkle_dirs_below split found
        have first : Parent (merkle_dirs (depth + 1) tree) top below :=
          ⟨within (merkle_dirs_self made'),name,(describes.child name _).mpr ⟨sub,below,found,made',rfl⟩⟩
        exact .head first (Relation.ReflTransGen.mono (fun a b edge => ⟨within edge.1,edge.2⟩) _ _ ((ih made').rooted dir inside))
    · intro dir member other c child
      cases listed dir member with
      | inl here =>
        subst dir
        obtain ⟨sub,below,found,made',rfl⟩ := (describes.child other c).mp child
        exact ⟨below,merkle_dirs_below split found (merkle_dirs_self made'),subdirectory_filled split found made',rfl⟩
      | inr deeper =>
        obtain ⟨name,sub,below,found,made',inside⟩ := deeper
        obtain ⟨next,there,filled,same⟩ := (ih made').below dir inside other c child
        exact ⟨next,merkle_dirs_below split found there,filled,same⟩

variable [DecidableEq H]

/-! What a push is about to store. -/

/-- What building a tree adds, while the rows that are stored can become more. -/
structure Draft (trees added : List (DBTree H)) (tenant : Tenant) (dirs : List (Listing H)) (later : List (DBTree H)) : Prop where
  kept : added ⊆ later
  merkle : Merkle added → Merkle later
  owner : ∀ row ∈ later, row ∈ added ∨ row.tenant_id = tenant
  origin : ∀ dir ∈ stored_dirs later, dir ∈ stored_dirs added ∨ dir ∈ dirs
  present : ∀ dir ∈ dirs, dir ≠ [] → ∃ row ∈ trees ++ later, row.tree_hash = tree_hash dir

theorem Draft.nothing (trees added : List (DBTree H)) (tenant : Tenant) : Draft trees added tenant [] added :=
  ⟨fun _ member => member,id,fun _ member => .inl member,fun _ member => .inl member,by simp⟩

theorem Draft.grow {trees more added later : List (DBTree H)} {tenant : Tenant} {dirs : List (Listing H)} (grown : trees ⊆ more)
    (draft : Draft trees added tenant dirs later) : Draft more added tenant dirs later := by
  refine {draft with present := fun dir member filled => ?_}
  obtain ⟨row,inside,under⟩ := draft.present dir member filled
  cases List.mem_append.mp inside with
  | inl stored => exact ⟨row,List.mem_append_left _ (grown stored),under⟩
  | inr new => exact ⟨row,List.mem_append_right _ new,under⟩

theorem Draft.trans {trees a b c : List (DBTree H)} {tenant : Tenant} {first second : List (Listing H)}
    (one : Draft trees a tenant first b) (two : Draft trees b tenant second c) : Draft trees a tenant (first ++ second) c where
  kept := fun _ member => two.kept (one.kept member)
  merkle := two.merkle ∘ one.merkle
  owner := fun row member => (two.owner row member).elim (one.owner row) .inr
  origin := by
    intro dir member
    cases two.origin dir member with
    | inl early => exact (one.origin dir early).imp id (List.mem_append_left _)
    | inr late => exact .inr (List.mem_append_right _ late)
  present := by
    intro dir member filled
    cases List.mem_append.mp member with
    | inl early =>
      obtain ⟨row,inside,under⟩ := one.present dir early filled
      cases List.mem_append.mp inside with
      | inl stored => exact ⟨row,List.mem_append_left _ stored,under⟩
      | inr new => exact ⟨row,List.mem_append_right _ (two.kept new),under⟩
    | inr late => exact two.present dir late filled

theorem Draft.same {trees added later : List (DBTree H)} {tenant : Tenant} {dirs other : List (Listing H)}
    (draft : Draft trees added tenant dirs later) (same : ∀ dir, dir ∈ dirs ↔ dir ∈ other) :
    Draft trees added tenant other later where
  kept := draft.kept
  merkle := draft.merkle
  owner := draft.owner
  origin := fun dir member => (draft.origin dir member).imp id (same dir).mp
  present := fun dir member => draft.present dir ((same dir).mpr member)

/-- The rows of one push: what was not there of the directories of its tree. -/
def Planned (space : Set (Listing H)) (trees rows : List (DBTree H)) (commit : DBCommit H) : Prop :=
  ∃ dirs top, Directories dirs top ∧ (∀ dir ∈ dirs, dir ∈ space) ∧ commit.root_tree_hash = tree_hash top ∧
    Draft trees [] commit.tenant_id dirs rows

/-! What pushes keep. -/

/-- Reached from a commit through rows of the commit's tenant, who has rows of it too. -/
def InReach (r : Registry H) (h : H) : Prop :=
  ∃ key commit, r.commits.get? key = some commit ∧
    Search.Reach (child_hashes (own_rows r.trees commit.tenant_id)) commit.root_tree_hash h ∧
    ∃ row ∈ own_rows r.trees commit.tenant_id, row.tree_hash = h

structure Shared (space : Set (Listing H)) (r : Registry H) : Prop where
  merkle : Merkle r.trees
  known : ∀ dir ∈ stored_dirs r.trees, dir ∈ space
  closed : ∀ row ∈ r.trees, ∀ c ∈ row.node.children, ∃ child ∈ r.trees, child.tree_hash = c
  reached : ∀ row ∈ r.trees, InReach r row.tree_hash

section Keep

variable {space : Set (Listing H)} (free : Set.InjOn tree_hash space) {trees : List (DBTree H)} (merkle : Merkle trees)
  (known : ∀ dir ∈ stored_dirs trees, dir ∈ space)
include free merkle known

theorem own_listing {row : DBTree H} (member : row ∈ trees) {dir : Listing H} (inside : dir ∈ space)
    (under : row.tree_hash = tree_hash dir) : listing trees row.tenant_id row.tree_hash = dir :=
  free (known _ (List.mem_map_of_mem member)) inside ((merkle.hashed row member).trans under)

theorem entry_stored {row : DBTree H} (member : row ∈ trees) {dir : Listing H} (inside : dir ∈ space)
    (under : row.tree_hash = tree_hash dir) {name : String} {node : TreeNode H} (entry : (name,node) ∈ dir) :
    (⟨row.tenant_id,row.tree_hash,name,node⟩ : DBTree H) ∈ trees := by
  rw [← own_listing free merkle known member inside under] at entry
  exact mem_listing.mp entry

end Keep

omit [Hashing H] [TreeContent H] in
theorem listing_append (rows more : List (DBTree H)) (tenant : Tenant) (h : H) :
    listing (rows ++ more) tenant h = listing rows tenant h ++ listing more tenant h := by
  simp [listing]

omit [Hashing H] [TreeContent H] in
theorem listing_absent {rows : List (DBTree H)} {tenant : Tenant} {h : H}
    (absent : ∀ row ∈ rows, row.tenant_id = tenant → row.tree_hash ≠ h) : listing rows tenant h = [] := by
  simp only [listing,List.map_eq_nil_iff,List.filter_eq_nil_iff,Bool.and_eq_true,beq_iff_eq,not_and]
  exact absent

section Append

variable {rows more : List (DBTree H)}
  (apart : ∀ a ∈ rows, ∀ b ∈ more, a.tenant_id = b.tenant_id → a.tree_hash ≠ b.tree_hash)
include apart

omit [Hashing H] [TreeContent H] in
theorem listing_either {row : DBTree H} (member : row ∈ rows ++ more) :
    (row ∈ rows ∧ listing (rows ++ more) row.tenant_id row.tree_hash = listing rows row.tenant_id row.tree_hash) ∨
      row ∈ more ∧ listing (rows ++ more) row.tenant_id row.tree_hash = listing more row.tenant_id row.tree_hash := by
  rw [listing_append]
  cases List.mem_append.mp member with
  | inl old =>
    have none := listing_absent fun b inside owner same => apart row old b inside owner.symm same.symm
    exact .inl ⟨old,by rw [none,List.append_nil]⟩
  | inr new =>
    have none := listing_absent fun a inside owner same => apart a inside row new owner same
    exact .inr ⟨new,by rw [none,List.nil_append]⟩

theorem merkle_append (one : Merkle rows) (two : Merkle more) : Merkle (rows ++ more) := by
  constructor
  · intro row member
    rcases listing_either apart member with ⟨old,same⟩ | ⟨new,same⟩
    · rw [same,one.hashed row old]
    · rw [same,two.hashed row new]
  · intro row member
    rcases listing_either apart member with ⟨old,same⟩ | ⟨new,same⟩
    · rw [same]
      exact one.distinct row old
    · rw [same]
      exact two.distinct row new

omit [Hashing H] [TreeContent H] in
theorem stored_dirs_append {dir : Listing H} (member : dir ∈ stored_dirs (rows ++ more)) :
    dir ∈ stored_dirs rows ∨ dir ∈ stored_dirs more := by
  obtain ⟨row,inside,rfl⟩ := List.mem_map.mp member
  rcases listing_either apart inside with ⟨old,same⟩ | ⟨new,same⟩
  · rw [same]
    exact .inl (List.mem_map_of_mem old)
  · rw [same]
    exact .inr (List.mem_map_of_mem new)

end Append

/-- Down the tree, either a directory was stored before, and so is all that is below it, or
the new commit comes to it through the rows that are added. -/
theorem reached_below {space : Set (Listing H)} (free : Set.InjOn tree_hash space) {r : Registry H} (shared : Shared space r)
    {dirs : List (Listing H)} {top dir : Listing H} {tenant : Tenant} {rows : List (DBTree H)} (listed : Directories dirs top)
    (inside : ∀ dir ∈ dirs, dir ∈ space) (draft : Draft r.trees [] tenant dirs rows) (path : Relation.ReflTransGen (Parent dirs) top dir) :
    (∃ row ∈ r.trees, row.tree_hash = tree_hash dir) ∨
      Search.Reach (child_hashes (own_rows (r.trees ++ rows) tenant)) (tree_hash top) (tree_hash dir) := by
  have merkle : Merkle rows := draft.merkle ⟨by simp,by simp⟩
  have known : ∀ dir ∈ stored_dirs rows, dir ∈ space := fun dir member =>
    (draft.origin dir member).elim (fun none => by simp [stored_dirs] at none) (inside dir)
  induction path with
  | refl => exact .inr .refl
  | @tail a b before step ih =>
    obtain ⟨member,name,child⟩ := step
    have a_listed : a ∈ dirs := by
      cases before with
      | refl => exact listed.top_listed
      | tail _ edge => exact edge.1
    have below {row : DBTree H} (stored : row ∈ r.trees) (under : row.tree_hash = tree_hash a) :
        ∃ row ∈ r.trees, row.tree_hash = tree_hash b := by
      have entry := entry_stored free shared.merkle shared.known stored (inside a a_listed) under child
      exact shared.closed _ entry _ (by simp [TreeNode.children])
    cases ih with
    | inl stored =>
      obtain ⟨row,there,under⟩ := stored
      exact .inl (below there under)
    | inr reach =>
      obtain ⟨row,there,under⟩ := draft.present a a_listed (List.ne_nil_of_mem child)
      cases List.mem_append.mp there with
      | inl stored => exact .inl (below stored under)
      | inr new =>
        have owner : row.tenant_id = tenant := (draft.owner row new).resolve_left (by simp)
        have entry := entry_stored free merkle known new (inside a a_listed) under child
        have edge : tree_hash b ∈ child_hashes (own_rows (r.trees ++ rows) tenant) (tree_hash a) :=
          mem_child_hashes.mpr ⟨_,mem_own_rows.mpr ⟨List.mem_append_right _ entry,owner⟩,under,by simp [TreeNode.children]⟩
        exact .inr (reach.tail edge)

theorem insert_keeps {space : Set (Listing H)} (free : Set.InjOn tree_hash space) {r : Registry H} {rows : List (DBTree H)}
    {h : H} {commit : DBCommit H} (shared : Shared space r) (planned : Planned space r.trees rows commit) :
    Shared space (r.insert_commit rows h commit).2 := by
  obtain ⟨dirs,top,listed,inside,root,draft⟩ := planned
  have merkle : Merkle rows := draft.merkle ⟨by simp,by simp⟩
  have from_tree : ∀ dir ∈ stored_dirs rows, dir ∈ dirs := fun dir member =>
    (draft.origin dir member).resolve_left (by simp [stored_dirs])
  have owner : ∀ row ∈ rows, row.tenant_id = commit.tenant_id := fun row member =>
    (draft.owner row member).resolve_left (by simp)
  unfold Registry.insert_commit
  split
  · exact shared
  · rename_i accepted
    simp only [Bool.or_eq_true,not_or,Bool.not_eq_true] at accepted
    obtain ⟨fresh,keys_free⟩ := accepted
    have apart : ∀ a ∈ r.trees, ∀ b ∈ rows, a.tenant_id = b.tenant_id → a.tree_hash ≠ b.tree_hash := by
      intro a stored b new same_owner same
      have in_space := inside _ (from_tree _ (List.mem_map_of_mem new))
      have under : a.tree_hash = tree_hash (listing rows b.tenant_id b.tree_hash) := same.trans (merkle.hashed b new).symm
      have twin := entry_stored free shared.merkle shared.known stored in_space under (mem_own_listing new)
      have taken : r.tree_key_taken b = true := by
        refine List.any_eq_true.mpr ⟨_,twin,?_⟩
        simp [same_owner,same]
      exact absurd taken (by simpa using List.any_eq_false.mp keys_free b new)
    have own_mono (tenant : Tenant) : own_rows r.trees tenant ⊆ own_rows (r.trees ++ rows) tenant := by
      intro row member
      obtain ⟨stored,mine⟩ := mem_own_rows.mp member
      exact mem_own_rows.mpr ⟨List.mem_append_left _ stored,mine⟩
    have still {g : H} (before : InReach r g) :
        InReach {r with
          trees := r.trees ++ rows
          commits := r.commits.set h commit} g := by
      obtain ⟨key,other,found,path,row,mine,under⟩ := before
      have differ : key ≠ h := by
        rintro rfl
        simp [Dict.contains,found] at fresh
      exact ⟨key,other,by rw [Dict.get?_set_other _ _ _ _ differ]; exact found,reach_mono (own_mono _) path,row,own_mono _ mine,under⟩
    constructor
    · exact merkle_append apart shared.merkle merkle
    · intro dir member
      cases stored_dirs_append apart member with
      | inl old => exact shared.known dir old
      | inr new => exact inside dir (from_tree dir new)
    · intro row member c child
      cases List.mem_append.mp member with
      | inl old =>
        obtain ⟨below,stored,same⟩ := shared.closed row old c child
        exact ⟨below,List.mem_append_left _ stored,same⟩
      | inr new =>
        have entry := mem_own_listing new
        cases node : row.node with
        | object_hash e => simp [node,TreeNode.children] at child
        | child_tree_hash c' =>
          obtain rfl : c = c' := by simpa [node,TreeNode.children] using child
          rw [node] at entry
          obtain ⟨next,there,filled,rfl⟩ := listed.below _ (from_tree _ (List.mem_map_of_mem new)) _ _ entry
          exact draft.present next there filled
    · intro row member
      cases List.mem_append.mp member with
      | inl old => exact still (shared.reached row old)
      | inr new =>
        have dir_listed := from_tree _ (List.mem_map_of_mem new)
        have hashed := merkle.hashed row new
        have down := reached_below free shared listed inside draft (listed.rooted _ dir_listed)
        rw [hashed] at down
        cases down with
        | inl stored =>
          obtain ⟨twin,there,same⟩ := stored
          exact still (same ▸ shared.reached twin there)
        | inr reach =>
          rw [← root] at reach
          exact ⟨h,commit,by simp,reach,row,mem_own_rows.mpr ⟨member,owner row new⟩,rfl⟩

/-! A push among others: the rows of the database only become more meanwhile. -/

def pushing (space : Set (Listing H)) (me : Nat) : Discipline (Query H) (Registry H) (Moment H) where
  exec := Registry.exec me
  may := anytime
  inv := Shared space
  rely := fun s t => s.trees ⊆ t.trees
  pre := fun _ _ q r => match q with
    | .select_commit _ | .tree_exists _ _ => True
    | .insert_commit rows _ commit => Planned space r.trees rows commit
    | _ => False

section Build

variable {space : Set (Listing H)} {me : Nat} {tenant : Tenant} {cas_tenant_id : Option Tenant} {r : Registry H}

theorem build_root_drafts {dir : Listing H} {added : List (DBTree H)} (distinct : (dir.map Prod.fst).Nodup) :
    (pushing space me).Meets (build_root tenant cas_tenant_id (dir,added)) (fun done t => r.trees ⊆ t.trees ∧
      ∃ later, done = .ok (tree_hash dir,later) ∧ Draft t.trees added tenant [dir] later) r := by
  have found {trees : List (DBTree H)} {row : DBTree H} (inside : row ∈ trees ++ added) (under : row.tree_hash = tree_hash dir) :
      Draft trees added tenant [dir] added := by
    refine ⟨fun _ member => member,id,fun _ member => .inl member,fun _ member => .inl member,fun other member _ => ?_⟩
    obtain rfl := List.mem_singleton.mp member
    exact ⟨row,inside,under⟩
  have absent (trees : List (DBTree H)) (fresh : ∀ row ∈ added, row.tenant_id = tenant → row.tree_hash ≠ tree_hash dir) :
      Draft trees added tenant [dir] (added ++ dir_rows tenant dir) := by
    refine ⟨fun _ member => List.mem_append_left _ member,fun merkle => merkle.add fresh distinct,fun row member => ?_,
      fun other member => (stored_dirs_add fresh member).imp id (by simp),fun other member filled => ?_⟩
    · cases List.mem_append.mp member with
      | inl old => exact .inl old
      | inr new =>
        obtain ⟨entry,-,rfl⟩ := List.mem_map.mp new
        exact .inr rfl
    · obtain rfl := List.mem_singleton.mp member
      obtain ⟨entry,rest,whole⟩ := List.exists_cons_of_ne_nil filled
      refine ⟨⟨tenant,tree_hash other,entry.1,entry.2⟩,?_,rfl⟩
      simp [dir_rows,whole]
  unfold build_root
  by_cases mine : added.any (·.tree_hash == tree_hash dir) = true
  · simp only [mine,if_true]
    obtain ⟨row,inside,under⟩ := List.any_eq_true.mp mine
    exact ⟨fun _ member => member,added,rfl,found (List.mem_append_right _ inside) (by simpa using under)⟩
  · simp only [mine,Bool.false_eq_true,if_false]
    refine .bind (.call fun m t grown _ _ => ⟨trivial,?_⟩)
    simp only [pushing,Registry.exec]
    by_cases there : t.tree_exists cas_tenant_id (tree_hash dir) = true
    · simp only [there,if_true]
      obtain ⟨row,inside,under⟩ := List.any_eq_true.mp there
      rw [Bool.and_eq_true,beq_iff_eq] at under
      exact ⟨grown,added,rfl,found (List.mem_append_left _ inside) under.1⟩
    · simp only [there,Bool.false_eq_true,if_false]
      refine ⟨grown,_,rfl,absent t.trees fun row inside _ under => ?_⟩
      exact mine (List.any_eq_true.mpr ⟨row,inside,by simp [under]⟩)

theorem build_drafts {depth : Nat} {tree : Tree H} {added : List (DBTree H)} :
    (pushing space me).Meets (build_merkle_tree tenant cas_tenant_id depth tree added) (fun done t => r.trees ⊆ t.trees ∧
      match done with
      | .ok (root,later) => ∃ top, merkle_dir depth tree = .ok top ∧ root = tree_hash top ∧
          Draft t.trees added tenant (merkle_dirs depth tree) later
      | .error _ => True) r := by
  induction depth generalizing tree added r with
  | zero => exact ⟨fun _ member => member,trivial⟩
  | succ depth ih =>
    rw [build_merkle_tree_eq]
    cases split : dir_nodes tree with
    | error e => exact ⟨fun _ member => member,trivial⟩
    | ok nodes =>
      refine .bind (.bind (.foldEach (sorted_nodes nodes) ([],added) (J := fun rest acc t => r.trees ⊆ t.trees ∧
        ∃ before, sorted_nodes nodes = before ++ rest ∧ before.mapM (node_entry (merkle_dir depth)) = .ok acc.1 ∧
          Draft t.trees added tenant (before.flatMap fun node => node.2.subtree.elim [] (merkle_dirs depth)) acc.2) ?_ ?_ ?_))
      · exact ⟨fun _ member => member,[],rfl,rfl,.nothing _ _ _⟩
      · rintro ⟨name,inside⟩ rest acc t ⟨grown,before,whole,mapped,draft⟩
        have extend {entry : String × TreeNode H} (made : node_entry (merkle_dir depth) (name,inside) = .ok entry) :
            (before ++ [(name,inside)]).mapM (node_entry (merkle_dir depth)) = .ok (acc.1 ++ [entry]) := by
          simp [List.mapM_append,mapped,made,bind,Except.bind,pure,Except.pure]
        cases inside with
        | info entry =>
          refine ⟨grown,before ++ [(name,.info entry)],by simp [whole],extend rfl,?_⟩
          simpa [DirNode.subtree] using draft
        | children subtree =>
          refine .bind (ih.mono ?_)
          rintro result u ⟨more,reached⟩
          cases result with
          | error e => exact ⟨List.Subset.trans grown more,trivial⟩
          | ok child =>
            obtain ⟨inner,made,root,later⟩ := reached
            refine ⟨List.Subset.trans grown more,before ++ [(name,.children subtree)],by simp [whole],?_,?_⟩
            · rw [root]
              exact extend (by simp [node_entry,made,Except.map])
            · simpa [DirNode.subtree] using (draft.grow more).trans later
      · rintro acc t ⟨grown,before,whole,mapped,draft⟩
        rw [List.append_nil] at whole
        subst before
        have made : merkle_dir (depth + 1) tree = .ok acc.1 := by simp [merkle_dir,split,Except.bind,mapped]
        refine (build_root_drafts (listed mapped).distinct).mono ?_
        rintro result u ⟨more,later,rfl,rooted⟩
        refine ⟨List.Subset.trans grown more,acc.1,made,rfl,((draft.grow more).trans rooted).same fun dir => ?_⟩
        simp only [merkle_dirs,made,split,Except.toOption,Option.toList_some,List.mem_append]
        exact or_comm

end Build

/-- The directories of the tree as the server reads it. -/
def Within (space : Set (Listing H)) (data : CommitData H) : Prop :=
  ∀ raw, flat_tree data.tree = some raw → ∀ dir ∈ merkle_dirs (tree_depth raw) raw, dir ∈ space

theorem push_plans {space : Set (Listing H)} {data : CommitData H} (within : Within space data) (me : Nat) (config : ServerConfig)
    (tenant : Tenant) (rejected : Bool) (h : H) (r : Registry H) :
    (pushing space me).Meets (push_commit config tenant rejected h data) (fun _ _ => True) r := by
  refine .bind (.call fun m s _ _ _ => ⟨trivial,?_⟩)
  dsimp only
  split
  · trivial
  · split
    · trivial
    · cases flat : flat_tree data.tree with
      | none => trivial
      | some raw =>
        refine .attempt (.bind (build_drafts.mono ?_))
        rintro done t ⟨-,built⟩
        cases done with
        | error e => trivial
        | ok done =>
          obtain ⟨top,made,root,draft⟩ := built
          refine .bind (.call fun m u grown _ _ => ⟨?_,?_⟩)
          · exact ⟨_,top,directories made,within raw flat,root,draft.grow grown⟩
          · dsimp only
            split
            · trivial
            · refine .bind (.call fun m v _ _ _ => ⟨trivial,?_⟩)
              dsimp only
              split <;> trivial

/-! Any number of pushes at once, each to its end or cut off. -/

def pushes (config : ServerConfig) (space : Set (Listing H)) (_ : Nat) (p : Handler H Unit) : Prop :=
  ∃ tenant rejected h data, Within space data ∧ p = do
    let _ ← push_commit config tenant rejected h data
    .pure ()

/-- What goes on besides: uploads, their filters, and time that passes. -/
def Aside (r t : Registry H) : Prop := t.trees = r.trees ∧ t.commits = r.commits

theorem Shared.aside {space : Set (Listing H)} {r t : Registry H} (shared : Shared space r) (aside : Aside r t) : Shared space t := by
  obtain ⟨trees,commits⟩ := aside
  constructor
  · rw [trees]
    exact shared.merkle
  · rw [trees]
    exact shared.known
  · rw [trees]
    exact shared.closed
  · intro row member
    unfold InReach
    rw [trees] at member ⊢
    rw [commits]
    exact shared.reached row member

theorem pushing_compatible {space : Set (Listing H)} (free : Set.InjOn tree_hash space) (config : ServerConfig) :
    Pool.Compatible (pushing space) (pushes config space) (fun _ r => r) Aside (Shared space) where
  shared := fun _ _ => Iff.rfl
  alone := fun _ _ _ member => member
  trans := fun _ _ _ _ first later => List.Subset.trans first later
  keeps := by
    intro i β m q r shared _ required
    cases q with
    | insert_commit rows h commit =>
      refine ⟨insert_keeps free shared required,fun _ _ => ?_⟩
      simp only [pushing,Registry.exec,Registry.insert_commit]
      split
      · exact fun _ member => member
      · exact fun _ member => List.mem_append_left _ member
    | select_commit h => exact ⟨shared,fun _ _ _ member => member⟩
    | tree_exists scope h => exact ⟨shared,fun _ _ _ member => member⟩
    | _ => exact absurd required id
  left := fun _ _ shared => ⟨shared,fun _ _ _ member => member⟩
  quiet := fun r t shared aside => ⟨shared.aside aside,fun _ _ member => aside.1 ▸ member⟩
  safe := by
    intro i p r launched _
    obtain ⟨tenant,rejected,h,data,within,rfl⟩ := launched
    refine .bind ((push_plans within i config tenant rejected h r).mono fun done t _ => ?_)
    cases done <;> trivial

/-! The mark phase on what they leave. -/

def commits_of (r : Registry H) : List (DBCommit H) := r.commits.entries.map Prod.snd

/-- Reached from some commit, whoever the rows belong to. -/
def Reachable (r : Registry H) (h : H) : Prop :=
  ∃ commit ∈ commits_of r, Search.Reach (child_hashes r.trees) commit.root_tree_hash h

omit [Hashing H] [TreeContent H] in
theorem Reachable.own {r : Registry H} {commit : DBCommit H} (member : commit ∈ commits_of r) {h : H}
    (path : Search.Reach (child_hashes (own_rows r.trees commit.tenant_id)) commit.root_tree_hash h) : Reachable r h :=
  ⟨commit,member,reach_mono (fun _ mine => (mem_own_rows.mp mine).1) path⟩

omit [Hashing H] [TreeContent H] in
theorem InReach.commit {r : Registry H} {h : H} (reached : InReach r h) : ∃ commit ∈ commits_of r,
    Search.Reach (child_hashes (own_rows r.trees commit.tenant_id)) commit.root_tree_hash h ∧
      ∃ row ∈ own_rows r.trees commit.tenant_id, row.tree_hash = h := by
  obtain ⟨key,commit,found,rest⟩ := reached
  exact ⟨commit,List.mem_map.mpr ⟨(key,commit),(Dict.mem_entries _ _ _).mpr found,rfl⟩,rest⟩

theorem visited_iff {space : Set (Listing H)} {r : Registry H} (shared : Shared space r) (h : H) :
    h ∈ visited_trees (mark_alive r.trees (commits_of r)) ↔ Reachable r h := by
  rw [mem_visited_trees]
  constructor
  · intro visited
    obtain ⟨commit,member,path⟩ := visited
    exact .own member path
  · intro reachable
    obtain ⟨commit,member,path⟩ := reachable
    cases path with
    | refl => exact ⟨commit,member,.refl⟩
    | tail before edge =>
      obtain ⟨row,stored,-,child⟩ := mem_child_hashes.mp edge
      obtain ⟨below,there,rfl⟩ := shared.closed row stored h child
      obtain ⟨other,listed,path,-⟩ := (shared.reached below there).commit
      exact ⟨other,listed,path⟩

theorem alive_iff {space : Set (Listing H)} (free : Set.InjOn tree_hash space) {r : Registry H} (shared : Shared space r) (o : H) :
    o ∈ alive_hashes (mark_alive r.trees (commits_of r)) ↔
      ∃ row ∈ r.trees, Reachable r row.tree_hash ∧ o ∈ row.node.objects := by
  rw [mem_alive_hashes]
  constructor
  · intro alive
    obtain ⟨commit,member,row,mine,path,object⟩ := alive
    exact ⟨row,(mem_own_rows.mp mine).1,.own member path,object⟩
  · intro reachable
    obtain ⟨row,stored,-,object⟩ := reachable
    obtain ⟨commit,member,path,other,mine,same⟩ := (shared.reached row stored).commit
    obtain ⟨there,owner⟩ := mem_own_rows.mp mine
    have in_space := shared.known _ (List.mem_map_of_mem stored)
    have twin := entry_stored free shared.merkle shared.known there in_space (same.trans (shared.merkle.hashed row stored).symm)
      (mem_own_listing stored)
    exact ⟨commit,member,_,mem_own_rows.mpr ⟨twin,owner⟩,same ▸ path,object⟩

/-- In every state that pushes of any tenants lead to, however their queries take turns:
the marks of all tenants together are what the commits reach over the rows of all. -/
theorem mark_alive_exact (config : ServerConfig) (space : Set (Listing H)) (free : Set.InjOn tree_hash space)
    (start later : Pool (Query H) ServerError Nat (Registry H)) (no_trees : start.state.trees = [])
    (no_programs : ∀ i, start.progs i = .pure ())
    (run : Relation.ReflTransGen (Pool.Step (pushing space) (pushes config space) (fun _ r => r) Aside) start later) (h o : H) :
    (h ∈ visited_trees (mark_alive later.state.trees (commits_of later.state)) ↔ Reachable later.state h) ∧
      (o ∈ alive_hashes (mark_alive later.state.trees (commits_of later.state)) ↔
        ∃ row ∈ later.state.trees, Reachable later.state row.tree_hash ∧ o ∈ row.node.objects) := by
  have empty : Shared space start.state := by
    constructor
    · rw [no_trees]
      exact ⟨by simp,by simp⟩
    · simp [no_trees,stored_dirs]
    · simp [no_trees]
    · simp [no_trees]
  have good : Pool.Good (pushing space) (Shared space) start := by
    refine ⟨empty,fun i => ?_⟩
    rw [no_programs]
    trivial
  obtain ⟨shared,-⟩ := good.run (pushing_compatible free config) run
  exact ⟨visited_iff shared h,alive_iff free shared o⟩

/-! Two tenants push one tree, which is stored for the first of them. -/

section Twice

def top_dir : Listing Name := [("b.py",.object_hash blank_entry),("src",.child_tree_hash (tree_hash [("a.py",.object_hash blank_entry)]))]

def two_dirs : Set (Listing Name) := {dir | dir ∈ merkle_dirs 2 two_files}

def push_two_files (tenant : Tenant) (h : Name) : Handler Name Unit := do
  let _ ← push_commit ⟨.shared,0,0⟩ tenant false h ⟨[],"m",0,two_files⟩
  .pure ()

def after_push (pool : Pool (Query Name) ServerError Nat (Registry Name)) (i : Nat) (tenant : Tenant) (h : Name) :
    Pool (Query Name) ServerError Nat (Registry Name) :=
  let ran := (push_two_files tenant h).run (Registry.exec i) (fun _ => ⟨0,fun _ => false⟩) pool.state
  ⟨ran.2,Function.update pool.progs i (Prog.leaf ran.1)⟩

def both_pushed : Pool (Query Name) ServerError Nat (Registry Name) :=
  after_push (after_push ⟨.empty,fun _ => .pure ()⟩ 0 "a" ⟨[1]⟩) 1 "b" ⟨[2]⟩

theorem after_push_reached (pool : Pool (Query Name) ServerError Nat (Registry Name)) (i : Nat) (tenant : Tenant) (h : Name)
    (idle : (pool.progs i).finished) : Relation.ReflTransGen
      (Pool.Step (pushing two_dirs) (pushes ⟨.shared,0,0⟩ two_dirs) (fun _ r => r) Aside) pool (after_push pool i tenant h) := by
  have launched : pushes ⟨.shared,0,0⟩ two_dirs i (push_two_files tenant h) := by
    refine ⟨tenant,false,h,⟨[],"m",0,two_files⟩,fun raw flat dir member => ?_,rfl⟩
    obtain rfl : two_files = raw := Option.some.inj flat
    exact member
  exact Pool.run_program (pushing two_dirs) (pushes ⟨.shared,0,0⟩ two_dirs) (fun _ r => r) Aside (fun _ => ⟨0,fun _ => false⟩)
    (fun _ _ _ => true) pool i (push_two_files tenant h) (fun _ _ _ _ => trivial) idle launched (Prog.checks_true _ _ _ _)

theorem mark_alive_exact_twice : both_pushed.state.trees.map DBTree.tenant_id = ["a","a","a"] ∧
    (⟨[]⟩ : Name) ∈ alive_hashes (mark_alive both_pushed.state.trees (commits_of both_pushed.state)) := by
  have free : Set.InjOn tree_hash two_dirs := by
    have apart : ∀ a ∈ merkle_dirs 2 two_files, ∀ b ∈ merkle_dirs 2 two_files, tree_hash a = tree_hash b → a = b := by decide
    exact fun a one b two => apart a one b two
  have run := (after_push_reached ⟨.empty,fun _ => .pure ()⟩ 0 "a" ⟨[1]⟩ trivial).trans
    (after_push_reached (after_push ⟨.empty,fun _ => .pure ()⟩ 0 "a" ⟨[1]⟩) 1 "b" ⟨[2]⟩ trivial)
  have exact_marks := mark_alive_exact ⟨.shared,0,0⟩ two_dirs free ⟨.empty,fun _ => .pure ()⟩ both_pushed rfl (fun _ => rfl) run
    ⟨[]⟩ ⟨[]⟩
  have commit : (⟨"b",tree_hash top_dir⟩ : DBCommit Name) ∈ commits_of both_pushed.state := by decide +kernel
  have row : (⟨"a",tree_hash top_dir,"b.py",.object_hash blank_entry⟩ : DBTree Name) ∈ both_pushed.state.trees := by decide +kernel
  exact ⟨by decide +kernel,exact_marks.2.mpr ⟨_,row,⟨_,commit,.refl⟩,by decide⟩⟩

end Twice

end SharedTrees
end AetherVault
