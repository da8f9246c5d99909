import AetherVault.TreeRows

/-! The Merkle builder: which trees survive it, and that what it stores reads back. -/
namespace AetherVault
open Lib Hashing
open Lib.Prog (call forEach foldEach leaf)
open Lib.Discipline (Meets)

abbrev Listing (H : Type) := List (String × TreeNode H)

variable {H : Type} [Hashing H] [TreeContent H]

/-! The builder without its database. -/

def node_entry (dir : Tree H → Except ServerError (Listing H)) (node : String × DirNode H) :
    Except ServerError (String × TreeNode H) :=
  match node.2 with
  | .info entry => .ok (node.1,.object_hash entry)
  | .children tree => (dir tree).map fun listing => (node.1,.child_tree_hash (tree_hash listing))

def merkle_dir : Nat → Tree H → Except ServerError (Listing H)
  | 0,_ => .error .recursion_error
  | depth+1,tree => (dir_nodes tree).bind fun nodes => (sorted_nodes nodes).mapM (node_entry (merkle_dir depth))

def DirNode.subtree : DirNode H → Option (Tree H)
  | .info _ => none
  | .children tree => some tree

/-- The directories below a tree, its own included. -/
def merkle_dirs : Nat → Tree H → List (Listing H)
  | 0,_ => []
  | depth+1,tree => (merkle_dir (depth + 1) tree).toOption.toList ++ match dir_nodes tree with
    | .error _ => []
    | .ok nodes => (sorted_nodes nodes).flatMap fun node => node.2.subtree.elim [] (merkle_dirs depth)

/-- What a tree's directories still hold: a file can have taken a directory's place. -/
def kept : Nat → Tree H → Path → Option (TreeEntry H)
  | 0,_,_ => none
  | _,_,[] => none
  | depth+1,tree,name::rest => match dir_nodes tree with
    | .error _ => none
    | .ok nodes => match nodes.get? name,rest with
      | some (.info entry),[] => some entry
      | some (.children tree),_::_ => kept depth tree rest
      | _,_ => none

/-- No path is a file in the tree and a directory too. -/
def PrefixFree (tree : Tree H) : Prop :=
  ∀ p q, tree.contains p = true → tree.contains q = true → p <+: q → p = q

/-! Directory nodes of a tree in which no file is in a directory's place. -/

/-- The nodes of a directory stand for the items below it. -/
structure Nodes (items : List (Path × TreeEntry H)) (nodes : Dict String (DirNode H)) : Prop where
  info : ∀ name entry, nodes.get? name = some (.info entry) ↔ ([name],entry) ∈ items
  below : ∀ name tree, nodes.get? name = some (.children tree) →
    ∀ rest entry, tree.get? rest = some entry ↔ rest ≠ [] ∧ (name::rest,entry) ∈ items
  dir : ∀ name rest entry, (name::rest,entry) ∈ items → rest ≠ [] → ∃ tree, nodes.get? name = some (.children tree)
  filled : ∀ name tree, nodes.get? name = some (.children tree) → ∃ rest entry, tree.get? rest = some entry

omit [Hashing H] [TreeContent H] in
theorem Nodes.add {items : List (Path × TreeEntry H)} {nodes : Dict String (DirNode H)} {item : Path × TreeEntry H}
    (so_far : Nodes items nodes) (named : item.1 ≠ [])
    (apart : ∀ other ∈ items, ¬other.1 <+: item.1 ∧ ¬item.1 <+: other.1) :
    ∃ next, add_node nodes item = .ok next ∧ Nodes (items ++ [item]) next := by
  obtain ⟨path,entry⟩ := item
  cases path with
  | nil => exact absurd rfl named
  | cons name rest =>
    cases rest with
    | nil =>
      refine ⟨nodes.set name (.info entry),rfl,?_,?_,?_,fun other tree found => ?_⟩
      · intro other e
        rw [Dict.get?_set]
        split
        · rename_i same
          subst other
          have fresh : ([name],e) ∉ items := fun member => (apart _ member).1 (List.prefix_refl _)
          simp [fresh,eq_comm]
        · rename_i differ
          simp [so_far.info,differ]
      · intro other tree found rest e
        rw [Dict.get?_set] at found
        split at found
        · simp at found
        · rename_i differ
          rw [so_far.below other tree found]
          simp [differ]
      · intro other rest e member deep
        rcases List.mem_append.mp member with early | last
        · have differ : other ≠ name := by
            rintro rfl
            exact (apart _ early).2 ⟨rest,rfl⟩
          rw [Dict.get?_set_other _ _ _ _ differ]
          exact so_far.dir other rest e early deep
        · simp only [List.mem_singleton,Prod.mk.injEq,List.cons.injEq] at last
          exact absurd last.1.2 deep
      · rw [Dict.get?_set] at found
        split at found
        · simp at found
        · exact so_far.filled other tree found
    | cons first more =>
      have no_file : ∀ e, nodes.get? name ≠ some (.info e) := fun e found =>
        (apart _ ((so_far.info name e).mp found)).1 ⟨first::more,rfl⟩
      have step (tree : Tree H) (before : ∀ rest e, tree.get? rest = some e ↔ rest ≠ [] ∧ (name::rest,e) ∈ items) :
          Nodes (items ++ [(name::first::more,entry)]) (nodes.set name (.children (tree.set (first::more) entry))) := by
        have fresh : ∀ e, (name::first::more,e) ∉ items := fun e member => (apart _ member).1 (List.prefix_refl _)
        refine ⟨?_,?_,?_,fun other found held => ?_⟩
        · intro other e
          rw [Dict.get?_set]
          split
          · rename_i same
            subst other
            have absent : ([name],e) ∉ items := fun member => no_file e ((so_far.info name e).mpr member)
            simp [absent]
          · rename_i differ
            simp [so_far.info]
        · intro other found held rest e
          rw [Dict.get?_set] at held
          split at held
          · rename_i same
            subst other
            obtain rfl : tree.set (first::more) entry = found := by simpa using held
            rw [Dict.get?_set]
            split
            · rename_i here
              subst rest
              simp [fresh e,eq_comm]
            · rename_i differ
              rw [before]
              simp [differ]
          · rename_i differ
            rw [so_far.below other found held]
            simp [differ]
        · intro other rest e member deep
          rw [Dict.get?_set]
          split
          · exact ⟨_,rfl⟩
          · rename_i differ
            rcases List.mem_append.mp member with early | last
            · exact so_far.dir other rest e early deep
            · simp only [List.mem_singleton,Prod.mk.injEq,List.cons.injEq] at last
              exact absurd last.1.1 differ
        · rw [Dict.get?_set] at held
          split at held
          · obtain rfl : tree.set (first::more) entry = found := by simpa using held
            exact ⟨first::more,entry,by simp⟩
          · exact so_far.filled other found held
      cases at_name : nodes.get? name with
      | none =>
        refine ⟨nodes.set name (.children (Dict.empty.set (first::more) entry)),by simp [add_node,at_name],step _ fun rest e => ?_⟩
        refine ⟨fun found => by simp at found,fun held => ?_⟩
        obtain ⟨tree,found⟩ := so_far.dir name rest e held.2 held.1
        simp [at_name] at found
      | some node =>
        cases node with
        | info e => exact absurd at_name (no_file e)
        | children tree =>
          exact ⟨nodes.set name (.children (tree.set (first::more) entry)),by simp [add_node,at_name],
            step tree (so_far.below name tree at_name)⟩

omit [Hashing H] [TreeContent H] in
theorem PrefixFree.nodes {tree : Tree H} (free : PrefixFree tree) (named : ∀ path, tree.contains path = true → path ≠ []) :
    ∃ nodes, dir_nodes tree = .ok nodes ∧ Nodes tree.entries nodes := by
  have fold : ∀ (rest before : List (Path × TreeEntry H)) (nodes : Dict String (DirNode H)),
      tree.entries = before ++ rest → Nodes before nodes →
      ∃ final, rest.foldlM add_node nodes = .ok final ∧ Nodes tree.entries final := by
    intro rest
    induction rest with
    | nil =>
      intro before nodes whole so_far
      exact ⟨nodes,rfl,by rwa [whole,List.append_nil]⟩
    | cons item rest ih =>
      intro before nodes whole so_far
      have held {other : Path × TreeEntry H} (member : other ∈ tree.entries) : tree.contains other.1 = true :=
        (tree.contains_iff other.1).mpr ⟨other.2,(tree.mem_entries _ _).mp member⟩
      have mine : item ∈ tree.entries := by simp [whole]
      have distinct := tree.distinct
      rw [whole,List.map_append,List.map_cons,List.nodup_append] at distinct
      obtain ⟨next,added,grown⟩ := so_far.add (named _ (held mine)) fun other member => by
        have differ : other.1 ≠ item.1 := distinct.2.2 _ (List.mem_map_of_mem member) _ (by simp)
        have inside : other ∈ tree.entries := by simp [whole,member]
        exact ⟨fun before => differ (free _ _ (held inside) (held mine) before),
          fun after => differ (free _ _ (held mine) (held inside) after).symm⟩
      obtain ⟨final,folded,describes⟩ := ih (before ++ [item]) next (by simp [whole]) grown
      exact ⟨final,by rw [List.foldlM_cons,added]; exact folded,describes⟩
  exact fold tree.entries [] ∅ rfl ⟨by simp,by simp,by simp,by simp⟩

omit [Hashing H] [TreeContent H] in
theorem kept_prefix_free {depth : Nat} {tree : Tree H} {p q : Path} {a b : TreeEntry H} (one : kept depth tree p = some a)
    (two : kept depth tree q = some b) (before : p <+: q) : p = q := by
  induction depth generalizing tree p q with
  | zero => simp [kept] at one
  | succ depth ih =>
    cases p with
    | nil => simp [kept] at one
    | cons name rest =>
      obtain ⟨tail,rfl⟩ := before
      rw [List.cons_append] at two ⊢
      simp only [kept] at one two
      cases split : dir_nodes tree with
      | error e => simp [split] at one
      | ok nodes =>
        rw [split] at one two
        dsimp only at one two
        cases at_name : nodes.get? name with
        | none => simp [at_name] at one
        | some node =>
          rw [at_name] at one two
          cases node with
          | info entry =>
            cases rest with
            | nil => cases tail with
              | nil => rfl
              | cons _ _ => simp at two
            | cons _ _ => simp at one
          | children tree =>
            cases rest with
            | nil => simp at one
            | cons first more =>
              dsimp only [List.cons_append] at one two
              exact congrArg (name::·) (ih one two ⟨tail,rfl⟩)

omit [Hashing H] [TreeContent H] in
/-- What an item does: nothing, put a file, or put an entry into the directory of its first name. -/
theorem add_node_cases {nodes next : Dict String (DirNode H)} {item : Path × TreeEntry H} (added : add_node nodes item = .ok next) :
    item.1 = [] ∧ next = nodes ∨
      (∃ name, item.1 = [name] ∧ next = nodes.set name (.info item.2)) ∨
      ∃ name first more tree, item.1 = name::first::more ∧
        (nodes.get? name = some (.children tree) ∨ nodes.get? name = none ∧ tree = ∅) ∧
        next = nodes.set name (.children (tree.set (first::more) item.2)) := by
  obtain ⟨path,entry⟩ := item
  cases path with
  | nil => exact .inl ⟨rfl,(Except.ok.inj added).symm⟩
  | cons name rest =>
    cases rest with
    | nil => exact .inr (.inl ⟨name,rfl,(Except.ok.inj added).symm⟩)
    | cons first more =>
      cases at_name : nodes.get? name with
      | none =>
        simp only [add_node,at_name] at added
        exact .inr (.inr ⟨name,first,more,∅,rfl,.inr ⟨at_name,rfl⟩,(Except.ok.inj added).symm⟩)
      | some node =>
        cases node with
        | info e => simp [add_node,at_name] at added
        | children tree =>
          simp only [add_node,at_name] at added
          exact .inr (.inr ⟨name,first,more,tree,rfl,.inl at_name,(Except.ok.inj added).symm⟩)

/-- Every node comes from an item. -/
def NodesFrom (items : List (Path × TreeEntry H)) (nodes : Dict String (DirNode H)) : Prop :=
  ∀ name node, nodes.get? name = some node → match node with
    | .info entry => ([name],entry) ∈ items
    | .children tree => ∀ rest entry, tree.get? rest = some entry → (name::rest,entry) ∈ items

omit [Hashing H] [TreeContent H] in
theorem NodesFrom.add {items : List (Path × TreeEntry H)} {nodes next : Dict String (DirNode H)}
    {item : Path × TreeEntry H} (so_far : NodesFrom items nodes) (member : item ∈ items)
    (added : add_node nodes item = .ok next) : NodesFrom items next := by
  have grow {name : String} {node : DirNode H} (mine : match node with
      | .info entry => ([name],entry) ∈ items
      | .children tree => ∀ rest entry, tree.get? rest = some entry → (name::rest,entry) ∈ items) :
      NodesFrom items (nodes.set name node) := by
    intro other found held
    rw [Dict.get?_set] at held
    split at held
    · rename_i same
      obtain rfl := Option.some.inj held
      subst other
      exact mine
    · exact so_far other found held
  obtain ⟨path,entry⟩ := item
  rcases add_node_cases added with ⟨-,rfl⟩ | ⟨name,rfl,rfl⟩ | ⟨name,first,more,tree,rfl,before,rfl⟩
  · exact so_far
  · exact grow member
  · apply grow
    intro rest e held
    rw [Dict.get?_set] at held
    split at held
    · rename_i same
      rw [same,← Option.some.inj held]
      exact member
    · cases before with
      | inl found => exact so_far name _ found rest e held
      | inr absent =>
        rw [absent.2] at held
        simp at held

omit [Hashing H] [TreeContent H] in
theorem add_nodes_keep {I : Dict String (DirNode H) → Prop} {items : List (Path × TreeEntry H)}
    (turn : ∀ item ∈ items, ∀ nodes next, add_node nodes item = .ok next → I nodes → I next)
    {start nodes : Dict String (DirNode H)} (holds : I start) (folded : items.foldlM add_node start = .ok nodes) : I nodes := by
  induction items generalizing start with
  | nil =>
    obtain rfl : start = nodes := Except.ok.inj folded
    exact holds
  | cons item rest ih =>
    rw [List.foldlM_cons] at folded
    cases added : add_node start item with
    | error e => simp [added,bind,Except.bind] at folded
    | ok next =>
      rw [added] at folded
      exact ih (fun other member => turn other (List.mem_cons_of_mem _ member)) (turn item (by simp) start next added holds) folded

omit [Hashing H] [TreeContent H] in
theorem dir_nodes_from {tree : Tree H} {nodes : Dict String (DirNode H)} (split : dir_nodes tree = .ok nodes) :
    NodesFrom tree.entries nodes :=
  add_nodes_keep (fun _ member _ _ added so_far => so_far.add member added) (fun name node found => by simp at found) split

omit [Hashing H] [TreeContent H] in
theorem kept_held {depth : Nat} {tree : Tree H} {path : Path} {e : TreeEntry H} (held : kept depth tree path = some e) :
    tree.get? path = some e := by
  induction depth generalizing tree path with
  | zero => simp [kept] at held
  | succ depth ih =>
    cases path with
    | nil => simp [kept] at held
    | cons name rest =>
      simp only [kept] at held
      cases split : dir_nodes tree with
      | error e => simp [split] at held
      | ok nodes =>
        rw [split] at held
        dsimp only at held
        have source := dir_nodes_from split
        cases at_name : nodes.get? name with
        | none => simp [at_name] at held
        | some node =>
          rw [at_name] at held
          cases node with
          | info entry =>
            cases rest with
            | nil =>
              obtain rfl : entry = e := by simpa using held
              exact (tree.mem_entries _ _).mp (source name _ at_name)
            | cons first more => simp at held
          | children subtree =>
            cases rest with
            | nil => simp at held
            | cons first more => exact (tree.mem_entries _ _).mp (source name _ at_name _ _ (ih held))

/-! A directory's sorted entries. -/

section Listing

variable {nodes : Dict String (DirNode H)}

omit [Hashing H] [TreeContent H] in
theorem mem_sorted_nodes {name : String} {node : DirNode H} :
    (name,node) ∈ sorted_nodes nodes ↔ nodes.get? name = some node := by
  rw [sorted_nodes,List.mem_insertionSort,Dict.mem_entries]

omit [Hashing H] [TreeContent H] in
theorem sorted_names : ((sorted_nodes nodes).map Prod.fst).Nodup ∧ ((sorted_nodes nodes).map Prod.fst).Pairwise (· ≤ ·) := by
  refine ⟨((List.perm_insertionSort _ _).map Prod.fst).nodup_iff.mpr nodes.distinct,?_⟩
  rw [List.pairwise_map]
  exact List.pairwise_insertionSort _ _

theorem mapM_listing {dir : Tree H → Except ServerError (Listing H)} {sorted : List (String × DirNode H)}
    (each : ∀ name tree, (name,.children tree) ∈ sorted → ∃ listing, dir tree = .ok listing) :
    ∃ listing, sorted.mapM (node_entry dir) = .ok listing := by
  induction sorted with
  | nil => exact ⟨[],rfl⟩
  | cons node rest ih =>
    obtain ⟨listing,tail⟩ := ih fun name tree member => each name tree (List.mem_cons_of_mem _ member)
    have head : ∃ entry, node_entry dir node = .ok entry := by
      obtain ⟨name,inside⟩ := node
      cases inside with
      | info entry => exact ⟨_,rfl⟩
      | children tree =>
        obtain ⟨below,made⟩ := each name tree (by simp)
        exact ⟨(name,.child_tree_hash (tree_hash below)),by simp [node_entry,made,Except.map]⟩
    obtain ⟨entry,made⟩ := head
    exact ⟨entry::listing,by rw [List.mapM_cons,made]; simp only [bind,Except.bind,tail]; rfl⟩

theorem mapM_entries {dir : Tree H → Except ServerError (Listing H)} {sorted : List (String × DirNode H)}
    {listing : Listing H} (made : sorted.mapM (node_entry dir) = .ok listing) :
    listing.map Prod.fst = sorted.map Prod.fst ∧
      (∀ node ∈ sorted, ∃ entry ∈ listing, node_entry dir node = .ok entry) ∧
      ∀ entry ∈ listing, ∃ node ∈ sorted, node_entry dir node = .ok entry := by
  induction sorted generalizing listing with
  | nil =>
    obtain rfl : [] = listing := by simpa [pure,Except.pure] using made
    simp
  | cons node rest ih =>
    rw [List.mapM_cons] at made
    cases head : node_entry dir node with
    | error e => simp [head,bind,Except.bind] at made
    | ok entry =>
      cases tail : rest.mapM (node_entry dir) with
      | error e => simp [head,tail,bind,Except.bind] at made
      | ok more =>
        obtain rfl : entry::more = listing := by simpa [head,tail,bind,Except.bind,pure,Except.pure] using made
        obtain ⟨names,forward,backward⟩ := ih tail
        have name : entry.1 = node.1 := by
          obtain ⟨key,inside⟩ := node
          cases inside with
          | info e => simp only [node_entry,Except.ok.injEq] at head; rw [← head]
          | children tree =>
            simp only [node_entry] at head
            cases below : dir tree with
            | error e => simp [below,Except.map] at head
            | ok l => simp only [below,Except.map,Except.ok.injEq] at head; rw [← head]
        refine ⟨by simp [names,name],?_,?_⟩
        · intro other member
          rcases List.mem_cons.mp member with rfl | inside
          · exact ⟨entry,by simp,head⟩
          · obtain ⟨found,at_listing,same⟩ := forward other inside
            exact ⟨found,List.mem_cons_of_mem _ at_listing,same⟩
        · intro other member
          rcases List.mem_cons.mp member with rfl | inside
          · exact ⟨node,by simp,head⟩
          · obtain ⟨found,at_sorted,same⟩ := backward other inside
            exact ⟨found,List.mem_cons_of_mem _ at_sorted,same⟩

end Listing

/-- What a directory's listing says of its nodes. -/
structure Listed (dir : Tree H → Except ServerError (Listing H)) (nodes : Dict String (DirNode H)) (listing : Listing H) :
    Prop where
  distinct : (listing.map Prod.fst).Nodup
  ordered : listing.Pairwise fun a b => a.1 ≤ b.1
  entry : ∀ name e, (name,.object_hash e) ∈ listing ↔ nodes.get? name = some (.info e)
  child : ∀ name c, (name,.child_tree_hash c) ∈ listing ↔
    ∃ tree below, nodes.get? name = some (.children tree) ∧ dir tree = .ok below ∧ c = tree_hash below
  made : ∀ name tree, nodes.get? name = some (.children tree) → ∃ below, dir tree = .ok below

theorem listed {dir : Tree H → Except ServerError (Listing H)} {nodes : Dict String (DirNode H)} {listing : Listing H}
    (made : (sorted_nodes nodes).mapM (node_entry dir) = .ok listing) : Listed dir nodes listing := by
  obtain ⟨names,forward,backward⟩ := mapM_entries made
  refine ⟨names ▸ sorted_names.1,?_,?_,?_,fun name tree found => ?_⟩
  · rw [← List.pairwise_map (f := Prod.fst) (R := (· ≤ ·)),names]
    exact sorted_names.2
  · intro name e
    constructor
    · intro member
      obtain ⟨node,at_sorted,same⟩ := backward _ member
      obtain ⟨key,inside⟩ := node
      cases inside with
      | info other =>
        obtain ⟨rfl,rfl⟩ : key = name ∧ other = e := by simpa [node_entry] using same
        exact mem_sorted_nodes.mp at_sorted
      | children tree =>
        simp only [node_entry] at same
        cases below : dir tree <;> simp [below,Except.map] at same
    · intro found
      obtain ⟨entry,member,same⟩ := forward _ (mem_sorted_nodes.mpr found)
      obtain rfl : (name,.object_hash e) = entry := by simpa [node_entry] using same
      exact member
  · intro name c
    constructor
    · intro member
      obtain ⟨node,at_sorted,same⟩ := backward _ member
      obtain ⟨key,inside⟩ := node
      cases inside with
      | info other => simp [node_entry] at same
      | children tree =>
        simp only [node_entry] at same
        cases below : dir tree with
        | error e => simp [below,Except.map] at same
        | ok l =>
          obtain ⟨rfl,rfl⟩ : key = name ∧ tree_hash l = c := by simpa [below,Except.map] using same
          exact ⟨tree,l,mem_sorted_nodes.mp at_sorted,below,rfl⟩
    · rintro ⟨tree,below,found,made,rfl⟩
      obtain ⟨entry,member,same⟩ := forward _ (mem_sorted_nodes.mpr found)
      obtain rfl : (name,.child_tree_hash (tree_hash below)) = entry := by simpa [node_entry,made,Except.map] using same
      exact member
  · obtain ⟨entry,-,same⟩ := forward _ (mem_sorted_nodes.mpr found)
    simp only [node_entry] at same
    cases below : dir tree with
    | error e => simp [below,Except.map] at same
    | ok l => exact ⟨l,rfl⟩

theorem merkle_dir_succ {depth : Nat} {tree : Tree H} {listing : Listing H} (made : merkle_dir (depth + 1) tree = .ok listing) :
    ∃ nodes, dir_nodes tree = .ok nodes ∧ Listed (merkle_dir depth) nodes listing := by
  rw [merkle_dir] at made
  cases split : dir_nodes tree with
  | error e => simp [split,Except.bind] at made
  | ok nodes => exact ⟨nodes,rfl,listed (by simpa [split,Except.bind] using made)⟩

theorem merkle_dirs_self {depth : Nat} {tree : Tree H} {listing : Listing H} (made : merkle_dir depth tree = .ok listing) :
    listing ∈ merkle_dirs depth tree := by
  cases depth with
  | zero => simp [merkle_dir] at made
  | succ depth => exact List.mem_append_left _ (by simp [made,Except.toOption])

theorem merkle_dirs_below {depth : Nat} {tree below : Tree H} {nodes : Dict String (DirNode H)} {name : String}
    (split : dir_nodes tree = .ok nodes) (found : nodes.get? name = some (.children below)) :
    merkle_dirs depth below ⊆ merkle_dirs (depth + 1) tree := by
  intro listing member
  refine List.mem_append_right _ ?_
  rw [split]
  exact List.mem_flatMap.mpr ⟨_,mem_sorted_nodes.mpr found,member⟩

/-! Reading back what the rows of a listing hold. -/

/-- The rows of a directory's hash are its listing. -/
def Stored (rows : List (DBTree H)) (listing : Listing H) : Prop :=
  ∀ name node, (∃ row ∈ rows, row.tree_hash = tree_hash listing ∧ row.path_name = name ∧ row.node = node) ↔
    (name,node) ∈ listing

theorem leads_iff_kept {rows : List (DBTree H)} {depth : Nat} {tree : Tree H} {listing : Listing H}
    (made : merkle_dir depth tree = .ok listing) (stored : ∀ dir ∈ merkle_dirs depth tree, Stored rows dir)
    (path : Path) (e : TreeEntry H) : Leads rows (tree_hash listing) path e ↔ kept depth tree path = some e := by
  induction depth generalizing tree listing path with
  | zero => simp [merkle_dir] at made
  | succ depth ih =>
    obtain ⟨nodes,split,describes⟩ := merkle_dir_succ made
    have here := stored listing (merkle_dirs_self made)
    constructor
    · intro leads
      cases leads with
      | @entry h row e member under leaf =>
        have listed := (here _ _).mp ⟨row,member,under,rfl,leaf⟩
        simp [kept,split,(describes.entry _ _).mp listed]
      | @child h c row path e member under below rest =>
        have listed := (here _ _).mp ⟨row,member,under,rfl,below⟩
        obtain ⟨subtree,inner,found,made',rfl⟩ := (describes.child _ _).mp listed
        have deeper := (ih made' (fun dir inside => stored dir (merkle_dirs_below split found inside)) _).mp rest
        cases path with
        | nil => exact absurd rfl rest.path_ne_nil
        | cons first more => simpa [kept,split,found] using deeper
    · intro holds
      cases path with
      | nil => simp [kept] at holds
      | cons name rest =>
        simp only [kept,split] at holds
        cases found : nodes.get? name with
        | none => simp [found] at holds
        | some node =>
          cases node with
          | info entry =>
            cases rest with
            | nil =>
              obtain rfl : entry = e := by simpa [found] using holds
              obtain ⟨row,member,under,rfl,leaf⟩ := (here _ _).mpr ((describes.entry _ _).mpr found)
              exact .entry member under leaf
            | cons first more => simp [found] at holds
          | children subtree =>
            cases rest with
            | nil => simp [found] at holds
            | cons first more =>
              simp only [found] at holds
              obtain ⟨inner,made'⟩ := describes.made name subtree found
              obtain ⟨row,member,under,rfl,below⟩ :=
                (here _ _).mpr ((describes.child name (tree_hash inner)).mpr ⟨subtree,inner,found,made',rfl⟩)
              exact .child member under below
                ((ih made' (fun dir inside => stored dir (merkle_dirs_below split found inside)) _).mpr holds)

theorem levels_stored {rows : List (DBTree H)} {depth : Nat} {tree : Tree H} {listing : Listing H}
    (made : merkle_dir depth tree = .ok listing) (stored : ∀ dir ∈ merkle_dirs depth tree, Stored rows dir) :
    Levels rows depth (tree_hash listing) := by
  induction depth generalizing tree listing with
  | zero => simp [merkle_dir] at made
  | succ depth ih =>
    obtain ⟨nodes,split,describes⟩ := merkle_dir_succ made
    intro row member under c below
    have listed := (stored listing (merkle_dirs_self made) _ _).mp ⟨row,member,under,rfl,below⟩
    obtain ⟨subtree,inner,found,made',rfl⟩ := (describes.child _ _).mp listed
    exact ih made' fun dir inside => stored dir (merkle_dirs_below split found inside)

/-! Trees in which every path is kept. -/

/-- The paths of a tree have between one and `depth` segments. -/
def Within (depth : Nat) (tree : Tree H) : Prop := ∀ path, tree.contains path = true → path ≠ [] ∧ path.length ≤ depth

omit [Hashing H] [TreeContent H] in
theorem Within.subtree {depth : Nat} {tree below : Tree H} {nodes : Dict String (DirNode H)} {name : String}
    (within : Within (depth + 1) tree) (free : PrefixFree tree) (nodes_of : Nodes tree.entries nodes)
    (found : nodes.get? name = some (.children below)) : Within depth below ∧ PrefixFree below := by
  have above {rest : Path} (held : below.contains rest = true) : rest ≠ [] ∧ tree.contains (name::rest) = true := by
    obtain ⟨e,at_rest⟩ := (below.contains_iff rest).mp held
    obtain ⟨deep,member⟩ := (nodes_of.below name below found rest e).mp at_rest
    exact ⟨deep,(tree.contains_iff _).mpr ⟨e,(tree.mem_entries _ _).mp member⟩⟩
  constructor
  · intro path held
    obtain ⟨deep,up⟩ := above held
    have bound := (within _ up).2
    exact ⟨deep,by simpa using bound⟩
  · intro p q one two before
    exact (List.cons.inj (free _ _ (above one).2 (above two).2 (List.cons_prefix_cons.mpr ⟨rfl,before⟩))).2

omit [Hashing H] [TreeContent H] in
theorem Within.absent {depth : Nat} {tree : Tree H} (within : Within depth tree) {path : Path}
    (outside : path = [] ∨ depth < path.length) : tree.get? path = none := by
  refine (tree.contains_false path).mp (Bool.eq_false_iff.mpr fun held => ?_)
  obtain ⟨named,bound⟩ := within path held
  rcases outside with empty | long
  · exact named empty
  · omega

omit [Hashing H] [TreeContent H] in
theorem kept_eq {depth : Nat} {tree : Tree H} (free : PrefixFree tree) (within : Within depth tree) (path : Path) :
    kept depth tree path = tree.get? path := by
  induction depth generalizing tree path with
  | zero => rw [within.absent (by cases path <;> simp),kept]
  | succ depth ih =>
    obtain ⟨nodes,split,nodes_of⟩ := free.nodes fun path held => (within path held).1
    cases path with
    | nil => rw [within.absent (Or.inl rfl),kept]; simp
    | cons name rest =>
      apply Option.ext
      intro e
      rw [← tree.mem_entries]
      have deep {first : String} {more : Path} (inside : (name::first::more,e) ∈ tree.entries) :
          ∃ below, nodes.get? name = some (.children below) := nodes_of.dir name _ e inside (by simp)
      cases found : nodes.get? name with
      | none =>
        cases rest with
        | nil => simp [kept,split,found,← nodes_of.info]
        | cons first more =>
          have gone : (name::first::more,e) ∉ tree.entries := fun inside => by simpa [found] using deep inside
          simp [kept,split,found,gone]
      | some node =>
        cases node with
        | info entry =>
          cases rest with
          | nil => simp [kept,split,found,← nodes_of.info]
          | cons first more =>
            have gone : (name::first::more,e) ∉ tree.entries := fun inside => by simpa [found] using deep inside
            simp [kept,split,found,gone]
        | children below =>
          obtain ⟨within',free'⟩ := within.subtree free nodes_of found
          cases rest with
          | nil => simp [kept,split,found,← nodes_of.info]
          | cons first more => simp [kept,split,found,ih free' within',nodes_of.below name below found]

omit [Hashing H] [TreeContent H] in
theorem Nodes.child_same {tree other : Tree H} {nodes nodes' : Dict String (DirNode H)} (one : Nodes tree.entries nodes)
    (two : Nodes other.entries nodes') (same : ∀ path, other.get? path = tree.get? path) {name : String} {below : Tree H}
    (found : nodes.get? name = some (.children below)) :
    ∃ below', nodes'.get? name = some (.children below') ∧ ∀ path, below'.get? path = below.get? path := by
  have moved (path : Path) (e : TreeEntry H) : (path,e) ∈ other.entries ↔ (path,e) ∈ tree.entries := by
    rw [Dict.mem_entries,Dict.mem_entries,same]
  obtain ⟨rest,e,held⟩ := one.filled name below found
  obtain ⟨deep,member⟩ := (one.below name below found rest e).mp held
  obtain ⟨below',found'⟩ := two.dir name rest e ((moved _ _).mpr member) deep
  refine ⟨below',found',fun path => Option.ext fun e => ?_⟩
  rw [two.below name below' found',one.below name below found,moved]

/-- Listings with the same entries are the same: both are sorted by name. -/
theorem Listed.same {dir dir' : Tree H → Except ServerError (Listing H)} {nodes nodes' : Dict String (DirNode H)}
    {one two : Listing H} (first : Listed dir nodes one) (second : Listed dir' nodes' two)
    (members : ∀ name node, (name,node) ∈ one ↔ (name,node) ∈ two) : one = two := by
  have perm : one.Perm two := (List.perm_ext_iff_of_nodup first.distinct.of_map second.distinct.of_map).mpr
    fun entry => members entry.1 entry.2
  refine perm.eq_of_pairwise (fun a b left right before after => ?_) first.ordered second.ordered
  exact List.inj_on_of_nodup_map second.distinct ((members _ _).mp left) right (le_antisymm before after)

/-- Such a tree has a listing, and the same one however its paths are ordered. -/
theorem merkle_dir_same {depth : Nat} {tree other : Tree H} (free : PrefixFree tree) (within : Within depth tree)
    (positive : 0 < depth) (same : ∀ path, other.get? path = tree.get? path) :
    ∃ listing, merkle_dir depth tree = .ok listing ∧ merkle_dir depth other = .ok listing := by
  induction depth generalizing tree other with
  | zero => omega
  | succ depth ih =>
    have holds (path : Path) : other.contains path = tree.contains path := by simp [Dict.contains,same]
    have free' : PrefixFree other := fun p q one two => free p q (holds p ▸ one) (holds q ▸ two)
    have within' : Within (depth + 1) other := fun path held => within path (holds path ▸ held)
    obtain ⟨nodes,split,nodes_of⟩ := free.nodes fun path held => (within path held).1
    obtain ⟨nodes',split',nodes_of'⟩ := free'.nodes fun path held => (within' path held).1
    have below {name : String} {subtree : Tree H} (found : nodes.get? name = some (.children subtree)) :
        ∃ subtree' listing, nodes'.get? name = some (.children subtree') ∧ merkle_dir depth subtree = .ok listing ∧
          merkle_dir depth subtree' = .ok listing := by
      obtain ⟨subtree',found',same'⟩ := nodes_of.child_same nodes_of' same found
      obtain ⟨inside,free''⟩ := within.subtree free nodes_of found
      obtain ⟨rest,e,held⟩ := nodes_of.filled name subtree found
      have deep := inside rest ((subtree.contains_iff rest).mpr ⟨e,held⟩)
      have long : 0 < rest.length := List.length_pos_iff.mpr deep.1
      obtain ⟨listing,made,made'⟩ := ih free'' inside (by omega) same'
      exact ⟨subtree',listing,found',made,made'⟩
    have back {name : String} {subtree' : Tree H} (found' : nodes'.get? name = some (.children subtree')) :
        ∃ subtree, nodes.get? name = some (.children subtree) := by
      obtain ⟨subtree,found,-⟩ := nodes_of'.child_same nodes_of (fun path => (same path).symm) found'
      exact ⟨subtree,found⟩
    obtain ⟨one,made⟩ : ∃ listing, (sorted_nodes nodes).mapM (node_entry (merkle_dir depth)) = .ok listing := by
      apply mapM_listing
      intro name subtree member
      obtain ⟨_,listing,_,made,_⟩ := below (mem_sorted_nodes.mp member)
      exact ⟨listing,made⟩
    obtain ⟨two,made'⟩ : ∃ listing, (sorted_nodes nodes').mapM (node_entry (merkle_dir depth)) = .ok listing := by
      apply mapM_listing
      intro name subtree' member
      obtain ⟨subtree,found⟩ := back (mem_sorted_nodes.mp member)
      obtain ⟨other',listing,found',_,made⟩ := below found
      obtain rfl : other' = subtree' := by simpa [mem_sorted_nodes.mp member] using found'.symm
      exact ⟨listing,made⟩
    have agree : one = two := by
      refine (listed made).same (listed made') fun name node => ?_
      cases node with
      | object_hash e =>
        rw [(listed made).entry,(listed made').entry,nodes_of.info,nodes_of'.info,Dict.mem_entries,Dict.mem_entries,same]
      | child_tree_hash c =>
        rw [(listed made).child,(listed made').child]
        constructor
        · rintro ⟨subtree,inner,found,at_one,rfl⟩
          obtain ⟨subtree',listing,found',left,right⟩ := below found
          exact ⟨subtree',inner,found',by rw [right,← left,at_one],rfl⟩
        · rintro ⟨subtree',inner,found',at_two,rfl⟩
          obtain ⟨subtree,found⟩ := back found'
          obtain ⟨other',listing,again,left,right⟩ := below found
          obtain rfl : other' = subtree' := by simpa [found'] using again.symm
          exact ⟨subtree,inner,found,by rw [left,← right,at_two],rfl⟩
    exact ⟨one,by simp [merkle_dir,split,Except.bind,made],by simp [merkle_dir,split',Except.bind,made',agree]⟩

end AetherVault
