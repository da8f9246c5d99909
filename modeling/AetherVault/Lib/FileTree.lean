import AetherVault.Lib.Dict

/-! Directory trees as they are walked: a path is followed name by name, a file ends it, and one name leads back up. -/
namespace AetherVault.Lib.FileTree

inductive Node (C : Type)
  | directory
  | file (content : C)
  deriving DecidableEq

/-- What there is below the root, by the names on the way to it. -/
abbrev Tree (N C : Type) := Dict (List N) (Node C)

variable {N C : Type} [DecidableEq N]

def node_at (tree : Tree N C) (path : List N) : Option (Node C) :=
  if path = [] then some .directory else tree.get? path

section Walk

variable (up : N)

def reach (tree : Tree N C) : List N → List N → Option (List N)
  | here,[] => some here
  | here,name::rest =>
    if name = up then reach tree here.dropLast rest
    else match tree.get? (here ++ [name]) with
      | none => none
      | some .directory => reach tree (here ++ [name]) rest
      | some (.file _) => if rest = [] then some (here ++ [name]) else none

def lookup (tree : Tree N C) (start path : List N) : Option (Node C) := (reach up tree start path).bind (node_at tree)

/-- `mkdir -p`, and where it leads; what was made before it meets a file stays. -/
def mkdirs (tree : Tree N C) : List N → List N → Tree N C × Option (List N)
  | here,[] => (tree,some here)
  | here,name::rest =>
    if name = up then mkdirs tree here.dropLast rest
    else match tree.get? (here ++ [name]) with
      | none => mkdirs (tree.set (here ++ [name]) .directory) (here ++ [name]) rest
      | some .directory => mkdirs tree (here ++ [name]) rest
      | some (.file _) => (tree,none)

end Walk

/-- A file is replaced, a directory is not. -/
def publish (tree : Tree N C) (path : List N) (content : C) : Option (Tree N C) :=
  match tree.get? path with
  | some .directory => none
  | some (.file _) => some (tree.set path (.file content))
  | none => some (tree.set path (.file content))

/-- Files are removed one after the other, as far as the first directory. -/
def unlink_all : Tree N C → List (List N) → Tree N C × Bool
  | tree,[] => (tree,true)
  | tree,path::rest =>
    match tree.get? path with
    | some .directory => (tree,false)
    | some (.file _) => unlink_all (tree.erase path) rest
    | none => unlink_all tree rest

/-! What a tree keeps. -/

def Grows (tree later : Tree N C) : Prop := ∀ path node, tree.get? path = some node → later.get? path = some node

structure Stands (tree later : Tree N C) : Prop where
  directory : ∀ path, tree.get? path = some .directory → later.get? path = some .directory
  there : ∀ path, (tree.get? path).isSome = true → (later.get? path).isSome = true

theorem Grows.refl (tree : Tree N C) : Grows tree tree := fun _ _ found => found

theorem Grows.trans {a b c : Tree N C} (first : Grows a b) (second : Grows b c) : Grows a c :=
  fun path node found => second path node (first path node found)

theorem Grows.stands {tree later : Tree N C} (grows : Grows tree later) : Stands tree later where
  directory path found := grows path .directory found
  there path found := by
    obtain ⟨node,found⟩ := Option.isSome_iff_exists.mp found
    rw [grows path node found]
    rfl

theorem Stands.refl (tree : Tree N C) : Stands tree tree := (Grows.refl tree).stands

theorem Stands.trans {a b c : Tree N C} (first : Stands a b) (second : Stands b c) : Stands a c where
  directory path found := second.directory path (first.directory path found)
  there path found := second.there path (first.there path found)

section Walk

variable {up : N}

theorem reach_kept {tree later : Tree N C}
    (directory : ∀ path, tree.get? path = some .directory → later.get? path = some .directory)
    {start path found : List N} (reached : reach up tree start path = some found)
    (there : (tree.get? found).isSome = true → (later.get? found).isSome = true) :
    reach up later start path = some found := by
  induction start,path using reach.induct up tree with
  | case1 here => exact reached
  | case2 here rest ih =>
    rw [reach,if_pos rfl] at reached ⊢
    exact ih reached
  | case3 here name rest other absent =>
    rw [reach,if_neg other,absent] at reached
    contradiction
  | case4 here name rest other folder ih =>
    rw [reach,if_neg other,folder] at reached
    rw [reach,if_neg other,directory _ folder]
    exact ih reached
  | case5 here name other content file =>
    rw [reach,if_neg other,file] at reached
    rw [reach,if_neg other]
    obtain rfl := Option.some.inj reached
    obtain ⟨node,kept⟩ := Option.isSome_iff_exists.mp (there (by rw [file]; rfl))
    rw [kept]
    cases node <;> rfl
  | case6 here name rest other content file more =>
    rw [reach,if_neg other,file] at reached
    simp only [if_neg more] at reached
    contradiction

/-- A path that never goes up leads below its start. -/
theorem reach_down {tree : Tree N C} {start path found : List N} (down : up ∉ path)
    (reached : reach up tree start path = some found) : found = start ++ path := by
  induction path generalizing start with
  | nil => rw [List.append_nil,Option.some.inj reached]
  | cons name rest ih =>
    obtain ⟨other,down⟩ := not_or.mp (List.mem_cons.not.mp down)
    rw [reach,if_neg (Ne.symm other)] at reached
    cases entry : tree.get? (start ++ [name]) with
    | none => rw [entry] at reached; contradiction
    | some node =>
      rw [entry] at reached
      cases node with
      | directory => rw [ih down reached,List.append_assoc,List.singleton_append]
      | file content =>
        simp only [Option.ite_none_right_eq_some,Option.some.injEq] at reached
        rw [reached.1,reached.2]

theorem lookup_iff {tree : Tree N C} {start path : List N} {node : Node C} :
    lookup up tree start path = some node ↔ ∃ found, reach up tree start path = some found ∧ node_at tree found = some node :=
  Option.bind_eq_some_iff

theorem lookup_some {tree : Tree N C} {start path : List N} :
    (lookup up tree start path).isSome = true ↔
      ∃ found node, reach up tree start path = some found ∧ node_at tree found = some node := by
  rw [Option.isSome_iff_exists]
  simp only [lookup_iff]
  exact exists_comm

theorem node_at_there {tree : Tree N C} {path : List N} {node : Node C} (found : node_at tree path = some node) :
    path = [] ∨ (tree.get? path).isSome = true := by
  unfold node_at at found
  split at found
  · rename_i root
    exact Or.inl root
  · exact Or.inr (Option.isSome_iff_exists.mpr ⟨node,found⟩)

theorem there_node_at {tree : Tree N C} {path : List N} (there : path = [] ∨ (tree.get? path).isSome = true) :
    (node_at tree path).isSome = true := by
  unfold node_at
  split
  · rfl
  · rename_i inner
    exact there.resolve_left inner

theorem Stands.reaches {tree later : Tree N C} (stands : Stands tree later) {start path found : List N}
    (reached : reach up tree start path = some found) : reach up later start path = some found :=
  reach_kept stands.directory reached (stands.there found)

theorem Stands.looks {tree later : Tree N C} (stands : Stands tree later) {start path : List N}
    (found : (lookup up tree start path).isSome = true) : (lookup up later start path).isSome = true := by
  obtain ⟨place,node,reached,entry⟩ := lookup_some.mp found
  have kept := there_node_at ((node_at_there entry).imp_right (stands.there place))
  obtain ⟨other,kept⟩ := Option.isSome_iff_exists.mp kept
  exact lookup_some.mpr ⟨place,other,stands.reaches reached,kept⟩

/-- A path leads nowhere else in a part of the tree. -/
theorem reach_part {tree part : Tree N C} (within : Grows part tree) {start path found : List N}
    (reached : reach up part start path = some found) : reach up tree start path = some found :=
  within.stands.reaches reached

theorem mkdirs_absent {tree : Tree N C} {here : List N} {name : N} (rest : List N) (other : name ≠ up)
    (absent : tree.get? (here ++ [name]) = none) :
    mkdirs up tree here (name::rest) = mkdirs up (tree.set (here ++ [name]) .directory) (here ++ [name]) rest := by
  rw [mkdirs,if_neg other,absent]

theorem mkdirs_folder {tree : Tree N C} {here : List N} {name : N} (rest : List N) (other : name ≠ up)
    (folder : tree.get? (here ++ [name]) = some .directory) :
    mkdirs up tree here (name::rest) = mkdirs up tree (here ++ [name]) rest := by
  rw [mkdirs,if_neg other,folder]

theorem mkdirs_file {tree : Tree N C} {here : List N} {name : N} (rest : List N) (other : name ≠ up) {content : C}
    (file : tree.get? (here ++ [name]) = some (.file content)) : mkdirs up tree here (name::rest) = (tree,none) := by
  rw [mkdirs,if_neg other,file]

variable (up) in
theorem mkdirs_grows (tree : Tree N C) (here path : List N) : Grows tree (mkdirs up tree here path).1 := by
  induction tree,here,path using mkdirs.induct up with
  | case1 tree here => exact Grows.refl tree
  | case2 tree here rest ih =>
    rw [mkdirs,if_pos rfl]
    exact ih
  | case3 tree here name rest other absent ih =>
    rw [mkdirs_absent rest other absent]
    refine Grows.trans ?_ ih
    intro path node found
    rw [Dict.get?_set_other _ _ _ _ (fun same => by rw [same,absent] at found; contradiction)]
    exact found
  | case4 tree here name rest other folder ih =>
    rw [mkdirs_folder rest other folder]
    exact ih
  | case5 tree here name rest other content file =>
    rw [mkdirs_file rest other file]
    exact Grows.refl tree

/-- What is put where `mkdirs` leads is found on the path that was asked for. -/
theorem mkdirs_leads {tree made later : Tree N C} {here path there : List N} (leads : mkdirs up tree here path = (made,some there))
    (directory : ∀ path, made.get? path = some .directory → later.get? path = some .directory) {name : N} (plain : name ≠ up)
    {content : C} (file : later.get? (there ++ [name]) = some (.file content)) :
    reach up later here (path ++ [name]) = some (there ++ [name]) := by
  induction tree,here,path using mkdirs.induct up with
  | case1 tree here =>
    obtain rfl := Option.some.inj (Prod.mk.inj leads).2
    rw [List.nil_append,reach,if_neg plain,file]
    rfl
  | case2 tree here rest ih =>
    rw [mkdirs,if_pos rfl] at leads
    rw [List.cons_append,reach,if_pos rfl]
    exact ih leads
  | case3 tree here first rest other absent ih =>
    rw [mkdirs_absent rest other absent] at leads
    have grown : (mkdirs up (tree.set (here ++ [first]) .directory) (here ++ [first]) rest).1.get? (here ++ [first]) =
        some .directory := mkdirs_grows up _ _ _ _ _ (Dict.get?_set_same tree (here ++ [first]) .directory)
    rw [leads] at grown
    rw [List.cons_append,reach,if_neg other,directory _ grown]
    exact ih leads
  | case4 tree here first rest other folder ih =>
    rw [mkdirs_folder rest other folder] at leads
    have grown : (mkdirs up tree (here ++ [first]) rest).1.get? (here ++ [first]) = some .directory :=
      mkdirs_grows up _ _ _ _ _ folder
    rw [leads] at grown
    rw [List.cons_append,reach,if_neg other,directory _ grown]
    exact ih leads
  | case5 tree here first rest other content file =>
    rw [mkdirs_file rest other file] at leads
    cases leads

end Walk

theorem publish_get {tree later : Tree N C} {path : List N} {content : C} (published : publish tree path content = some later)
    (other : List N) : later.get? other = if other = path then some (.file content) else tree.get? other := by
  unfold publish at published
  split at published
  · contradiction
  all_goals
    rw [← Option.some.inj published]
    exact Dict.get?_set tree path other (.file content)

theorem publish_stands {tree later : Tree N C} {path : List N} {content : C} (published : publish tree path content = some later) :
    Stands tree later where
  directory other found := by
    rw [publish_get published]
    split
    · rename_i same
      rw [same] at found
      rw [publish,found] at published
      contradiction
    · exact found
  there other found := by
    rw [publish_get published]
    split
    · rfl
    · exact found

/-! Removal. -/

theorem unlink_all_within (tree : Tree N C) (paths : List (List N)) : Grows (unlink_all tree paths).1 tree := by
  induction tree,paths using unlink_all.induct with
  | case1 tree => exact Grows.refl tree
  | case2 tree path rest folder =>
    rw [unlink_all,folder]
    exact Grows.refl tree
  | case3 tree path rest content file ih =>
    rw [unlink_all,file]
    refine Grows.trans ih ?_
    intro other node found
    rw [Dict.get?_erase] at found
    split at found
    · contradiction
    · exact found
  | case4 tree path rest absent ih =>
    rw [unlink_all,absent]
    exact ih

theorem unlink_all_other (tree : Tree N C) {paths : List (List N)} {path : List N} (other : path ∉ paths) :
    (unlink_all tree paths).1.get? path = tree.get? path := by
  induction tree,paths using unlink_all.induct with
  | case1 tree => rfl
  | case2 tree first rest folder => rw [unlink_all,folder]
  | case3 tree first rest content file ih =>
    obtain ⟨differ,other⟩ := not_or.mp (List.mem_cons.not.mp other)
    rw [unlink_all,file]
    change (unlink_all (tree.erase first) rest).1.get? path = _
    rw [ih other,Dict.get?_erase,if_neg differ]
  | case4 tree first rest absent ih =>
    rw [unlink_all,absent]
    exact ih (not_or.mp (List.mem_cons.not.mp other)).2

theorem unlink_all_directory (tree : Tree N C) (paths : List (List N)) {path : List N} (folder : tree.get? path = some .directory) :
    (unlink_all tree paths).1.get? path = some .directory := by
  induction tree,paths using unlink_all.induct with
  | case1 tree => exact folder
  | case2 tree first rest found =>
    rw [unlink_all,found]
    exact folder
  | case3 tree first rest content file ih =>
    rw [unlink_all,file]
    refine ih ?_
    have differ : path ≠ first := by
      intro same
      rw [same,file] at folder
      cases folder
    rw [Dict.get?_erase,if_neg differ]
    exact folder
  | case4 tree first rest absent ih =>
    rw [unlink_all,absent]
    exact ih folder

/-- Where no directory is among them, all of them go. -/
theorem unlink_all_gone (tree : Tree N C) {paths : List (List N)} (files : ∀ path ∈ paths, tree.get? path ≠ some .directory)
    {path : List N} (member : path ∈ paths) : (unlink_all tree paths).1.get? path = none := by
  induction tree,paths using unlink_all.induct with
  | case1 tree => exact absurd member List.not_mem_nil
  | case2 tree first rest folder => exact absurd folder (files first List.mem_cons_self)
  | case3 tree first rest content file ih =>
    rw [unlink_all,file]
    change (unlink_all (tree.erase first) rest).1.get? path = none
    by_cases again : path ∈ rest
    · refine ih (fun other inside folder => ?_) again
      rw [Dict.get?_erase] at folder
      split at folder
      · contradiction
      · exact files other (List.mem_cons_of_mem _ inside) folder
    · obtain rfl := (List.mem_cons.mp member).resolve_right again
      rw [unlink_all_other _ again,Dict.get?_erase,if_pos rfl]
  | case4 tree first rest absent ih =>
    rw [unlink_all,absent]
    by_cases again : path ∈ rest
    · exact ih (fun other inside => files other (List.mem_cons_of_mem _ inside)) again
    · obtain rfl := (List.mem_cons.mp member).resolve_right again
      change (unlink_all tree rest).1.get? path = none
      rw [unlink_all_other _ again,absent]

end AetherVault.Lib.FileTree
