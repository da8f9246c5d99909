import AetherVault.Handlers

/-! What the walk over the tree rows finds: exactly the entries that a chain of rows
leads to, for every root it was asked for, whatever the other roots are. -/
namespace AetherVault
open Lib

variable {H : Type} [DecidableEq H]

/-- A chain of rows from a directory down to an entry. -/
inductive Leads (rows : List (DBTree H)) : H → Path → TreeEntry H → Prop
  | entry {h : H} {row : DBTree H} {e : TreeEntry H} (member : row ∈ rows) (under : row.tree_hash = h)
      (leaf : row.node = .object_hash e) : Leads rows h [row.path_name] e
  | child {h c : H} {row : DBTree H} {path : Path} {e : TreeEntry H} (member : row ∈ rows)
      (under : row.tree_hash = h) (below : row.node = .child_tree_hash c) (rest : Leads rows c path e) :
      Leads rows h (row.path_name::path) e

/-- Below this directory there are fewer levels than that. -/
def Levels (rows : List (DBTree H)) : Nat → H → Prop
  | 0,_ => False
  | n+1,h => ∀ row ∈ rows, row.tree_hash = h → ∀ c, row.node = .child_tree_hash c → Levels rows n c

/-- Rows of one directory and one name agree, also between tenants. -/
def Deterministic (rows : List (DBTree H)) : Prop :=
  ∀ a ∈ rows, ∀ b ∈ rows, a.tree_hash = b.tree_hash → a.path_name = b.path_name → a.node = b.node

variable {rows : List (DBTree H)}

omit [DecidableEq H] in
theorem Leads.path_ne_nil {h : H} {path : Path} {e : TreeEntry H} (leads : Leads rows h path e) : path ≠ [] := by
  cases leads <;> simp

omit [DecidableEq H] in
theorem Leads.unique (deterministic : Deterministic rows) {h : H} {path : Path} {e other : TreeEntry H}
    (one : Leads rows h path e) (two : Leads rows h path other) : e = other := by
  induction one with
  | entry member under leaf =>
    generalize shape : [_] = path at two
    cases two with
    | entry member' under' leaf' =>
      have node := deterministic _ member _ member' (under.trans under'.symm) (List.cons.inj shape).1
      simpa [leaf,leaf'] using node
    | child member' under' below' rest' => exact absurd (List.cons.inj shape).2.symm rest'.path_ne_nil
  | @child h c row path e member under below rest ih =>
    generalize shape : row.path_name::path = full at two
    cases two with
    | entry member' under' leaf' => exact absurd (List.cons.inj shape).2 rest.path_ne_nil
    | child member' under' below' rest' =>
      have node := deterministic _ member _ member' (under.trans under'.symm) (List.cons.inj shape).1
      obtain ⟨-,rfl⟩ := List.cons.inj shape
      obtain rfl : c = _ := by simpa [below,below'] using node
      exact ih rest'

/-! The walk, row by row. -/

/-- A row of a directory that the walk is at. -/
abbrev Visit (H : Type) := Frontier H × DBTree H

def Visit.Leads (rows : List (DBTree H)) (visit : Visit H) (path : Path) (e : TreeEntry H) : Prop :=
  visit.2.node = .object_hash e ∧ path = visit.1.2.2 ++ [visit.2.path_name] ∨
    ∃ c rest, visit.2.node = .child_tree_hash c ∧ path = visit.1.2.2 ++ visit.2.path_name::rest ∧
      AetherVault.Leads rows c rest e

def visits (rows : List (DBTree H)) (frontier : List (Frontier H)) : List (Visit H) :=
  frontier.flatMap fun level => (rows.filter fun row => row.tree_hash == level.2.1).map fun row => (level,row)

/-- A directory of the frontier lies where the frontier says, under a root that was asked for. -/
def Placed (rows : List (DBTree H)) (roots : List H) (level : Frontier H) : Prop :=
  level.1 ∈ roots ∧ ∀ rest e, Leads rows level.2.1 rest e → Leads rows level.1 (level.2.2 ++ rest) e

/-- What is found, what is still to be looked into and the rows still to be read
cover what the roots lead to, and nothing else. -/
structure Covers (rows : List (DBTree H)) (roots : List H) (results : Dict H (Tree H)) (frontier : List (Frontier H))
    (todo : List (Visit H)) : Prop where
  present : ∀ r ∈ roots, ∃ tree, results.get? r = some tree
  sound : ∀ r tree path e, results.get? r = some tree → tree.get? path = some e → Leads rows r path e
  placed : ∀ level ∈ frontier, Placed rows roots level
  reads : ∀ visit ∈ todo, Placed rows roots visit.1 ∧ visit.2 ∈ rows ∧ visit.2.tree_hash = visit.1.2.1
  complete : ∀ r ∈ roots, ∀ path e, Leads rows r path e →
    (∃ tree, results.get? r = some tree ∧ tree.contains path = true) ∨
      (∃ level ∈ frontier, level.1 = r ∧ ∃ rest, path = level.2.2 ++ rest ∧ Leads rows level.2.1 rest e) ∨
      ∃ visit ∈ todo, visit.1.1 = r ∧ visit.Leads rows path e

theorem resolve_visits (rows : List (DBTree H)) (frontier : List (Frontier H))
    (acc : Dict H (Tree H) × List (Frontier H)) :
    frontier.foldl (resolve_level rows) acc =
      (visits rows frontier).foldl (fun acc visit => resolve_row visit.1 acc visit.2) acc := by
  induction frontier generalizing acc with
  | nil => rfl
  | cons level rest ih =>
    simp only [visits,List.flatMap_cons,List.foldl_append,List.foldl_map,List.foldl_cons]
    exact ih _

theorem Covers.open_level {roots : List H} {results : Dict H (Tree H)} {frontier : List (Frontier H)}
    (covers : Covers rows roots results frontier []) : Covers rows roots results [] (visits rows frontier) where
  present := covers.present
  sound := covers.sound
  placed := by simp
  reads := by
    intro visit member
    obtain ⟨level,inside,read⟩ := List.mem_flatMap.mp member
    obtain ⟨row,stored,rfl⟩ := List.mem_map.mp read
    obtain ⟨held,under⟩ := List.mem_filter.mp stored
    exact ⟨covers.placed level inside,held,by simpa using under⟩
  complete := by
    intro r asked path e leads
    rcases covers.complete r asked path e leads with found | ⟨level,inside,same,rest,rfl,below⟩ | ⟨visit,none,-⟩
    · exact Or.inl found
    · have visited {row : DBTree H} (member : row ∈ rows) (under : row.tree_hash = level.2.1) :
          (level,row) ∈ visits rows frontier :=
        List.mem_flatMap.mpr ⟨level,inside,List.mem_map.mpr ⟨row,List.mem_filter.mpr ⟨member,by simpa using under⟩,rfl⟩⟩
      refine Or.inr (Or.inr ?_)
      cases below with
      | @entry h row e member under leaf => exact ⟨(level,row),visited member under,same,Or.inl ⟨leaf,rfl⟩⟩
      | @child h c row path e member under node more =>
        exact ⟨(level,row),visited member under,same,Or.inr ⟨c,path,node,rfl,more⟩⟩
    · simp at none

theorem Covers.read {roots : List H} {results : Dict H (Tree H)} {frontier : List (Frontier H)} {visit : Visit H}
    {todo : List (Visit H)} (covers : Covers rows roots results frontier (visit::todo)) :
    Covers rows roots (resolve_row visit.1 (results,frontier) visit.2).1
      (resolve_row visit.1 (results,frontier) visit.2).2 todo := by
  obtain ⟨placed,member,under⟩ := covers.reads visit (by simp)
  have later : ∀ other ∈ todo, Placed rows roots other.1 ∧ other.2 ∈ rows ∧ other.2.tree_hash = other.1.2.1 :=
    fun other inside => covers.reads other (List.mem_cons_of_mem _ inside)
  unfold resolve_row
  cases node : visit.2.node with
  | child_tree_hash c =>
    refine ⟨covers.present,covers.sound,?_,later,?_⟩
    · intro level inside
      rcases List.mem_append.mp inside with early | last
      · exact covers.placed level early
      · obtain rfl := List.mem_singleton.mp last
        refine ⟨placed.1,fun rest e below => ?_⟩
        simpa using placed.2 _ _ (.child member under node below)
    · intro r asked path e leads
      rcases covers.complete r asked path e leads with found | ⟨level,inside,rest⟩ | ⟨other,inside,same,rest⟩
      · exact Or.inl found
      · exact Or.inr (Or.inl ⟨level,List.mem_append_left _ inside,rest⟩)
      · rcases List.mem_cons.mp inside with rfl | inside
        · rcases rest with ⟨leaf,-⟩ | ⟨d,rest,below,rfl,more⟩
          · simp [node] at leaf
          · obtain rfl : c = d := by simpa [node] using below
            exact Or.inr (Or.inl ⟨(other.1.1,c,other.1.2.2 ++ [other.2.path_name]),by simp,same,rest,by simp,more⟩)
        · exact Or.inr (Or.inr ⟨other,inside,same,rest⟩)
  | object_hash entry =>
    have here : Leads rows visit.1.1 (visit.1.2.2 ++ [visit.2.path_name]) entry :=
      placed.2 _ _ (.entry member under node)
    have kept {r : H} {tree : Tree H} (found : results.get? r = some tree) :
        ∃ next, (results.modify visit.1.1 fun tree => tree.set (visit.1.2.2 ++ [visit.2.path_name]) entry).get? r =
          some next ∧ (∀ path, tree.contains path = true → next.contains path = true) ∧
          (r = visit.1.1 → next.contains (visit.1.2.2 ++ [visit.2.path_name]) = true) := by
      rw [Dict.get?_modify]
      by_cases mine : r = visit.1.1
      · subst r
        refine ⟨_,by rw [if_pos rfl,found]; rfl,fun path => Dict.contains_set _ _ _,fun _ => ?_⟩
        simp [Dict.contains]
      · exact ⟨tree,by rw [if_neg mine,found],fun path held => held,fun same => absurd same mine⟩
    refine ⟨?_,?_,covers.placed,later,?_⟩
    · intro r asked
      obtain ⟨tree,found⟩ := covers.present r asked
      obtain ⟨next,held,-⟩ := kept found
      exact ⟨next,held⟩
    · intro r tree path e found held
      rw [Dict.get?_modify] at found
      split at found
      · rename_i mine
        subst r
        obtain ⟨before,was,rfl⟩ := Option.map_eq_some_iff.mp found
        rw [Dict.get?_set] at held
        split at held
        · rename_i at_path
          rw [at_path,← Option.some.inj held]
          exact here
        · exact covers.sound _ before path e was held
      · exact covers.sound r tree path e found held
    · intro r asked path e leads
      rcases covers.complete r asked path e leads with ⟨tree,found,inside⟩ | waiting | ⟨other,inside,same,rest⟩
      · obtain ⟨next,held,more,-⟩ := kept found
        exact Or.inl ⟨next,held,more path inside⟩
      · exact Or.inr (Or.inl waiting)
      · rcases List.mem_cons.mp inside with rfl | inside
        · rcases rest with ⟨leaf,rfl⟩ | ⟨d,rest,below,-,-⟩
          · obtain ⟨tree,found⟩ := covers.present r asked
            obtain ⟨next,held,-,now⟩ := kept found
            exact Or.inl ⟨next,held,now same.symm⟩
          · simp [node] at below
        · exact Or.inr (Or.inr ⟨other,inside,same,rest⟩)

theorem Covers.read_all {roots : List H} {acc : Dict H (Tree H) × List (Frontier H)} {todo : List (Visit H)}
    (covers : Covers rows roots acc.1 acc.2 todo) :
    Covers rows roots (todo.foldl (fun acc visit => resolve_row visit.1 acc visit.2) acc).1
      (todo.foldl (fun acc visit => resolve_row visit.1 acc visit.2) acc).2 [] := by
  induction todo generalizing acc with
  | nil => exact covers
  | cons visit rest ih => exact ih covers.read

theorem resolve_row_puts_off {level put_off : Frontier H} {acc : Dict H (Tree H) × List (Frontier H)} {row : DBTree H}
    (member : put_off ∈ (resolve_row level acc row).2) :
    put_off ∈ acc.2 ∨ row.node = .child_tree_hash put_off.2.1 := by
  unfold resolve_row at member
  cases node : row.node with
  | object_hash entry =>
    rw [node] at member
    exact Or.inl member
  | child_tree_hash c =>
    rw [node] at member
    rcases List.mem_append.mp member with early | last
    · exact Or.inl early
    · obtain rfl := List.mem_singleton.mp last
      exact Or.inr rfl

/-- The directories put off to the next level are one level closer to the leaves. -/
theorem next_levels {n : Nat} {frontier : List (Frontier H)} (deep : ∀ level ∈ frontier, Levels rows (n + 1) level.2.1)
    (results : Dict H (Tree H)) :
    ∀ level ∈ (frontier.foldl (resolve_level rows) (results,[])).2, Levels rows n level.2.1 := by
  rw [resolve_visits]
  have step : ∀ (todo : List (Visit H)) (acc : Dict H (Tree H) × List (Frontier H)),
      (∀ visit ∈ todo, visit ∈ visits rows frontier) → (∀ level ∈ acc.2, Levels rows n level.2.1) →
      ∀ level ∈ (todo.foldl (fun acc visit => resolve_row visit.1 acc visit.2) acc).2, Levels rows n level.2.1 := by
    intro todo
    induction todo with
    | nil => exact fun acc _ deep => deep
    | cons visit rest ih =>
      intro acc inside so_far
      apply ih _ fun other member => inside other (List.mem_cons_of_mem _ member)
      intro level member
      rcases resolve_row_puts_off member with early | node
      · exact so_far level early
      · obtain ⟨from_level,expanded,read⟩ := List.mem_flatMap.mp (inside visit (by simp))
        obtain ⟨row,stored,rfl⟩ := List.mem_map.mp read
        obtain ⟨held,under⟩ := List.mem_filter.mp stored
        exact deep from_level expanded row held (by simpa using under) _ node
  exact step _ _ (fun visit member => member) (by simp)

theorem resolve_levels_covers {n levels : Nat} {roots : List H} {results : Dict H (Tree H)} {frontier : List (Frontier H)}
    (covers : Covers rows roots results frontier []) (deep : ∀ level ∈ frontier, Levels rows n level.2.1)
    (enough : n ≤ levels) :
    ∃ final, resolve_levels rows levels results frontier = some final ∧ Covers rows roots final [] [] := by
  induction n generalizing levels results frontier with
  | zero =>
    cases frontier with
    | nil => exact ⟨results,by cases levels <;> rfl,covers⟩
    | cons level rest => exact absurd (deep level (by simp)) id
  | succ n ih =>
    cases frontier with
    | nil => exact ⟨results,by cases levels <;> rfl,covers⟩
    | cons level rest =>
      obtain ⟨more,rfl⟩ : ∃ more, levels = more + 1 := ⟨levels - 1,by omega⟩
      have opened := @Covers.read_all _ _ _ _ (results,[]) _ covers.open_level
      rw [← resolve_visits] at opened
      exact @ih more _ _ opened (next_levels deep results) (by omega)

/-- At the start every root is to be looked into and has no entries yet. -/
theorem Covers.start {roots : List H} {results : Dict H (Tree H)} {frontier : List (Frontier H)}
    (present : ∀ r ∈ roots, results.contains r = true) (empty : ∀ r tree, results.get? r = some tree → tree = ∅)
    (asked : ∀ level ∈ frontier, level.1 ∈ roots ∧ level = (level.1,level.1,[])) (all : ∀ r ∈ roots, (r,r,[]) ∈ frontier) :
    Covers rows roots results frontier [] where
  present := fun r member => (Dict.contains_iff _ _).mp (present r member)
  sound := by
    intro r tree path e found held
    rw [empty r tree found] at held
    simp at held
  placed := by
    intro level member
    obtain ⟨inside,top⟩ := asked level member
    refine ⟨inside,fun rest e leads => ?_⟩
    rw [top] at leads ⊢
    exact leads
  reads := by simp
  complete := fun r member path e leads => Or.inr (Or.inl ⟨_,all r member,rfl,path,rfl,leads⟩)

theorem Covers.ended {roots : List H} {results : Dict H (Tree H)} (deterministic : Deterministic rows)
    (covers : Covers rows roots results [] []) {r : H} (member : r ∈ roots) :
    ∃ tree, results.get? r = some tree ∧ ∀ path e, tree.get? path = some e ↔ Leads rows r path e := by
  obtain ⟨tree,found⟩ := covers.present r member
  refine ⟨tree,found,fun path e => ⟨covers.sound r tree path e found,fun leads => ?_⟩⟩
  rcases covers.complete r member path e leads with ⟨same,again,held⟩ | ⟨_,none,-⟩ | ⟨_,none,-⟩
  · obtain rfl : tree = same := by simpa [found] using again
    obtain ⟨other,at_path⟩ := (Dict.contains_iff _ _).mp held
    rw [at_path,(covers.sound r tree path other found at_path).unique deterministic leads]
  · simp at none
  · simp at none

/-- With enough levels the walk ends, and each root's entries are those it leads to. -/
theorem resolve_trees_leads (deterministic : Deterministic rows) (roots : List H) {n levels : Nat}
    (deep : ∀ r ∈ roots, Levels rows n r) (enough : n ≤ levels) :
    ∃ results, resolve_trees rows levels roots = some results ∧ ∀ r ∈ roots, ∃ tree, results.get? r = some tree ∧
      ∀ path e, tree.get? path = some e ↔ Leads rows r path e := by
  have asked {level : Frontier H}
      (member : level ∈ (Dict.ofList (roots.map fun h => (h,()))).keys.map fun h => (h,h,([] : Path))) :
      level.1 ∈ roots ∧ level = (level.1,level.1,[]) := by
    obtain ⟨r,key,rfl⟩ := List.mem_map.mp member
    obtain ⟨u,found⟩ := (Dict.mem_keys _ _).mp key
    obtain ⟨_,inside,same⟩ := List.mem_map.mp (Dict.get?_ofList found)
    exact ⟨(Prod.mk.inj same).1 ▸ inside,rfl⟩
  have start : Covers rows roots (Dict.ofList (roots.map fun h => (h,∅)))
      ((Dict.ofList (roots.map fun h => (h,()))).keys.map fun h => (h,h,[])) [] := by
    apply Covers.start
    · exact fun r member => Dict.contains_ofList (List.mem_map.mpr ⟨r,member,rfl⟩)
    · intro r tree found
      obtain ⟨_,_,same⟩ := List.mem_map.mp (Dict.get?_ofList found)
      exact (Prod.mk.inj same).2.symm
    · exact fun level member => asked member
    · intro r member
      apply List.mem_map.mpr ⟨r,_,rfl⟩
      exact (Dict.mem_keys _ _).mpr ((Dict.contains_iff _ _).mp
        (Dict.contains_ofList (List.mem_map.mpr ⟨r,member,rfl⟩)))
  obtain ⟨results,ended,covers⟩ := resolve_levels_covers start (fun level member => by
    obtain ⟨inside,top⟩ := asked member
    rw [top]
    exact deep _ inside) enough
  exact ⟨results,ended,fun r member => covers.ended deterministic member⟩

theorem resolve_tree_leads (deterministic : Deterministic rows) {n levels : Nat} {root : H} (deep : Levels rows n root)
    (enough : n ≤ levels) :
    ∃ tree, resolve_tree rows levels root = some tree ∧ ∀ path e, tree.get? path = some e ↔ Leads rows root path e := by
  obtain ⟨results,ended,each⟩ := resolve_trees_leads deterministic [root] (by simpa using deep) enough
  obtain ⟨tree,found,leads⟩ := each root (by simp)
  exact ⟨tree,by simp [resolve_tree,ended,found],leads⟩

end AetherVault
