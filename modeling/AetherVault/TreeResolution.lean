import AetherVault.TreeRows
import Mathlib.Data.String.Basic

/-! Resolving several trees in one walk, with the paths as the server joins them, against the plain
recursion over one tree. -/
namespace AetherVault.TreeResolution
open Lib

variable {H : Type} [DecidableEq H]

abbrev TreeData (H : Type) := Dict String (TreeEntry H)

/-- The root, a directory below it, and the path to the directory. -/
abbrev Frontier (H : Type) := H × H × String

/-- What is found for every root, and the directories of the next level. -/
abbrev Walk (H : Type) [DecidableEq H] := Dict (Option H) (TreeData H) × List (Frontier H)

def full_path (parent path_name : String) : String := if parent = "" then path_name else parent ++ "/" ++ path_name

def resolve_row (level : Frontier H) (walk : Walk H) (row : DBTree H) : Walk H :=
  let path := full_path level.2.2 row.path_name
  match row.node with
  | .child_tree_hash h => (walk.1,walk.2 ++ [(level.1,h,path)])
  | .object_hash entry => (walk.1.modify (some level.1) fun tree => tree.set path entry,walk.2)

def resolve_level (rows : List (DBTree H)) (walk : Walk H) (level : Frontier H) : Walk H :=
  (rows.filter fun row => row.tree_hash == level.2.1).foldl (resolve_row level) walk

/-- `none` when there are levels left. -/
def resolve_levels (rows : List (DBTree H)) : Nat → Walk H → Option (Dict (Option H) (TreeData H))
  | _,(results,[]) => some results
  | 0,_ => none
  | levels+1,(results,frontier) => resolve_levels rows levels (frontier.foldl (resolve_level rows) (results,[]))

/-- A root that is `none` is a falsy one: it is answered and never looked up. -/
def resolve_trees (rows : List (DBTree H)) (levels : Nat) (root_hashes : List (Option H)) :
    Option (Dict (Option H) (TreeData H)) :=
  resolve_levels rows levels (Dict.ofList (root_hashes.map fun rh => (rh,∅)),
    (Dict.ofList (root_hashes.map fun rh => (rh,()))).keys.filterMap fun rh => rh.map fun h => (h,h,""))

def resolve_tree (rows : List (DBTree H)) (levels : Nat) : Option H → Option (TreeData H)
  | none => some ∅
  | some h => (resolve_trees rows levels [some h]).map fun results => (results.get? (some h)).getD ∅

/-! Plain recursion: a directory holds its files under their names, and what its subdirectories
hold below theirs. -/

def listing (rows : List (DBTree H)) : Nat → H → List (String × TreeEntry H)
  | 0,_ => []
  | depth+1,h => (rows.filter fun row => row.tree_hash == h).flatMap fun row =>
    match row.node with
    | .object_hash entry => [(row.path_name,entry)]
    | .child_tree_hash child => (listing rows depth child).map fun item => (row.path_name ++ "/" ++ item.1,item.2)

def joined : Path → String
  | [] => ""
  | [name] => name
  | name::rest => name ++ "/" ++ joined rest

/-- The rows of finitely many directories: no directory lies in itself, a directory has one row for a
name, and a name has no slash. A child without rows is a missing node. -/
structure MerkleStore (H : Type) [DecidableEq H] where
  rows : List (DBTree H)
  depth : Nat
  shallow : ∀ h, Levels rows depth h
  deterministic : Deterministic rows
  components : ∀ row ∈ rows, '/' ∉ row.path_name.toList

def MerkleStore.plain (store : MerkleStore H) : Option H → TreeData H
  | none => ∅
  | some h => Dict.ofList (listing store.rows store.depth h)

/-- No directory without a name, directly below the root, leads to an entry. -/
def Named (rows : List (DBTree H)) (root : Option H) : Prop :=
  ∀ row ∈ rows, some row.tree_hash = root → row.path_name = "" → ∀ child, row.node = .child_tree_hash child →
    ∀ path entry, ¬ Leads rows child path entry

variable {rows : List (DBTree H)}

/-- The recursion that hands the spelled path down and writes into one map. -/
def handed_down (rows : List (DBTree H)) : Nat → String → H → TreeData H → TreeData H
  | 0,_,_,tree => tree
  | depth+1,parent,h,tree => (rows.filter fun row => row.tree_hash == h).foldl (fun tree row =>
    match row.node with
    | .object_hash entry => tree.set (full_path parent row.path_name) entry
    | .child_tree_hash child => handed_down rows depth (full_path parent row.path_name) child tree) tree

/-! What plain recursion finds. -/

omit [DecidableEq H] in
theorem leads_components {h : H} {path : Path} {entry : TreeEntry H} (leads : Leads rows h path entry)
    (components : ∀ row ∈ rows, '/' ∉ row.path_name.toList) : ∀ name ∈ path, '/' ∉ name.toList := by
  induction leads with
  | entry member under leaf =>
    intro name inside
    rw [List.mem_singleton.mp inside]
    exact components _ member
  | child member under below rest ih =>
    intro name inside
    cases List.mem_cons.mp inside with
    | inl top => exact top ▸ components _ member
    | inr deeper => exact ih name deeper

theorem joined_cons (name : String) {path : Path} (more : path ≠ []) : joined (name::path) = name ++ "/" ++ joined path := by
  cases path with
  | nil => contradiction
  | cons next rest => rfl

theorem listing_iff {depth : Nat} {h : H} (deep : Levels rows depth h) (text : String) (entry : TreeEntry H) :
    (text,entry) ∈ listing rows depth h ↔ ∃ path, Leads rows h path entry ∧ joined path = text := by
  induction depth generalizing h text with
  | zero => exact deep.elim
  | succ depth ih =>
    simp only [listing,List.mem_flatMap,List.mem_filter,beq_iff_eq]
    constructor
    · intro found
      obtain ⟨row,⟨member,under⟩,item⟩ := found
      cases node : row.node with
      | object_hash leaf =>
        rw [node] at item
        obtain ⟨rfl,rfl⟩ := Prod.mk.inj (List.mem_singleton.mp item)
        exact ⟨_,.entry member under node,rfl⟩
      | child_tree_hash child =>
        rw [node] at item
        obtain ⟨inner,inside,same⟩ := List.mem_map.mp item
        obtain ⟨rfl,rfl⟩ := Prod.mk.inj same
        obtain ⟨path,leads,text⟩ := (ih (deep row member under child node) _).mp inside
        refine ⟨_,.child member under node leads,?_⟩
        rw [joined_cons _ leads.path_ne_nil,text]
    · intro found
      obtain ⟨path,leads,rfl⟩ := found
      cases leads with
      | @entry h row e member under leaf => exact ⟨row,⟨member,under⟩,by simp [leaf,joined]⟩
      | @child h child row path e member under node rest =>
        refine ⟨row,⟨member,under⟩,?_⟩
        rw [joined_cons _ rest.path_ne_nil]
        simp only [node]
        exact List.mem_map.mpr ⟨_,(ih (deep row member under child node) _).mpr ⟨path,rest,rfl⟩,rfl⟩

/-- A name ends at the first slash. -/
theorem slash_inj {one two : List Char} (first : '/' ∉ one) (second : '/' ∉ two) {left right : List Char}
    (same : one ++ '/' :: left = two ++ '/' :: right) : one = two ∧ left = right := by
  induction one generalizing two with
  | nil =>
    cases two with
    | nil => exact ⟨rfl,(List.cons.inj same).2⟩
    | cons c rest => exact absurd (List.mem_cons.mpr (Or.inl (List.cons.inj same).1)) second
  | cons c rest ih =>
    cases two with
    | nil => exact absurd (List.mem_cons.mpr (Or.inl (List.cons.inj same).1.symm)) first
    | cons d more =>
      obtain ⟨head,tail⟩ := List.cons.inj same
      obtain ⟨names,texts⟩ := ih (fun inside => first (List.mem_cons_of_mem c inside))
        (fun inside => second (List.mem_cons_of_mem d inside)) tail
      exact ⟨by rw [head,names],texts⟩

theorem joined_toList (name : String) {path : Path} (more : path ≠ []) :
    (joined (name::path)).toList = name.toList ++ '/' :: (joined path).toList := by
  rw [joined_cons name more]
  simp

theorem joined_inj {one two : Path} (filled : one ≠ []) (filled' : two ≠ []) (first : ∀ name ∈ one, '/' ∉ name.toList)
    (second : ∀ name ∈ two, '/' ∉ name.toList) (same : joined one = joined two) : one = two := by
  induction one generalizing two with
  | nil => contradiction
  | cons a left ih =>
    cases two with
    | nil => contradiction
    | cons b right =>
      have clean := first a List.mem_cons_self
      have clean' := second b List.mem_cons_self
      by_cases last : left = [] <;> by_cases last' : right = []
      · subst last last'
        exact congrArg (fun name => [name]) same
      · subst last
        have text := congrArg String.toList same
        rw [joined_toList b last'] at text
        exact absurd (text ▸ by simp : '/' ∈ (joined [a]).toList) clean
      · subst last'
        have text := congrArg String.toList same
        rw [joined_toList a last] at text
        exact absurd (text.symm ▸ by simp : '/' ∈ (joined [b]).toList) clean'
      · have text := congrArg String.toList same
        rw [joined_toList a last,joined_toList b last'] at text
        obtain ⟨names,texts⟩ := slash_inj clean clean' text
        have rest := ih last last' (fun name inside => first name (List.mem_cons_of_mem a inside))
          (fun name inside => second name (List.mem_cons_of_mem b inside)) (String.toList_inj.mp texts)
        rw [rest,String.toList_inj.mp names]

theorem MerkleStore.plain_iff (store : MerkleStore H) (h : H) (text : String) (entry : TreeEntry H) :
    (store.plain (some h)).get? text = some entry ↔ ∃ path, Leads store.rows h path entry ∧ joined path = text := by
  constructor
  · exact fun found => (listing_iff (store.shallow h) text entry).mp (Dict.get?_ofList found)
  · intro leads
    have member := (listing_iff (store.shallow h) text entry).mpr leads
    obtain ⟨other,found⟩ := (Dict.contains_iff _ _).mp (Dict.contains_ofList member)
    obtain ⟨path,here,text⟩ := leads
    obtain ⟨path',here',text'⟩ := (listing_iff (store.shallow h) _ other).mp (Dict.get?_ofList found)
    have paths : path' = path := joined_inj here'.path_ne_nil here.path_ne_nil (leads_components here' store.components)
      (leads_components here store.components) (text'.trans text.symm)
    subst paths
    rw [MerkleStore.plain,found,here'.unique store.deterministic here]

/-! The walk again, with every path a list of names. -/

def spelled (path : Path) : String := path.foldl full_path ""

theorem spelled_append (path : Path) (name : String) : spelled (path ++ [name]) = full_path (spelled path) name := by
  simp [spelled]

/-- Every entry of the one stands in the other under the spelling of its path. Of two paths with one
spelling the later is kept. -/
structure Spelled (tree : Tree H) (data : TreeData H) : Prop where
  named : ∀ text entry, data.get? text = some entry → ∃ path, tree.get? path = some entry ∧ spelled path = text
  all : ∀ path, tree.contains path = true → data.contains (spelled path) = true

omit [DecidableEq H] in
theorem Spelled.set {tree : Tree H} {data : TreeData H} (agree : Spelled tree data) (path : Path) (entry : TreeEntry H) :
    Spelled (tree.set path entry) (data.set (spelled path) entry) where
  named := by
    intro text other found
    rw [Dict.get?_set] at found
    split at found
    · rename_i here
      exact ⟨path,by rw [Dict.get?_set_same,found],here.symm⟩
    · rename_i elsewhere
      obtain ⟨old,held,text⟩ := agree.named text other found
      have apart : old ≠ path := fun same => elsewhere (by rw [← text,same])
      exact ⟨old,by rw [Dict.get?_set_other _ _ _ _ apart,held],text⟩
  all := by
    intro other held
    by_cases same : other = path
    · rw [same]
      simp [Dict.contains]
    · apply Dict.contains_set
      apply agree.all
      simpa [Dict.contains,Dict.get?_set_other _ _ _ _ same] using held

structure Follows (walk : Dict H (Tree H) × List (AetherVault.Frontier H)) (texts : Walk H) : Prop where
  found : ∀ h tree, walk.1.get? h = some tree → ∃ data, texts.1.get? (some h) = some data ∧ Spelled tree data
  next : texts.2 = walk.2.map fun level => (level.1,level.2.1,spelled level.2.2)

theorem Follows.row {walk : Dict H (Tree H) × List (AetherVault.Frontier H)} {texts : Walk H} (follows : Follows walk texts)
    (level : AetherVault.Frontier H) (row : DBTree H) :
    Follows (AetherVault.resolve_row level walk row) (resolve_row (level.1,level.2.1,spelled level.2.2) texts row) := by
  unfold AetherVault.resolve_row resolve_row
  cases node : row.node with
  | child_tree_hash child =>
    refine ⟨follows.found,?_⟩
    simp [follows.next,spelled_append]
  | object_hash entry =>
    refine ⟨fun h tree found => ?_,follows.next⟩
    simp only [← spelled_append]
    rw [Dict.get?_modify] at found
    rw [Dict.get?_modify]
    split at found
    · rename_i here
      subst here
      obtain ⟨before,held,rfl⟩ := Option.map_eq_some_iff.mp found
      obtain ⟨data,texts_held,agree⟩ := follows.found _ before held
      rw [if_pos rfl,texts_held]
      exact ⟨_,rfl,agree.set _ entry⟩
    · rename_i elsewhere
      rw [if_neg fun same => elsewhere (Option.some.inj same)]
      exact follows.found h tree found

theorem Follows.level {walk : Dict H (Tree H) × List (AetherVault.Frontier H)} {texts : Walk H} (follows : Follows walk texts)
    (level : AetherVault.Frontier H) :
    Follows (AetherVault.resolve_level rows walk level) (resolve_level rows texts (level.1,level.2.1,spelled level.2.2)) :=
  List.foldl_rel (r := Follows) follows fun row _ _ _ before => before.row level row

theorem Follows.frontier {walk : Dict H (Tree H) × List (AetherVault.Frontier H)} {texts : Walk H} (follows : Follows walk texts) :
    Follows (walk.2.foldl (AetherVault.resolve_level rows) (walk.1,[]))
      (texts.2.foldl (resolve_level rows) (texts.1,[])) := by
  rw [follows.next,List.foldl_map]
  exact List.foldl_rel (r := Follows) ⟨follows.found,rfl⟩ fun level _ _ _ before => before.level level

theorem resolve_levels_done (levels : Nat) (results : Dict (Option H) (TreeData H)) :
    resolve_levels rows levels (results,[]) = some results := by
  cases levels <;> rfl

theorem resolve_levels_next (levels : Nat) (walk : Walk H) : resolve_levels rows (levels + 1) walk =
    resolve_levels rows levels (walk.2.foldl (resolve_level rows) (walk.1,[])) := by
  obtain ⟨results,frontier⟩ := walk
  cases frontier with
  | nil => exact (resolve_levels_done _ _).symm
  | cons level rest => rfl

theorem segment_levels_next (levels : Nat) (walk : Dict H (Tree H) × List (AetherVault.Frontier H)) :
    AetherVault.resolve_levels rows (levels + 1) walk.1 walk.2 =
      AetherVault.resolve_levels rows levels (walk.2.foldl (AetherVault.resolve_level rows) (walk.1,[])).1
        (walk.2.foldl (AetherVault.resolve_level rows) (walk.1,[])).2 := by
  obtain ⟨results,frontier⟩ := walk
  cases frontier with
  | nil => cases levels <;> rfl
  | cons level rest => rfl

theorem Follows.levels {levels : Nat} {walk : Dict H (Tree H) × List (AetherVault.Frontier H)} {texts : Walk H}
    (follows : Follows walk texts) {final : Dict H (Tree H)}
    (ended : AetherVault.resolve_levels rows levels walk.1 walk.2 = some final) :
    ∃ results, resolve_levels rows levels texts = some results ∧ Follows (final,[]) (results,[]) := by
  induction levels generalizing walk texts with
  | zero =>
    obtain ⟨trees,frontier⟩ := walk
    obtain ⟨results,next⟩ := texts
    cases frontier with
    | nil =>
      obtain rfl : next = [] := follows.next
      exact ⟨results,rfl,Option.some.inj ended ▸ follows⟩
    | cons level rest => contradiction
  | succ levels ih =>
    rw [segment_levels_next] at ended
    rw [resolve_levels_next]
    exact ih follows.frontier ended

/-! What one root gets is what it gets alone. -/

/-- The part of a walk that one root has in it. -/
structure Own (h : H) (walk alone : Walk H) : Prop where
  found : walk.1.get? (some h) = alone.1.get? (some h)
  next : alone.2 = walk.2.filter fun level => level.1 = h

theorem Own.row {h : H} {walk alone : Walk H} (own : Own h walk alone) {level : Frontier H} (mine : level.1 = h)
    (row : DBTree H) : Own h (resolve_row level walk row) (resolve_row level alone row) := by
  unfold resolve_row
  cases node : row.node with
  | child_tree_hash child => exact ⟨own.found,by simp [own.next,mine]⟩
  | object_hash entry =>
    subst mine
    exact ⟨by simp [Dict.get?_modify,own.found],own.next⟩

theorem Own.skip {h : H} {walk alone : Walk H} (own : Own h walk alone) {level : Frontier H} (other : level.1 ≠ h)
    (row : DBTree H) : Own h (resolve_row level walk row) alone := by
  unfold resolve_row
  cases node : row.node with
  | child_tree_hash child => exact ⟨own.found,by simp [own.next,other]⟩
  | object_hash entry =>
    refine ⟨?_,own.next⟩
    rw [Dict.get?_modify,if_neg fun same => other (Option.some.inj same).symm]
    exact own.found

theorem Own.frontier {h : H} (frontier : List (Frontier H)) {walk alone : Walk H} (own : Own h walk alone) :
    Own h (frontier.foldl (resolve_level rows) walk)
      ((frontier.filter fun level => level.1 = h).foldl (resolve_level rows) alone) := by
  induction frontier generalizing walk alone with
  | nil => exact own
  | cons level rest ih =>
    by_cases mine : level.1 = h
    · rw [List.filter_cons_of_pos (by simpa using mine)]
      exact ih (List.foldl_rel (r := Own h) own fun row _ _ _ before => before.row mine row)
    · rw [List.filter_cons_of_neg (by simpa using mine)]
      apply ih
      unfold resolve_level
      generalize rows.filter _ = read
      induction read generalizing walk with
      | nil => exact own
      | cons row more again => exact again (own.skip mine row)

theorem Own.levels {h : H} {levels : Nat} {walk alone : Walk H} (own : Own h walk alone)
    {final : Dict (Option H) (TreeData H)} (ended : resolve_levels rows levels walk = some final) :
    ∃ results, resolve_levels rows levels alone = some results ∧ final.get? (some h) = results.get? (some h) := by
  induction levels generalizing walk alone with
  | zero =>
    obtain ⟨results,frontier⟩ := walk
    obtain ⟨mine,next⟩ := alone
    cases frontier with
    | nil =>
      obtain rfl : next = [] := own.next
      exact ⟨mine,rfl,Option.some.inj ended ▸ own.found⟩
    | cons level rest => contradiction
  | succ levels ih =>
    rw [resolve_levels_next] at ended ⊢
    apply ih _ ended
    rw [own.next]
    exact Own.frontier walk.2 ⟨own.found,rfl⟩

theorem asked_once {keys : List (Option H)} (distinct : keys.Nodup) {h : H} (asked : some h ∈ keys) :
    [(h,h,"")] = (keys.filterMap fun rh => rh.map fun k => (k,k,"")).filter fun level => level.1 = h := by
  induction keys with
  | nil => simp at asked
  | cons key rest ih =>
    obtain ⟨absent,tail⟩ := List.nodup_cons.mp distinct
    by_cases here : key = some h
    · subst here
      have others : (rest.filterMap fun rh => rh.map fun k => (k,k,"")).filter (fun level => level.1 = h) = [] := by
        apply List.filter_eq_nil_iff.mpr
        intro level member
        obtain ⟨rh,inside,spot⟩ := List.mem_filterMap.mp member
        obtain ⟨k,rfl,rfl⟩ := Option.map_eq_some_iff.mp spot
        intro same
        have same : k = h := by simpa using same
        exact absent (same ▸ inside)
      simp [others]
    · have later : some h ∈ rest := (List.mem_cons.mp asked).resolve_left fun same => here same.symm
      cases key with
      | none => simpa using ih tail later
      | some k =>
        have apart : k ≠ h := fun same => here (congrArg some same)
        simpa [apart] using ih tail later

/-! The spelling of a path, against the names joined by slashes. -/

theorem full_path_filled {parent : String} (filled : parent ≠ "") (name : String) :
    full_path parent name = parent ++ "/" ++ name := if_neg filled

theorem foldl_full_path {parent : String} (filled : parent ≠ "") {path : Path} (more : path ≠ []) :
    path.foldl full_path parent = parent ++ "/" ++ joined path := by
  induction path generalizing parent with
  | nil => contradiction
  | cons name rest ih =>
    rw [List.foldl_cons,full_path_filled filled]
    by_cases last : rest = []
    · rw [last]
      rfl
    · have still : parent ++ "/" ++ name ≠ "" := by
        intro empty
        have := congrArg String.toList empty
        simp at this
      rw [ih still last,joined_cons name last]
      simp only [String.append_assoc]

/-- A path that does not start below a directory without a name is spelled as its names are joined. -/
theorem spelled_joined {path : Path} (named : ∀ rest, path = ""::rest → rest = []) : spelled path = joined path := by
  cases path with
  | nil => rfl
  | cons name rest =>
    by_cases last : rest = []
    · rw [last]
      rfl
    · have filled : name ≠ "" := fun empty => last (named rest (by rw [empty]))
      exact (foldl_full_path filled last).trans (joined_cons name last).symm

theorem spelled_rooted {path : Path} (components : ∀ name ∈ path, '/' ∉ name.toList) {parent : String}
    (rooted : parent.toList.head? ≠ some '/') : (path.foldl full_path parent).toList.head? ≠ some '/' := by
  induction path generalizing parent with
  | nil => exact rooted
  | cons name rest ih =>
    apply ih fun other inside => components other (List.mem_cons_of_mem name inside)
    by_cases empty : parent = ""
    · rw [full_path,if_pos empty]
      exact fun first => components name List.mem_cons_self (List.mem_of_mem_head? first)
    · rw [full_path_filled empty]
      have filled : parent.toList ≠ [] := fun none => empty (String.toList_inj.mp none)
      simpa [List.head?_append,List.head?_eq_some_head filled] using rooted

omit [DecidableEq H] in
theorem Named.spelled_joined {h : H} (named : Named rows (some h)) {path : Path} {entry : TreeEntry H}
    (leads : Leads rows h path entry) : spelled path = joined path := by
  apply TreeResolution.spelled_joined
  intro rest shape
  cases leads with
  | entry member under leaf => exact (List.cons.inj shape).2.symm
  | child member under below deeper => exact absurd deeper (named _ member (congrArg some under) (List.cons.inj shape).1 _ below _ _)

theorem MerkleStore.plain_agrees_iff (store : MerkleStore H) {h : H} {tree : Tree H} {data : TreeData H}
    (leads : ∀ path entry, tree.get? path = some entry ↔ Leads store.rows h path entry) (agree : Spelled tree data) :
    (∀ text, data.get? text = (store.plain (some h)).get? text) ↔ Named store.rows (some h) := by
  constructor
  · intro same row member under unnamed child below path entry deeper
    have here : Leads store.rows h (""::path) entry := unnamed ▸ .child member (Option.some.inj under) below deeper
    have held := (store.plain_iff h _ entry).mpr ⟨_,here,rfl⟩
    rw [← same] at held
    obtain ⟨other,found,text⟩ := agree.named _ entry held
    apply @spelled_rooted other (leads_components ((leads other entry).mp found) store.components) "" (by simp)
    rw [show other.foldl full_path "" = joined (""::path) from text,joined_toList "" deeper.path_ne_nil]
    rfl
  · intro named
    have forward {text : String} {entry : TreeEntry H} (found : data.get? text = some entry) :
        (store.plain (some h)).get? text = some entry := by
      obtain ⟨path,held,text⟩ := agree.named text entry found
      have here := (leads path entry).mp held
      exact (store.plain_iff h _ entry).mpr ⟨path,here,(named.spelled_joined here).symm.trans text⟩
    intro text
    ext entry
    constructor
    · exact forward
    · intro found
      obtain ⟨path,here,rfl⟩ := (store.plain_iff h _ entry).mp found
      have held := agree.all path ((Dict.contains_iff _ _).mpr ⟨entry,(leads path entry).mpr here⟩)
      rw [named.spelled_joined here] at held
      obtain ⟨other,at_text⟩ := (Dict.contains_iff _ _).mp held
      rw [at_text,← found,forward at_text]

/-! Any number of roots. -/

theorem falsy_kept {levels : Nat} {walk : Walk H} {final : Dict (Option H) (TreeData H)}
    (ended : resolve_levels rows levels walk = some final) : final.get? none = walk.1.get? none := by
  have row (level : Frontier H) (walk : Walk H) (row : DBTree H) : (resolve_row level walk row).1.get? none = walk.1.get? none := by
    unfold resolve_row
    cases row.node with
    | child_tree_hash child => rfl
    | object_hash entry => simp [Dict.get?_modify]
  have level (walk : Walk H) (level : Frontier H) : (resolve_level rows walk level).1.get? none = walk.1.get? none :=
    List.foldlRecOn (motive := fun after => after.1.get? none = walk.1.get? none) _ _ rfl
      fun before same one _ => (row level before one).trans same
  have all (frontier : List (Frontier H)) (walk : Walk H) :
      (frontier.foldl (resolve_level rows) walk).1.get? none = walk.1.get? none :=
    List.foldlRecOn (motive := fun after => after.1.get? none = walk.1.get? none) _ _ rfl
      fun before same one _ => (level before one).trans same
  induction levels generalizing walk with
  | zero =>
    obtain ⟨results,frontier⟩ := walk
    cases frontier with
    | nil => rw [← Option.some.inj ended]
    | cons level rest => contradiction
  | succ levels ih =>
    rw [resolve_levels_next] at ended
    rw [ih ended]
    exact all _ _

theorem start_found {κ α : Type} [DecidableEq κ] {roots : List κ} {root : κ} (asked : root ∈ roots) :
    (Dict.ofList (roots.map fun rh => (rh,(∅ : Dict String α)))).get? root = some ∅ := by
  obtain ⟨tree,found⟩ := (Dict.contains_iff _ _).mp
    (Dict.contains_ofList (List.mem_map.mpr ⟨root,asked,rfl⟩ : (root,(∅ : Dict String α)) ∈ roots.map fun rh => (rh,∅)))
  obtain ⟨_,_,same⟩ := List.mem_map.mp (Dict.get?_ofList found)
  rw [found,(Prod.mk.inj same).2]

theorem mem_fromkeys {κ : Type} [DecidableEq κ] {roots : List κ} {root : κ} :
    root ∈ (Dict.ofList (roots.map fun rh => (rh,()))).keys ↔ root ∈ roots := by
  rw [Dict.mem_keys]
  constructor
  · intro listed
    obtain ⟨_,found⟩ := listed
    obtain ⟨_,asked,same⟩ := List.mem_map.mp (Dict.get?_ofList found)
    exact (Prod.mk.inj same).1 ▸ asked
  · exact fun asked => (Dict.contains_iff _ _).mp (Dict.contains_ofList (List.mem_map.mpr ⟨root,asked,rfl⟩))

/-- What is found for a root in a batch is what is found for it alone. -/
theorem resolve_trees_alone {levels : Nat} {roots : List (Option H)} {results : Dict (Option H) (TreeData H)}
    (ended : resolve_trees rows levels roots = some results) {root : Option H} (asked : root ∈ roots) {data : TreeData H}
    (found : results.get? root = some data) : resolve_tree rows levels root = some data := by
  cases root with
  | none =>
    have kept := falsy_kept ended
    rw [start_found asked,found] at kept
    exact kept.symm
  | some h =>
    have own : Own h (Dict.ofList (roots.map fun rh => (rh,∅)),
        (Dict.ofList (roots.map fun rh => (rh,()))).keys.filterMap fun rh => rh.map fun k => (k,k,""))
        (Dict.ofList ([some h].map fun rh => (rh,∅)),
          (Dict.ofList ([some h].map fun rh => (rh,()))).keys.filterMap fun rh => rh.map fun k => (k,k,"")) := by
      constructor
      · rw [start_found asked,start_found (List.mem_singleton_self _)]
      · exact asked_once (Dict.distinct _) (mem_fromkeys.mpr asked)
    obtain ⟨alone,resolved,same⟩ := own.levels ended
    rw [resolve_tree,resolve_trees,resolved]
    simp [← same,found]

/-- Every root of the batch ends with the entries it leads to, each under the spelling of its path. -/
theorem resolve_trees_spelled (store : MerkleStore H) (roots : List (Option H)) (extra : Nat) :
    ∃ results, resolve_trees store.rows (store.depth + extra) roots = some results ∧
      (∀ root ∈ roots, results.contains root = true) ∧
      ∀ h, some h ∈ roots → ∃ tree data, results.get? (some h) = some data ∧ Spelled tree data ∧
        ∀ path entry, tree.get? path = some entry ↔ Leads store.rows h path entry := by
  let hashes := roots.filterMap id
  let asked := (Dict.ofList (roots.map fun rh => (rh,()))).keys
  have listed {h : H} : h ∈ hashes ↔ some h ∈ roots := by simp [hashes]
  have covers : Covers store.rows hashes (Dict.ofList (hashes.map fun h => (h,∅)))
      (asked.filterMap fun rh => rh.map fun h => (h,h,([] : Path))) [] := by
    apply Covers.start
    · exact fun r member => Dict.contains_ofList (List.mem_map.mpr ⟨r,member,rfl⟩)
    · intro r tree found
      obtain ⟨_,_,same⟩ := List.mem_map.mp (Dict.get?_ofList found)
      exact (Prod.mk.inj same).2.symm
    · intro level member
      obtain ⟨rh,inside,spot⟩ := List.mem_filterMap.mp member
      obtain ⟨h,rfl,rfl⟩ := Option.map_eq_some_iff.mp spot
      exact ⟨listed.mpr (mem_fromkeys.mp inside),rfl⟩
    · exact fun r member => List.mem_filterMap.mpr ⟨some r,mem_fromkeys.mpr (listed.mp member),rfl⟩
  obtain ⟨final,ended,covered⟩ := resolve_levels_covers covers (fun level _ => store.shallow _) (Nat.le_add_right _ extra)
  have follows : Follows (Dict.ofList (hashes.map fun h => (h,∅)),asked.filterMap fun rh => rh.map fun h => (h,h,([] : Path)))
      (Dict.ofList (roots.map fun rh => (rh,∅)),asked.filterMap fun rh => rh.map fun h => (h,h,"")) := by
    constructor
    · intro h tree found
      obtain ⟨_,inside,same⟩ := List.mem_map.mp (Dict.get?_ofList found)
      obtain ⟨rfl,rfl⟩ := Prod.mk.inj same
      exact ⟨∅,start_found (listed.mp inside),by simp,by simp [Dict.contains]⟩
    · rw [List.map_filterMap]
      show asked.filterMap _ = _
      congr 1
      funext rh
      cases rh <;> rfl
  obtain ⟨results,resolved,agree⟩ := follows.levels ended
  have answered {h : H} (member : some h ∈ roots) :
      ∃ tree data, results.get? (some h) = some data ∧ Spelled tree data ∧
        ∀ path entry, tree.get? path = some entry ↔ Leads store.rows h path entry := by
    obtain ⟨tree,found,leads⟩ := covered.ended store.deterministic (listed.mpr member)
    obtain ⟨data,held,spelt⟩ := agree.found h tree found
    exact ⟨tree,data,held,spelt,leads⟩
  refine ⟨results,resolved,fun root member => ?_,fun h member => answered member⟩
  cases root with
  | none =>
    rw [Dict.contains,falsy_kept resolved,start_found member]
    rfl
  | some h =>
    obtain ⟨_,data,held,-⟩ := answered member
    exact (Dict.contains_iff _ _).mpr ⟨data,held⟩

/-- Any number of roots at once, shared directories and missing ones included: every root gets what it
gets alone, and that is what plain recursion gives exactly when no entry lies in a directory without a
name directly below the root. -/
theorem resolve_trees_plain_iff (store : MerkleStore H) (roots : List (Option H)) (extra : Nat) :
    ∃ results, resolve_trees store.rows (store.depth + extra) roots = some results ∧ ∀ root ∈ roots, ∃ data,
      results.get? root = some data ∧ resolve_tree store.rows (store.depth + extra) root = some data ∧
      ((∀ path, data.get? path = (store.plain root).get? path) ↔ Named store.rows root) := by
  obtain ⟨results,resolved,present,each⟩ := resolve_trees_spelled store roots extra
  refine ⟨results,resolved,fun root asked => ?_⟩
  obtain ⟨data,found⟩ := (Dict.contains_iff _ _).mp (present root asked)
  refine ⟨data,found,resolve_trees_alone resolved asked found,?_⟩
  cases root with
  | none =>
    have kept := falsy_kept resolved
    rw [start_found asked,found] at kept
    obtain rfl : data = ∅ := Option.some.inj kept
    exact iff_of_true (fun path => rfl) fun row member under => by simp at under
  | some h =>
    obtain ⟨tree,other,held,spelt,leads⟩ := each h asked
    obtain rfl : other = data := Option.some.inj (held.symm.trans found)
    exact store.plain_agrees_iff leads spelt

/-! The files `/a` and `a` pushed in one tree. -/

def file (content : Nat) : TreeEntry Nat := ⟨.sha content,1,.code,[],[]⟩

def two_files : List (DBTree Nat) :=
  [⟨"",0,"",.child_tree_hash 1⟩,⟨"",0,"a",.object_hash (file 11)⟩,⟨"",1,"a",.object_hash (file 10)⟩]

theorem two_files_shallow (h : Nat) : Levels two_files 2 h := by
  intro row member under child below inner inside deeper
  have first : row = ⟨"",0,"",.child_tree_hash 1⟩ := by
    simp only [two_files,List.mem_cons,List.not_mem_nil,or_false] at member
    rcases member with rfl | rfl | rfl
    · rfl
    · simp at below
    · simp at below
  subst first
  obtain rfl : 1 = child := by simpa using below
  simp only [two_files,List.mem_cons,List.not_mem_nil,or_false] at inside
  rcases inside with rfl | rfl | rfl <;> simp at deeper ⊢

def pushed : MerkleStore Nat where
  rows := two_files
  depth := 2
  shallow := two_files_shallow
  deterministic := by simp [Deterministic,two_files]
  components := by simp [two_files]

/-- Resolved, only one file is left: the deeper one, under the other's path. -/
theorem leading_slash_lost :
    ((resolve_trees pushed.rows pushed.depth [some 0]).bind (·.get? (some 0))).map (·.entries) = some [("a",file 10)] ∧
      (pushed.plain (some 0)).entries = [("/a",file 10),("a",file 11)] ∧
      (handed_down pushed.rows pushed.depth "" 0 ∅).entries = [("a",file 11)] := by
  decide +kernel

end AetherVault.TreeResolution
