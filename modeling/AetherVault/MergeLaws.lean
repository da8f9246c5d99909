import AetherVault.Merge
import AetherVault.TreeStore
import Mathlib.Data.List.Dedup

/-! The laws of the three-way merge of trees: what becomes of every path, what a shard
split of the same content changes, and when the merged tree is one that can be written. -/
namespace AetherVault
open Lib Hashing

variable {H : Type} [DecidableEq H]

/-! One path. -/

theorem three_way_alone (base : Option (TreeEntry H)) (e : TreeEntry H) : three_way base (some e) none =
    if base = none then some (some e) else if base = some e then some none else none := by
  unfold three_way
  split_ifs <;> simp_all

theorem three_way_conflict (base ours theirs : Option (TreeEntry H)) :
    three_way base ours theirs = none ↔ ours ≠ theirs ∧ base ≠ ours ∧ base ≠ theirs := by
  unfold three_way
  split_ifs <;> simp_all

theorem three_way_swap (base ours theirs : Option (TreeEntry H)) :
    three_way base theirs ours = three_way base ours theirs := by
  unfold three_way
  split_ifs <;> simp_all

theorem three_way_theirs (base theirs : Option (TreeEntry H)) : three_way base base theirs = some theirs := by
  unfold three_way
  split_ifs <;> simp_all

theorem three_way_same (base both : Option (TreeEntry H)) : three_way base both both = some both := if_pos rfl

variable (base_tree ours_tree theirs_tree : Tree H)

def decision (path : Path) : Option (Option (TreeEntry H)) :=
  three_way (base_tree.get? path) (ours_tree.get? path) (theirs_tree.get? path)

section Path

variable {base_tree ours_tree theirs_tree} {path : Path}

theorem merge_path_conflict (decided : decision base_tree ours_tree theirs_tree path = none) (acc : Tree H × List Path) :
    merge_path base_tree ours_tree theirs_tree acc path = (acc.1,acc.2 ++ [path]) := by
  unfold merge_path
  rw [show three_way _ _ _ = none from decided]

theorem merge_path_absent (decided : decision base_tree ours_tree theirs_tree path = some none) (acc : Tree H × List Path) :
    merge_path base_tree ours_tree theirs_tree acc path = acc := by
  unfold merge_path
  rw [show three_way _ _ _ = some none from decided]

theorem merge_path_winner {winner : TreeEntry H}
    (decided : decision base_tree ours_tree theirs_tree path = some (some winner)) (acc : Tree H × List Path) :
    merge_path base_tree ours_tree theirs_tree acc path = (acc.1.set path winner,acc.2) := by
  unfold merge_path
  rw [show three_way _ _ _ = some (some winner) from decided]

theorem decision_outside (outside : path ∉ base_tree.keys ++ ours_tree.keys ++ theirs_tree.keys) :
    decision base_tree ours_tree theirs_tree path = some none := by
  have absent (tree : Tree H) (apart : path ∉ tree.keys) : tree.get? path = none := by
    apply Option.eq_none_iff_forall_ne_some.mpr
    intro e found
    exact apart ((tree.mem_keys path).mpr ⟨e,found⟩)
  simp only [List.mem_append,not_or] at outside
  simp [decision,absent _ outside.1.1,absent _ outside.1.2,absent _ outside.2,three_way_same]

end Path

theorem merge_paths (paths : List Path) (distinct : paths.Nodup) (acc : Tree H × List Path) :
    (∀ path, (paths.foldl (merge_path base_tree ours_tree theirs_tree) acc).1.get? path =
      if path ∈ paths then (decision base_tree ours_tree theirs_tree path).join <|> acc.1.get? path else acc.1.get? path) ∧
      (paths.foldl (merge_path base_tree ours_tree theirs_tree) acc).2 =
        acc.2 ++ paths.filter fun path => (decision base_tree ours_tree theirs_tree path).isNone := by
  induction paths generalizing acc with
  | nil => simp
  | cons first rest ih =>
    obtain ⟨fresh,distinct⟩ := List.nodup_cons.mp distinct
    obtain ⟨gets,conflicts⟩ := ih distinct (merge_path base_tree ours_tree theirs_tree acc first)
    rw [List.foldl_cons,conflicts]
    constructor
    · intro path
      rw [gets]
      by_cases here : path = first
      · subst path
        cases decided : decision base_tree ours_tree theirs_tree first with
        | none => simp [merge_path_conflict decided,fresh]
        | some winner => cases winner with
          | none => simp [merge_path_absent decided,fresh]
          | some winner => simp [merge_path_winner decided,fresh]
      · cases decided : decision base_tree ours_tree theirs_tree first with
        | none => simp [merge_path_conflict decided,here]
        | some winner => cases winner with
          | none => simp [merge_path_absent decided,here]
          | some winner => simp [merge_path_winner decided,here,Dict.get?_set]
    · cases decided : decision base_tree ours_tree theirs_tree first with
      | none => simp [merge_path_conflict decided,decided]
      | some winner => cases winner with
        | none => simp [merge_path_absent decided,decided]
        | some winner => simp [merge_path_winner decided,decided]

theorem merged_get (path : Path) : (three_way_tree_merge base_tree ours_tree theirs_tree).1.get? path =
    (decision base_tree ours_tree theirs_tree path).join := by
  apply ((merge_paths base_tree ours_tree theirs_tree _ (List.nodup_dedup _) (∅,[])).1 path).trans
  split
  · simp
  · rename_i outside
    rw [decision_outside fun inside => outside (List.mem_dedup.mpr inside)]
    rfl

theorem conflicts_nodup : (three_way_tree_merge base_tree ours_tree theirs_tree).2.Nodup := by
  apply (List.perm_insertionSort _ _).nodup_iff.mpr
  rw [(merge_paths base_tree ours_tree theirs_tree _ (List.nodup_dedup _) (∅,[])).2]
  exact (List.nodup_dedup _).filter _

theorem mem_conflicts (path : Path) : path ∈ (three_way_tree_merge base_tree ours_tree theirs_tree).2 ↔
    decision base_tree ours_tree theirs_tree path = none := by
  apply (List.perm_insertionSort _ _).mem_iff.trans
  rw [(merge_paths base_tree ours_tree theirs_tree _ (List.nodup_dedup _) (∅,[])).2]
  simp only [List.nil_append,List.mem_filter,Option.isNone_iff_eq_none,and_iff_right_iff_imp,List.mem_dedup]
  intro conflict
  by_contra outside
  rw [decision_outside outside] at conflict
  contradiction

/-- The laws of a merge. Absence is a value: a path one side deleted is changed by it. -/
structure LawfulMerge (base_tree ours_tree theirs_tree : Tree H) (merged : Tree H) (conflicts : List Path) : Prop where
  once : conflicts.Nodup
  open_absent : ∀ path ∈ conflicts, merged.get? path = none
  within : ∀ path, path ∈ conflicts ∨ merged.contains path = true →
    base_tree.contains path = true ∨ ours_tree.contains path = true ∨ theirs_tree.contains path = true
  only_theirs : ∀ path, base_tree.get? path = ours_tree.get? path →
    path ∉ conflicts ∧ merged.get? path = theirs_tree.get? path
  only_ours : ∀ path, base_tree.get? path = theirs_tree.get? path →
    path ∉ conflicts ∧ merged.get? path = ours_tree.get? path
  both_same : ∀ path, ours_tree.get? path = theirs_tree.get? path →
    path ∉ conflicts ∧ merged.get? path = ours_tree.get? path
  conflict : ∀ path, path ∈ conflicts ↔ ours_tree.get? path ≠ theirs_tree.get? path ∧
    base_tree.get? path ≠ ours_tree.get? path ∧ base_tree.get? path ≠ theirs_tree.get? path

theorem three_way_lawful : LawfulMerge base_tree ours_tree theirs_tree
    (three_way_tree_merge base_tree ours_tree theirs_tree).1 (three_way_tree_merge base_tree ours_tree theirs_tree).2 where
  once := conflicts_nodup _ _ _
  open_absent path conflict := by
    rw [merged_get,(mem_conflicts _ _ _ path).mp conflict]
    rfl
  within path found := by
    by_contra outside
    simp only [not_or,Bool.not_eq_true,Dict.contains_false] at outside
    have decided : decision base_tree ours_tree theirs_tree path = some none := by
      simp [decision,outside,three_way_same]
    rcases found with conflict | held
    · rw [mem_conflicts,decided] at conflict
      contradiction
    · rw [Dict.contains_iff,merged_get,decided] at held
      obtain ⟨e,held⟩ := held
      contradiction
  only_theirs path same := by
    rw [mem_conflicts,merged_get,decision,same,three_way_theirs]
    simp
  only_ours path same := by
    rw [mem_conflicts,merged_get,decision,three_way_swap,same,three_way_theirs]
    simp
  both_same path same := by
    rw [mem_conflicts,merged_get,decision,same,three_way_same]
    simp
  conflict path := by rw [mem_conflicts,decision,three_way_conflict]

/-- The merge obeys its laws, and does not tell its two sides apart. -/
theorem three_way_merge_lawful :
    LawfulMerge base_tree ours_tree theirs_tree (three_way_tree_merge base_tree ours_tree theirs_tree).1
      (three_way_tree_merge base_tree ours_tree theirs_tree).2 ∧
    (∀ path, (three_way_tree_merge base_tree theirs_tree ours_tree).1.get? path =
      (three_way_tree_merge base_tree ours_tree theirs_tree).1.get? path) ∧
    ∀ path, path ∈ (three_way_tree_merge base_tree theirs_tree ours_tree).2 ↔
      path ∈ (three_way_tree_merge base_tree ours_tree theirs_tree).2 := by
  have swapped (path : Path) : decision base_tree theirs_tree ours_tree path = decision base_tree ours_tree theirs_tree path :=
    three_way_swap _ _ _
  refine ⟨three_way_lawful _ _ _,fun path => ?_,fun path => ?_⟩
  · rw [merged_get,merged_get,swapped]
  · rw [mem_conflicts,mem_conflicts,swapped]

/-! Shard splits. Entries are compared with all their fields, not by what they contain. -/

def content (entry : Option (TreeEntry H)) : Option (Digest H) := entry.map (·.hash)

/-- Two of the three agree in content. -/
def agreeing (base ours theirs : Option (TreeEntry H)) : Prop :=
  content ours = content theirs ∨ content base = content ours ∨ content base = content theirs

/-- A conflict between entries that contents alone would not be in. -/
def needless (base ours theirs : Option (TreeEntry H)) : Prop :=
  three_way base ours theirs = none ∧ agreeing base ours theirs

def content_winner (base ours theirs : Option (Digest H)) : Option (Digest H) :=
  if ours = theirs then ours else if base = ours then theirs else ours

section Resplit

variable {base ours theirs base' ours' theirs' : Option (TreeEntry H)}

theorem conflict_of_disagreeing (apart : ¬agreeing base ours theirs) : three_way base ours theirs = none := by
  simp only [agreeing,not_or] at apart
  exact (three_way_conflict _ _ _).mpr ⟨fun same => apart.1 (congrArg content same),
    fun same => apart.2.1 (congrArg content same),fun same => apart.2.2 (congrArg content same)⟩

theorem three_way_content {winner : Option (TreeEntry H)}
    (decided : three_way base ours theirs = some winner) :
    content winner = content_winner (content base) (content ours) (content theirs) := by
  unfold three_way at decided
  unfold content_winner
  split_ifs at decided with same ours_kept theirs_kept
  · cases decided
    rw [same,if_pos rfl]
  · cases decided
    rw [ours_kept,if_pos rfl]
    split_ifs with both
    · exact both.symm
    · rfl
  · cases decided
    rw [theirs_kept]
    split_ifs with both other
    · rfl
    · exact absurd other.symm both
    · rfl

theorem needless_deleted (useless : needless base ours theirs) :
    content_winner (content base) (content ours) (content theirs) = none ↔ ours = none ∨ theirs = none := by
  obtain ⟨conflict,agree⟩ := useless
  obtain ⟨apart,ours_changed,theirs_changed⟩ := (three_way_conflict _ _ _).mp conflict
  unfold content_winner agreeing content at *
  cases base <;> cases ours <;> cases theirs <;> simp_all
  split_ifs <;> simp

theorem resplit_path (base_same : content base' = content base) (ours_same : content ours' = content ours)
    (theirs_same : content theirs' = content theirs) :
    ((three_way base' ours' theirs' = none → three_way base ours theirs = none) ∧
      content (three_way base' ours' theirs').join = content (three_way base ours theirs).join) ↔
    (needless base' ours' theirs' → needless base ours theirs) ∧
      (needless base ours theirs → needless base' ours' theirs' ∨ ours = none ∨ theirs = none) := by
  have agree_same : agreeing base' ours' theirs' ↔ agreeing base ours theirs := by
    unfold agreeing
    rw [base_same,ours_same,theirs_same]
  by_cases agree : agreeing base ours theirs
  · have winner_same : content_winner (content base') (content ours') (content theirs') =
        content_winner (content base) (content ours) (content theirs) := by rw [base_same,ours_same,theirs_same]
    simp only [needless,agree_same,agree,and_true]
    cases before : three_way base ours theirs with
    | none =>
      cases after : three_way base' ours' theirs' with
      | none => simp
      | some winner =>
        have kept := (three_way_content after).trans winner_same
        have deleted := needless_deleted ⟨before,agree⟩
        rw [← kept] at deleted
        simpa [content] using deleted
    | some winner =>
      have kept := three_way_content before
      cases after : three_way base' ours' theirs' with
      | none => simp
      | some winner' =>
        have kept' := (three_way_content after).trans winner_same
        simp [kept,kept']
  · have conflict := conflict_of_disagreeing agree
    have conflict' := conflict_of_disagreeing fun other => agree (agree_same.mp other)
    simp [needless,agree,conflict,conflict',agree_same]

end Resplit

/-- The same paths with the same contents, whatever the shard splits and other metadata. -/
def Resplit (tree other : Tree H) : Prop := ∀ path, content (other.get? path) = content (tree.get? path)

/-- No conflict is new, and the merged content is the same at every path. -/
def SameMerge (before after : Tree H × List Path) : Prop :=
  (∀ path ∈ after.2, path ∈ before.2) ∧ ∀ path, content (after.1.get? path) = content (before.1.get? path)

/-- A merge ignores that entries are split anew exactly when no path comes to be in a needless
conflict, and none comes out of one unless a side deleted it. -/
theorem merge_ignores_resplits {base_tree ours_tree theirs_tree base_tree' ours_tree' theirs_tree' : Tree H}
    (base_split : Resplit base_tree base_tree') (ours_split : Resplit ours_tree ours_tree')
    (theirs_split : Resplit theirs_tree theirs_tree') :
    SameMerge (three_way_tree_merge base_tree ours_tree theirs_tree)
        (three_way_tree_merge base_tree' ours_tree' theirs_tree') ↔
      ∀ path,
        (needless (base_tree'.get? path) (ours_tree'.get? path) (theirs_tree'.get? path) →
          needless (base_tree.get? path) (ours_tree.get? path) (theirs_tree.get? path)) ∧
        (needless (base_tree.get? path) (ours_tree.get? path) (theirs_tree.get? path) →
          needless (base_tree'.get? path) (ours_tree'.get? path) (theirs_tree'.get? path) ∨
            ours_tree.get? path = none ∨ theirs_tree.get? path = none) := by
  have each (path : Path) := resplit_path (base_split path) (ours_split path) (theirs_split path)
  simp only [SameMerge,mem_conflicts,merged_get,decision]
  constructor
  · intro same path
    exact (each path).mp ⟨same.1 path,same.2 path⟩
  · intro same
    exact ⟨fun path => ((each path).mpr (same path)).1,fun path => ((each path).mpr (same path)).2⟩

/-! A model whole and in two chunks. -/

def whole_model : TreeEntry Name := ⟨.sha ⟨[1,2]⟩,2,.artifact,[],[]⟩

def chunked_model : TreeEntry Name := ⟨.sha ⟨[1,2]⟩,2,.artifact,[],[⟨⟨[1]⟩,1,0⟩,⟨⟨[2]⟩,1,1⟩]⟩

def model_tree (entry : TreeEntry Name) : Tree Name := Dict.empty.set ["model.bin"] entry

theorem model_tree_resplit (entry other : TreeEntry Name) (same : other.hash = entry.hash) :
    Resplit (model_tree entry) (model_tree other) := by
  intro path
  simp only [model_tree,Dict.get?_set]
  split
  · simp [content,same]
  · rfl

theorem merge_ignores_resplits_both :
    SameMerge (three_way_tree_merge (model_tree whole_model) (model_tree whole_model) (model_tree whole_model))
      (three_way_tree_merge (model_tree chunked_model) (model_tree whole_model) (model_tree chunked_model)) := by
  refine (merge_ignores_resplits (model_tree_resplit whole_model chunked_model rfl)
    (model_tree_resplit whole_model whole_model rfl) (model_tree_resplit whole_model chunked_model rfl)).mpr fun path => ?_
  constructor
  · intro useless
    exact absurd rfl ((three_way_conflict _ _ _).mp useless.1).2.2
  · intro useless
    exact absurd rfl ((three_way_conflict _ _ _).mp useless.1).2.2

/-- One side splits the model anew and the other deletes it: a conflict, where the deletion wins otherwise. -/
theorem resplit_conflicts :
    Resplit (model_tree whole_model) (model_tree chunked_model) ∧
      three_way_tree_merge (model_tree whole_model) (model_tree whole_model) ∅ = (∅,[]) ∧
      three_way_tree_merge (model_tree whole_model) (model_tree chunked_model) ∅ = (∅,[["model.bin"]]) ∧
      ¬SameMerge (three_way_tree_merge (model_tree whole_model) (model_tree whole_model) ∅)
        (three_way_tree_merge (model_tree whole_model) (model_tree chunked_model) ∅) := by
  have before : three_way_tree_merge (model_tree whole_model) (model_tree whole_model) ∅ = (∅,[]) := by rfl
  have after : three_way_tree_merge (model_tree whole_model) (model_tree chunked_model) ∅ = (∅,[["model.bin"]]) := by rfl
  refine ⟨model_tree_resplit _ _ rfl,before,after,fun same => ?_⟩
  have new := same.1 ["model.bin"] (by rw [after]; simp)
  rw [before] at new
  contradiction

/-! Trees that can be written: each path is decided on its own, and two sides may take one
place for a file and for a directory. -/

omit [DecidableEq H] in
theorem get?_resolve_conflicts (side merged : Tree H) (conflicts : List Path) (path : Path) :
    (conflicts.foldl (resolve_conflict side) merged).get? path =
      if path ∈ conflicts then side.get? path else merged.get? path := by
  induction conflicts generalizing merged with
  | nil => simp
  | cons first rest ih =>
    have one : (resolve_conflict side merged first).get? path = if path = first then side.get? path else merged.get? path := by
      unfold resolve_conflict
      cases found : side.get? first with
      | none =>
        by_cases here : path = first
        · simp [Dict.get?_erase,here,found]
        · simp [Dict.get?_erase,here]
      | some e =>
        by_cases here : path = first
        · simp [here,found]
        · simp [Dict.get?_set,here]
    rw [List.foldl_cons,ih,one]
    by_cases later : path ∈ rest <;> by_cases here : path = first <;> simp [later,here]

section Written

variable {base_tree ours_tree theirs_tree tree : Tree H} {policy : Option Policy}

theorem merged_tree_decided (merged : merged_tree base_tree ours_tree theirs_tree policy = some tree) {path : Path}
    {winner : Option (TreeEntry H)} (decided : decision base_tree ours_tree theirs_tree path = some winner) :
    tree.get? path = winner := by
  have closed : path ∉ (three_way_tree_merge base_tree ours_tree theirs_tree).2 := by simp [mem_conflicts,decided]
  have taken := merged_get base_tree ours_tree theirs_tree path
  rw [decided] at taken
  unfold merged_tree at merged
  cases policy with
  | none =>
    dsimp only at merged
    split at merged
    · cases merged
      exact taken
    · contradiction
  | some policy =>
    cases merged
    exact (get?_resolve_conflicts _ _ _ _).trans ((if_neg closed).trans taken)

theorem merged_tree_conflict (merged : merged_tree base_tree ours_tree theirs_tree policy = some tree) {path : Path}
    (conflict : decision base_tree ours_tree theirs_tree path = none) :
    ∃ winner, policy = some winner ∧ tree.get? path = (winner.side ours_tree theirs_tree).get? path := by
  have opened := (mem_conflicts base_tree ours_tree theirs_tree path).mpr conflict
  unfold merged_tree at merged
  cases policy with
  | none =>
    dsimp only at merged
    split at merged
    · rename_i none
      rw [none] at opened
      contradiction
    · contradiction
  | some winner =>
    cases merged
    exact ⟨winner,rfl,(get?_resolve_conflicts _ _ _ _).trans (if_pos opened)⟩

theorem merged_tree_from (merged : merged_tree base_tree ours_tree theirs_tree policy = some tree) {path : Path}
    (held : tree.contains path = true) : ours_tree.contains path = true ∨ theirs_tree.contains path = true := by
  by_contra outside
  simp only [not_or,Bool.not_eq_true,Dict.contains_false] at outside
  have decided : decision base_tree ours_tree theirs_tree path = some none := by simp [decision,outside,three_way_same]
  obtain ⟨e,held⟩ := (tree.contains_iff path).mp held
  rw [merged_tree_decided merged decided] at held
  contradiction

/-- A path that only one side has stays when that side added it, or when it changed it
against a deletion and the policy takes its part. -/
def kept_alone (policy : Option Policy) (me : Policy) (base mine other : Option (TreeEntry H)) : Prop :=
  mine ≠ none ∧ other = none ∧ (base = none ∨ policy = some me ∧ base ≠ mine)

theorem kept_alone_iff (merged : merged_tree base_tree ours_tree theirs_tree policy = some tree) {path : Path} (me : Policy)
    (e : TreeEntry H) (decided : decision base_tree ours_tree theirs_tree path = three_way (base_tree.get? path) (some e) none)
    (sided : ∀ winner : Policy, (winner.side ours_tree theirs_tree).get? path = if winner = me then some e else none) :
    tree.contains path = true ↔ kept_alone policy me (base_tree.get? path) (some e) none := by
  rw [three_way_alone] at decided
  by_cases added : base_tree.get? path = none
  · rw [if_pos added] at decided
    simp [Dict.contains,merged_tree_decided merged decided,kept_alone,added]
  · rw [if_neg added] at decided
    by_cases changed : base_tree.get? path = some e
    · rw [if_pos changed] at decided
      simp [Dict.contains,merged_tree_decided merged decided,kept_alone,changed]
    · rw [if_neg changed] at decided
      obtain ⟨winner,rfl,taken⟩ := merged_tree_conflict merged decided
      rw [sided] at taken
      by_cases mine : winner = me <;> simp [Dict.contains,taken,kept_alone,added,changed,mine]

theorem kept_ours (merged : merged_tree base_tree ours_tree theirs_tree policy = some tree) {path : Path}
    (mine : ours_tree.get? path ≠ none) (alone : theirs_tree.get? path = none) : tree.contains path = true ↔
      kept_alone policy .ours (base_tree.get? path) (ours_tree.get? path) (theirs_tree.get? path) := by
  obtain ⟨e,mine⟩ := Option.ne_none_iff_exists'.mp mine
  rw [mine,alone]
  apply kept_alone_iff merged
  · rw [decision,mine,alone]
  · intro winner
    cases winner <;> simp [Policy.side,mine,alone]

theorem kept_theirs (merged : merged_tree base_tree ours_tree theirs_tree policy = some tree) {path : Path}
    (mine : theirs_tree.get? path ≠ none) (alone : ours_tree.get? path = none) : tree.contains path = true ↔
      kept_alone policy .theirs (base_tree.get? path) (theirs_tree.get? path) (ours_tree.get? path) := by
  obtain ⟨e,mine⟩ := Option.ne_none_iff_exists'.mp mine
  rw [mine,alone]
  apply kept_alone_iff merged
  · rw [decision,three_way_swap,mine,alone]
  · intro winner
    cases winner <;> simp [Policy.side,mine,alone]

variable (base_tree ours_tree theirs_tree policy) in
/-- No path that one side alone keeps is a directory of a path that the other alone keeps. -/
def SidesApart : Prop := ∀ p q, p <+: q → p ≠ q →
  ¬(kept_alone policy .ours (base_tree.get? p) (ours_tree.get? p) (theirs_tree.get? p) ∧
      kept_alone policy .theirs (base_tree.get? q) (theirs_tree.get? q) (ours_tree.get? q)) ∧
    ¬(kept_alone policy .theirs (base_tree.get? p) (theirs_tree.get? p) (ours_tree.get? p) ∧
      kept_alone policy .ours (base_tree.get? q) (ours_tree.get? q) (theirs_tree.get? q))

omit [DecidableEq H] in
theorem PrefixFree.apart {side : Tree H} (free : PrefixFree side) {p q : Path} (before : p <+: q) (differ : p ≠ q)
    (other : side.contains q = true) : side.get? p = none := by
  apply (Dict.contains_false _ _).mp
  apply Bool.eq_false_iff.mpr
  intro one
  exact differ (free p q one other before)

/-- The merged tree has no path below another exactly when the sides are apart. -/
theorem merged_prefix_free_iff (ours_free : PrefixFree ours_tree) (theirs_free : PrefixFree theirs_tree)
    (merged : merged_tree base_tree ours_tree theirs_tree policy = some tree) :
    PrefixFree tree ↔ SidesApart base_tree ours_tree theirs_tree policy := by
  constructor
  · intro free p q before differ
    constructor
    · rintro ⟨one,two⟩
      exact differ (free p q ((kept_ours merged one.1 one.2.1).mpr one) ((kept_theirs merged two.1 two.2.1).mpr two) before)
    · rintro ⟨one,two⟩
      exact differ (free p q ((kept_theirs merged one.1 one.2.1).mpr one) ((kept_ours merged two.1 two.2.1).mpr two) before)
  · intro apart p q one two before
    by_contra differ
    have present {side : Tree H} {path : Path} (held : side.contains path = true) : side.get? path ≠ none := by
      intro absent
      simp [Dict.contains,absent] at held
    have above {side : Tree H} (free : PrefixFree side) (held : side.contains p = true) : side.get? q = none := by
      apply (Dict.contains_false _ _).mp
      apply Bool.eq_false_iff.mpr
      intro other
      exact differ (free p q held other before)
    rcases merged_tree_from merged one with ours_p | theirs_p <;> rcases merged_tree_from merged two with ours_q | theirs_q
    · exact differ (ours_free p q ours_p ours_q before)
    · exact (apart p q before differ).1
        ⟨(kept_ours merged (present ours_p) (theirs_free.apart before differ theirs_q)).mp one,
          (kept_theirs merged (present theirs_q) (above ours_free ours_p)).mp two⟩
    · exact (apart p q before differ).2
        ⟨(kept_theirs merged (present theirs_p) (ours_free.apart before differ ours_q)).mp one,
          (kept_ours merged (present ours_q) (above theirs_free theirs_p)).mp two⟩
    · exact differ (theirs_free p q theirs_p theirs_q before)

omit [DecidableEq H] in
/-- The Merkle rows of a tree hold all of its entries exactly when no path is below another. -/
theorem kept_all_iff (named : ∀ path, tree.contains path = true → path ≠ []) :
    (∀ path, kept (tree_depth tree) tree path = tree.get? path) ↔ PrefixFree tree := by
  constructor
  · intro all p q one two before
    obtain ⟨a,at_p⟩ := (tree.contains_iff p).mp one
    obtain ⟨b,at_q⟩ := (tree.contains_iff q).mp two
    exact kept_prefix_free ((all p).trans at_p) ((all q).trans at_q) before
  · intro free path
    exact kept_eq free (within_depth named) path

/-- A merged tree can be written, and its rows lose no entry, exactly when neither side alone
keeps a file where the other alone keeps a directory. -/
theorem merged_trees_realizable (ours_free : PrefixFree ours_tree) (theirs_free : PrefixFree theirs_tree)
    (named : ∀ path, ours_tree.contains path = true ∨ theirs_tree.contains path = true → path ≠ [])
    (merged : merged_tree base_tree ours_tree theirs_tree policy = some tree) :
    (PrefixFree tree ↔ SidesApart base_tree ours_tree theirs_tree policy) ∧
      ((∀ path, kept (tree_depth tree) tree path = tree.get? path) ↔
        SidesApart base_tree ours_tree theirs_tree policy) := by
  have free_iff := merged_prefix_free_iff ours_free theirs_free merged
  have all_iff := kept_all_iff fun path held => named path (merged_tree_from merged held)
  exact ⟨free_iff,all_iff.trans free_iff⟩

end Written

/-! A branch with a file and a branch with a directory of that name. -/

def file_entry (content : Bytes) : TreeEntry Name := ⟨.sha ⟨content⟩,content.length,.code,[],[]⟩

def one_path (path : Path) : Tree Name := Dict.empty.set path (file_entry [1])

theorem one_path_contains (path other : Path) : (one_path path).contains other = true ↔ other = path := by
  rw [Dict.contains_iff]
  simp only [one_path,Dict.get?_set]
  split <;> simp_all

theorem one_path_prefix_free (path : Path) : PrefixFree (one_path path) := by
  intro p q one two _
  exact ((one_path_contains path p).mp one).trans ((one_path_contains path q).mp two).symm

theorem merged_trees_realizable_beside :
    PrefixFree (three_way_tree_merge ∅ (one_path ["a"]) (one_path ["b"])).1 := by
  have merged : merged_tree ∅ (one_path ["a"]) (one_path ["b"]) none =
      some (three_way_tree_merge ∅ (one_path ["a"]) (one_path ["b"])).1 := rfl
  apply (merged_trees_realizable (one_path_prefix_free ["a"]) (one_path_prefix_free ["b"]) _ merged).1.mpr
  · intro p q before differ
    constructor
    · rintro ⟨one,two⟩
      have at_p := (one_path_contains ["a"] p).mp (Option.isSome_iff_ne_none.mpr one.1)
      have at_q := (one_path_contains ["b"] q).mp (Option.isSome_iff_ne_none.mpr two.1)
      rw [at_p,at_q] at before
      exact absurd before (by decide)
    · rintro ⟨one,two⟩
      have at_p := (one_path_contains ["b"] p).mp (Option.isSome_iff_ne_none.mpr one.1)
      have at_q := (one_path_contains ["a"] q).mp (Option.isSome_iff_ne_none.mpr two.1)
      rw [at_p,at_q] at before
      exact absurd before (by decide)
  · rintro path (mine | theirs)
    · rw [(one_path_contains _ path).mp mine]
      simp
    · rw [(one_path_contains _ path).mp theirs]
      simp

/-- A new file and a new directory of one name do not conflict, and are merged. -/
theorem file_and_directory_merged :
    PrefixFree (one_path ["model"]) ∧ PrefixFree (one_path ["model","weights"]) ∧
      ∃ tree, merged_tree ∅ (one_path ["model"]) (one_path ["model","weights"]) none = some tree ∧ ¬PrefixFree tree := by
  refine ⟨one_path_prefix_free _,one_path_prefix_free _,_,rfl,fun free => ?_⟩
  have same := free ["model"] ["model","weights"] (by rfl) (by rfl) (by decide)
  contradiction

end AetherVault
