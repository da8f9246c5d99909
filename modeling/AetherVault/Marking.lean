import AetherVault.Handlers
import Mathlib.Algebra.BigOperators.Group.List.Lemmas
import Mathlib.Algebra.Order.BigOperators.Group.List
import Mathlib.Data.List.Dedup
import Mathlib.Data.List.Induction

/-! The mark phase: each tenant's commits are followed through that tenant's own rows. -/
namespace AetherVault
open Lib Hashing

variable {H : Type} [DecidableEq H]

def child_hashes (rows : List (DBTree H)) (h : H) : List H := (rows_of rows h).flatMap fun row => row.node.children

def own_rows (rows : List (DBTree H)) (tenant : Tenant) : List (DBTree H) := rows.filter fun row => row.tenant_id == tenant

theorem mem_rows_of {rows : List (DBTree H)} {h : H} {row : DBTree H} : row ∈ rows_of rows h ↔ row ∈ rows ∧ row.tree_hash = h := by
  simp [rows_of]

omit [DecidableEq H] in
theorem mem_own_rows {rows : List (DBTree H)} {tenant : Tenant} {row : DBTree H} :
    row ∈ own_rows rows tenant ↔ row ∈ rows ∧ row.tenant_id = tenant := by
  simp [own_rows]

theorem mem_child_hashes {rows : List (DBTree H)} {h c : H} :
    c ∈ child_hashes rows h ↔ ∃ row ∈ rows, row.tree_hash = h ∧ c ∈ row.node.children := by
  simp only [child_hashes,List.mem_flatMap,mem_rows_of,and_assoc]

theorem child_hashes_mono {rows more : List (DBTree H)} (within : rows ⊆ more) (h : H) :
    child_hashes rows h ⊆ child_hashes more h := by
  intro c child
  obtain ⟨row,member,under,below⟩ := mem_child_hashes.mp child
  exact mem_child_hashes.mpr ⟨row,within member,under,below⟩

theorem reach_mono {rows more : List (DBTree H)} (within : rows ⊆ more) {a b : H}
    (path : Search.Reach (child_hashes rows) a b) : Search.Reach (child_hashes more) a b :=
  Relation.ReflTransGen.mono (fun h _ edge => child_hashes_mono within h edge) a b path

/-! A row names one directory at most, so the rows bound the edges. -/

theorem child_hashes_length (rows : List (DBTree H)) (h : H) :
    (child_hashes rows h).length ≤ (rows.map DBTree.tree_hash).count h := by
  unfold child_hashes rows_of
  induction rows with
  | nil => simp
  | cons row rest ih =>
    rw [List.filter_cons,List.map_cons,List.count_cons]
    by_cases under : (row.tree_hash == h) = true
    · rw [if_pos under,if_pos under,List.flatMap_cons,List.length_append]
      have one : row.node.children.length ≤ 1 := by
        cases row.node <;> simp [TreeNode.children]
      omega
    · rw [if_neg under,if_neg under]
      exact ih

theorem marking_fuel (rows : List (DBTree H)) (seen : List H) :
    Search.weight (child_hashes rows) (rows.map DBTree.tree_hash).dedup seen ≤ rows.length := by
  have each : ∀ h ∈ (rows.map DBTree.tree_hash).dedup, (child_hashes rows h).length ≤ (rows.map DBTree.tree_hash).count h :=
    fun h _ => child_hashes_length rows h
  calc Search.weight (child_hashes rows) (rows.map DBTree.tree_hash).dedup seen
      ≤ ((rows.map DBTree.tree_hash).dedup.map fun h => (child_hashes rows h).length).sum := Search.weight_le _ _ _
    _ ≤ ((rows.map DBTree.tree_hash).dedup.map fun h => (rows.map DBTree.tree_hash).count h).sum := List.sum_le_sum each
    _ = (rows.map DBTree.tree_hash).length := List.sum_map_count_dedup_eq_length _
    _ = rows.length := List.length_map _

theorem child_hashes_outside {rows : List (DBTree H)} {h : H} (outside : h ∉ (rows.map DBTree.tree_hash).dedup) :
    child_hashes rows h = [] := by
  rw [List.mem_dedup] at outside
  apply List.eq_nil_iff_forall_not_mem.mpr
  intro c child
  obtain ⟨row,member,under,-⟩ := mem_child_hashes.mp child
  exact outside (under ▸ List.mem_map_of_mem member)

/-! One tenant: what its roots reach in its rows. -/

structure Marks (rows : List (DBTree H)) (roots : List H) (marked : Marked H) : Prop where
  visited : ∀ h, h ∈ marked.visited ↔ ∃ root ∈ roots, Search.Reach (child_hashes rows) root h
  alive : ∀ o, o ∈ marked.alive ↔ ∃ row ∈ rows, row.tree_hash ∈ marked.visited ∧ o ∈ row.node.objects

theorem Marks.nothing (rows : List (DBTree H)) : Marks rows [] ⟨[],[]⟩ := ⟨by simp,by simp⟩

theorem Marks.closed {rows : List (DBTree H)} {roots : List H} {marked : Marked H} (marks : Marks rows roots marked)
    (root : H) : Search.Closed (child_hashes rows) [root] marked.visited := by
  intro a inside b edge
  obtain ⟨from_root,member,path⟩ := (marks.visited a).mp inside
  exact .inl ((marks.visited b).mpr ⟨from_root,member,path.tail edge⟩)

theorem Marks.mark {rows : List (DBTree H)} {roots : List H} {marked : Marked H} (marks : Marks rows roots marked)
    (root : H) : Marks rows (roots ++ [root]) (_mark_from_root rows marked root) := by
  have visits (h : H) : h ∈ (_mark_from_root rows marked root).visited ↔
      h ∈ marked.visited ∨ Search.Reach (child_hashes rows) root h := by
    have enough : [root].length + Search.weight (child_hashes rows) (rows.map DBTree.tree_hash).dedup marked.visited ≤
        rows.length + 1 := by
      have fuel := marking_fuel rows marked.visited
      simp only [List.length_singleton]
      omega
    have found : h ∈ (_mark_from_root rows marked root).visited ↔
        h ∈ marked.visited ∨ ∃ top ∈ [root], Search.Reach (child_hashes rows) top h :=
      Search.mem_search (child_hashes rows) _ (List.nodup_dedup _) (fun h => child_hashes_outside)
        (rows.length + 1) [root] marked.visited enough (marks.closed root) h
    rw [found]
    simp
  constructor
  · intro h
    rw [visits,marks.visited]
    simp [or_and_right,exists_or]
  · intro o
    have named : o ∈ (_mark_from_root rows marked root).alive ↔ o ∈ marked.alive ∨
        ∃ h ∈ (_mark_from_root rows marked root).visited, h ∉ marked.visited ∧ ∃ row ∈ rows_of rows h, o ∈ row.node.objects := by
      simp only [_mark_from_root,List.mem_append,List.mem_flatMap,List.mem_filter,decide_eq_true_eq,and_assoc]
    rw [named,marks.alive]
    constructor
    · intro marked_now
      cases marked_now with
      | inl before =>
        obtain ⟨row,member,old,object⟩ := before
        exact ⟨row,member,(visits _).mpr (.inl old),object⟩
      | inr fresh =>
        obtain ⟨h,inside,-,row,member,object⟩ := fresh
        obtain ⟨stored,rfl⟩ := mem_rows_of.mp member
        exact ⟨row,stored,inside,object⟩
    · intro reached
      obtain ⟨row,member,inside,object⟩ := reached
      by_cases old : row.tree_hash ∈ marked.visited
      · exact .inl ⟨row,member,old,object⟩
      · exact .inr ⟨row.tree_hash,inside,old,row,mem_rows_of.mpr ⟨member,rfl⟩,object⟩

/-! All tenants. -/

def roots_of (roots : List (DBCommit H)) (tenant : Tenant) : List H :=
  (roots.filter fun root => root.tenant_id == tenant).map DBCommit.root_tree_hash

theorem mark_alive_marks (rows : List (DBTree H)) (roots : List (DBCommit H)) (tenant : Tenant) :
    Marks (own_rows rows tenant) (roots_of roots tenant) (((mark_alive rows roots).get? tenant).getD ⟨[],[]⟩) := by
  induction roots using List.reverseRecOn with
  | nil => simpa [mark_alive,roots_of] using Marks.nothing (own_rows rows tenant)
  | append_singleton before root ih =>
    unfold mark_alive at ih ⊢
    rw [List.foldl_concat,Dict.get?_set]
    unfold roots_of at ih ⊢
    rw [List.filter_append,List.map_append]
    by_cases mine : tenant = root.tenant_id
    · rw [if_pos mine]
      subst tenant
      simpa [own_rows] using ih.mark root.root_tree_hash
    · rw [if_neg mine]
      simpa [Ne.symm mine] using ih

theorem mem_visited_trees {rows : List (DBTree H)} {roots : List (DBCommit H)} {h : H} :
    h ∈ visited_trees (mark_alive rows roots) ↔
      ∃ root ∈ roots, Search.Reach (child_hashes (own_rows rows root.tenant_id)) root.root_tree_hash h := by
  have marks := mark_alive_marks rows roots
  constructor
  · intro visited
    obtain ⟨mark,member,inside⟩ := List.mem_flatMap.mp visited
    have found := (Dict.mem_entries _ mark.1 mark.2).mp member
    have reached := (marks mark.1).visited h
    rw [found,Option.getD_some] at reached
    obtain ⟨tree,listed,path⟩ := reached.mp inside
    obtain ⟨root,mine,rfl⟩ := List.mem_map.mp listed
    obtain ⟨there,owner⟩ := List.mem_filter.mp mine
    rw [← beq_iff_eq.mp owner] at path
    exact ⟨root,there,path⟩
  · intro reached
    obtain ⟨root,there,path⟩ := reached
    have listed : root.root_tree_hash ∈ roots_of roots root.tenant_id :=
      List.mem_map_of_mem (List.mem_filter.mpr ⟨there,by simp⟩)
    have inside := ((marks root.tenant_id).visited h).mpr ⟨_,listed,path⟩
    cases found : (mark_alive rows roots).get? root.tenant_id with
    | none => simp [found] at inside
    | some marked =>
      rw [found,Option.getD_some] at inside
      exact List.mem_flatMap.mpr ⟨(root.tenant_id,marked),(Dict.mem_entries _ _ _).mpr found,inside⟩

theorem mem_alive_hashes {rows : List (DBTree H)} {roots : List (DBCommit H)} {o : H} :
    o ∈ alive_hashes (mark_alive rows roots) ↔ ∃ root ∈ roots, ∃ row ∈ own_rows rows root.tenant_id,
      Search.Reach (child_hashes (own_rows rows root.tenant_id)) root.root_tree_hash row.tree_hash ∧ o ∈ row.node.objects := by
  have marks := mark_alive_marks rows roots
  constructor
  · intro alive
    obtain ⟨mark,member,inside⟩ := List.mem_flatMap.mp alive
    have found := (Dict.mem_entries _ mark.1 mark.2).mp member
    have own := marks mark.1
    rw [found,Option.getD_some] at own
    obtain ⟨row,mine,visited,object⟩ := (own.alive o).mp inside
    obtain ⟨tree,listed,path⟩ := (own.visited _).mp visited
    obtain ⟨root,here,rfl⟩ := List.mem_map.mp listed
    obtain ⟨there,owner⟩ := List.mem_filter.mp here
    rw [← beq_iff_eq.mp owner] at mine path
    exact ⟨root,there,row,mine,path,object⟩
  · intro reached
    obtain ⟨root,there,row,mine,path,object⟩ := reached
    have listed : root.root_tree_hash ∈ roots_of roots root.tenant_id :=
      List.mem_map_of_mem (List.mem_filter.mpr ⟨there,by simp⟩)
    have own := marks root.tenant_id
    have inside := (own.alive o).mpr ⟨row,mine,(own.visited _).mpr ⟨_,listed,path⟩,object⟩
    cases found : (mark_alive rows roots).get? root.tenant_id with
    | none => simp [found] at inside
    | some marked =>
      rw [found,Option.getD_some] at inside
      exact List.mem_flatMap.mpr ⟨(root.tenant_id,marked),(Dict.mem_entries _ _ _).mpr found,inside⟩

end AetherVault
