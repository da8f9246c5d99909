import AetherVault.Lib.Dict
import Mathlib.Logic.Relation

/-! How far a branch is ahead of another, counted over the commits that are loaded (`branchGraph.ts`), against the
whole history. -/
namespace AetherVault.BranchGraph

open Lib

variable {H : Type} [DecidableEq H]

structure Commit (H : Type) where
  hash : H
  parent_hash : Option H

def indexByHash (commits : List (Commit H)) : Dict H (Commit H) := Dict.ofList (commits.map fun c => (c.hash,c))

def unseen (commitByHash : Dict H (Commit H)) (seen : List H) : Nat := (commitByHash.keys.filter fun h => decide (h ∉ seen)).length

theorem unseen_lt {commitByHash : Dict H (Commit H)} {seen : List H} {h : H} {c : Commit H} (found : commitByHash.get? h = some c)
    (fresh : h ∉ seen) : unseen commitByHash (seen ++ [h]) < unseen commitByHash seen := by
  have listed : h ∈ commitByHash.keys := (Dict.mem_keys _ _).mpr ⟨c,found⟩
  have fewer : (commitByHash.keys.filter fun k => decide (k ∉ seen ++ [h])) =
      (commitByHash.keys.filter fun k => decide (k ∉ seen)).filter fun k => decide (k ≠ h) := by
    rw [List.filter_filter]
    refine List.filter_congr fun k _ => ?_
    simp [and_comm]
  rw [unseen,unseen,fewer]
  refine List.length_filter_lt_length_iff_exists.mpr ⟨h,List.mem_filter.mpr ⟨listed,decide_eq_true fresh⟩,?_⟩
  simp

/-- From `cur` along `parent_hash`, up to a commit that ends the walk, one seen before, or one that is not loaded. -/
def walk (commitByHash : Dict H (Commit H)) (ends : H → Bool) (visited : List H) : Option H → List H × Option H
  | none => (visited,none)
  | some cur =>
    if _stops : ends cur = true ∨ cur ∈ visited then (visited,some cur)
    else match _found : commitByHash.get? cur with
      | none => (visited,some cur)
      | some commit => walk commitByHash ends (visited ++ [cur]) commit.parent_hash
termination_by unseen commitByHash visited
decreasing_by exact unseen_lt _found (not_or.mp _stops).2

structure Reachable (H : Type) where
  hashes : List H
  truncated : Bool

def reachableFromTip (tipHash : Option H) (commitByHash : Dict H (Commit H)) : Reachable H :=
  let walked := walk commitByHash (fun _ => false) [] tipHash
  ⟨walked.1,match walked.2 with
    | none => false
    | some cur => decide (cur ∉ walked.1)⟩

structure Ahead where
  count : Nat
  truncated : Bool

def commitsAhead (tipHash baseTipHash : Option H) (commitByHash : Dict H (Commit H)) : Ahead :=
  let base := reachableFromTip baseTipHash commitByHash
  let walked := walk commitByHash (fun h => decide (h ∈ base.hashes)) [] tipHash
  ⟨walked.1.length,match walked.2 with
    | none => base.truncated
    | some cur => if cur ∈ base.hashes then base.truncated else true⟩

/-! The whole history. -/

/-- On the line of first parents that begins at the tip. -/
def On (parent : H → Option H) (tip : Option H) (h : H) : Prop :=
  ∃ t ∈ tip, Relation.ReflTransGen (fun a b => parent a = some b) t h

omit [DecidableEq H] in
theorem On.next {parent : H → Option H} {tip : Option H} {h p : H} (on : On parent tip h) (edge : parent h = some p) :
    On parent tip p := by
  obtain ⟨t,first,path⟩ := on
  exact ⟨t,first,path.tail edge⟩

omit [DecidableEq H] in
theorem On.trans {parent : H → Option H} {tip : Option H} {a b : H} (on : On parent tip a) (more : On parent (some a) b) :
    On parent tip b := by
  obtain ⟨t,first,path⟩ := on
  obtain ⟨a',here,rest⟩ := more
  rw [← Option.mem_some_iff.mp here] at rest
  exact ⟨t,first,path.trans rest⟩

/-- What a walk has seen, and where it is. -/
structure Trail (parent : H → Option H) (loaded ends : H → Prop) (tip : Option H) (visited : List H) (cur : Option H) : Prop where
  on : ∀ h ∈ visited, On parent tip h ∧ loaded h ∧ ¬ends h
  distinct : visited.Nodup
  onward : ∀ h ∈ visited, ∀ p, parent h = some p → p ∈ visited ∨ cur = some p
  begun : ∀ t ∈ tip, t ∈ visited ∨ cur = some t
  at_line : ∀ c ∈ cur, On parent tip c

section

variable {parent : H → Option H} {commitByHash : Dict H (Commit H)} {ends : H → Bool} {tip cur : Option H} {visited : List H}

/-- The commits that are loaded are those of the history. -/
def Agrees (parent : H → Option H) (commitByHash : Dict H (Commit H)) : Prop :=
  ∀ h c, commitByHash.get? h = some c → parent h = c.parent_hash

def Loaded (commitByHash : Dict H (Commit H)) (h : H) : Prop := commitByHash.contains h = true

abbrev Trails (parent : H → Option H) (commitByHash : Dict H (Commit H)) (ends : H → Bool) :=
  Trail parent (Loaded commitByHash) (fun h => ends h = true)

theorem walk_trail (agrees : Agrees parent commitByHash) (trail : Trails parent commitByHash ends tip visited cur) :
    Trails parent commitByHash ends tip (walk commitByHash ends visited cur).1 (walk commitByHash ends visited cur).2 ∧
      ∀ c ∈ (walk commitByHash ends visited cur).2,
        ends c = true ∨ c ∈ (walk commitByHash ends visited cur).1 ∨ commitByHash.get? c = none := by
  fun_induction walk commitByHash ends visited cur with
  | case1 visited => exact ⟨trail,fun c among => absurd among (Option.not_mem_none c)⟩
  | case2 visited cur stops =>
    refine ⟨trail,fun c among => ?_⟩
    rw [← Option.mem_some_iff.mp among]
    exact stops.imp_right .inl
  | case3 visited cur goes missing =>
    refine ⟨trail,fun c among => ?_⟩
    rw [← Option.mem_some_iff.mp among]
    exact .inr (.inr missing)
  | case4 visited cur goes commit found ih =>
    obtain ⟨open_,fresh⟩ := not_or.mp goes
    have edge := agrees cur commit found
    apply ih
    constructor
    · intro h among
      rcases List.mem_append.mp among with before | here
      · exact trail.on h before
      · rw [List.mem_singleton.mp here]
        exact ⟨trail.at_line cur rfl,(Dict.contains_iff _ _).mpr ⟨commit,found⟩,open_⟩
    · exact List.nodup_append.mpr ⟨trail.distinct,List.nodup_singleton cur,fun a before b here same =>
        fresh (by rwa [← List.mem_singleton.mp here,← same])⟩
    · intro h among p next
      rcases List.mem_append.mp among with before | here
      · rcases trail.onward h before p next with seen | now
        · exact .inl (List.mem_append_left _ seen)
        · exact .inl (List.mem_append_right _ (List.mem_singleton.mpr (Option.some.inj now).symm))
      · rw [List.mem_singleton.mp here,edge] at next
        exact .inr next
    · intro t first
      rcases trail.begun t first with seen | now
      · exact .inl (List.mem_append_left _ seen)
      · exact .inl (List.mem_append_right _ (List.mem_singleton.mpr (Option.some.inj now).symm))
    · intro c next
      exact (trail.at_line cur rfl).next (edge.trans next)

omit [DecidableEq H] in
/-- Everything on the line has been seen, or comes after where the walk is. -/
theorem Trail.reached {loaded ends : H → Prop} (trail : Trail parent loaded ends tip visited cur) {h : H} (on : On parent tip h) :
    h ∈ visited ∨ On parent cur h := by
  obtain ⟨t,first,path⟩ := on
  induction path with
  | refl =>
    rcases trail.begun t first with seen | now
    · exact .inl seen
    · exact .inr ⟨t,now,.refl⟩
  | tail _ edge ih =>
    rcases ih with seen | later
    · rcases trail.onward _ seen _ edge with seen | now
      · exact .inl seen
      · exact .inr ⟨_,now,.refl⟩
    · exact .inr (later.next edge)

omit [DecidableEq H] in
/-- Where a walk comes back to what it has seen, there is nothing else. -/
theorem Trail.closed {loaded ends : H → Prop} (trail : Trail parent loaded ends tip visited cur) (back : ∀ c ∈ cur, c ∈ visited)
    {h : H} (on : On parent tip h) : h ∈ visited := by
  obtain ⟨t,first,path⟩ := on
  induction path with
  | refl => exact (trail.begun t first).elim id fun now => back t now
  | tail _ edge ih => exact (trail.onward _ ih _ edge).elim id fun now => back _ now

variable (parent commitByHash ends tip) in
theorem start_trail : Trails parent commitByHash ends tip [] tip where
  on _ among := absurd among List.not_mem_nil
  distinct := List.nodup_nil
  onward _ among := absurd among List.not_mem_nil
  begun _ first := .inr first
  at_line c first := ⟨c,first,.refl⟩

/-! The set of a tip. -/

theorem reachable_on (agrees : Agrees parent commitByHash) {h : H} (among : h ∈ (reachableFromTip tip commitByHash).hashes) :
    On parent tip h :=
  ((walk_trail agrees (start_trail parent commitByHash (fun _ => false) tip)).1.on h among).1

theorem reachable_whole (agrees : Agrees parent commitByHash) (whole : (reachableFromTip tip commitByHash).truncated = false) {h : H}
    (on : On parent tip h) : h ∈ (reachableFromTip tip commitByHash).hashes := by
  refine (walk_trail agrees (start_trail parent commitByHash (fun _ => false) tip)).1.closed (fun c last => ?_) on
  simp only [reachableFromTip,Option.mem_def.mp last,decide_eq_false_iff_not,not_not] at whole
  exact whole

omit [DecidableEq H] in
theorem unloaded_on {loaded : H → Prop} (window : ∀ h p, parent h = some p → ¬loaded h → ¬loaded p) {c h : H} (edge : ¬loaded c)
    (on : On parent (some c) h) : ¬loaded h := by
  obtain ⟨c',here,path⟩ := on
  rw [Option.mem_some_iff.mp here] at edge
  induction path with
  | refl => exact edge
  | tail _ next ih => exact window _ _ next ih

/-- Where no commit is loaded without its children, the walk misses nothing that is loaded. -/
theorem reachable_loaded (agrees : Agrees parent commitByHash)
    (window : ∀ h p, parent h = some p → ¬Loaded commitByHash h → ¬Loaded commitByHash p) {h : H} (on : On parent tip h)
    (loaded : Loaded commitByHash h) : h ∈ (reachableFromTip tip commitByHash).hashes := by
  obtain ⟨trail,last⟩ := walk_trail agrees (start_trail parent commitByHash (fun _ => false) tip)
  rcases trail.reached on with seen | later
  · exact seen
  · obtain ⟨c,here,path⟩ := later
    rcases last c here with stops | back | missing
    · exact absurd stops Bool.false_ne_true
    · refine trail.closed (fun c' here' => ?_) on
      rwa [Option.mem_unique here' here]
    · have edge : ¬Loaded commitByHash c := fun there => by
        obtain ⟨commit,found⟩ := (Dict.contains_iff _ _).mp there
        exact absurd (missing.symm.trans found) (Option.some_ne_none commit).symm
      exact absurd loaded (unloaded_on window edge ⟨c,rfl,path⟩)

/-! The count. -/

def aheadOf (tipHash baseTipHash : Option H) (commitByHash : Dict H (Commit H)) : List H × Option H :=
  walk commitByHash (fun h => decide (h ∈ (reachableFromTip baseTipHash commitByHash).hashes)) [] tipHash

theorem commitsAhead_eq (tipHash baseTipHash : Option H) (commitByHash : Dict H (Commit H)) :
    commitsAhead tipHash baseTipHash commitByHash = ⟨(aheadOf tipHash baseTipHash commitByHash).1.length,
      match (aheadOf tipHash baseTipHash commitByHash).2 with
      | none => (reachableFromTip baseTipHash commitByHash).truncated
      | some cur =>
        if cur ∈ (reachableFromTip baseTipHash commitByHash).hashes then (reachableFromTip baseTipHash commitByHash).truncated
        else true⟩ := rfl

/-- A count that is not truncated has the base's whole line before it, and ends on it or at a root. -/
theorem joined_of_whole {base : Option H} (whole : (commitsAhead tip base commitByHash).truncated = false) :
    (reachableFromTip base commitByHash).truncated = false ∧
      ∀ c ∈ (aheadOf tip base commitByHash).2, c ∈ (reachableFromTip base commitByHash).hashes := by
  rw [commitsAhead_eq] at whole
  cases last : (aheadOf tip base commitByHash).2 with
  | none =>
    rw [last] at whole
    exact ⟨whole,fun c among => absurd among (Option.not_mem_none c)⟩
  | some cur =>
    simp only [last] at whole
    split at whole
    next joins => exact ⟨whole,fun c among => by rwa [← Option.mem_some_iff.mp among]⟩
    next => exact absurd whole (Bool.false_ne_true ∘ Eq.symm)

theorem indexed {commits : List (Commit H)} (of_history : ∀ c ∈ commits, parent c.hash = c.parent_hash) :
    Agrees parent (indexByHash commits) := fun h c found => by
  obtain ⟨c',among,pair⟩ := List.mem_map.mp (Dict.get?_ofList found)
  obtain ⟨rfl,rfl⟩ := Prod.mk.inj pair
  exact of_history c' among

variable (parent tip) in
/-- The number shown counts different commits of the branch. Where the window leaves out no child of a commit it holds, none of them is
in the base, and without the mark for a truncated walk the number is exact. -/
theorem commitsAhead_counts (base : Option H) (commits : List (Commit H))
    (of_history : ∀ c ∈ commits, parent c.hash = c.parent_hash) :
    ∃ counted : List H, counted.Nodup ∧ counted.length = (commitsAhead tip base (indexByHash commits)).count ∧
      (∀ h ∈ counted, On parent tip h) ∧
      ((∀ h p, parent h = some p → ¬Loaded (indexByHash commits) h → ¬Loaded (indexByHash commits) p) →
        ∀ h ∈ counted, ¬On parent base h) ∧
      ((commitsAhead tip base (indexByHash commits)).truncated = false → ∀ h, h ∈ counted ↔ On parent tip h ∧ ¬On parent base h) := by
  have agrees := indexed of_history
  generalize indexByHash commits = commitByHash at agrees ⊢
  obtain ⟨trail,-⟩ := walk_trail agrees
    (start_trail parent commitByHash (fun h => decide (h ∈ (reachableFromTip base commitByHash).hashes)) tip)
  rw [← aheadOf] at trail
  have apart : ∀ h ∈ (aheadOf tip base commitByHash).1, h ∉ (reachableFromTip base commitByHash).hashes := fun h among =>
    of_decide_eq_false (Bool.eq_false_iff.mpr (trail.on h among).2.2)
  refine ⟨(aheadOf tip base commitByHash).1,trail.distinct,by rw [commitsAhead_eq],fun h among => (trail.on h among).1,
    fun window h among based => ?_,fun whole h => ?_⟩
  · exact apart h among (reachable_loaded agrees window based (trail.on h among).2.1)
  · obtain ⟨base_whole,joins⟩ := joined_of_whole whole
    constructor
    · intro among
      exact ⟨(trail.on h among).1,fun based => apart h among (reachable_whole agrees base_whole based)⟩
    · rintro ⟨on,not_based⟩
      refine (trail.reached on).resolve_right fun later => ?_
      obtain ⟨c,here,path⟩ := later
      exact not_based ((reachable_on agrees (joins c here)).trans ⟨c,rfl,path⟩)

end

/-- Six commits, the last two a branch on the third of the other four. -/
def forked : Nat → Option Nat
  | 6 => some 5
  | 5 => some 3
  | 4 => some 3
  | 3 => some 2
  | 2 => some 1
  | _ => none

theorem commitsAhead_counts_two :
    ∃ counted : List Nat, counted.Nodup ∧ counted.length = 2 ∧ ∀ h, h ∈ counted ↔ On forked (some 6) h ∧ ¬On forked (some 4) h := by
  obtain ⟨counted,distinct,counts,-,-,all⟩ := commitsAhead_counts forked (some 6) (some 4)
    [⟨6,some 5⟩,⟨5,some 3⟩,⟨4,some 3⟩,⟨3,some 2⟩,⟨2,some 1⟩,⟨1,none⟩] (by decide +kernel)
  exact ⟨counted,distinct,counts.trans (by decide +kernel),all (by decide +kernel)⟩

end AetherVault.BranchGraph
