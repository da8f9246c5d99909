import Mathlib.Data.List.Chain
import Mathlib.Data.List.Nodup
import Mathlib.Data.List.Perm.Subperm

/-! Walks along a partial successor, a page at a time. A page remembers what it has listed
itself and nothing of the pages before it. -/
namespace AetherVault.Lib.PagedWalk

variable {ι : Type} [DecidableEq ι] (next : ι → Option ι)

/-- At most as many nodes as the page takes, and the node that the next one starts at. -/
def page : Nat → Option ι → List ι → List ι × Option ι
  | 0,node,_ => ([],node)
  | _+1,none,_ => ([],none)
  | n+1,some x,seen =>
    if x ∈ seen then ([],none)
    else
      let rest := page n (next x) (x::seen)
      (x::rest.1,rest.2)

/-- The pages that are turned until one names no next node. -/
inductive Pages (size : Nat) : ι → List (List ι) → Prop
  | last {x : ι} (done : (page next size (some x) []).2 = none) : Pages size x [(page next size (some x) []).1]
  | more {x y : ι} {rest : List (List ι)} (goes_on : (page next size (some x) []).2 = some y) (later : Pages size y rest) :
      Pages size x ((page next size (some x) []).1::rest)

abbrev Linked (nodes : List ι) : Prop := nodes.IsChain (fun a b => next a = some b)

/-- Each node of the walk once and in its order, up to its end or to where it closes a cycle. -/
structure Trace (start : ι) (nodes : List ι) : Prop where
  head : nodes.head? = some start
  linked : Linked next nodes
  distinct : nodes.Nodup
  closed : ∀ a ∈ nodes, ∀ b, next a = some b → b ∈ nodes

/-- The walk runs into a cycle behind a tail. -/
structure Loops (start : ι) (tail cycle : List ι) : Prop where
  trace : Trace next start (tail ++ cycle)
  closes : ∃ last ∈ cycle.getLast?,∃ first ∈ cycle.head?,next last = some first

/-- What follows a listed node is listed too, or is where the page stopped. -/
theorem page_closed (size : Nat) (node : Option ι) (seen : List ι) :
    ((page next size node seen).2 = node ∨ ∀ x ∈ node, x ∈ (page next size node seen).1 ∨ x ∈ seen) ∧
      ∀ a ∈ (page next size node seen).1, ∀ b, next a = some b →
        b ∈ (page next size node seen).1 ∨ b ∈ seen ∨ (page next size node seen).2 = some b := by
  fun_induction page next size node seen with
  | case1 => exact ⟨Or.inl rfl,by simp⟩
  | case2 => exact ⟨Or.inl rfl,by simp⟩
  | case3 _ x seen again =>
    refine ⟨Or.inr ?_,by simp⟩
    intro y same
    exact Or.inr (Option.some.inj same ▸ again)
  | case4 n x seen fresh rest ih =>
    obtain ⟨first,later⟩ := ih
    constructor
    · refine Or.inr fun y same => Or.inl ?_
      rw [← Option.some.inj same]
      exact List.mem_cons_self
    · intro a listed b step
      rcases List.mem_cons.mp listed with rfl | listed
      · rcases first with stop | follows
        · exact Or.inr (Or.inr (stop.trans step))
        · rcases follows b step with here | before
          · exact Or.inl (List.mem_cons_of_mem _ here)
          · rcases List.mem_cons.mp before with same | before
            · exact Or.inl (same ▸ List.mem_cons_self)
            · exact Or.inr (Or.inl before)
      · rcases later a listed b step with here | before | stop
        · exact Or.inl (List.mem_cons_of_mem _ here)
        · rcases List.mem_cons.mp before with same | before
          · exact Or.inl (same ▸ List.mem_cons_self)
          · exact Or.inr (Or.inl before)
        · exact Or.inr (Or.inr stop)

theorem page_head (size : Nat) (x : ι) : (page next (size+1) (some x) []).1.head? = some x := by
  simp [page]

theorem page_length (size : Nat) (node : Option ι) (seen : List ι) :
    (page next size node seen).1.length ≤ size ∧
      (∀ y, (page next size node seen).2 = some y → (page next size node seen).1.length = size) ∧
      ((page next size node seen).1.length = size →
        (page next size node seen).2 = (page next size node seen).1.getLast?.elim node next) := by
  fun_induction page next size node seen with
  | case1 => simp
  | case2 => simp
  | case3 => simp
  | case4 n x seen fresh rest ih =>
    refine ⟨Nat.succ_le_succ ih.1,fun y stop => congrArg (· + 1) (ih.2.1 y stop),?_⟩
    intro full
    have stop := ih.2.2 (Nat.succ.inj full)
    cases listed : rest.1 with
    | nil => simpa [rest,listed] using stop
    | cons y more => simpa [rest,listed,List.getLast?_cons] using stop

theorem page_distinct (size : Nat) (node : Option ι) (seen : List ι) :
    (page next size node seen).1.Nodup ∧ ∀ a ∈ (page next size node seen).1, a ∉ seen := by
  fun_induction page next size node seen with
  | case1 => simp
  | case2 => simp
  | case3 => simp
  | case4 n x seen fresh rest ih =>
    obtain ⟨distinct,apart⟩ := ih
    refine ⟨List.nodup_cons.mpr ⟨fun again => apart x again List.mem_cons_self,distinct⟩,?_⟩
    intro a listed
    rcases List.mem_cons.mp listed with same | listed
    · exact same ▸ fresh
    · exact fun before => apart a listed (List.mem_cons_of_mem _ before)

theorem page_follows (size : Nat) (node : Option ι) (seen : List ι) :
    (∀ a ∈ (page next size node seen).1.head?, node = some a) ∧ Linked next (page next size node seen).1 := by
  fun_induction page next size node seen with
  | case1 => exact ⟨by simp,List.isChain_nil⟩
  | case2 => exact ⟨by simp,List.isChain_nil⟩
  | case3 => exact ⟨by simp,List.isChain_nil⟩
  | case4 n x seen fresh rest ih =>
    obtain ⟨first,linked⟩ := ih
    exact ⟨by simp,List.isChain_cons.mpr ⟨first,linked⟩⟩

variable {next}

/-- A page of nodes that follow each other. -/
theorem page_linked (size : Nat) {x : ι} {nodes : List ι} (seen : List ι) (linked : Linked next (x::nodes))
    (fresh : (x::nodes ++ seen).Nodup) :
    (0 < size → size ≤ (x::nodes).length → page next size (some x) seen =
      ((x::nodes).take size,((x::nodes).take size).getLast?.bind next)) ∧
      ((x::nodes).length < size → (∀ b, (x::nodes).getLast?.bind next = some b → b ∈ x::nodes ++ seen) →
        page next size (some x) seen = (x::nodes,none)) := by
  induction nodes generalizing x size seen with
  | nil =>
    have unseen : x ∉ seen := by simpa using (List.nodup_cons.mp fresh).1
    constructor
    · intro positive short
      obtain rfl : size = 1 := by simp at short; omega
      simp [page,unseen]
    · intro long back
      obtain ⟨n,rfl⟩ : ∃ n, size = n+2 := ⟨size-2,by simp at long; omega⟩
      cases step : next x with
      | none => simp [page,unseen,step]
      | some b =>
        have listed : b = x ∨ b ∈ seen := by simpa using back b (by simp [step])
        simp [page,unseen,step,listed]
  | cons y rest ih =>
    obtain ⟨step,linked⟩ := List.isChain_cons_cons.mp linked
    have unseen : x ∉ seen := fun before => (List.nodup_cons.mp fresh).1 (List.mem_append_right _ before)
    have moved : (y::rest ++ x::seen).Nodup := List.perm_middle.nodup_iff.mpr fresh
    obtain ⟨full,short⟩ := ih (size-1) (x::seen) linked moved
    constructor
    · intro positive fits
      obtain ⟨n,rfl⟩ : ∃ n, size = n+1 := ⟨size-1,by omega⟩
      cases n with
      | zero => simp [page,unseen]
      | succ n =>
        have turned := full (by omega) (by simpa using fits)
        rw [Nat.add_sub_cancel] at turned
        rw [page,if_neg unseen,step,turned]
        simp only [List.take_succ_cons,List.getLast?_cons_cons]
    · intro long back
      obtain ⟨n,rfl⟩ : ∃ n, size = n+1 := ⟨size-1,by omega⟩
      have turned := short (by simpa using long) (by
        intro b last
        rw [← List.getLast?_cons_cons (a := x)] at last
        exact List.perm_middle.mem_iff.mpr (back b last))
      rw [Nat.add_sub_cancel] at turned
      rw [page,if_neg unseen,step,turned]

/-! Traces. -/

section Traces

omit [DecidableEq ι]

theorem linked_prefix {x : ι} {as bs : List ι} (left : Linked next (x::as)) (right : Linked next (x::bs)) :
    as <+: bs ∨ bs <+: as := by
  induction as generalizing x bs with
  | nil => exact Or.inl List.nil_prefix
  | cons a as ih =>
    cases bs with
    | nil => exact Or.inr List.nil_prefix
    | cons b bs =>
      obtain ⟨to_a,left⟩ := List.isChain_cons_cons.mp left
      obtain ⟨to_b,right⟩ := List.isChain_cons_cons.mp right
      obtain rfl := Option.some.inj (to_a.symm.trans to_b)
      exact (ih left right).imp (List.prefix_cons_inj a).mpr (List.prefix_cons_inj a).mpr

theorem Trace.whole {start : ι} {nodes more : List ι} (trace : Trace next start nodes)
    (longer : Trace next start (nodes ++ more)) : more = [] := by
  cases more with
  | nil => rfl
  | cons b rest =>
    obtain ⟨before,last,rfl⟩ : ∃ before last, nodes = before ++ [last] := by
      cases nodes using List.reverseRecOn with
      | nil => exact absurd trace.head (by simp)
      | append_singleton before last => exact ⟨before,last,rfl⟩
    have step : next last = some b := (List.isChain_append.mp longer.linked).2.2 last (by simp) b (by simp)
    have again := trace.closed last (by simp) b step
    exact absurd rfl ((List.nodup_append.mp longer.distinct).2.2 b again b List.mem_cons_self)

theorem Trace.unique {start : ι} {nodes other : List ι} (trace : Trace next start nodes) (same : Trace next start other) :
    nodes = other := by
  obtain ⟨as,rfl⟩ := List.head?_eq_some_iff.mp trace.head
  obtain ⟨bs,rfl⟩ := List.head?_eq_some_iff.mp same.head
  rcases linked_prefix trace.linked same.linked with ⟨more,rfl⟩ | ⟨more,rfl⟩
  · rw [trace.whole same,List.append_nil]
  · rw [same.whole trace,List.append_nil]

theorem linked_known {known nodes : List ι} (finite : ∀ a b, next a = some b → b ∈ known) {start : ι}
    (linked : Linked next (start::nodes)) : ∀ a ∈ nodes, a ∈ known := by
  induction nodes generalizing start with
  | nil => exact fun _ listed => absurd listed List.not_mem_nil
  | cons b rest ih =>
    obtain ⟨step,linked⟩ := List.isChain_cons_cons.mp linked
    intro a listed
    rcases List.mem_cons.mp listed with same | listed
    · exact same ▸ finite start b step
    · exact ih linked a listed

end Traces

/-- A walk through finitely many nodes has a trace. -/
theorem exists_trace {known : List ι} (finite : ∀ a b, next a = some b → b ∈ known) (start : ι) :
    ∃ nodes, Trace next start nodes := by
  have head := page_head next (known.length + 1) start
  obtain ⟨-,linked⟩ := page_follows next (known.length + 2) (some start) []
  obtain ⟨distinct,-⟩ := page_distinct next (known.length + 2) (some start) []
  obtain ⟨-,full,-⟩ := page_length next (known.length + 2) (some start) []
  obtain ⟨-,closed⟩ := page_closed next (known.length + 2) (some start) []
  generalize page next (known.length + 2) (some start) [] = shown at head linked distinct full closed
  obtain ⟨nodes,listed⟩ := List.head?_eq_some_iff.mp head
  have few : shown.1.length ≤ known.length + 1 := by
    rw [listed] at linked distinct ⊢
    have inside := linked_known finite linked
    exact Nat.succ_le_succ (List.subperm_of_subset (List.nodup_cons.mp distinct).2 inside).length_le
  refine ⟨shown.1,head,linked,distinct,?_⟩
  intro a member b step
  rcases closed a member b step with here | before | stop
  · exact here
  · exact absurd before List.not_mem_nil
  · have := full b stop
    omega

/-! Pages. -/

/-- The pages of a walk that ends, or whose cycle closes within the page that enters it. -/
theorem pages_of_trace {size : Nat} (positive : 0 < size) (nodes : List ι) {x : ι} (linked : Linked next (x::nodes))
    (distinct : (x::nodes).Nodup)
    (ends : (x::nodes).getLast?.bind next = none ∨ ∃ tail cycle, x::nodes = tail ++ cycle ∧ cycle ≠ [] ∧
      (x::nodes).getLast?.bind next = cycle.head? ∧ tail.length % size + cycle.length < size) :
    ∃ pages, Pages next size x pages ∧ pages.flatten = x::nodes := by
  induction count : nodes.length using Nat.strong_induction_on generalizing x nodes with
  | _ count ih =>
    obtain ⟨full,short⟩ := page_linked size [] linked (by simpa using distinct)
    by_cases fits : (x::nodes).length < size
    · have turned := short fits (by
        intro b step
        rw [List.append_nil]
        rcases ends with stops | ⟨tail,cycle,whole,-,back,-⟩
        · exact absurd (stops.symm.trans step) (by simp)
        · rw [whole]
          exact List.mem_append_right _ (List.mem_of_mem_head? (back.symm.trans step)))
      exact ⟨_,.last (by rw [turned]),by rw [turned]; simp⟩
    · have turned := full positive (Nat.not_lt.mp fits)
      cases beyond : (x::nodes).drop size with
      | nil =>
        have exactly : (x::nodes).length = size := by
          have := congrArg List.length beyond
          simp only [List.length_drop,List.length_nil] at this
          omega
        rw [← exactly,List.take_length] at turned
        have stops : (x::nodes).getLast?.bind next = none := by
          rcases ends with stops | ⟨tail,cycle,whole,nonempty,-,closes⟩
          · exact stops
          · have size_eq : tail.length + cycle.length = size := by rw [← exactly,whole,List.length_append]
            have some_cycle := List.length_pos_iff.mpr nonempty
            rw [Nat.mod_eq_of_lt (by omega)] at closes
            omega
        refine ⟨_,.last (by rw [← exactly,turned]; exact stops),?_⟩
        rw [← exactly,turned]
        simp
      | cons y rest =>
        have split : (x::nodes).take size ++ y::rest = x::nodes := by rw [← beyond,List.take_append_drop]
        have shown : ((x::nodes).take size).length = size := List.length_take_of_le (Nat.not_lt.mp fits)
        rw [← split] at linked distinct ends
        obtain ⟨-,rest_linked,joined⟩ := List.isChain_append.mp linked
        have same_end : ((x::nodes).take size ++ y::rest).getLast? = (y::rest).getLast? :=
          List.getLast?_append_of_ne_nil _ (by simp)
        rw [same_end] at ends
        have step : ((x::nodes).take size).getLast?.bind next = some y := by
          cases last : ((x::nodes).take size).getLast? with
          | none => simp at last; omega
          | some a => exact joined a last y rfl
        have lengths := congrArg List.length split
        simp only [List.length_append,List.length_cons,shown] at lengths
        obtain ⟨pages,later,all⟩ := ih rest.length (by omega) rest rest_linked (List.nodup_append.mp distinct).2.1 (by
          refine ends.imp_right ?_
          rintro ⟨tail,cycle,whole,nonempty,back,closes⟩
          have some_cycle := List.length_pos_iff.mpr nonempty
          have counted := congrArg List.length whole
          simp only [List.length_append,List.length_cons,shown] at counted
          have past : size ≤ tail.length := by
            by_contra within
            rw [Nat.mod_eq_of_lt (by omega)] at closes
            omega
          refine ⟨tail.drop size,cycle,?_,nonempty,back,?_⟩
          · have dropped := congrArg (List.drop size) whole
            rwa [List.drop_left' shown,List.drop_append_of_le_length past] at dropped
          · rwa [List.length_drop,← Nat.mod_eq_sub_mod past]) rfl
        refine ⟨_,.more (by rw [turned]; exact step) later,?_⟩
        rw [turned,List.flatten_cons,all]
        exact split

variable (next) in
theorem pages_closed {size : Nat} (positive : 0 < size) {x : ι} {pages : List (List ι)} (turned : Pages next size x pages) :
    x ∈ pages.flatten ∧ ∀ a ∈ pages.flatten, ∀ b, next a = some b → b ∈ pages.flatten := by
  obtain ⟨n,rfl⟩ : ∃ n, size = n+1 := ⟨size-1,by omega⟩
  have head : ∀ x, x ∈ (page next (n+1) (some x) []).1 := fun x => List.mem_of_mem_head? (page_head next n x)
  induction turned with
  | @last x done =>
    obtain ⟨-,closed⟩ := page_closed next (n+1) (some x) []
    simp only [List.flatten_cons,List.flatten_nil,List.append_nil]
    refine ⟨head x,?_⟩
    intro a listed b step
    rcases closed a listed b step with here | before | stop
    · exact here
    · exact absurd before List.not_mem_nil
    · exact absurd (done.symm.trans stop) (by simp)
  | @more x y rest goes_on later ih =>
    obtain ⟨-,closed⟩ := page_closed next (n+1) (some x) []
    simp only [List.flatten_cons,List.mem_append]
    refine ⟨Or.inl (head x),?_⟩
    rintro a (listed | listed) b step
    · rcases closed a listed b step with here | before | stop
      · exact Or.inl here
      · exact absurd before List.not_mem_nil
      · obtain rfl := Option.some.inj (goes_on.symm.trans stop)
        exact Or.inr ih.1
    · exact Or.inr (ih.2 a listed b step)

/-- Pages that list a walk into a cycle once close the cycle within one page. -/
theorem pages_close {size : Nat} (positive : 0 < size) {x : ι} {pages : List (List ι)} (turned : Pages next size x pages)
    {tail cycle : List ι} (all : pages.flatten = tail ++ cycle) (distinct : (tail ++ cycle).Nodup)
    (closes : ∃ last ∈ cycle.getLast?,∃ first ∈ cycle.head?,next last = some first) :
    tail.length % size + cycle.length < size := by
  obtain ⟨last,at_end,first,at_start,back⟩ := closes
  induction turned generalizing tail with
  | @last x done =>
    obtain ⟨short,-,full⟩ := page_length next size (some x) []
    rw [List.flatten_cons,List.flatten_nil,List.append_nil] at all
    rw [all] at short full
    have ends : (tail ++ cycle).getLast? = some last := by
      rw [List.getLast?_append,at_end]
      rfl
    have within : (tail ++ cycle).length ≠ size := by
      intro whole
      have stop := full whole
      rw [ends,done] at stop
      exact absurd (stop.trans back) (by simp)
    have some_cycle : cycle ≠ [] := List.ne_nil_of_mem (List.mem_of_mem_head? at_start)
    have some_cycle := List.length_pos_iff.mpr some_cycle
    rw [List.length_append] at short within
    rw [Nat.mod_eq_of_lt (by omega)]
    omega
  | @more x y rest goes_on later ih =>
    have full := (page_length next size (some x) []).2.1 y goes_on
    obtain ⟨listed,closed⟩ := pages_closed next positive later
    have dropped := congrArg (List.drop size) all
    rw [List.flatten_cons,List.drop_left' full,List.drop_append] at dropped
    by_cases past : size ≤ tail.length
    · rw [Nat.sub_eq_zero_of_le past,List.drop_zero] at dropped
      have fewer : (tail.drop size ++ cycle).Nodup := by
        rw [← List.drop_append_of_le_length past]
        exact distinct.sublist (List.drop_sublist _ _)
      have within := ih dropped fewer
      rwa [List.length_drop,← Nat.mod_eq_sub_mod past] at within
    · -- the pages that are left would list the start of the cycle again
      rw [List.drop_eq_nil_of_le (by omega),List.nil_append] at dropped
      obtain ⟨k,ahead⟩ : ∃ k, size - tail.length = k+1 := ⟨size - tail.length - 1,by omega⟩
      rw [ahead] at dropped
      rw [dropped] at listed closed
      have nonempty : ¬cycle.length ≤ k+1 := by
        intro short
        rw [List.drop_eq_nil_of_le short] at listed
        exact absurd listed List.not_mem_nil
      have last_left : last ∈ cycle.drop (k+1) := by
        apply List.mem_of_getLast?
        rw [List.getLast?_drop,if_neg nonempty]
        exact at_end
      have again := closed last last_left first back
      obtain ⟨rest_cycle,rfl⟩ := List.head?_eq_some_iff.mp at_start
      rw [List.drop_succ_cons] at again
      exact absurd (List.mem_of_mem_drop again) (List.nodup_cons.mp (List.nodup_append.mp distinct).2.1).1

/-- The pages from a node list its walk exactly once unless a cycle does not close in time. -/
theorem pages_exact_iff {known : List ι} (finite : ∀ a b, next a = some b → b ∈ known) {size : Nat} (positive : 0 < size)
    (start : ι) :
    (∃ pages, Pages next size start pages ∧ Trace next start pages.flatten) ↔
      ∀ tail cycle, Loops next start tail cycle → tail.length % size + cycle.length < size := by
  constructor
  · intro listed tail cycle loops
    obtain ⟨pages,turned,trace⟩ := listed
    exact pages_close positive turned (trace.unique loops.trace) loops.trace.distinct loops.closes
  · intro closes
    obtain ⟨nodes,trace⟩ := exists_trace finite start
    obtain ⟨rest,rfl⟩ := List.head?_eq_some_iff.mp trace.head
    have ends : ((start::rest).getLast?.bind next = none) ∨ ∃ tail cycle, start::rest = tail ++ cycle ∧ cycle ≠ [] ∧
        (start::rest).getLast?.bind next = cycle.head? ∧ tail.length % size + cycle.length < size := by
      cases back : (start::rest).getLast?.bind next with
      | none => exact Or.inl rfl
      | some first =>
        obtain ⟨last,at_end,step⟩ := Option.bind_eq_some_iff.mp back
        obtain ⟨tail,cycle,whole⟩ := List.append_of_mem (trace.closed last (List.mem_of_getLast? at_end) first step)
        have same_end : (tail ++ first::cycle).getLast? = (first::cycle).getLast? :=
          List.getLast?_append_of_ne_nil _ (by simp)
        rw [whole,same_end] at at_end
        exact Or.inr ⟨tail,first::cycle,whole,by simp,rfl,
          closes tail (first::cycle) ⟨whole ▸ trace,last,at_end,first,rfl,step⟩⟩
    obtain ⟨pages,turned,all⟩ := pages_of_trace positive rest trace.linked trace.distinct ends
    exact ⟨pages,turned,all ▸ trace⟩

end AetherVault.Lib.PagedWalk
