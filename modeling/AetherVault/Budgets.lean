import AetherVault.ChangeSets
import AetherVault.Lib.Double

/-! Budgets: counters of what runs have used, increased under a lock of the row by the amounts
that the callers name. -/
namespace AetherVault
open Lib ReadCommit

inductive BudgetScope
  | run
  | lineage
  deriving DecidableEq

inductive BudgetDim
  | compute_seconds
  | storage_bytes
  | steps
  deriving DecidableEq

structure DBBudget where
  id : String
  project_id : String
  scope : BudgetScope
  scope_ref : String
  compute_seconds_limit : Option Double
  storage_bytes_limit : Option Int
  step_limit : Option Int
  compute_seconds_used : Double
  storage_bytes_used : Int
  steps_used : Int
  created_by : Option String
  created_at : Datetime
  updated_at : Datetime

structure BudgetBody where
  id : Option String
  project_id : Option String
  scope : Option BudgetScope
  scope_ref : Option String
  compute_seconds_limit : Option Double
  storage_bytes_limit : Option Int
  step_limit : Option Int

/-- What `float` and `int` make of the body; where they fail, the request fails before it writes. -/
structure Amounts where
  compute_seconds : Double
  storage_bytes : Int
  steps : Int

inductive BudgetRequest
  | create_budget (identity : Option String) (uuid : String) (body : BudgetBody)
  | consume_budget (budget_id : String) (amounts : Amounts)

inductive BudgetPlan
  | insert (row : Datetime → DBBudget)
  | consume (budget_id : String) (row : DBBudget) (amounts : Amounts)

/-- What the commit brings: a row can be more than its columns hold. -/
structure BudgetMoment where
  utcnow : Datetime
  storable : DBBudget → Bool

/-- The table, with the consumptions that were accepted. -/
structure Budgets where
  rows : Dict String DBBudget
  accepted : List (String × Amounts)

instance : EmptyCollection Budgets := ⟨⟨∅,[]⟩⟩

def budget_exceeded_dims (row : DBBudget) : List BudgetDim :=
  (if row.compute_seconds_limit.any fun limit => limit.lt row.compute_seconds_used then [.compute_seconds] else []) ++
    (if row.storage_bytes_limit.any fun limit => decide (limit < row.storage_bytes_used) then [.storage_bytes] else []) ++
    if row.step_limit.any fun limit => decide (limit < row.steps_used) then [.steps] else []

def BudgetRequest.plan (s : Budgets) : BudgetRequest → Option BudgetPlan
  | create_budget identity uuid body => do
    let budget_id := or_else body.id uuid
    let project_id ← body.project_id.filter (· ≠ "")
    let scope ← body.scope
    let scope_ref ← body.scope_ref.filter (· ≠ "")
    guard (!s.rows.contains budget_id)
    some (.insert fun now => ⟨budget_id,project_id,scope,scope_ref,body.compute_seconds_limit,body.storage_bytes_limit,body.step_limit,
      .finite 0,0,0,identity,now,now⟩)
  | consume_budget budget_id amounts => do
    let row ← s.rows.get? budget_id
    some (.consume budget_id row amounts)

section Writing

variable [Double.Rounding]

def DBBudget.increased (row : DBBudget) (amounts : Amounts) (now : Datetime) : DBBudget := {row with
  compute_seconds_used := row.compute_seconds_used.add amounts.compute_seconds
  storage_bytes_used := row.storage_bytes_used + amounts.storage_bytes
  steps_used := row.steps_used + amounts.steps
  updated_at := now}

def BudgetPlan.write (plan : BudgetPlan) (now : BudgetMoment) (s : Budgets) : Budgets :=
  match plan with
  | insert row => if s.rows.contains (row now.utcnow).id then s else {s with rows := s.rows.set (row now.utcnow).id (row now.utcnow)}
  | consume budget_id row amounts => if now.storable (row.increased amounts now.utcnow) then
      ⟨s.rows.set budget_id (row.increased amounts now.utcnow),s.accepted ++ [(budget_id,amounts)]⟩ else s

/-- `with_for_update` -/
def BudgetRequest.waits : BudgetRequest → BudgetPlan → Bool
  | consume_budget budget_id _,.consume locked _ _ => locked == budget_id
  | _,_ => false

def budgets : Protocol Budgets BudgetRequest BudgetPlan BudgetMoment where
  plan request s := request.plan s
  write := BudgetPlan.write
  waits := BudgetRequest.waits

end Writing

namespace Budgets

section Accounting

variable [Double.Rounding]

def amounts_of (s : Budgets) (budget_id : String) : List Amounts :=
  (s.accepted.filter fun entry => entry.1 = budget_id).map Prod.snd

/-- The counters of a row are the sums of these amounts. -/
structure Sums (row : DBBudget) (amounts : List Amounts) : Prop where
  compute_seconds : row.compute_seconds_used = (amounts.map Amounts.compute_seconds).foldl Double.add (.finite 0)
  storage_bytes : row.storage_bytes_used = (amounts.map Amounts.storage_bytes).sum
  steps : row.steps_used = (amounts.map Amounts.steps).sum

/-- Every counter is the sum of what was accepted. -/
def Accounted (s : Budgets) : Prop := ∀ budget_id row, s.rows.get? budget_id = some row → Sums row (s.amounts_of budget_id)

/-- No counter is lower, and what was exceeded still is. -/
structure NotBelow (row next : DBBudget) : Prop where
  compute_seconds : row.compute_seconds_used.le next.compute_seconds_used = true
  storage_bytes : row.storage_bytes_used ≤ next.storage_bytes_used
  steps : row.steps_used ≤ next.steps_used
  exceeded : budget_exceeded_dims row ⊆ budget_exceeded_dims next

def Grows (s later : Budgets) : Prop := ∀ budget_id row, s.rows.get? budget_id = some row →
  ∃ next, later.rows.get? budget_id = some next ∧ NotBelow row next

structure NonNegative (amounts : Amounts) : Prop where
  compute_seconds : (Double.finite 0).le amounts.compute_seconds = true
  storage_bytes : 0 ≤ amounts.storage_bytes
  steps : 0 ≤ amounts.steps

/-- What is accepted is not negative, in any dimension. -/
def Spends (plan : BudgetPlan) (now : BudgetMoment) (_ : Budgets) : Prop :=
  match plan with
  | .insert _ => True
  | .consume _ row amounts => now.storable (row.increased amounts now.utcnow) = true → NonNegative amounts

/-- The row is still the one that was read. -/
def Fresh (plan : BudgetPlan) (s : Budgets) : Prop :=
  match plan with
  | .insert _ => True
  | .consume budget_id row _ => s.rows.get? budget_id = some row

/-- A budget that nothing was accepted for has no consumptions, and one starts at zero. -/
structure Kept (s : Budgets) : Prop where
  accounted : s.Accounted
  known : ∀ entry ∈ s.accepted, s.rows.contains entry.1 = true

def Starts : BudgetPlan → Prop
  | .insert row => ∀ now, (row now).compute_seconds_used = .finite 0 ∧ (row now).storage_bytes_used = 0 ∧ (row now).steps_used = 0
  | .consume _ _ _ => True

variable {s : Budgets}

omit [Double.Rounding] in
theorem plan_starts (request : BudgetRequest) (s : Budgets) (plan : BudgetPlan) (planned : request.plan s = some plan) : Starts plan := by
  cases request with
  | create_budget identity uuid body =>
    simp only [BudgetRequest.plan,Option.bind_eq_bind,Option.bind_eq_some_iff] at planned
    obtain ⟨project_id,-,scope,-,scope_ref,-,-,-,made⟩ := planned
    cases made
    intro now
    exact ⟨rfl,rfl,rfl⟩
  | consume_budget budget_id amounts =>
    simp only [BudgetRequest.plan,Option.bind_eq_bind,Option.bind_eq_some_iff] at planned
    obtain ⟨row,-,made⟩ := planned
    cases made
    trivial

omit [Double.Rounding] in
theorem amounts_of_append (s : Budgets) (rows : Dict String DBBudget) (spent budget_id : String) (amounts : Amounts) :
    amounts_of ⟨rows,s.accepted ++ [(spent,amounts)]⟩ budget_id = s.amounts_of budget_id ++ (if spent = budget_id then [amounts] else []) := by
  unfold amounts_of
  by_cases same : spent = budget_id <;> simp [same]

theorem Sums.increased {row : DBBudget} {spent : List Amounts} (sums : Sums row spent) (amounts : Amounts) (now : Datetime) :
    Sums (row.increased amounts now) (spent ++ [amounts]) where
  compute_seconds := by simp [DBBudget.increased,sums.compute_seconds]
  storage_bytes := by simp [DBBudget.increased,sums.storage_bytes]
  steps := by simp [DBBudget.increased,sums.steps]

theorem Kept.write (kept : Kept s) {plan : BudgetPlan} (starts : Starts plan) (fresh : Fresh plan s) (now : BudgetMoment) :
    Kept (plan.write now s) := by
  cases plan with
  | insert row =>
    simp only [BudgetPlan.write]
    split
    · exact kept
    · rename_i free
      constructor
      · intro budget_id found there
        rw [Dict.get?_set] at there
        split at there
        · rename_i same
          cases there
          have nothing : s.amounts_of budget_id = [] := by
            unfold amounts_of
            rw [List.map_eq_nil_iff,List.filter_eq_nil_iff]
            intro entry accepted mine
            have known := kept.known entry accepted
            rw [of_decide_eq_true mine,same] at known
            exact free known
          obtain ⟨compute_seconds,storage_bytes,steps⟩ := starts now.utcnow
          change Sums _ (s.amounts_of budget_id)
          rw [nothing]
          exact ⟨compute_seconds,storage_bytes,steps⟩
        · exact kept.accounted budget_id found there
      · intro entry accepted
        exact Dict.contains_set _ _ _ (kept.known entry accepted)
  | consume budget_id row amounts =>
    simp only [BudgetPlan.write]
    split
    · constructor
      · intro other found there
        rw [amounts_of_append]
        rw [Dict.get?_set] at there
        split at there
        · rename_i same
          cases there
          subst same
          rw [if_pos rfl]
          exact (kept.accounted other row fresh).increased amounts now.utcnow
        · rename_i differ
          rw [if_neg (Ne.symm differ),List.append_nil]
          exact kept.accounted other found there
      · intro entry accepted
        cases List.mem_append.mp accepted with
        | inl old => exact Dict.contains_set _ _ _ (kept.known entry old)
        | inr new =>
          rw [List.mem_singleton.mp new]
          exact (Dict.contains_iff _ _).mpr ⟨_,Dict.get?_set_same _ _ _⟩
    · exact kept

/-- Under the lock a row is increased from what it is, not from what it was when it was read. -/
theorem every_fresh (moves : List (Move BudgetRequest BudgetMoment)) : budgets.Every ∅ (fun plan _ s => Fresh plan s) moves := by
  intro before i now after plan split found
  have undisturbed := Protocol.pending_fresh (P := budgets) (F := Fresh)
    (B := fun a b => ∀ budget_id row amounts, a = .consume budget_id row amounts → ∀ other row' amounts',
      b = .consume other row' amounts' → budget_id ≠ other)
    (fun a b apart other row' amounts' here budget_id row amounts there => (apart budget_id row amounts there other row' amounts' here).symm)
    ?_ ?_ ?_ ∅ before
  · exact undisturbed.1 i plan found
  · intro request s plan other planned free budget_id row amounts here locked row' amounts' there
    subst here there
    cases request with
    | create_budget identity uuid body =>
      simp only [budgets,BudgetRequest.plan,Option.bind_eq_bind,Option.bind_eq_some_iff] at planned
      obtain ⟨project_id,-,scope,-,scope_ref,-,-,-,made⟩ := planned
      cases made
    | consume_budget asked wanted =>
      simp only [budgets,BudgetRequest.plan,Option.bind_eq_bind,Option.bind_eq_some_iff] at planned
      obtain ⟨read,-,made⟩ := planned
      cases made
      exact (ne_of_beq_false free).symm
  · intro request s plan planned
    cases request with
    | create_budget identity uuid body =>
      simp only [budgets,BudgetRequest.plan,Option.bind_eq_bind,Option.bind_eq_some_iff] at planned
      obtain ⟨project_id,-,scope,-,scope_ref,-,-,-,made⟩ := planned
      cases made
      trivial
    | consume_budget budget_id amounts =>
      simp only [budgets,BudgetRequest.plan,Option.bind_eq_bind,Option.bind_eq_some_iff] at planned
      obtain ⟨row,found,made⟩ := planned
      cases made
      exact found
  · intro plan other now s apart fresh
    cases plan with
    | insert row => trivial
    | consume budget_id row amounts =>
      cases other with
      | insert added =>
        simp only [budgets,BudgetPlan.write]
        split
        · exact fresh
        · rename_i free
          have differ : budget_id ≠ (added now.utcnow).id := by
            rintro rfl
            exact free ((Dict.contains_iff _ _).mpr ⟨row,fresh⟩)
          exact (Dict.get?_set_other _ _ _ _ differ).trans fresh
      | consume locked row' amounts' =>
        have differ := apart budget_id row amounts rfl locked row' amounts' rfl
        simp only [budgets,BudgetPlan.write]
        split
        · exact (Dict.get?_set_other _ _ _ _ differ).trans fresh
        · exact fresh

/-- The counters are the sums of what was accepted, whatever the amounts. -/
theorem run_accounted (moves : List (Move BudgetRequest BudgetMoment)) : (budgets.run ∅ moves).shared.Accounted :=
  (Protocol.run_keeps (I := Kept) (A := Starts) (fun request s plan _ planned => plan_starts request s plan planned)
    (fun _ now _ starts fresh kept => kept.write starts fresh now) ⟨fun _ _ found => by contradiction,fun _ among => by contradiction⟩
    (every_fresh moves)).1.accounted

def Exceeds (row : DBBudget) : BudgetDim → Prop
  | .compute_seconds => ∃ limit ∈ row.compute_seconds_limit, limit.lt row.compute_seconds_used = true
  | .storage_bytes => ∃ limit ∈ row.storage_bytes_limit, limit < row.storage_bytes_used
  | .steps => ∃ limit ∈ row.step_limit, limit < row.steps_used

omit [Double.Rounding] in
theorem mem_exceeded (row : DBBudget) (dim : BudgetDim) : dim ∈ budget_exceeded_dims row ↔ Exceeds row dim := by
  cases dim <;> simp [budget_exceeded_dims,Exceeds,Option.any_eq_true]

omit [Double.Rounding] in
theorem exceeded_subset {row next : DBBudget} (compute_seconds_limit : next.compute_seconds_limit = row.compute_seconds_limit)
    (storage_bytes_limit : next.storage_bytes_limit = row.storage_bytes_limit) (step_limit : next.step_limit = row.step_limit)
    (compute_seconds : row.compute_seconds_used.le next.compute_seconds_used = true)
    (storage_bytes : row.storage_bytes_used ≤ next.storage_bytes_used) (steps : row.steps_used ≤ next.steps_used) :
    budget_exceeded_dims row ⊆ budget_exceeded_dims next := by
  intro dim exceeded
  rw [mem_exceeded] at exceeded ⊢
  cases dim with
  | compute_seconds =>
    obtain ⟨limit,given,above⟩ := exceeded
    exact ⟨limit,by rwa [compute_seconds_limit],Double.lt_of_lt_of_le above compute_seconds⟩
  | storage_bytes =>
    obtain ⟨limit,given,above⟩ := exceeded
    exact ⟨limit,by rwa [storage_bytes_limit],lt_of_lt_of_le above storage_bytes⟩
  | steps =>
    obtain ⟨limit,given,above⟩ := exceeded
    exact ⟨limit,by rwa [step_limit],lt_of_lt_of_le above steps⟩

def Counting (s : Budgets) : Prop := ∀ budget_id row, s.rows.get? budget_id = some row → Double.Counter row.compute_seconds_used

theorem NotBelow.increased {row : DBBudget} (counter : Double.Counter row.compute_seconds_used) {amounts : Amounts}
    (nonnegative : NonNegative amounts) (now : Datetime) : NotBelow row (row.increased amounts now) := by
  have compute_seconds := counter.le_add nonnegative.compute_seconds
  have storage_bytes : row.storage_bytes_used ≤ row.storage_bytes_used + amounts.storage_bytes :=
    Int.le_add_of_nonneg_right nonnegative.storage_bytes
  have steps : row.steps_used ≤ row.steps_used + amounts.steps := Int.le_add_of_nonneg_right nonnegative.steps
  exact ⟨compute_seconds,storage_bytes,steps,exceeded_subset rfl rfl rfl compute_seconds storage_bytes steps⟩

omit [Double.Rounding] in
theorem NotBelow.trans {row next last : DBBudget} (first : NotBelow row next) (second : NotBelow next last) : NotBelow row last where
  compute_seconds := Double.le_trans first.compute_seconds second.compute_seconds
  storage_bytes := Int.le_trans first.storage_bytes second.storage_bytes
  steps := Int.le_trans first.steps second.steps
  exceeded := List.Subset.trans first.exceeded second.exceeded

theorem Grows.refl (counting : Counting s) : Grows s s := by
  intro budget_id row found
  exact ⟨row,found,(counting budget_id row found).le_refl,Int.le_refl _,Int.le_refl _,List.Subset.refl _⟩

omit [Double.Rounding] in
theorem Grows.trans {later last : Budgets} (first : Grows s later) (second : Grows later last) : Grows s last := by
  intro budget_id row found
  obtain ⟨next,there,more⟩ := first budget_id row found
  obtain ⟨final,kept,still⟩ := second budget_id next there
  exact ⟨final,kept,more.trans still⟩

theorem write_grows {plan : BudgetPlan} {now : BudgetMoment} (starts : Starts plan) (fresh : Fresh plan s) (spends : Spends plan now s)
    (counting : Counting s) : Counting (plan.write now s) ∧ Grows s (plan.write now s) := by
  cases plan with
  | insert row =>
    simp only [BudgetPlan.write]
    split
    · exact ⟨counting,.refl counting⟩
    · rename_i free
      constructor
      · intro budget_id found there
        rw [Dict.get?_set] at there
        split at there
        · cases there
          rw [(starts now.utcnow).1]
          exact Double.counter_zero
        · exact counting budget_id found there
      · intro budget_id found there
        have differ : budget_id ≠ (row now.utcnow).id := by
          rintro rfl
          exact free ((Dict.contains_iff _ _).mpr ⟨found,there⟩)
        obtain ⟨next,here,same⟩ := Grows.refl counting budget_id found there
        exact ⟨next,(Dict.get?_set_other _ _ _ _ differ).trans here,same⟩
  | consume budget_id row amounts =>
    simp only [BudgetPlan.write]
    split
    · rename_i storable
      have nonnegative : NonNegative amounts := spends storable
      have counter := counting budget_id row fresh
      constructor
      · intro other found there
        rw [Dict.get?_set] at there
        split at there
        · cases there
          exact counter.add nonnegative.compute_seconds
        · exact counting other found there
      · intro other found there
        by_cases same : other = budget_id
        · subst same
          have equal : found = row := Option.some.inj (there.symm.trans fresh)
          subst equal
          exact ⟨_,Dict.get?_set_same _ _ _,.increased counter nonnegative now.utcnow⟩
        · obtain ⟨next,here,kept⟩ := Grows.refl counting other found there
          exact ⟨next,(Dict.get?_set_other _ _ _ _ same).trans here,kept⟩
    · exact ⟨counting,.refl counting⟩

/-- In a run that accepts no negative amount the counters never go down, are always the sums of what was accepted,
and what is exceeded stays exceeded. -/
theorem budget_accounting {moves : List (Move BudgetRequest BudgetMoment)} (spends : budgets.Every ∅ Spends moves)
    {before between after : List (Move BudgetRequest BudgetMoment)} (split : moves = before ++ between ++ after) :
    (budgets.run ∅ before).shared.Accounted ∧ Grows (budgets.run ∅ before).shared (budgets.run ∅ (before ++ between)).shared := by
  constructor
  · exact run_accounted before
  · apply Protocol.run_relates (I := Counting) (A := Starts) (F := fun plan now s => Fresh plan s ∧ Spends plan now s)
      (fun s counting => Grows.refl counting) (fun _ _ _ => Grows.trans)
      (fun request s plan _ planned => plan_starts request s plan planned)
      (fun plan now s starts both counting => (write_grows starts both.1 both.2 counting).1)
      (fun plan now s starts both counting => (write_grows starts both.1 both.2 counting).2)
    · intro budget_id row found
      contradiction
    · intro earlier i now later plan cut found
      exact ⟨every_fresh moves earlier i now later plan cut found,spends earlier i now later plan cut found⟩
    · exact split

end Accounting

section Refunded

open ChangeSets (noon)

def at_noon : BudgetMoment := ⟨noon,fun _ => true⟩

def granted : List (Move BudgetRequest BudgetMoment) :=
  [.read 1 (.create_budget none "b" ⟨none,some "p",some .run,some "r",none,none,some 3⟩),.commit 1 at_noon]

def consuming (steps : Int) : List (Move BudgetRequest BudgetMoment) :=
  [.read 2 (.consume_budget "b" ⟨.finite 0,0,steps⟩),.commit 2 at_noon]

theorem granted_spends : (@budgets Double.unrounded).Every ∅ (@Spends Double.unrounded) (granted ++ consuming 5) := by
  change (@budgets Double.unrounded).Every ∅ _ (((([] ++ [_]) ++ [_]) ++ [_]) ++ [_])
  simp only [Protocol.every_concat_iff]
  refine ⟨⟨⟨⟨Protocol.every_nil,?_⟩,?_⟩,?_⟩,?_⟩
  · intro i now plan impossible
    cases impossible
  · intro i now plan last found
    cases last
    cases found
    trivial
  · intro i now plan impossible
    cases impossible
  · intro i now plan last found
    cases last
    cases found
    intro _
    exact ⟨by decide,by decide,by decide⟩

theorem budget_accounting_granted : @Accounted Double.unrounded ((@budgets Double.unrounded).run ∅ granted).shared ∧
    Grows ((@budgets Double.unrounded).run ∅ granted).shared ((@budgets Double.unrounded).run ∅ (granted ++ consuming 5)).shared :=
  @budget_accounting Double.unrounded _ granted_spends granted (consuming 5) [] (by rw [List.append_nil])

/-- A negative amount takes back what exceeded the limit. -/
theorem budget_refunded : ¬ ∀ [Double.Rounding] (before between : List (Move BudgetRequest BudgetMoment)),
    Grows (budgets.run ∅ before).shared (budgets.run ∅ (before ++ between)).shared := by
  intro all
  have used : (((@budgets Double.unrounded).run ∅ (granted ++ consuming 5)).shared.rows.get? "b").map DBBudget.steps_used = some 5 := by
    decide +kernel
  have refunded : (((@budgets Double.unrounded).run ∅ (granted ++ consuming 5 ++ consuming (-5))).shared.rows.get? "b").map
      DBBudget.steps_used = some 0 := by decide +kernel
  obtain ⟨row,found,five⟩ := Option.map_eq_some_iff.mp used
  obtain ⟨next,there,more⟩ := @all Double.unrounded (granted ++ consuming 5) (consuming (-5)) "b" row found
  rw [there] at refunded
  have zero : next.steps_used = 0 := Option.some.inj refunded
  have grown := more.steps
  omega

end Refunded

end Budgets

end AetherVault
