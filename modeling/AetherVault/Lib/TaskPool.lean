import Mathlib.Algebra.BigOperators.Group.Finset.Basic
import Mathlib.Algebra.Order.BigOperators.Group.Finset
import Mathlib.Data.Fintype.Basic
import Mathlib.Order.Interval.Finset.Nat

/-! Calls that share a pool of workers. Each call puts its tasks into the queue of the pool, a window of them at a
time, and takes the outcomes in the order of the tasks; a task that fails sets the call's flag, and a task that
finds the flag set is skipped. -/
namespace AetherVault.Lib.TaskPool

/-- What a call is to do. One that drains waits for the tasks it has handed out before it raises. -/
structure Job (E R : Type) where
  tasks : Nat
  window : Nat
  drains : Bool
  work : Nat → Except E R
  skipped : R

inductive Stage (E R : Type)
  | waiting
  | queued
  | picked
  | working
  | done (outcome : Except E R)
  | ready (outcome : Except E R)

inductive Mode (E : Type)
  | running
  | draining (e : E)
  | raised (e : E)
  | returned

structure Call (E R : Type) where
  stage : Nat → Stage E R
  cancelled : Bool
  next : Nat
  results : List R
  mode : Mode E

variable {E R : Type}

def failed : Except E R → Bool
  | .ok _ => false
  | .error _ => true

def Stage.is_ready : Stage E R → Bool
  | .ready _ => true
  | _ => false

def Mode.is_running : Mode E → Bool
  | .running => true
  | _ => false

namespace Call

def start : Call E R := ⟨fun _ => .waiting,false,0,[],.running⟩

def mark (c : Call E R) (i : Nat) (stage : Stage E R) : Call E R := {c with stage := Function.update c.stage i stage}

/-- There is room in the window, and a task left. -/
def filling (job : Job E R) (c : Call E R) : Bool :=
  c.mode.is_running && decide (c.next < job.tasks ∧ c.next < c.results.length + job.window)

def put (c : Call E R) : Call E R := {c.mark c.next .queued with next := c.next + 1}

def check (job : Job E R) (c : Call E R) (i : Nat) : Call E R :=
  c.mark i (if c.cancelled then .done (.ok job.skipped) else .working)

def finish (job : Job E R) (c : Call E R) (i : Nat) : Call E R :=
  {c.mark i (.done (job.work i)) with cancelled := c.cancelled || failed (job.work i)}

/-- The next step of the caller once the window is full: the oldest outcome, or the end. -/
def consume (job : Job E R) (c : Call E R) : Option (Call E R) :=
  match c.mode with
  | .running =>
    if c.results.length < c.next then
      match c.stage c.results.length with
      | .ready (.ok r) => some {c with results := c.results ++ [r]}
      | .ready (.error e) => some {c with cancelled := true, mode := if job.drains then .draining e else .raised e}
      | _ => none
    else if job.tasks ≤ c.next then some {c with mode := .returned} else none
  | .draining e => if (List.range c.next).all fun i => (c.stage i).is_ready then some {c with mode := .raised e} else none
  | _ => none

end Call

/-- The calls, what each worker is at, and the tasks that wait for a worker. -/
structure Pool (J W E R : Type) where
  calls : J → Call E R
  workers : W → Option (J × Nat)
  queue : List (J × Nat)

inductive Act (J W : Type)
  | call (j : J)
  | take (w : W)
  | work (w : W)

variable {J W : Type} [DecidableEq J] [DecidableEq W]

namespace Pool

def start : Pool J W E R := ⟨fun _ => Call.start,fun _ => none,[]⟩

def sets (s : Pool J W E R) (j : J) (c : Call E R) : Pool J W E R := {s with calls := Function.update s.calls j c}

def staffs (s : Pool J W E R) (w : W) (task : Option (J × Nat)) : Pool J W E R := {s with workers := Function.update s.workers w task}

variable (jobs : J → Job E R)

def step (s : Pool J W E R) : Act J W → Option (Pool J W E R)
  | .call j =>
    let c := s.calls j
    if c.filling (jobs j) then some {s.sets j c.put with queue := s.queue ++ [(j,c.next)]}
    else (c.consume (jobs j)).map fun c => s.sets j c
  | .take w => match s.workers w,s.queue with
    | none,(j,i)::queue => some {(s.sets j ((s.calls j).mark i .picked)).staffs w (some (j,i)) with queue := queue}
    | _,_ => none
  | .work w => match s.workers w with
    | none => none
    | some (j,i) => match (s.calls j).stage i with
      | .picked => some (s.sets j ((s.calls j).check (jobs j) i))
      | .working => some (s.sets j ((s.calls j).finish (jobs j) i))
      | .done outcome => some ((s.sets j ((s.calls j).mark i (.ready outcome))).staffs w none)
      | _ => none

def run (s : Pool J W E R) : List (Act J W) → Option (Pool J W E R)
  | [] => some s
  | act::acts => (s.step jobs act).bind fun s => s.run acts

end Pool

/-! What one step does to a call. -/

inductive Moves (job : Job E R) (c : Call E R) : Call E R → Prop
  | put (fills : c.filling job = true) : Moves job c c.put
  | pick (i : Nat) (at_stage : c.stage i = .queued) : Moves job c (c.mark i .picked)
  | check (i : Nat) (at_stage : c.stage i = .picked) : Moves job c (c.check job i)
  | finish (i : Nat) (at_stage : c.stage i = .working) : Moves job c (c.finish job i)
  | deliver (i : Nat) (outcome : Except E R) (at_stage : c.stage i = .done outcome) : Moves job c (c.mark i (.ready outcome))
  | consume (fills : c.filling job = false) (c' : Call E R) (consumed : c.consume job = some c') : Moves job c c'

/-- What the caller does with the oldest outcome, and where it ends. -/
inductive Consumed (job : Job E R) (c : Call E R) : Call E R → Prop
  | get (r : R) (running : c.mode = .running) (out : c.results.length < c.next) (first : c.stage c.results.length = .ready (.ok r)) :
      Consumed job c {c with results := c.results ++ [r]}
  | raise (e : E) (running : c.mode = .running) (out : c.results.length < c.next)
      (first : c.stage c.results.length = .ready (.error e)) :
      Consumed job c {c with cancelled := true, mode := if job.drains then .draining e else .raised e}
  | return_ (running : c.mode = .running) (all_taken : c.next ≤ c.results.length) (all_out : job.tasks ≤ c.next) :
      Consumed job c {c with mode := .returned}
  | drained (e : E) (draining : c.mode = .draining e) (all_ready : ∀ i < c.next, (c.stage i).is_ready = true) :
      Consumed job c {c with mode := .raised e}

theorem consumed_of {job : Job E R} {c c' : Call E R} (consumed : c.consume job = some c') : Consumed job c c' := by
  rw [Call.consume] at consumed
  cases mode : c.mode with
  | running =>
    simp only [mode] at consumed
    split at consumed
    · rename_i out
      cases first : c.stage c.results.length with
      | ready outcome =>
        cases outcome with
        | ok r =>
          simp only [first,Option.some.injEq] at consumed
          rw [← consumed,← mode]
          exact .get r mode out first
        | error e =>
          simp only [first,Option.some.injEq] at consumed
          exact consumed ▸ .raise e mode out first
      | _ => simp only [first,reduceCtorEq] at consumed
    · rename_i none_out
      split at consumed
      · rename_i all_out
        exact Option.some.inj consumed ▸ .return_ mode (Nat.le_of_not_lt none_out) all_out
      · contradiction
  | draining e =>
    simp only [mode] at consumed
    split at consumed
    · rename_i all_ready
      refine Option.some.inj consumed ▸ .drained e mode fun i out => ?_
      exact List.all_eq_true.mp all_ready i (List.mem_range.mpr out)
    · contradiction
  | raised e => simp only [mode,reduceCtorEq] at consumed
  | returned => simp only [mode,reduceCtorEq] at consumed

namespace Pool

variable {jobs : J → Job E R} {s s' : Pool J W E R}

theorem take_eq {w : W} (stepped : s.step jobs (.take w) = some s') : ∃ j i queue, s.workers w = none ∧ s.queue = (j,i)::queue ∧
    s' = {(s.sets j ((s.calls j).mark i .picked)).staffs w (some (j,i)) with queue := queue} := by
  simp only [step] at stepped
  cases idle : s.workers w with
  | some task => simp only [idle,reduceCtorEq] at stepped
  | none =>
    cases line : s.queue with
    | nil => simp only [idle,line,reduceCtorEq] at stepped
    | cons task queue =>
      obtain ⟨j,i⟩ := task
      simp only [idle,line,Option.some.injEq] at stepped
      exact ⟨j,i,queue,rfl,rfl,stepped.symm⟩

/-- What waits in the queue has been put there and not taken yet. -/
def Queued (s : Pool J W E R) : Prop := ∀ j i, (j,i) ∈ s.queue → (s.calls j).stage i = .queued

theorem step_moves (queued : s.Queued) {act : Act J W} (stepped : s.step jobs act = some s') :
    ∃ j c, Moves (jobs j) (s.calls j) c ∧ s'.calls = Function.update s.calls j c := by
  cases act with
  | call j =>
    simp only [step] at stepped
    split at stepped
    · rename_i fills
      obtain rfl := Option.some.inj stepped
      exact ⟨j,_,.put fills,rfl⟩
    · rename_i full
      obtain ⟨c,consumed,rfl⟩ := Option.map_eq_some_iff.mp stepped
      exact ⟨j,c,.consume (Bool.eq_false_iff.mpr full) c consumed,rfl⟩
  | take w =>
    obtain ⟨j,i,rest,-,line,rfl⟩ := take_eq stepped
    exact ⟨j,_,.pick i (queued j i (line ▸ List.mem_cons_self)),rfl⟩
  | work w =>
    simp only [step] at stepped
    cases held : s.workers w with
    | none => simp only [held,reduceCtorEq] at stepped
    | some task =>
      obtain ⟨j,i⟩ := task
      simp only [held] at stepped
      cases at_stage : (s.calls j).stage i with
      | picked =>
        simp only [at_stage,Option.some.injEq] at stepped
        exact ⟨j,_,.check i at_stage,stepped ▸ rfl⟩
      | working =>
        simp only [at_stage,Option.some.injEq] at stepped
        exact ⟨j,_,.finish i at_stage,stepped ▸ rfl⟩
      | done outcome =>
        simp only [at_stage,Option.some.injEq] at stepped
        exact ⟨j,_,.deliver i outcome at_stage,stepped ▸ rfl⟩
      | _ => simp only [at_stage,reduceCtorEq] at stepped

end Pool

/-! A call, whatever the others do. -/

/-- The task stands for an error that some task came to. -/
def Call.Fell (c : Call E R) (i : Nat) (e : E) : Prop := i < c.next ∧ (c.stage i = .done (.error e) ∨ c.stage i = .ready (.error e))

theorem Call.Fell.mark {c : Call E R} {k : Nat} {e : E} (fell : c.Fell k e) {i : Nat} {stage : Stage E R}
    (open_ : (c.stage i).is_ready = false) (kept : ∀ e, c.stage i = .done (.error e) → stage = .ready (.error e)) :
    (c.mark i stage).Fell k e := by
  refine ⟨fell.1,?_⟩
  by_cases same : k = i
  · subst same
    simp only [Call.mark,Function.update_self]
    rcases fell.2 with done | ready
    · exact .inr (kept e done)
    · rw [ready] at open_
      contradiction
  · simp only [Call.mark,Function.update_of_ne same]
    exact fell.2

structure Call.Sound (job : Job E R) (c : Call E R) : Prop where
  put_le : c.next ≤ job.tasks
  taken_le : c.results.length ≤ c.next
  within : c.next ≤ c.results.length + job.window
  waiting : ∀ i, c.stage i = .waiting ↔ c.next ≤ i
  genuine : ∀ i outcome, c.stage i = .done outcome ∨ c.stage i = .ready outcome →
    outcome = job.work i ∨ c.cancelled = true ∧ outcome = .ok job.skipped
  cause : c.cancelled = true → ∃ i e, c.Fell i e
  taken : ∀ k r, c.results[k]? = some r → c.stage k = .ready (.ok r)
  raised : ∀ e, c.mode = .draining e ∨ c.mode = .raised e → ∃ i, c.Fell i e
  returned : c.mode = .returned → c.results.length = job.tasks

theorem Call.start_sound (job : Job E R) : (Call.start : Call E R).Sound job where
  put_le := Nat.zero_le _
  taken_le := Nat.zero_le _
  within := Nat.zero_le _
  waiting i := by simp [Call.start]
  genuine i outcome held := by simp [Call.start] at held
  cause flagged := by simp [Call.start] at flagged
  taken k r held := by simp [Call.start] at held
  raised e held := by simp [Call.start] at held
  returned held := by simp [Call.start] at held

namespace Call.Sound

variable {job : Job E R} {c c' : Call E R}

theorem mark (sound : c.Sound job) {i : Nat} {stage : Stage E R} (out : c.stage i ≠ .waiting) (open_ : (c.stage i).is_ready = false)
    (kept_out : stage ≠ .waiting) (genuine : ∀ outcome, stage = .done outcome ∨ stage = .ready outcome →
      outcome = job.work i ∨ c.cancelled = true ∧ outcome = .ok job.skipped)
    (kept : ∀ e, c.stage i = .done (.error e) → stage = .ready (.error e)) : (c.mark i stage).Sound job where
  put_le := sound.put_le
  taken_le := sound.taken_le
  within := sound.within
  waiting k := by
    by_cases same : k = i
    · subst same
      simp only [Call.mark,Function.update_self,kept_out,false_iff]
      exact fun beyond => out ((sound.waiting k).mpr beyond)
    · simp only [Call.mark,Function.update_of_ne same]
      exact sound.waiting k
  genuine k outcome held := by
    by_cases same : k = i
    · subst same
      simp only [Call.mark,Function.update_self] at held
      exact genuine outcome held
    · simp only [Call.mark,Function.update_of_ne same] at held
      exact sound.genuine k outcome held
  cause flagged := by
    obtain ⟨k,e,fell⟩ := sound.cause flagged
    exact ⟨k,e,fell.mark open_ kept⟩
  taken k r held := by
    have first := sound.taken k r held
    have other : k ≠ i := by
      rintro rfl
      rw [first] at open_
      contradiction
    simp only [Call.mark,Function.update_of_ne other]
    exact first
  raised e held := by
    obtain ⟨k,fell⟩ := sound.raised e held
    exact ⟨k,fell.mark open_ kept⟩
  returned := sound.returned

theorem flag (sound : c.Sound job) {b : Bool} (cause : b = true → ∃ i e, c.Fell i e) :
    ({c with cancelled := c.cancelled || b} : Call E R).Sound job where
  put_le := sound.put_le
  taken_le := sound.taken_le
  within := sound.within
  waiting := sound.waiting
  genuine i outcome held := by
    refine (sound.genuine i outcome held).imp_right fun skipped => ⟨?_,skipped.2⟩
    rw [skipped.1,Bool.true_or]
  cause flagged := by
    rcases Bool.or_eq_true_iff.mp flagged with before | now
    · exact sound.cause before
    · exact cause now
  taken := sound.taken
  raised := sound.raised
  returned := sound.returned

theorem put (sound : c.Sound job) (fills : c.filling job = true) : c.put.Sound job := by
  simp only [Call.filling,Bool.and_eq_true,decide_eq_true_eq] at fills
  obtain ⟨running,left,room⟩ := fills
  have fresh : c.stage c.next = .waiting := (sound.waiting c.next).mpr le_rfl
  have fell {k : Nat} {e : E} (before : c.Fell k e) : c.put.Fell k e := by
    refine ⟨Nat.lt_succ_of_lt before.1,?_⟩
    simp only [Call.put,Call.mark,Function.update_of_ne (Nat.ne_of_lt before.1)]
    exact before.2
  constructor
  · exact left
  · exact Nat.le_succ_of_le sound.taken_le
  · exact room
  · intro k
    by_cases same : k = c.next
    · subst same
      simp [Call.put,Call.mark]
    · simp only [Call.put,Call.mark,Function.update_of_ne same,sound.waiting k]
      omega
  · intro k outcome held
    by_cases same : k = c.next
    · subst same
      simp [Call.put,Call.mark] at held
    · simp only [Call.put,Call.mark,Function.update_of_ne same] at held
      exact sound.genuine k outcome held
  · intro flagged
    obtain ⟨k,e,before⟩ := sound.cause flagged
    exact ⟨k,e,fell before⟩
  · intro k r held
    have first := sound.taken k r held
    have other : k ≠ c.next := by
      rintro rfl
      rw [fresh] at first
      contradiction
    simp only [Call.put,Call.mark,Function.update_of_ne other]
    exact first
  · intro e held
    obtain ⟨k,before⟩ := sound.raised e held
    exact ⟨k,fell before⟩
  · intro held
    have mode : c.mode = .returned := held
    rw [mode] at running
    contradiction

theorem get (sound : c.Sound job) {r : R} (running : c.mode = .running) (out : c.results.length < c.next)
    (first : c.stage c.results.length = .ready (.ok r)) : ({c with results := c.results ++ [r]} : Call E R).Sound job where
  put_le := sound.put_le
  taken_le := by
    rw [List.length_append]
    exact out
  within := by
    have within := sound.within
    simp only [List.length_append,List.length_singleton]
    omega
  waiting := sound.waiting
  genuine := sound.genuine
  cause := sound.cause
  taken k r' held := by
    rcases Nat.lt_or_ge k c.results.length with before | after
    · rw [List.getElem?_append_left before] at held
      exact sound.taken k r' held
    · rw [List.getElem?_append_right after] at held
      obtain ⟨small,same⟩ := List.getElem?_eq_some_iff.mp held
      have last : k = c.results.length := by
        rw [List.length_singleton] at small
        omega
      subst last
      simp only [Nat.sub_self,List.getElem_cons_zero] at same
      exact same ▸ first
  raised := sound.raised
  returned held := by
    have both := running.symm.trans held
    contradiction

theorem ends (sound : c.Sound job) {flagged : Bool} {mode : Mode E} (cause : flagged = true → ∃ i e, c.Fell i e)
    (raised : ∀ e, mode = .draining e ∨ mode = .raised e → ∃ i, c.Fell i e)
    (returned : mode = .returned → c.results.length = job.tasks) (later : c.cancelled = true → flagged = true) :
    ({c with cancelled := flagged, mode := mode} : Call E R).Sound job where
  put_le := sound.put_le
  taken_le := sound.taken_le
  within := sound.within
  waiting := sound.waiting
  genuine i outcome held := (sound.genuine i outcome held).imp_right fun skipped => ⟨later skipped.1,skipped.2⟩
  cause := cause
  taken := sound.taken
  raised := raised
  returned := returned

theorem consume (sound : c.Sound job) (consumed : Consumed job c c') : c'.Sound job := by
  cases consumed with
  | get r running out first => exact sound.get running out first
  | raise e running out first =>
    have fell : c.Fell c.results.length e := ⟨out,.inr first⟩
    refine sound.ends (fun _ => ⟨_,e,fell⟩) (fun e' held => ?_) (fun held => ?_) fun _ => rfl
    · cases drains : job.drains with
      | true =>
        simp only [drains,↓reduceIte,Mode.draining.injEq,reduceCtorEq,or_false] at held
        exact held ▸ ⟨_,fell⟩
      | false =>
        simp only [drains,Bool.false_eq_true,↓reduceIte,Mode.raised.injEq,reduceCtorEq,false_or] at held
        exact held ▸ ⟨_,fell⟩
    · cases drains : job.drains with
      | true => simp only [drains,↓reduceIte,reduceCtorEq] at held
      | false => simp only [drains,Bool.false_eq_true,↓reduceIte,reduceCtorEq] at held
  | return_ running all_taken all_out =>
    refine sound.ends sound.cause (fun e held => ?_) (fun _ => ?_) id
    · simp only [reduceCtorEq,or_self] at held
    · exact le_antisymm (sound.taken_le.trans sound.put_le) (all_out.trans all_taken)
  | drained e draining all_ready =>
    refine sound.ends sound.cause (fun e' held => ?_) (fun held => ?_) id
    · simp only [reduceCtorEq,Mode.raised.injEq,false_or] at held
      exact held ▸ sound.raised e (.inl draining)
    · simp only [reduceCtorEq] at held

theorem moves (sound : c.Sound job) (moved : Moves job c c') : c'.Sound job := by
  cases moved with
  | put fills => exact sound.put fills
  | pick i at_stage => exact sound.mark (by simp [at_stage]) (by rw [at_stage]; rfl) (by simp) (by simp) (by simp [at_stage])
  | check i at_stage =>
    refine sound.mark (by simp [at_stage]) (by rw [at_stage]; rfl) (by split <;> simp) (fun outcome held => ?_) (by simp [at_stage])
    cases flagged : c.cancelled with
    | true =>
      simp only [flagged,↓reduceIte,Stage.done.injEq,reduceCtorEq,or_false] at held
      exact .inr ⟨rfl,held.symm⟩
    | false => simp only [flagged,Bool.false_eq_true,↓reduceIte,reduceCtorEq,or_self] at held
  | finish i at_stage =>
    have marked : (c.mark i (.done (job.work i))).Sound job := by
      refine sound.mark (by simp [at_stage]) (by rw [at_stage]; rfl) (by simp) (fun outcome held => ?_) (by simp [at_stage])
      simp only [Stage.done.injEq,reduceCtorEq,or_false] at held
      exact .inl held.symm
    refine marked.flag fun now => ?_
    cases worked : job.work i with
    | ok r => simp [worked,failed] at now
    | error e =>
      have out : i < c.next := Nat.lt_of_not_le fun beyond => by
        have still := (sound.waiting i).mpr beyond
        rw [at_stage] at still
        contradiction
      exact ⟨i,e,out,.inl (by simp [Call.mark])⟩
  | deliver i outcome at_stage =>
    refine sound.mark (by simp [at_stage]) (by rw [at_stage]; rfl) (by simp) (fun outcome' held => ?_) (fun e held => ?_)
    · simp only [reduceCtorEq,Stage.ready.injEq,false_or] at held
      exact held ▸ sound.genuine i outcome (.inl at_stage)
    · rw [at_stage] at held
      rw [Stage.done.inj held]
  | consume fills c' consumed => exact sound.consume (consumed_of consumed)

/-- What a call returns is what its tasks come to, one after the other. -/
theorem returned_work (sound : c.Sound job) (returned : c.mode = .returned) :
    (List.range job.tasks).map job.work = c.results.map .ok := by
  have all := sound.returned returned
  have calm : c.cancelled = false := by
    by_contra flagged
    obtain ⟨i,e,out,fell⟩ := sound.cause (Bool.not_eq_false _ ▸ flagged)
    have small : i < c.results.length := all ▸ Nat.lt_of_lt_of_le out sound.put_le
    have good := sound.taken i _ (List.getElem?_eq_getElem small)
    rw [good] at fell
    simp at fell
  refine List.ext_getElem (by simp [all]) fun i bound bound' => ?_
  have small : i < c.results.length := by simpa using bound'
  rw [List.getElem_map,List.getElem_map,List.getElem_range]
  have good := sound.taken i _ (List.getElem?_eq_getElem small)
  rcases sound.genuine i _ (.inr good) with same | skipped
  · exact same.symm
  · rw [calm] at skipped
    exact absurd skipped.1 Bool.false_ne_true

/-- What a call raises some task of it came to. -/
theorem raised_work (sound : c.Sound job) {e : E} (raised : c.mode = .draining e ∨ c.mode = .raised e) :
    ∃ i < job.tasks, job.work i = .error e := by
  obtain ⟨i,out,fell⟩ := sound.raised e raised
  refine ⟨i,Nat.lt_of_lt_of_le out sound.put_le,?_⟩
  rcases sound.genuine i _ fell with same | skipped
  · exact same.symm
  · exact absurd skipped.2 (by simp)

end Call.Sound

/-- Handed out, and not yet come to an outcome that its caller could take. -/
def Stage.outstanding : Stage E R → Bool
  | .waiting | .ready _ => false
  | _ => true

theorem Call.Sound.outstanding {job : Job E R} {c : Call E R} (sound : c.Sound job) :
    ((Finset.range job.tasks).filter fun i => (c.stage i).outstanding = true).card ≤ job.window := by
  have between : ((Finset.range job.tasks).filter fun i => (c.stage i).outstanding = true) ⊆ Finset.Ico c.results.length c.next := by
    intro i among
    have open_ := (Finset.mem_filter.mp among).2
    refine Finset.mem_Ico.mpr ⟨Nat.le_of_not_lt fun before => ?_,Nat.lt_of_not_le fun beyond => ?_⟩
    · rw [sound.taken i _ (List.getElem?_eq_getElem before)] at open_
      contradiction
    · rw [(sound.waiting i).mpr beyond] at open_
      contradiction
  have within := sound.within
  calc
    _ ≤ (Finset.Ico c.results.length c.next).card := Finset.card_le_card between
    _ = c.next - c.results.length := Nat.card_Ico ..
    _ ≤ job.window := by omega

/-! The queue and the workers. -/

/-- A worker is at the task. -/
def Stage.busy : Stage E R → Bool
  | .picked | .working | .done _ => true
  | _ => false

structure Placed (stage : J × Nat → Stage E R) (workers : W → Option (J × Nat)) (queue : List (J × Nat)) : Prop where
  queued : ∀ t, t ∈ queue ↔ stage t = .queued
  nodup : queue.Nodup
  held : ∀ t, (∃ w, workers w = some t) ↔ (stage t).busy = true
  alone : ∀ w w' t, workers w = some t → workers w' = some t → w = w'

namespace Placed

variable {stage : J × Nat → Stage E R} {workers : W → Option (J × Nat)} {queue : List (J × Nat)}

omit [DecidableEq W] in
theorem put (placed : Placed stage workers queue) {t : J × Nat} (waiting : stage t = .waiting) :
    Placed (Function.update stage t .queued) workers (queue ++ [t]) where
  queued u := by
    by_cases same : u = t
    · subst same
      simp
    · simp [same,placed.queued u]
  nodup := by
    have absent : t ∉ queue := fun among => by
      rw [(placed.queued t).mp among] at waiting
      contradiction
    exact List.nodup_append.mpr ⟨placed.nodup,List.nodup_singleton t,fun u among v last same =>
      absent (by rwa [same,List.mem_singleton.mp last] at among)⟩
  held u := by
    by_cases same : u = t
    · subst same
      rw [placed.held u,waiting,Function.update_self]
      rfl
    · rw [Function.update_of_ne same,placed.held u]
  alone := placed.alone

theorem take {w : W} {t : J × Nat} (placed : Placed stage workers (t::queue)) (idle : workers w = none) :
    Placed (Function.update stage t .picked) (Function.update workers w (some t)) queue := by
  have front := (placed.queued t).mp List.mem_cons_self
  have nobody (w' : W) : workers w' ≠ some t := fun at_task => by
    have busy := (placed.held t).mp ⟨w',at_task⟩
    rw [front] at busy
    contradiction
  obtain ⟨absent,distinct⟩ := List.nodup_cons.mp placed.nodup
  constructor
  · intro u
    by_cases same : u = t
    · subst same
      simp [absent]
    · rw [Function.update_of_ne same,← placed.queued u,List.mem_cons]
      simp [same]
  · exact distinct
  · intro u
    by_cases same : u = t
    · subst same
      rw [Function.update_self]
      exact ⟨fun _ => rfl,fun _ => ⟨w,Function.update_self ..⟩⟩
    · rw [Function.update_of_ne same,← placed.held u]
      constructor
      · rintro ⟨w',at_task⟩
        by_cases here : w' = w
        · subst here
          rw [Function.update_self] at at_task
          exact absurd (Option.some.inj at_task).symm same
        · rw [Function.update_of_ne here] at at_task
          exact ⟨w',at_task⟩
      · rintro ⟨w',at_task⟩
        have here : w' ≠ w := by
          rintro rfl
          rw [idle] at at_task
          contradiction
        exact ⟨w',by rwa [Function.update_of_ne here]⟩
  · intro a b u first second
    by_cases here : a = w
    · by_cases there : b = w
      · rw [here,there]
      · subst here
        rw [Function.update_self] at first
        rw [Function.update_of_ne there,← first] at second
        exact absurd second (nobody b)
    · by_cases there : b = w
      · subst there
        rw [Function.update_self] at second
        rw [Function.update_of_ne here,← second] at first
        exact absurd first (nobody a)
      · rw [Function.update_of_ne here] at first
        rw [Function.update_of_ne there] at second
        exact placed.alone a b u first second

omit [DecidableEq W] in
theorem work (placed : Placed stage workers queue) {w : W} {t : J × Nat} (at_task : workers w = some t) {next : Stage E R}
    (busy : next.busy = true) : Placed (Function.update stage t next) workers queue where
  queued u := by
    by_cases same : u = t
    · subst same
      have now := (placed.held u).mp ⟨w,at_task⟩
      rw [placed.queued u,Function.update_self]
      constructor
      · intro queued
        rw [queued] at now
        contradiction
      · intro queued
        rw [queued] at busy
        contradiction
    · rw [Function.update_of_ne same,placed.queued u]
  nodup := placed.nodup
  held u := by
    by_cases same : u = t
    · subst same
      rw [Function.update_self]
      exact ⟨fun _ => busy,fun _ => ⟨w,at_task⟩⟩
    · rw [Function.update_of_ne same,placed.held u]
  alone := placed.alone

theorem deliver (placed : Placed stage workers queue) {w : W} {t : J × Nat} (at_task : workers w = some t) (outcome : Except E R) :
    Placed (Function.update stage t (.ready outcome)) (Function.update workers w none) queue where
  queued u := by
    by_cases same : u = t
    · subst same
      have now := (placed.held u).mp ⟨w,at_task⟩
      rw [placed.queued u,Function.update_self]
      constructor
      · intro queued
        rw [queued] at now
        contradiction
      · intro queued
        contradiction
    · rw [Function.update_of_ne same,placed.queued u]
  nodup := placed.nodup
  held u := by
    by_cases same : u = t
    · subst same
      rw [Function.update_self]
      constructor
      · rintro ⟨w',still⟩
        by_cases here : w' = w
        · subst here
          rw [Function.update_self] at still
          contradiction
        · rw [Function.update_of_ne here] at still
          exact absurd (placed.alone w' w u still at_task) here
      · intro busy
        contradiction
    · rw [Function.update_of_ne same,← placed.held u]
      constructor
      · rintro ⟨w',still⟩
        by_cases here : w' = w
        · subst here
          rw [Function.update_self] at still
          contradiction
        · rw [Function.update_of_ne here] at still
          exact ⟨w',still⟩
      · rintro ⟨w',still⟩
        have here : w' ≠ w := by
          rintro rfl
          rw [at_task] at still
          exact same (Option.some.inj still).symm
        exact ⟨w',by rwa [Function.update_of_ne here]⟩
  alone a b u first second := by
    have here : a ≠ w := by
      rintro rfl
      rw [Function.update_self] at first
      contradiction
    have there : b ≠ w := by
      rintro rfl
      rw [Function.update_self] at second
      contradiction
    rw [Function.update_of_ne here] at first
    rw [Function.update_of_ne there] at second
    exact placed.alone a b u first second

end Placed

namespace Pool

variable {jobs : J → Job E R} {s s' : Pool J W E R}

def stage (s : Pool J W E R) (t : J × Nat) : Stage E R := (s.calls t.1).stage t.2

omit [DecidableEq W] in
theorem stage_sets (s : Pool J W E R) {j : J} {i : Nat} {c : Call E R} {next : Stage E R}
    (marked : c.stage = Function.update (s.calls j).stage i next) : (s.sets j c).stage = Function.update s.stage (j,i) next := by
  funext t
  by_cases here : t.1 = j
  · by_cases there : t.2 = i
    · have same : t = (j,i) := Prod.ext here there
      subst same
      simp [stage,sets,marked]
    · have other : t ≠ (j,i) := fun same => there (congrArg Prod.snd same)
      subst here
      simp [stage,sets,marked,Function.update_of_ne there,Function.update_of_ne other]
  · have other : t ≠ (j,i) := fun same => here (congrArg Prod.fst same)
    simp [stage,sets,Function.update_of_ne here,Function.update_of_ne other]

omit [DecidableEq W] in
theorem stage_sets_same (s : Pool J W E R) {j : J} {c : Call E R} (same : c.stage = (s.calls j).stage) :
    (s.sets j c).stage = s.stage := by
  funext t
  by_cases here : t.1 = j
  · subst here
    simp [stage,sets,same]
  · simp [stage,sets,Function.update_of_ne here]

structure Sound (jobs : J → Job E R) (s : Pool J W E R) : Prop where
  calls : ∀ j, (s.calls j).Sound (jobs j)
  placed : Placed s.stage s.workers s.queue

omit [DecidableEq J] [DecidableEq W] in
theorem start_sound : (start : Pool J W E R).Sound jobs where
  calls j := Call.start_sound (jobs j)
  placed := {
    queued := fun t => by simp [start,stage,Call.start]
    nodup := List.nodup_nil
    held := fun t => by simp [start,stage,Call.start,Stage.busy]
    alone := fun w w' t first => by simp [start] at first }

omit [DecidableEq J] [DecidableEq W] in
theorem Sound.queued (sound : s.Sound jobs) : s.Queued := fun j i among => (sound.placed.queued (j,i)).mp among

theorem consumed_stage {job : Job E R} {c c' : Call E R} (consumed : Consumed job c c') : c'.stage = c.stage := by
  cases consumed with
  | get => rfl
  | raise => rfl
  | return_ => rfl
  | drained => rfl

theorem step_placed (sound : s.Sound jobs) {act : Act J W} (stepped : s.step jobs act = some s') :
    Placed s'.stage s'.workers s'.queue := by
  cases act with
  | call j =>
    simp only [step] at stepped
    split at stepped
    · obtain rfl := Option.some.inj stepped
      have fresh : s.stage (j,(s.calls j).next) = .waiting := ((sound.calls j).waiting _).mpr le_rfl
      have placed := sound.placed.put fresh
      rwa [← stage_sets s (c := (s.calls j).put) rfl] at placed
    · obtain ⟨c,consumed,rfl⟩ := Option.map_eq_some_iff.mp stepped
      rw [stage_sets_same s (consumed_stage (consumed_of consumed))]
      exact sound.placed
  | take w =>
    obtain ⟨j,i,rest,idle,line,rfl⟩ := take_eq stepped
    have before := sound.placed
    rw [line] at before
    have placed := before.take idle
    rwa [← stage_sets s (c := (s.calls j).mark i .picked) rfl] at placed
  | work w =>
    simp only [step] at stepped
    cases held : s.workers w with
    | none => simp only [held,reduceCtorEq] at stepped
    | some task =>
      obtain ⟨j,i⟩ := task
      simp only [held] at stepped
      cases at_stage : (s.calls j).stage i with
      | picked =>
        simp only [at_stage,Option.some.injEq] at stepped
        subst stepped
        cases flagged : (s.calls j).cancelled with
        | true =>
          have marked : ((s.calls j).check (jobs j) i).stage = Function.update (s.calls j).stage i (.done (.ok (jobs j).skipped)) := by
            simp [Call.check,Call.mark,flagged]
          rw [stage_sets s marked]
          exact sound.placed.work held rfl
        | false =>
          have marked : ((s.calls j).check (jobs j) i).stage = Function.update (s.calls j).stage i .working := by
            simp [Call.check,Call.mark,flagged]
          rw [stage_sets s marked]
          exact sound.placed.work held rfl
      | working =>
        simp only [at_stage,Option.some.injEq] at stepped
        subst stepped
        have marked : ((s.calls j).finish (jobs j) i).stage = Function.update (s.calls j).stage i (.done ((jobs j).work i)) := rfl
        rw [stage_sets s marked]
        exact sound.placed.work held rfl
      | done outcome =>
        simp only [at_stage,Option.some.injEq] at stepped
        subst stepped
        have placed := sound.placed.deliver held outcome
        rwa [← stage_sets s (c := (s.calls j).mark i (.ready outcome)) rfl] at placed
      | _ => simp only [at_stage,reduceCtorEq] at stepped

theorem step_sound (sound : s.Sound jobs) {act : Act J W} (stepped : s.step jobs act = some s') : s'.Sound jobs where
  calls k := by
    obtain ⟨j,c,moved,calls⟩ := step_moves sound.queued stepped
    rw [calls]
    by_cases here : k = j
    · subst here
      rw [Function.update_self]
      exact (sound.calls k).moves moved
    · rw [Function.update_of_ne here]
      exact sound.calls k
  placed := step_placed sound stepped

theorem run_sound (sound : s.Sound jobs) {acts : List (Act J W)} (ran : s.run jobs acts = some s') : s'.Sound jobs := by
  induction acts generalizing s with
  | nil => exact Option.some.inj ran ▸ sound
  | cons act acts ih =>
    obtain ⟨next,stepped,rest⟩ := Option.bind_eq_some_iff.mp ran
    exact ih (step_sound sound stepped) rest

end Pool

/-! Every run ends, and only where every call has returned or raised. -/

def Stage.rank : Stage E R → Nat
  | .waiting => 5
  | .queued => 4
  | .picked => 3
  | .working => 2
  | .done _ => 1
  | .ready _ => 0

def Mode.rank : Mode E → Nat
  | .running => 2
  | .draining _ => 1
  | .raised _ | .returned => 0

/-- Steps that a call still takes at most. -/
def Call.left (job : Job E R) (c : Call E R) : Nat :=
  ∑ i ∈ Finset.range job.tasks, (c.stage i).rank + (job.tasks - c.results.length) + c.mode.rank

theorem rank_mark {job : Job E R} {c : Call E R} {i : Nat} {next : Stage E R} (small : i < job.tasks)
    (lower : next.rank < (c.stage i).rank) :
    ∑ k ∈ Finset.range job.tasks, ((c.mark i next).stage k).rank < ∑ k ∈ Finset.range job.tasks, (c.stage k).rank := by
  refine Finset.sum_lt_sum (fun k _ => ?_) ⟨i,Finset.mem_range.mpr small,by simpa [Call.mark] using lower⟩
  by_cases same : k = i
  · subst same
    simpa [Call.mark] using lower.le
  · simp [Call.mark,Function.update_of_ne same]

namespace Call.Sound

variable {job : Job E R} {c c' : Call E R}

theorem out (sound : c.Sound job) {i : Nat} (put : c.stage i ≠ .waiting) : i < c.next :=
  Nat.lt_of_not_le fun beyond => put ((sound.waiting i).mpr beyond)

theorem left_mark (sound : c.Sound job) {i : Nat} {next : Stage E R} (put : c.stage i ≠ .waiting)
    (lower : next.rank < (c.stage i).rank) : (c.mark i next).left job < c.left job := by
  have sums := rank_mark (Nat.lt_of_lt_of_le (sound.out put) sound.put_le) lower
  simp only [Call.left]
  exact Nat.add_lt_add_right (Nat.add_lt_add_right sums _) _

theorem left_consumed (sound : c.Sound job) (consumed : Consumed job c c') : c'.left job < c.left job := by
  have bound := sound.taken_le.trans sound.put_le
  cases consumed with
  | get r running out first =>
    have more : c.results.length < job.tasks := Nat.lt_of_lt_of_le out sound.put_le
    simp only [Call.left,List.length_append,List.length_singleton]
    omega
  | raise e running out first =>
    simp only [Call.left,running]
    cases job.drains with
    | true => simp [Mode.rank]
    | false => simp [Mode.rank]
  | return_ running all_taken all_out =>
    simp [Call.left,running,Mode.rank]
  | drained e draining all_ready =>
    simp [Call.left,draining,Mode.rank]

theorem left_moves (sound : c.Sound job) (moved : Moves job c c') : c'.left job < c.left job := by
  cases moved with
  | put fills =>
    simp only [Call.filling,Bool.and_eq_true,decide_eq_true_eq] at fills
    have fresh : c.stage c.next = .waiting := (sound.waiting c.next).mpr le_rfl
    have sums : ∑ k ∈ Finset.range job.tasks, (c.put.stage k).rank < ∑ k ∈ Finset.range job.tasks, (c.stage k).rank :=
      rank_mark fills.2.1 (by simp [fresh,Stage.rank])
    simp only [Call.left]
    exact Nat.add_lt_add_right (Nat.add_lt_add_right sums _) _
  | pick i at_stage => exact sound.left_mark (by simp [at_stage]) (by simp [at_stage,Stage.rank])
  | check i at_stage => exact sound.left_mark (by simp [at_stage]) (by rw [at_stage]; split <;> simp [Stage.rank])
  | finish i at_stage =>
    have lower : (Stage.done (job.work i)).rank < (c.stage i).rank := by simp [at_stage,Stage.rank]
    exact sound.left_mark (by simp [at_stage]) lower
  | deliver i outcome at_stage => exact sound.left_mark (by simp [at_stage]) (by simp [at_stage,Stage.rank])
  | consume fills c' consumed => exact sound.left_consumed (consumed_of consumed)

end Call.Sound

def Mode.settled : Mode E → Bool
  | .raised _ | .returned => true
  | _ => false

namespace Pool

variable {jobs : J → Job E R} {s s' : Pool J W E R}

section

variable [Fintype J]

def left (jobs : J → Job E R) (s : Pool J W E R) : Nat := ∑ j, (s.calls j).left (jobs j)

theorem step_left (sound : s.Sound jobs) {act : Act J W} (stepped : s.step jobs act = some s') : s'.left jobs < s.left jobs := by
  obtain ⟨j,c,moved,calls⟩ := step_moves sound.queued stepped
  have lower := (sound.calls j).left_moves moved
  rw [left,left,calls]
  refine Finset.sum_lt_sum (fun k _ => ?_) ⟨j,Finset.mem_univ j,by rwa [Function.update_self]⟩
  by_cases here : k = j
  · subst here
    rw [Function.update_self]
    exact lower.le
  · rw [Function.update_of_ne here]

theorem run_left (sound : s.Sound jobs) {acts : List (Act J W)} (ran : s.run jobs acts = some s') :
    acts.length + s'.left jobs ≤ s.left jobs := by
  induction acts generalizing s with
  | nil =>
    rw [Option.some.inj ran,List.length_nil,Nat.zero_add]
  | cons act acts ih =>
    obtain ⟨next,stepped,rest⟩ := Option.bind_eq_some_iff.mp ran
    have fewer := step_left sound stepped
    have later := ih (step_sound sound stepped) rest
    rw [List.length_cons]
    omega

omit [DecidableEq J] [DecidableEq W] in
theorem start_left : (start : Pool J W E R).left jobs = ∑ j, (6 * (jobs j).tasks + 2) := by
  refine Finset.sum_congr rfl fun j _ => ?_
  simp [Call.left,start,Call.start,Stage.rank,Mode.rank]
  omega

end

theorem worker_steps (sound : s.Sound jobs) {w : W} {t : J × Nat} (at_task : s.workers w = some t) :
    ∃ act, (s.step jobs act).isSome = true := by
  have busy := (sound.placed.held t).mp ⟨w,at_task⟩
  refine ⟨.work w,?_⟩
  cases at_stage : (s.calls t.1).stage t.2 with
  | picked => simp only [step,at_task,at_stage,Option.isSome_some]
  | working => simp only [step,at_task,at_stage,Option.isSome_some]
  | done outcome => simp only [step,at_task,at_stage,Option.isSome_some]
  | _ =>
    rw [stage,at_stage] at busy
    contradiction

/-- A task that is out and not yet ready keeps some worker going. -/
theorem task_steps [Nonempty W] (sound : s.Sound jobs) {t : J × Nat} (out : s.stage t ≠ .waiting)
    (open_ : (s.stage t).is_ready = false) : ∃ act, (s.step jobs act).isSome = true := by
  have somewhere : t ∈ s.queue ∨ (s.stage t).busy = true := by
    cases at_stage : s.stage t with
    | waiting => exact absurd at_stage out
    | queued => exact .inl ((sound.placed.queued t).mpr at_stage)
    | ready outcome =>
      rw [at_stage] at open_
      contradiction
    | _ => exact .inr rfl
  rcases somewhere with among | busy
  · obtain ⟨w⟩ := ‹Nonempty W›
    cases idle : s.workers w with
    | some u => exact worker_steps sound idle
    | none =>
      cases line : s.queue with
      | nil => exact absurd (line ▸ among) List.not_mem_nil
      | cons u rest => exact ⟨.take w,by simp only [step,idle,line,Option.isSome_some]⟩
  · obtain ⟨w,at_task⟩ := (sound.placed.held t).mpr busy
    exact worker_steps sound at_task

/-- While a call has neither returned nor raised somebody can take a step. -/
theorem progress [Nonempty W] (windows : ∀ j, 0 < (jobs j).window) (sound : s.Sound jobs) {j : J}
    (unsettled : (s.calls j).mode.settled = false) : ∃ act, (s.step jobs act).isSome = true := by
  by_cases fills : (s.calls j).filling (jobs j) = true
  · exact ⟨.call j,by simp only [step,fills,↓reduceIte,Option.isSome_some]⟩
  · have calls := sound.calls j
    have consumes (consumed : ((s.calls j).consume (jobs j)).isSome = true) : ∃ act, (s.step jobs act).isSome = true :=
      ⟨.call j,by simp only [step,if_neg fills,Option.isSome_map,consumed]⟩
    cases mode : (s.calls j).mode with
    | returned => rw [mode] at unsettled; contradiction
    | raised e => rw [mode] at unsettled; contradiction
    | running =>
      by_cases some_out : (s.calls j).results.length < (s.calls j).next
      · have put : (s.calls j).stage (s.calls j).results.length ≠ .waiting := fun still =>
          absurd some_out (Nat.not_lt.mpr ((calls.waiting _).mp still))
        cases first : (s.calls j).stage (s.calls j).results.length with
        | ready outcome =>
          cases outcome with
          | ok r => exact consumes (by simp only [Call.consume,mode,some_out,↓reduceIte,first,Option.isSome_some])
          | error e => exact consumes (by simp only [Call.consume,mode,some_out,↓reduceIte,first,Option.isSome_some])
        | _ =>
          refine task_steps sound (t := (j,(s.calls j).results.length)) put ?_
          rw [stage,first]
          rfl
      · have all_out : (jobs j).tasks ≤ (s.calls j).next := by
          by_contra fewer
          have window := windows j
          refine fills ?_
          simp only [Call.filling,mode,Mode.is_running,Bool.true_and,decide_eq_true_eq]
          omega
        exact consumes (by simp only [Call.consume,mode,if_neg some_out,if_pos all_out,Option.isSome_some])
    | draining e =>
      by_cases all_ready : (List.range (s.calls j).next).all (fun i => ((s.calls j).stage i).is_ready) = true
      · exact consumes (by simp only [Call.consume,mode,all_ready,↓reduceIte,Option.isSome_some])
      · obtain ⟨i,small,open_⟩ : ∃ i ∈ List.range (s.calls j).next, ((s.calls j).stage i).is_ready = false := by
          simpa only [List.all_eq_true,not_forall,Bool.not_eq_true,exists_prop] using all_ready
        refine task_steps sound (t := (j,i)) (fun still => ?_) open_
        exact absurd ((calls.waiting i).mp still) (Nat.not_le.mpr (List.mem_range.mp small))

end Pool

/-! The tasks of a list. -/

/-- One task for each item, wrapped so that calls of several kinds can share a pool. -/
def Job.ofList {α ρ : Type} (items : List α) (f : α → Except E ρ) (wrap : ρ → R) (skipped : R) (window : Nat) (drains : Bool) :
    Job E R where
  tasks := items.length
  window := window
  drains := drains
  work i := match items[i]? with
    | some item => (f item).map wrap
    | none => .ok skipped
  skipped := skipped

section

variable {α ρ : Type} {items : List α} {f : α → Except E ρ} {wrap : ρ → R} {skipped : R} {window : Nat} {drains : Bool}

theorem ofList_work : (List.range items.length).map (Job.ofList items f wrap skipped window drains).work =
    items.map fun item => (f item).map wrap := by
  refine List.ext_getElem (by simp) fun i bound bound' => ?_
  have small : i < items.length := by simpa using bound'
  simp [Job.ofList,small]

theorem mapM_of_ok {unwrap : R → Option ρ} (wrapped : ∀ r, unwrap (wrap r) = some r) {results : List R}
    (same : (items.map fun item => (f item).map wrap) = results.map .ok) : items.mapM f = .ok (results.filterMap unwrap) := by
  induction items generalizing results with
  | nil =>
    cases results with
    | nil => rfl
    | cons r rest => contradiction
  | cons item items ih =>
    cases results with
    | nil => contradiction
    | cons r rest =>
      obtain ⟨first,later⟩ := List.cons.inj same
      cases worked : f item with
      | error e =>
        simp only [worked,Except.map] at first
        contradiction
      | ok value =>
        simp only [worked,Except.map] at first
        rw [List.mapM_cons,worked,ih later,← Except.ok.inj first,List.filterMap_cons_some (wrapped value)]
        rfl

theorem mapM_of_error {item : α} (among : item ∈ items) {e : E} (fails : f item = .error e) : ∃ e', items.mapM f = .error e' := by
  induction items with
  | nil => exact absurd among List.not_mem_nil
  | cons first rest ih =>
    rw [List.mapM_cons]
    cases worked : f first with
    | error e' => exact ⟨e',rfl⟩
    | ok value =>
      rcases List.mem_cons.mp among with rfl | later
      · rw [worked] at fails
        contradiction
      · obtain ⟨e',stops⟩ := ih later
        exact ⟨e',by rw [stops]; rfl⟩

/-- A call that returns gives what the items come to one after the other. -/
theorem Call.Sound.returned_mapM {c : Call E R} (sound : c.Sound (Job.ofList items f wrap skipped window drains))
    {unwrap : R → Option ρ} (wrapped : ∀ r, unwrap (wrap r) = some r) (returned : c.mode = .returned) :
    items.mapM f = .ok (c.results.filterMap unwrap) :=
  mapM_of_ok wrapped (ofList_work.symm.trans (sound.returned_work returned))

theorem Call.Sound.raised_mapM {c : Call E R} (sound : c.Sound (Job.ofList items f wrap skipped window drains)) {e : E}
    (raised : c.mode = .raised e) : ∃ e', items.mapM f = .error e' := by
  obtain ⟨i,small,fails⟩ := sound.raised_work (.inr raised)
  have there : items[i]? = some (items.get ⟨i,small⟩) := List.getElem?_eq_getElem small
  simp only [Job.ofList,there] at fails
  cases worked : f (items.get ⟨i,small⟩) with
  | ok value =>
    rw [worked] at fails
    contradiction
  | error e' => exact mapM_of_error (List.getElem_mem small) worked

end

end AetherVault.Lib.TaskPool
