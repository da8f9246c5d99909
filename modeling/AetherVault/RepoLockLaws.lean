import AetherVault.RepoLock
import Mathlib.Data.Nat.Pairing

/-! The lock keeps nothing behind, and can be had whenever nobody else is in it; what its steps do to the
re-entrant mutex that the commands are written against. -/
namespace AetherVault.RepoLock

open Lib.Mutex Lib.Runs

/-- No instance is acquired again before it is released. -/
def Fits (m : Machine) : Event → Prop
  | .acquire p t i => (t,i) ∉ (m.process p).held
  | _ => True

def Phase.wants : Phase → Option Instance
  | .guarded i | .trying i | .locked i => some i
  | _ => none

theorem Phase.owed_of_wants {phase : Phase} {i : Instance} (wants : phase.wants = some i) : phase.owed = 0 := by
  cases phase with
  | leaving => cases wants
  | _ => rfl

theorem Phase.extra_of_wants {phase : Phase} {i : Instance} (wants : phase.wants = some i) : phase.extra = 1 := by
  cases phase with
  | guarded | trying | locked => rfl
  | idle | leaving | left => cases wants

theorem Phase.busy_of_wants {phase : Phase} {i : Instance} (wants : phase.wants = some i) : phase ≠ .idle := by
  rintro rfl
  cases wants

namespace Process

/-- The depth is what is held, and what is just being given back. -/
def Tidy (q : Process) : Prop :=
  ∀ t n, q.guard = some (t,n) →
    q.held.card + (q.phase t).owed = q.depth ∧ ∀ i, (q.phase t).wants = some i → (t,i) ∉ q.held

/-- All that a thread's step can do to its process. -/
inductive Move (q : Process) (t : Tid) : Process → Prop
  | stays : Move q t q
  | guards (i : Instance) (q' : Process) (idle : q.phase t = .idle) (granted : q.guard_acquire t = some q')
      (fits : (t,i) ∉ q.held) : Move q t (q'.goes t (.guarded i))
  | gives_up (extra : (q.phase t).extra = 1) : Move q t (q.guard_release t)
  | goes_on (i : Instance) (next : Phase) (wants : (q.phase t).wants = some i) (still : next.wants = some i) :
      Move q t (q.goes t next)
  | enters (i : Instance) (handle : Bool) (wants : (q.phase t).wants = some i) :
      Move q t ({q with handle := handle}.entered t i)
  | drops (i : Instance) (idle : q.phase t = .idle) (holds : (t,i) ∈ q.held) :
      Move q t {q.goes t .leaving with held := q.held.erase (t,i)}
  | lowers (handle : Bool) (leaving : q.phase t = .leaving) :
      Move q t {q.goes t .left with depth := q.depth - 1, handle := handle}

theorem tidy_of {q : Process} {t : Tid} {count : Nat} (mine : q.guard = some (t,count))
    (depth : q.held.card + (q.phase t).owed = q.depth) (fits : ∀ i, (q.phase t).wants = some i → (t,i) ∉ q.held) :
    q.Tidy := by
  intro u n guard
  have same := mine.symm.trans guard
  simp only [Option.some.injEq,Prod.mk.injEq] at same
  exact same.1 ▸ ⟨depth,fits⟩

theorem Move.tidy {q q' : Process} {t : Tid} (move : q.Move t q') (sound : q.Sound) (tidy : q.Tidy) : q'.Tidy := by
  cases move with
  | stays => exact tidy
  | guards i q' idle granted fits =>
    obtain ⟨-,depth,held,-⟩ := guard_acquire_keeps granted
    refine tidy_of (sound.guarded idle granted i).guard ?_ ?_
    · simp only [goes_same,goes_held,goes_depth,depth,held,Phase.owed]
      rcases sound with free | ⟨v,before⟩
      · rw [free.held,free.depth]
        rfl
      · have mine : v = t := by
          rw [guard_acquire,before.guard] at granted
          by_contra other
          simp [other] at granted
        have counted := (tidy v _ before.guard).1
        rwa [mine,idle] at counted
    · simp only [goes_same,goes_held,held,Phase.wants,Option.some.injEq]
      exact fun j same => same ▸ fits
  | gives_up extra =>
    have owned := sound.owned (t := t) (.inl fun idle => by simp [idle,Phase.extra] at extra)
    have counted := (tidy t _ owned.guard).1
    have owes : (q.phase t).owed = 0 := by
      cases at_ : q.phase t <;> simp_all [Phase.extra,Phase.owed]
    have idle : (q.guard_release t).phase t = .idle := goes_same ..
    rw [owes] at counted
    intro u n guard
    have same : u = t := by
      simp only [guard_release,owned.guard,Option.bind_some] at guard
      split at guard
      · cases guard
      · simp only [Option.some.injEq,Prod.mk.injEq] at guard
        exact guard.1.symm
    rw [same,idle]
    refine ⟨counted,fun i wants => ?_⟩
    cases wants
  | goes_on i next wants still =>
    have owned := sound.owned (t := t) (.inl (Phase.busy_of_wants wants))
    have before := tidy t _ owned.guard
    rw [Phase.owed_of_wants wants,wants] at before
    refine tidy_of owned.guard ?_ ?_
    · rw [goes_same,Phase.owed_of_wants still]
      exact before.1
    · rw [goes_same,still]
      exact before.2
  | enters i handle wants =>
    have owned := sound.owned (t := t) (.inl (Phase.busy_of_wants wants))
    obtain ⟨before,unheld⟩ := tidy t _ owned.guard
    rw [Phase.owed_of_wants wants] at before
    have more := Finset.card_insert_of_notMem (unheld i wants)
    have idle : ({q with handle := handle}.entered t i).phase t = .idle := goes_same ..
    refine tidy_of owned.guard ?_ ?_
    · rw [idle]
      simp only [entered,Phase.owed]
      omega
    · rw [idle]
      simp [Phase.wants]
  | drops i idle holds =>
    have owned := sound.owned (t := t) (.inr ⟨i,holds⟩)
    have before := (tidy t _ owned.guard).1
    have fewer := Finset.card_erase_add_one holds
    rw [idle] at before
    refine tidy_of owned.guard ?_ ?_
    · simp only [goes_same,Phase.owed,goes_depth] at before ⊢
      omega
    · simp [Phase.wants]
  | lowers handle leaving =>
    have owned := sound.owned (t := t) (.inl (by simp [leaving]))
    have before := (tidy t _ owned.guard).1
    rw [leaving] at before
    refine tidy_of owned.guard ?_ ?_
    · simp only [goes_same,Phase.owed,goes_held] at before ⊢
      omega
    · simp [Phase.wants]

end Process

open Process Machine

theorem advance_moves (m : Machine) (p : Pid) (t : Tid) (fails : Bool) :
    (m.process p).Move t ((m.advance p t fails).process p) := by
  rw [Machine.advance]
  cases at_ : (m.process p).phase t with
  | idle => exact .stays
  | guarded i =>
    have wants : ((m.process p).phase t).wants = some i := by rw [at_]; rfl
    by_cases deep : (m.process p).depth = 0
    · cases fails with
      | true => simpa [deep] using Move.gives_up (Phase.extra_of_wants wants)
      | false => simpa [deep] using Move.goes_on i (.trying i) wants rfl
    · simpa [deep] using Move.enters i _ wants
  | trying i =>
    have wants : ((m.process p).phase t).wants = some i := by rw [at_]; rfl
    by_cases free : m.flock = none
    · simpa [free] using Move.goes_on i (.locked i) wants rfl
    · cases fails with
      | true => simpa [free] using Move.gives_up (Phase.extra_of_wants wants)
      | false => simpa [free] using Move.stays
  | locked i => simpa using Move.enters i true (by rw [at_]; rfl)
  | leaving =>
    by_cases last : (m.process p).depth - 1 = 0 ∧ (m.process p).handle = true
    · simpa [last] using Move.lowers false at_
    · simpa [last] using Move.lowers (m.process p).handle at_
  | left => simpa using Move.gives_up (by rw [at_]; rfl)

theorem acquire_moves {m : Machine} {p : Pid} {t : Tid} {i : Instance} (fits : (t,i) ∉ (m.process p).held) :
    (m.process p).Move t ((m.acquire p t i).process p) := by
  rw [Machine.acquire]
  by_cases idle : (m.process p).phase t = .idle
  · rw [if_pos idle]
    cases granted : (m.process p).guard_acquire t with
    | none => exact .stays
    | some q => simpa using Move.guards i q idle granted fits
  · rw [if_neg idle]
    exact .stays

theorem release_moves (m : Machine) (p : Pid) (t : Tid) (i : Instance) :
    (m.process p).Move t ((m.release p t i).process p) := by
  rw [Machine.release]
  split
  · rename_i both
    simpa using Move.drops i both.1 both.2
  · exact .stays

theorem acquire_other (m : Machine) {p p' : Pid} (other : p' ≠ p) (t : Tid) (i : Instance) :
    (m.acquire p t i).process p' = m.process p' := by
  rw [Machine.acquire]
  split
  · split
    · exact puts_other m other _
    · rfl
  · rfl

theorem release_other (m : Machine) {p p' : Pid} (other : p' ≠ p) (t : Tid) (i : Instance) :
    (m.release p t i).process p' = m.process p' := by
  rw [Machine.release]
  split
  · exact puts_other m other _
  · rfl

theorem advance_other (m : Machine) {p p' : Pid} (other : p' ≠ p) (t : Tid) (fails : Bool) :
    (m.advance p t fails).process p' = m.process p' := by
  have put (q : Process) : (m.puts p q).process p' = m.process p' := puts_other m other q
  rw [Machine.advance]
  cases (m.process p).phase t with
  | idle => rfl
  | guarded i => dsimp only; split <;> [exact put _; split <;> exact put _]
  | trying i => dsimp only; split <;> [exact put _; split <;> [exact put _; rfl]]
  | locked i => exact put _
  | leaving => dsimp only; split <;> exact put _
  | left => exact put _

def Tidy (m : Machine) : Prop := m.Sound ∧ ∀ p, (m.process p).Tidy

theorem step_tidy (m : Machine) (e : Event) (both : Tidy m) (fits : Fits m e) : Tidy (step m e) := by
  obtain ⟨sound,tidy⟩ := both
  refine ⟨step_sound m e sound,fun p' => ?_⟩
  have moved {p : Pid} {t : Tid} {m' : Machine} (move : (m.process p).Move t (m'.process p))
      (others : p' ≠ p → m'.process p' = m.process p') : (m'.process p').Tidy := by
    by_cases same : p' = p
    · exact same ▸ move.tidy (sound.processes p) (tidy p)
    · rw [others same]
      exact tidy p'
  cases e with
  | acquire p t i => exact moved (acquire_moves fits) fun other => acquire_other m other t i
  | release p t i => exact moved (release_moves m p t i) fun other => release_other m other t i
  | advance p t fails => exact moved (advance_moves m p t fails) fun other => advance_other m other t fails
  | kill p =>
    by_cases same : p' = p
    · intro t n guard
      rw [show (step m (.kill p)).process p' = .fresh from same ▸ Function.update_self ..] at guard
      cases guard
    · rw [show (step m (.kill p)).process p' = m.process p' from Function.update_of_ne same ..]
      exact tidy p'

theorem run_tidy {events : List Event} (every : Every step Fits .fresh events) : Tidy (run events) := by
  refine run_keeps step_tidy ⟨fresh_sound,fun p t n guard => ?_⟩ every
  cases guard

/-- Nothing of the lock is left once everybody is out of it, not even after a kill. -/
theorem nothing_left {events : List Event} (every : Every step Fits .fresh events)
    (out : ∀ p t, ((run events).process p).phase t = .idle) (released : ∀ p, ((run events).process p).held = ∅) :
    run events = .fresh := by
  obtain ⟨sound,tidy⟩ := run_tidy every
  have free (p : Pid) : ((run events).process p).Free := by
    rcases sound.processes p with free | ⟨t,owned⟩
    · exact free
    · have inside := owned.inside
      have counted := (tidy p t _ owned.guard).1
      rw [out p t,released p] at counted
      rw [out p t] at inside
      simp only [Finset.card_empty,Phase.owed,Phase.extra] at counted inside
      omega
  have unlocked : (run events).flock = none := by
    cases taken : (run events).flock with
    | none => rfl
    | some p => exact absurd ((sound.flock p).mp taken) (free p).unlocked
  have fresh : (run events).process = fun _ => Process.fresh := by
    funext p
    obtain ⟨guard,depth,handle,held,idle⟩ := free p
    exact congr (congr (congr (congr (congrArg Process.mk guard) depth) handle) (funext idle)) held
  exact congr (congrArg Machine.mk unlocked) fresh

/-- A process is killed while it has the lock. -/
def killed : List Event := [.acquire 1 0 0,.advance 1 0 false,.advance 1 0 false,.advance 1 0 false,.kill 1]

theorem killed_fits : Every step Fits .fresh killed := by
  refine every_cons.mpr ⟨?_,every_cons.mpr ⟨trivial,every_cons.mpr ⟨trivial,every_cons.mpr ⟨trivial,
    every_cons.mpr ⟨trivial,every_nil⟩⟩⟩⟩⟩
  exact Finset.notMem_empty _

theorem killed_process (p : Pid) : (run killed).process p = .fresh := by
  by_cases here : p = 1
  · subst here
    rfl
  · simp only [run,killed,List.foldl_cons,List.foldl_nil,step]
    refine (Function.update_of_ne here ..).trans ?_
    rw [advance_other _ here,advance_other _ here,advance_other _ here,acquire_other _ here]
    rfl

theorem nothing_left_after_kill : run killed = .fresh := by
  refine nothing_left killed_fits (fun p t => ?_) fun p => ?_
  · rw [killed_process p]
    rfl
  · rw [killed_process p]
    rfl

/-- A thread of the process has something held, or the OS lock is being taken or given back. -/
def Process.Engaged (q : Process) : Prop :=
  ∃ t, (∃ i, (t,i) ∈ q.held) ∨ (∃ i, q.phase t = .locked i) ∨ q.phase t = .leaving

theorem Process.locks_iff {q : Process} (sound : q.Sound) (tidy : q.Tidy) : q.Locks ↔ q.Engaged := by
  rcases sound with free | ⟨t,owned⟩
  · refine iff_of_false free.unlocked ?_
    rintro ⟨t,⟨i,holds⟩ | ⟨i,locked⟩ | leaving⟩
    · rw [free.held] at holds
      exact absurd holds (Finset.notMem_empty _)
    · exact Phase.noConfusion ((free.idle t).symm.trans locked)
    · exact Phase.noConfusion ((free.idle t).symm.trans leaving)
  · constructor
    · rintro (handle | ⟨u,i,locked⟩)
      · have deep := owned.handle.mp handle
        rw [← (tidy t _ owned.guard).1] at deep
        rcases Finset.eq_empty_or_nonempty q.held with none_held | ⟨⟨u,i⟩,holds⟩
        · refine ⟨t,.inr (.inr ?_)⟩
          rw [none_held,Finset.card_empty,Nat.zero_add] at deep
          cases at_ : q.phase t with
          | leaving => rfl
          | _ => simp [at_,Phase.owed] at deep
        · exact ⟨u,.inl ⟨i,holds⟩⟩
      · exact ⟨u,.inr (.inl ⟨i,locked⟩)⟩
    · rintro ⟨u,⟨i,holds⟩ | ⟨i,locked⟩ | leaving⟩
      · exact .inl (owned.holding holds)
      · exact .inr ⟨u,i,locked⟩
      · have mine : (q.Owned u) := Sound.owned (.inr ⟨t,owned⟩) (.inl (by simp [leaving]))
        exact .inl (mine.handle.mpr (mine.deep leaving))

/-- A whole acquisition, with nobody else taking a step. -/
def alone (p : Pid) (t : Tid) (i : Instance) : List Event :=
  [.acquire p t i,.advance p t false,.advance p t false,.advance p t false]

/-- Nobody but the thread itself is in the way. -/
def Clear (m : Machine) (p : Pid) (t : Tid) : Prop :=
  (∀ u, u ≠ t → (m.process p).phase u = .idle ∧ ∀ j, (u,j) ∉ (m.process p).held) ∧
    ∀ p', p' ≠ p → ¬(m.process p').Engaged

theorem after_acquire {m : Machine} {p : Pid} {t : Tid} {q : Process} (idle : (m.process p).phase t = .idle)
    (granted : (m.process p).guard_acquire t = some q) (i : Instance) :
    step m (.acquire p t i) = m.puts p (q.goes t (.guarded i)) := by
  rw [step,Machine.acquire,if_pos idle,granted]

theorem after_guarded {m : Machine} {p : Pid} {t : Tid} {i : Instance} (at_ : (m.process p).phase t = .guarded i)
    (shallow : (m.process p).depth = 0) :
    step m (.advance p t false) = m.puts p ((m.process p).goes t (.trying i)) := by
  rw [step,Machine.advance,at_]
  simp [shallow]

theorem after_guarded_deep {m : Machine} {p : Pid} {t : Tid} {i : Instance} (at_ : (m.process p).phase t = .guarded i)
    (deep : (m.process p).depth ≠ 0) : step m (.advance p t false) = m.puts p ((m.process p).entered t i) := by
  rw [step,Machine.advance,at_]
  simp [deep]

theorem after_trying {m : Machine} {p : Pid} {t : Tid} {i : Instance} (at_ : (m.process p).phase t = .trying i) :
    step m (.advance p t false) =
      if m.flock = none then {m.puts p ((m.process p).goes t (.locked i)) with flock := some p} else m := by
  rw [step,Machine.advance,at_]
  rfl

theorem after_locked {m : Machine} {p : Pid} {t : Tid} {i : Instance} (at_ : (m.process p).phase t = .locked i) :
    (t,i) ∈ ((step m (.advance p t false)).process p).held := by
  rw [step,Machine.advance,at_]
  simp [entered]

theorem after_idle {m : Machine} {p : Pid} {t : Tid} (at_ : (m.process p).phase t = .idle) :
    step m (.advance p t false) = m := by
  rw [step,Machine.advance,at_]

theorem from_guarded {m : Machine} {p : Pid} {t : Tid} {i : Instance} (at_ : (m.process p).phase t = .guarded i)
    (shallow : (m.process p).depth = 0) (fits : (t,i) ∉ (m.process p).held) :
    (t,i) ∈ (([.advance p t false,.advance p t false,.advance p t false].foldl step m).process p).held ↔ m.flock = none := by
  have third := after_trying (m := m.puts p ((m.process p).goes t (.trying i))) (p := p) (t := t) (i := i) (by simp)
  simp only [List.foldl_cons,List.foldl_nil]
  rw [after_guarded at_ shallow,third]
  by_cases unlocked : m.flock = none
  · refine iff_of_true ?_ unlocked
    rw [if_pos (show (m.puts p _).flock = none from unlocked)]
    exact after_locked (by simp)
  · have taken : (m.puts p ((m.process p).goes t (.trying i))).flock ≠ none := unlocked
    refine iff_of_false ?_ unlocked
    rw [if_neg taken] at third ⊢
    rw [third,puts_same]
    exact fits

/-- Where nobody of the process is in the lock, the OS lock decides. -/
theorem alone_free {m : Machine} {p : Pid} {t : Tid} {i : Instance} (free : (m.process p).Free) :
    (t,i) ∈ (((alone p t i).foldl step m).process p).held ↔ m.flock = none := by
  have granted : (m.process p).guard_acquire t = some {m.process p with guard := some (t,1)} := by
    rw [guard_acquire,free.guard]
  rw [alone,List.foldl_cons,after_acquire (free.idle t) granted i]
  refine from_guarded (by simp) (by simpa using free.depth) ?_
  simp [free.held]

theorem from_guarded_deep {m : Machine} {p : Pid} {t : Tid} {i : Instance} (at_ : (m.process p).phase t = .guarded i)
    (deep : (m.process p).depth ≠ 0) :
    (t,i) ∈ (([.advance p t false,.advance p t false,.advance p t false].foldl step m).process p).held := by
  have out : ((m.puts p ((m.process p).entered t i)).process p).phase t = .idle := by
    rw [puts_same]
    exact goes_same ..
  simp only [List.foldl_cons,List.foldl_nil]
  rw [after_guarded_deep at_ deep,after_idle out,after_idle out,puts_same]
  exact Finset.mem_insert_self ..

theorem alone_reentrant {m : Machine} {p : Pid} {t : Tid} {i : Instance} (owned : (m.process p).Owned t)
    (idle : (m.process p).phase t = .idle) : (t,i) ∈ (((alone p t i).foldl step m).process p).held := by
  have deep : (m.process p).depth ≠ 0 := by
    have inside := owned.inside
    rw [idle] at inside
    exact Nat.ne_of_gt inside
  have granted : (m.process p).guard_acquire t = some {m.process p with guard := some (t,(m.process p).depth + 1)} := by
    simp [guard_acquire,owned.guard,idle,Phase.extra]
  rw [alone,List.foldl_cons,after_acquire idle granted i]
  exact from_guarded_deep (by simp) (by simpa using deep)

theorem alone_guarded_out {m : Machine} {p : Pid} {t u : Tid} {i : Instance} (owned : (m.process p).Owned u)
    (other : u ≠ t) : (alone p t i).foldl step m = m := by
  have idle := owned.others t other.symm
  have refused : (m.process p).guard_acquire t = none := by
    rw [guard_acquire,owned.guard]
    simp [other]
  have first : step m (.acquire p t i) = m := by
    rw [step,Machine.acquire,if_pos idle,refused]
  simp only [alone,List.foldl_cons,List.foldl_nil]
  rw [first,after_idle idle,after_idle idle,after_idle idle]

theorem Process.Owned.shows {q : Process} {t : Tid} (owned : q.Owned t) (tidy : q.Tidy) (idle : q.phase t = .idle) :
    ∃ j, (t,j) ∈ q.held := by
  have inside := owned.inside
  have counted := (tidy t _ owned.guard).1
  rw [idle] at inside counted
  simp only [Phase.owed,Phase.extra,Nat.add_zero] at inside counted
  obtain ⟨⟨u,j⟩,holds⟩ := Finset.card_pos.mp (counted ▸ inside)
  have mine : u = t := owned.held (u,j) holds
  exact ⟨j,mine ▸ holds⟩

/-- A thread that is out of the lock's code gets the lock by itself exactly when nobody else is in it:
no lock is ever stuck, and none is had twice. -/
theorem had_alone_iff {events : List Event} (every : Every step Fits .fresh events) {p : Pid} {t : Tid} {i : Instance}
    (idle : ((run events).process p).phase t = .idle) (fits : (t,i) ∉ ((run events).process p).held) :
    (t,i) ∈ ((run (events ++ alone p t i)).process p).held ↔ Clear (run events) p t := by
  obtain ⟨sound,tidy⟩ := run_tidy every
  have elsewhere : (run events).flock = none ∨ (run events).flock = some p ↔
      ∀ p', p' ≠ p → ¬((run events).process p').Engaged := by
    constructor
    · intro here p' other engaged
      have locked := (sound.flock p').mpr ((locks_iff (sound.processes p') (tidy p')).mpr engaged)
      rw [locked] at here
      simp [other] at here
    · intro nobody
      cases taken : (run events).flock with
      | none => exact .inl rfl
      | some p' =>
        by_contra neither
        have other : p' ≠ p := fun same => neither (.inr (same ▸ rfl))
        exact nobody p' other ((locks_iff (sound.processes p') (tidy p')).mp ((sound.flock p').mp taken))
  have split : run (events ++ alone p t i) = (alone p t i).foldl step (run events) := List.foldl_append ..
  rw [split]
  rcases sound.processes p with free | ⟨u,owned⟩
  · have not_mine : (run events).flock ≠ some p := fun mine => free.unlocked ((sound.flock p).mp mine)
    rw [alone_free free,Clear,← elsewhere,or_iff_left not_mine]
    refine (and_iff_right fun u _ => ⟨free.idle u,fun j => ?_⟩).symm
    rw [free.held]
    exact Finset.notMem_empty _
  · by_cases mine : u = t
    · subst mine
      have locked : (run events).flock = some p := by
        obtain ⟨j,holds⟩ := owned.shows (tidy p) idle
        exact (sound.flock p).mpr (.inl (owned.holding holds))
      refine iff_of_true (alone_reentrant owned idle) ⟨fun v other => ⟨owned.others v other,fun j holds => ?_⟩,?_⟩
      · exact other (owned.held (v,j) holds)
      · exact elsewhere.mp (.inr locked)
    · rw [alone_guarded_out owned mine]
      refine iff_of_false fits fun clear => ?_
      obtain ⟨j,holds⟩ := owned.shows (tidy p) (clear.1 u mine).1
      exact (clear.1 u mine).2 j holds

theorem alone_after_kill :
    (5,7) ∈ ((run (killed ++ alone 2 5 7)).process 2).held ↔ Clear (run killed) 2 5 := by
  refine had_alone_iff killed_fits ?_ ?_
  · rw [killed_process 2]
    rfl
  · rw [killed_process 2]
    exact Finset.notMem_empty _

/-- Who is in the lock, seen from outside. -/
def view (m : Machine) : Hold (Pid × Tid) :=
  m.flock.bind fun p =>
    let q := m.process p
    if q.depth = 0 then none else q.guard.map fun held => ((p,held.1),q.depth)

/-- What an event does to the lock as its callers see it. -/
def effect (m : Machine) : Event → Act (Pid × Tid)
  | .advance p t _ =>
    let q := m.process p
    match q.phase t with
    | .guarded _ => if q.depth ≠ 0 then .enter (p,t) else .pause
    | .locked _ => .enter (p,t)
    | .leaving => .leave (p,t)
    | _ => .pause
  | .kill p => .die fun who => who.1 == p
  | _ => .pause

/-- The view, from one process: it has depth, or some other has, or none. -/
theorem view_owned {m : Machine} (sound : m.Sound) {p : Pid} {t : Tid} (owned : (m.process p).Owned t)
    (deep : (m.process p).depth ≠ 0) : view m = some ((p,t),(m.process p).depth) := by
  have locked := (sound.flock p).mpr (.inl (owned.handle.mpr (Nat.pos_of_ne_zero deep)))
  simp [view,locked,deep,owned.guard]

theorem view_none {m : Machine} {p : Pid} (locked : m.flock = some p) (shallow : (m.process p).depth = 0) :
    view m = none := by
  simp [view,locked,shallow]

/-- Nothing is seen of a step that leaves the depth alone, and the guard with whoever has depth. -/
theorem view_puts (m : Machine) {p : Pid} {q : Process} (depth : q.depth = (m.process p).depth)
    (guard : (m.process p).depth ≠ 0 → q.guard.map Prod.fst = (m.process p).guard.map Prod.fst) :
    view (m.puts p q) = view m := by
  rw [view,view,puts]
  cases taken : m.flock with
  | none => rfl
  | some p' =>
    by_cases here : p' = p
    · subst here
      simp only [Option.bind_some,Function.update_self,depth]
      by_cases deep : (m.process p').depth = 0
      · rw [if_pos deep,if_pos deep]
      · rw [if_neg deep,if_neg deep]
        have owner := guard deep
        revert owner
        cases q.guard <;> cases (m.process p').guard <;> simp
    · simp only [Option.bind_some,Function.update_of_ne here]

theorem view_acquire {m : Machine} (sound : m.Sound) (p : Pid) (t : Tid) (i : Instance) : view (m.acquire p t i) = view m := by
  rw [Machine.acquire]
  split
  · cases granted : (m.process p).guard_acquire t with
    | none => rfl
    | some q =>
      refine view_puts m (guard_acquire_keeps granted).2.1 fun deep => ?_
      rcases sound.processes p with free | ⟨u,owned⟩
      · exact absurd free.depth deep
      · rw [guard_acquire,owned.guard] at granted
        rw [goes_guard,owned.guard]
        by_cases mine : u = t
        · simp only [mine,↓reduceIte,Option.some.injEq] at granted
          rw [← granted,mine]
          rfl
        · simp [mine] at granted
  · rfl

theorem view_release (m : Machine) (p : Pid) (t : Tid) (i : Instance) : view (m.release p t i) = view m := by
  rw [Machine.release]
  split
  · exact view_puts m rfl fun _ => rfl
  · rfl

theorem view_guard_release {m : Machine} {p : Pid} {t : Tid} (owned : (m.process p).Owned t)
    (extra : ((m.process p).phase t).extra = 1) : view (m.puts p ((m.process p).guard_release t)) = view m := by
  refine view_puts m rfl fun deep => ?_
  rw [guard_release,owned.guard,extra]
  have more : ¬(m.process p).depth + 1 ≤ 1 := by omega
  simp [more]

/-- Each step does to the lock what its callers see, and only what the lock grants. -/
def Exact (m : Machine) (e : Event) : Prop :=
  Granted (view m) (effect m e) ∧ view (step m e) = act (view m) (effect m e)

theorem advance_exact {m : Machine} (sound : m.Sound) (p : Pid) (t : Tid) (fails : Bool) :
    Exact m (.advance p t fails) := by
  have owner (busy : (m.process p).phase t ≠ .idle) := (sound.processes p).owned (.inl busy)
  have after := sound.advance p t fails
  rw [Exact,step,effect]
  rw [Machine.advance] at after ⊢
  cases at_ : (m.process p).phase t with
  | idle => exact ⟨trivial,rfl⟩
  | guarded i =>
    have owned := owner (by simp [at_])
    have extra : ((m.process p).phase t).extra = 1 := by rw [at_]; rfl
    by_cases deep : (m.process p).depth = 0
    · cases fails with
      | true =>
        simp only [deep,ne_eq,not_true_eq_false,↓reduceIte]
        exact ⟨trivial,view_guard_release owned extra⟩
      | false =>
        simp only [deep,ne_eq,not_true_eq_false,↓reduceIte,Bool.false_eq_true]
        exact ⟨trivial,view_puts m rfl fun _ => rfl⟩
    · have inside := view_owned sound owned deep
      simp only [at_,deep,ne_eq,not_false_eq_true,↓reduceIte] at after ⊢
      have mine := (after.processes p).owned (t := t) (.inr ⟨i,by simp [entered]⟩)
      rw [puts_same] at mine
      rw [inside,view_owned after (by rw [puts_same]; exact mine) (by simp [entered])]
      simp [Granted,act,enter,entered]
  | trying i =>
    have owned := owner (by simp [at_])
    have extra : ((m.process p).phase t).extra = 1 := by rw [at_]; rfl
    by_cases free : m.flock = none
    · simp only [free,↓reduceIte]
      refine ⟨trivial,?_⟩
      rw [view_none rfl (by simpa using owned.first i (.inl at_)),act,view,free]
      rfl
    · cases fails with
      | true =>
        simp only [free,↓reduceIte]
        exact ⟨trivial,view_guard_release owned extra⟩
      | false =>
        simp only [free,↓reduceIte,Bool.false_eq_true]
        exact ⟨trivial,rfl⟩
  | locked i =>
    have owned := owner (by simp [at_])
    have outside := view_none ((sound.flock p).mpr (.inr ⟨t,i,at_⟩)) (owned.first i (.inr at_))
    simp only [at_] at after ⊢
    have mine := (after.processes p).owned (t := t) (.inr ⟨i,by simp [entered]⟩)
    rw [outside,view_owned after mine (by simp [entered])]
    simp [Granted,act,enter,entered,owned.first i (.inr at_)]
  | leaving =>
    have owned := owner (by simp [at_])
    have deep := owned.deep at_
    have handle := owned.handle.mpr deep
    have inside := view_owned sound owned (Nat.ne_of_gt deep)
    refine ⟨by rw [inside]; rfl,?_⟩
    rw [inside]
    by_cases last : (m.process p).depth - 1 = 0
    · have shallow : (m.process p).depth ≤ 1 := by omega
      simp only [last,handle,and_self,↓reduceIte,act,leave,shallow]
      rfl
    · have more : ¬(m.process p).depth ≤ 1 := by omega
      simp only [at_,last,false_and,↓reduceIte,act,leave,more] at after ⊢
      have mine := (after.processes p).owned (t := t) (.inl (by simp))
      rw [view_owned after mine (by simpa using last)]
      simp
  | left => exact ⟨trivial,view_guard_release (owner (by simp [at_])) (by rw [at_]; rfl)⟩

theorem kill_exact (m : Machine) (p : Pid) : Exact m (.kill p) := by
  refine ⟨trivial,?_⟩
  rw [step,effect,act,Machine.kill,view,view]
  cases taken : m.flock with
  | none => rfl
  | some p' =>
    by_cases here : p' = p
    · subst here
      by_cases deep : (m.process p').depth = 0
      · simp [deep]
      · cases guard : (m.process p').guard <;> simp [deep,guard,Option.filter]
    · by_cases deep : (m.process p').depth = 0
      · simp [here,deep]
      · cases guard : (m.process p').guard <;> simp [here,deep,guard,Option.filter]

theorem step_exact {m : Machine} (sound : m.Sound) (e : Event) : Exact m e := by
  cases e with
  | acquire p t i => exact ⟨trivial,view_acquire sound p t i⟩
  | release p t i => exact ⟨trivial,view_release m p t i⟩
  | advance p t fails => exact advance_exact sound p t fails
  | kill p => exact kill_exact m p

def effects (m : Machine) : List Event → List (Act (Pid × Tid))
  | [] => []
  | e::events => effect m e::effects (step m e) events

/-- What a step is in the world that the commands run in, whose parties are the threads. -/
def obey {H : Type} [DecidableEq H] [Hashing H] (name : Pid × Tid ≃ Nat) (lock : LockName) (w : World H) : Act (Pid × Tid) → World H
  | .pause => w
  | .enter me => (w.acquire (name me) lock).2
  | .leave me => w.release (name me) lock
  | .die dead => {w with repo := {w.repo with
      locks := Function.update w.repo.locks lock ((w.repo.locks lock).filter fun held => !dead (name.symm held.1))}}

variable {H : Type} [DecidableEq H] [Hashing H]

theorem world_acquire (w : World H) (me : Nat) (lock : LockName) :
    (w.acquire me lock).1 = (enter (w.repo.locks lock) me).1 ∧
      (w.acquire me lock).2.repo.locks lock = (enter (w.repo.locks lock) me).2 := by
  rw [World.acquire]
  cases inside : w.repo.locks lock with
  | none => simp [enter]
  | some held =>
    by_cases mine : held.1 = me
    · simp [enter,mine]
    · simp [enter,mine,inside]

theorem world_release (w : World H) (me : Nat) (lock : LockName) :
    (w.release me lock).repo.locks lock = leave (w.repo.locks lock) me := by
  rw [World.release]
  cases inside : w.repo.locks lock with
  | none => simpa [leave] using inside
  | some held =>
    by_cases mine : held.1 = me
    · simp [leave,mine]
    · simp [leave,mine,inside]

theorem die_named (name : Pid × Tid ≃ Nat) (hold : Hold (Pid × Tid)) (dead : Pid × Tid → Bool) :
    (named name hold).filter (fun held => !dead (name.symm held.1)) = named name (act hold (.die dead)) := by
  cases hold with
  | none => rfl
  | some held => cases gone : dead held.1 <;> simp [named,act,Option.filter,gone]

theorem obey_locks (name : Pid × Tid ≃ Nat) (lock : LockName) {w : World H} {hold : Hold (Pid × Tid)}
    (same : w.repo.locks lock = named name hold) (a : Act (Pid × Tid)) :
    (obey name lock w a).repo.locks lock = named name (act hold a) := by
  cases a with
  | pause => exact same
  | enter me =>
    rw [obey,(world_acquire w (name me) lock).2,same,enter_named name name.injective]
    rfl
  | leave me =>
    rw [obey,world_release,same,leave_named name name.injective]
    rfl
  | die dead =>
    rw [obey]
    simp only [Function.update_self]
    rw [same]
    exact die_named name hold dead

/-- The commands' atomic lock is what the processes build: every run, as the world sees it, is made of
acquisitions that the world grants, releases and deaths, and ends with the same holder at the same depth. -/
theorem run_refines_world (name : Pid × Tid ≃ Nat) (lock : LockName) {w : World H} (free : w.repo.locks lock = none)
    (events : List Event) :
    ((effects .fresh events).foldl (obey name lock) w).repo.locks lock = named name (view (run events)) ∧
      Every (obey name lock) (fun w a => ∀ me, a = .enter me → (w.acquire (name me) lock).1 = true) w
        (effects .fresh events) := by
  suffices general : ∀ m : Machine, m.Sound → ∀ w : World H, w.repo.locks lock = named name (view m) →
      ((effects m events).foldl (obey name lock) w).repo.locks lock = named name (view (events.foldl step m)) ∧
        Every (obey name lock) (fun w a => ∀ me, a = .enter me → (w.acquire (name me) lock).1 = true) w
          (effects m events) from general _ fresh_sound w free
  induction events with
  | nil => exact fun m _ w same => ⟨same,every_nil⟩
  | cons e events ih =>
    intro m sound w same
    obtain ⟨granted,seen⟩ := step_exact sound e
    have next := obey_locks name lock same (effect m e)
    rw [← seen] at next
    obtain ⟨last,every⟩ := ih (step m e) (step_sound m e sound) _ next
    refine ⟨last,every_cons.mpr ⟨fun me enters => ?_,every⟩⟩
    rw [enters] at granted
    rw [(world_acquire w (name me) lock).1,same,enter_named name name.injective]
    exact granted

theorem killed_refines_world :
    ((effects .fresh killed).foldl (obey Nat.pairEquiv .repo) (⟨.init,.empty 0,true⟩ : World Name)).repo.locks .repo =
        named Nat.pairEquiv (view (run killed)) ∧
      Every (obey Nat.pairEquiv .repo) (fun w a => ∀ me, a = .enter me → (w.acquire (Nat.pairEquiv me) .repo).1 = true)
        (⟨.init,.empty 0,true⟩ : World Name) (effects .fresh killed) := by
  exact run_refines_world Nat.pairEquiv .repo rfl killed

end AetherVault.RepoLock
