import AetherVault.Lib.Mutex
import AetherVault.Lib.Runs
import AetherVault.World
import Mathlib.Data.Finset.Card

/-! The lock of a repository (`RepoLock`): a guard and a count in every process, an OS lock between the
processes. Threads take one step at a time, in any order, and processes are killed at any point. -/
namespace AetherVault.RepoLock

open Lib.Mutex Lib.Runs

abbrev Pid := Nat
abbrev Tid := Nat
abbrev Instance := Nat

/-- Where a thread is in `acquire` (the first three) or in `release`. -/
inductive Phase
  | idle
  | guarded (i : Instance)
  | trying (i : Instance)
  | locked (i : Instance)
  | leaving
  | left
  deriving DecidableEq

/-- A process: its `_LockState`, its threads, and the instances whose `_held` is set. An instance is
used by one thread, as every caller does. -/
structure Process where
  guard : Option (Tid × Nat)
  depth : Nat
  handle : Bool
  phase : Tid → Phase
  held : Finset (Tid × Instance)

namespace Process

def fresh : Process := ⟨none,0,false,fun _ => .idle,∅⟩

def goes (q : Process) (t : Tid) (phase : Phase) : Process := {q with phase := Function.update q.phase t phase}

/-- `state.guard.acquire`, as far as it can be granted. -/
def guard_acquire (q : Process) (t : Tid) : Option Process :=
  match q.guard with
  | none => some {q with guard := some (t,1)}
  | some (owner,count) => if owner = t then some {q with guard := some (t,count+1)} else none

/-- `state.guard.release`, after which the thread is out of the lock's code. -/
def guard_release (q : Process) (t : Tid) : Process :=
  {q.goes t .idle with guard := q.guard.bind fun held => if held.2 ≤ 1 then none else some (held.1,held.2-1)}

/-- `state.depth += 1` and `self._held = True`. -/
def entered (q : Process) (t : Tid) (i : Instance) : Process :=
  {q.goes t .idle with depth := q.depth+1, held := insert (t,i) q.held}

end Process

/-- The processes of a machine, and the one that has the OS lock. -/
structure Machine where
  flock : Option Pid
  process : Pid → Process

namespace Machine

def fresh : Machine := ⟨none,fun _ => .fresh⟩

def puts (m : Machine) (p : Pid) (q : Process) : Machine := {m with process := Function.update m.process p q}

def acquire (m : Machine) (p : Pid) (t : Tid) (i : Instance) : Machine :=
  if (m.process p).phase t = .idle then
    match (m.process p).guard_acquire t with
    | some q => m.puts p (q.goes t (.guarded i))
    | none => m
  else m

def release (m : Machine) (p : Pid) (t : Tid) (i : Instance) : Machine :=
  let q := m.process p
  if q.phase t = .idle ∧ (t,i) ∈ q.held then m.puts p {q.goes t .leaving with held := q.held.erase (t,i)} else m

/-- The thread's next step. What fails is the lock file's opening, or the wait for it when the deadline
has passed. -/
def advance (m : Machine) (p : Pid) (t : Tid) (fails : Bool) : Machine :=
  let q := m.process p
  match q.phase t with
  | .idle => m
  | .guarded i =>
    if q.depth ≠ 0 then m.puts p (q.entered t i)
    else if fails then m.puts p (q.guard_release t) else m.puts p (q.goes t (.trying i))
  | .trying i =>
    if m.flock = none then {m.puts p (q.goes t (.locked i)) with flock := some p}
    else if fails then m.puts p (q.guard_release t) else m
  | .locked i => m.puts p ({q with handle := true}.entered t i)
  | .leaving =>
    if q.depth - 1 = 0 ∧ q.handle = true then
      {m.puts p {q.goes t .left with depth := q.depth - 1, handle := false} with flock := none}
    else m.puts p {q.goes t .left with depth := q.depth - 1}
  | .left => m.puts p (q.guard_release t)

/-- The OS lock goes with the process that has it. -/
def kill (m : Machine) (p : Pid) : Machine :=
  ⟨if m.flock = some p then none else m.flock,Function.update m.process p .fresh⟩

end Machine

inductive Event
  | acquire (p : Pid) (t : Tid) (i : Instance)
  | release (p : Pid) (t : Tid) (i : Instance)
  | advance (p : Pid) (t : Tid) (fails : Bool)
  | kill (p : Pid)

def step (m : Machine) : Event → Machine
  | .acquire p t i => m.acquire p t i
  | .release p t i => m.release p t i
  | .advance p t fails => m.advance p t fails
  | .kill p => m.kill p

def run (events : List Event) : Machine := events.foldl step .fresh

/-- How often the guard is held beyond the depth. -/
def Phase.extra : Phase → Nat
  | .guarded _ | .trying _ | .locked _ | .left => 1
  | .idle | .leaving => 0

/-- Depth that its instance no longer stands for. -/
def Phase.owed : Phase → Nat
  | .leaving => 1
  | _ => 0

namespace Process

structure Free (q : Process) : Prop where
  guard : q.guard = none
  depth : q.depth = 0
  handle : q.handle = false
  held : q.held = ∅
  idle : ∀ t, q.phase t = .idle

structure Owned (q : Process) (t : Tid) : Prop where
  guard : q.guard = some (t,q.depth + (q.phase t).extra)
  inside : 0 < q.depth + (q.phase t).extra
  others : ∀ u, u ≠ t → q.phase u = .idle
  held : ∀ x ∈ q.held, x.1 = t
  depth : q.held.card + (q.phase t).owed ≤ q.depth
  handle : q.handle = true ↔ 0 < q.depth
  first : ∀ i, q.phase t = .trying i ∨ q.phase t = .locked i → q.depth = 0

/-- One thread at most is in the lock's code or has something held. -/
def Sound (q : Process) : Prop := q.Free ∨ ∃ t, q.Owned t

def Locks (q : Process) : Prop := q.handle = true ∨ ∃ t i, q.phase t = .locked i

theorem fresh_free : fresh.Free := ⟨rfl,rfl,rfl,rfl,fun _ => rfl⟩

@[simp] theorem goes_guard (q : Process) (t : Tid) (phase : Phase) : (q.goes t phase).guard = q.guard := rfl
@[simp] theorem goes_depth (q : Process) (t : Tid) (phase : Phase) : (q.goes t phase).depth = q.depth := rfl
@[simp] theorem goes_handle (q : Process) (t : Tid) (phase : Phase) : (q.goes t phase).handle = q.handle := rfl
@[simp] theorem goes_held (q : Process) (t : Tid) (phase : Phase) : (q.goes t phase).held = q.held := rfl

@[simp] theorem goes_same (q : Process) (t : Tid) (phase : Phase) : (q.goes t phase).phase t = phase :=
  Function.update_self ..

theorem goes_other (q : Process) {t u : Tid} (other : u ≠ t) (phase : Phase) :
    (q.goes t phase).phase u = q.phase u :=
  Function.update_of_ne other ..

theorem Sound.owned {q : Process} (sound : q.Sound) {t : Tid} (busy : q.phase t ≠ .idle ∨ ∃ i, (t,i) ∈ q.held) :
    q.Owned t := by
  rcases sound with free | ⟨u,owned⟩
  · rcases busy with busy | ⟨i,holds⟩
    · exact absurd (free.idle t) busy
    · rw [free.held] at holds
      exact absurd holds (Finset.notMem_empty _)
  · rcases busy with busy | ⟨i,holds⟩
    · by_cases same : t = u
      · exact same ▸ owned
      · exact absurd (owned.others t same) busy
    · have same : t = u := owned.held (t,i) holds
      exact same ▸ owned

/-- Out of the lock's code again: whoever still has depth keeps the guard. -/
theorem Owned.guard_release {q : Process} {t : Tid} (owned : q.Owned t) (extra : (q.phase t).extra = 1) :
    (q.guard_release t).Sound := by
  have counted := owned.guard
  have owes : (q.phase t).owed = 0 := by
    cases at_ : q.phase t <;> simp_all [Phase.extra,Phase.owed]
  rw [extra] at counted
  have depth := owned.depth
  rw [owes] at depth
  by_cases deep : 0 < q.depth
  · refine .inr ⟨t,?_,?_,?_,owned.held,?_,owned.handle,?_⟩
    · have more : ¬q.depth + 1 ≤ 1 := by omega
      simp [Process.guard_release,counted,more,Phase.extra]
    · exact Nat.lt_of_lt_of_le deep (Nat.le_add_right ..)
    · intro u other
      exact (goes_other q other .idle).trans (owned.others u other)
    · simpa [Process.guard_release,Phase.owed] using depth
    · intro i trying
      simp [Process.guard_release] at trying
  · have none_left : q.depth = 0 := by omega
    refine .inl ⟨?_,none_left,?_,?_,?_⟩
    · simp [Process.guard_release,counted,none_left]
    · exact Bool.eq_false_iff.mpr fun handle => deep (owned.handle.mp handle)
    · have empty : q.held.card = 0 := by omega
      exact Finset.card_eq_zero.mp empty
    · intro u
      by_cases same : u = t
      · subst same
        exact goes_same q u .idle
      · exact (goes_other q same .idle).trans (owned.others u same)

theorem guard_acquire_keeps {q q' : Process} {t : Tid} (granted : q.guard_acquire t = some q') :
    q'.handle = q.handle ∧ q'.depth = q.depth ∧ q'.held = q.held ∧ q'.phase = q.phase := by
  rw [Process.guard_acquire] at granted
  split at granted
  · cases granted
    exact ⟨rfl,rfl,rfl,rfl⟩
  · split at granted
    · cases granted
      exact ⟨rfl,rfl,rfl,rfl⟩
    · cases granted

theorem Sound.guarded {q q' : Process} (sound : q.Sound) {t : Tid} (idle : q.phase t = .idle)
    (granted : q.guard_acquire t = some q') (i : Instance) : (q'.goes t (.guarded i)).Owned t := by
  rcases sound with free | ⟨u,owned⟩
  · rw [Process.guard_acquire,free.guard,Option.some.injEq] at granted
    subst granted
    refine ⟨?_,?_,?_,?_,?_,?_,?_⟩
    · simp [free.depth,Phase.extra]
    · simp [free.depth,Phase.extra]
    · intro v other
      exact (goes_other _ other _).trans (free.idle v)
    · simp [free.held]
    · simp [free.held,Phase.owed]
    · simp [free.handle,free.depth]
    · simp
  · rw [Process.guard_acquire,owned.guard] at granted
    by_cases same : u = t
    · subst same
      simp only [↓reduceIte,Option.some.injEq] at granted
      subst granted
      refine ⟨?_,?_,?_,owned.held,?_,owned.handle,?_⟩
      · simp [idle,Phase.extra]
      · simp [Phase.extra]
      · intro v other
        exact (goes_other _ other _).trans (owned.others v other)
      · simpa [Phase.owed,idle] using owned.depth
      · simp
    · simp [same] at granted

theorem Owned.tries {q : Process} {t : Tid} (owned : q.Owned t) (extra : (q.phase t).extra = 1)
    (shallow : q.depth = 0) {next : Phase} (same : next.extra = 1) (owes : next.owed = 0) : (q.goes t next).Owned t := by
  have empty : q.held.card = 0 := by have := owned.depth; omega
  refine ⟨?_,?_,?_,owned.held,?_,owned.handle,fun _ _ => shallow⟩
  · rw [goes_same,goes_depth,goes_guard,same,← extra]
    exact owned.guard
  · rw [goes_same,same]
    exact Nat.succ_pos _
  · intro v other
    exact (goes_other _ other _).trans (owned.others v other)
  · rw [goes_same,goes_held,empty,owes]
    exact Nat.zero_le _

theorem Owned.entered {q : Process} {t : Tid} (owned : q.Owned t) (extra : (q.phase t).extra = 1)
    (owes : (q.phase t).owed = 0) (i : Instance) : ({q with handle := true}.entered t i).Owned t := by
  have counted := owned.guard
  rw [extra] at counted
  have depth := owned.depth
  rw [owes] at depth
  have more := Finset.card_insert_le (t,i) q.held
  refine ⟨?_,?_,?_,?_,?_,?_,?_⟩
  · simp [Process.entered,Phase.extra,counted]
  · simp [Process.entered,Phase.extra]
  · intro v other
    exact (goes_other _ other _).trans (owned.others v other)
  · intro x holds
    rcases Finset.mem_insert.mp holds with rfl | holds
    · rfl
    · exact owned.held x holds
  · simp only [Process.entered,goes_same,Phase.owed]
    omega
  · simp [Process.entered]
  · simp [Process.entered]

theorem Owned.leaving {q : Process} {t : Tid} (owned : q.Owned t) (idle : q.phase t = .idle) {i : Instance}
    (holds : (t,i) ∈ q.held) : ({q.goes t .leaving with held := q.held.erase (t,i)} : Process).Owned t := by
  have counted := owned.guard
  have inside := owned.inside
  have depth := owned.depth
  rw [idle] at counted inside depth
  have fewer := Finset.card_erase_add_one holds
  refine ⟨?_,?_,?_,?_,?_,owned.handle,?_⟩
  · rw [goes_same]
    exact counted
  · rw [goes_same]
    exact inside
  · intro v other
    exact (goes_other _ other _).trans (owned.others v other)
  · intro x still
    exact owned.held x (Finset.mem_of_mem_erase still)
  · simp only [goes_same,Phase.owed,goes_depth] at depth ⊢
    omega
  · simp

/-- What is left after `state.depth -= 1`; the count never runs below zero. -/
theorem Owned.left {q : Process} {t : Tid} (owned : q.Owned t) (leaving : q.phase t = .leaving) (handle : Bool)
    (handled : handle = true ↔ 0 < q.depth - 1) :
    ({q.goes t .left with depth := q.depth - 1, handle := handle} : Process).Owned t := by
  have counted := owned.guard
  have inside := owned.inside
  have depth := owned.depth
  rw [leaving] at counted inside depth
  simp only [Phase.extra,Phase.owed] at counted inside depth
  refine ⟨?_,?_,?_,owned.held,?_,handled,?_⟩
  · have again : q.depth - 1 + 1 = q.depth := by omega
    simp [Phase.extra,counted,again]
  · simp [Phase.extra]
  · intro v other
    exact (goes_other _ other _).trans (owned.others v other)
  · simp only [goes_same,Phase.owed,goes_held]
    omega
  · simp

theorem locks_moved {q q' : Process} (t : Tid) (handle : q'.handle = q.handle)
    (others : ∀ u, u ≠ t → q'.phase u = q.phase u) (first : ∀ i, q.phase t ≠ .locked i)
    (last : ∀ i, q'.phase t ≠ .locked i) : q'.Locks ↔ q.Locks := by
  rw [Locks,Locks,handle]
  refine or_congr_right ⟨?_,?_⟩
  · rintro ⟨u,i,locked⟩
    have other : u ≠ t := fun same => last i (same ▸ locked)
    exact ⟨u,i,(others u other).symm.trans locked⟩
  · rintro ⟨u,i,locked⟩
    have other : u ≠ t := fun same => first i (same ▸ locked)
    exact ⟨u,i,(others u other).trans locked⟩

theorem Free.unlocked {q : Process} (free : q.Free) : ¬q.Locks := by
  rintro (handle | ⟨t,i,locked⟩)
  · exact absurd (free.handle.symm.trans handle) Bool.false_ne_true
  · exact Phase.noConfusion ((free.idle t).symm.trans locked)

theorem Owned.unlocked {q : Process} {t : Tid} (owned : q.Owned t) (handle : q.handle = false)
    (here : ∀ i, q.phase t ≠ .locked i) : ¬q.Locks := by
  rintro (kept | ⟨u,i,locked⟩)
  · exact absurd (handle.symm.trans kept) Bool.false_ne_true
  · by_cases same : u = t
    · exact here i (same ▸ locked)
    · exact Phase.noConfusion ((owned.others u same).symm.trans locked)

theorem Owned.deep {q : Process} {t : Tid} (owned : q.Owned t) (leaving : q.phase t = .leaving) : 0 < q.depth := by
  have inside := owned.inside
  rw [leaving] at inside
  exact inside

end Process

namespace Machine

/-- The OS lock is with the process that has a handle, or is about to keep one. -/
structure Sound (m : Machine) : Prop where
  processes : ∀ p, (m.process p).Sound
  flock : ∀ p, m.flock = some p ↔ (m.process p).Locks

theorem fresh_sound : fresh.Sound :=
  ⟨fun _ => .inl Process.fresh_free,fun p => ⟨fun taken => absurd taken.symm (Option.some_ne_none p),
    fun locks => absurd locks Process.fresh_free.unlocked⟩⟩

@[simp] theorem puts_same (m : Machine) (p : Pid) (q : Process) : (m.puts p q).process p = q := Function.update_self ..

theorem puts_other (m : Machine) {p p' : Pid} (other : p' ≠ p) (q : Process) :
    (m.puts p q).process p' = m.process p' :=
  Function.update_of_ne other ..

theorem Sound.replaced {m m' : Machine} (sound : m.Sound) (p : Pid) (others : ∀ p', p' ≠ p → m'.process p' = m.process p')
    (here : (m'.process p).Sound) (mine : m'.flock = some p ↔ (m'.process p).Locks)
    (theirs : ∀ p', p' ≠ p → (m'.flock = some p' ↔ m.flock = some p')) : m'.Sound := by
  refine ⟨fun p' => ?_,fun p' => ?_⟩
  · by_cases same : p' = p
    · exact same ▸ here
    · rw [others p' same]
      exact sound.processes p'
  · by_cases same : p' = p
    · exact same ▸ mine
    · rw [others p' same,theirs p' same]
      exact sound.flock p'

theorem Sound.puts {m : Machine} (sound : m.Sound) (p : Pid) {q : Process} (here : q.Sound)
    (locks : q.Locks ↔ (m.process p).Locks) : (m.puts p q).Sound := by
  refine sound.replaced p (fun _ other => m.puts_other other q) ?_ ?_ fun _ _ => Iff.rfl
  · rwa [puts_same]
  · rw [puts_same,locks]
    exact sound.flock p

theorem Sound.acquire {m : Machine} (sound : m.Sound) (p : Pid) (t : Tid) (i : Instance) : (m.acquire p t i).Sound := by
  rw [Machine.acquire]
  by_cases idle : (m.process p).phase t = .idle
  · rw [if_pos idle]
    cases granted : (m.process p).guard_acquire t with
    | none => exact sound
    | some q =>
      have owned := (sound.processes p).guarded idle granted i
      refine sound.puts p (.inr ⟨t,owned⟩) (Process.locks_moved t ?_ ?_ ?_ ?_)
      · exact (Process.guard_acquire_keeps granted).1
      · intro u other
        rw [Process.goes_other _ other,(Process.guard_acquire_keeps granted).2.2.2]
      · simp [idle]
      · simp
  · rw [if_neg idle]
    exact sound

theorem Sound.release {m : Machine} (sound : m.Sound) (p : Pid) (t : Tid) (i : Instance) : (m.release p t i).Sound := by
  rw [Machine.release]
  split
  · rename_i both
    have owned := (sound.processes p).owned (.inr ⟨i,both.2⟩)
    refine sound.puts p (.inr ⟨t,owned.leaving both.1 both.2⟩) (Process.locks_moved t rfl ?_ ?_ ?_)
    · exact fun u other => Process.goes_other _ other _
    · simp [both.1]
    · simp
  · exact sound

theorem Sound.guard_released {m : Machine} (sound : m.Sound) {p : Pid} {t : Tid} (owned : (m.process p).Owned t)
    (extra : ((m.process p).phase t).extra = 1) (unlocked : ∀ i, (m.process p).phase t ≠ .locked i) :
    (m.puts p ((m.process p).guard_release t)).Sound := by
  refine sound.puts p (owned.guard_release extra) (Process.locks_moved t rfl ?_ unlocked ?_)
  · exact fun u other => Process.goes_other _ other _
  · intro i
    rw [show ((m.process p).guard_release t).phase t = .idle from Process.goes_same ..]
    exact Phase.noConfusion

theorem Sound.advance {m : Machine} (sound : m.Sound) (p : Pid) (t : Tid) (fails : Bool) : (m.advance p t fails).Sound := by
  rw [Machine.advance]
  have owner (busy : (m.process p).phase t ≠ .idle) := (sound.processes p).owned (.inl busy)
  cases at_ : (m.process p).phase t with
  | idle => exact sound
  | guarded i =>
    have owned := owner (by simp [at_])
    have extra : ((m.process p).phase t).extra = 1 := by rw [at_]; rfl
    by_cases deep : (m.process p).depth ≠ 0
    · simp only [deep,↓reduceIte,ne_eq,not_false_eq_true]
      have handle : (m.process p).handle = true := owned.handle.mpr (Nat.pos_of_ne_zero deep)
      have again : {m.process p with handle := true} = m.process p := by rw [← handle]
      have entered := owned.entered extra (by rw [at_]; rfl) i
      rw [again] at entered
      refine sound.puts p (.inr ⟨t,entered⟩) (Process.locks_moved t rfl ?_ ?_ ?_)
      · exact fun u other => Process.goes_other _ other _
      · simp [at_]
      · simp [Process.entered]
    · have shallow : (m.process p).depth = 0 := by simpa using deep
      cases fails with
      | true =>
        simp only [shallow,ne_eq,not_true_eq_false,↓reduceIte]
        exact sound.guard_released owned extra (by simp [at_])
      | false =>
        simp only [shallow,ne_eq,not_true_eq_false,↓reduceIte,Bool.false_eq_true]
        refine sound.puts p (.inr ⟨t,owned.tries extra shallow rfl rfl⟩) (Process.locks_moved t rfl ?_ ?_ ?_)
        · exact fun u other => Process.goes_other _ other _
        · simp [at_]
        · simp
  | trying i =>
    have owned := owner (by simp [at_])
    have extra : ((m.process p).phase t).extra = 1 := by rw [at_]; rfl
    have shallow : (m.process p).depth = 0 := owned.first i (.inl at_)
    by_cases free : m.flock = none
    · simp only [free,↓reduceIte]
      refine sound.replaced p (fun _ other => m.puts_other other _) ?_ ?_ fun p' other => ?_
      · exact (m.puts_same p _).symm ▸ .inr ⟨t,owned.tries extra shallow rfl rfl⟩
      · refine iff_of_true rfl (.inr ⟨t,i,?_⟩)
        simp
      · refine iff_of_false (fun taken => other (Option.some.inj taken).symm) ?_
        rw [free]
        exact (Option.some_ne_none p').symm
    · cases fails with
      | true =>
        simp only [free,↓reduceIte]
        exact sound.guard_released owned extra (by simp [at_])
      | false =>
        simp only [free,↓reduceIte,Bool.false_eq_true]
        exact sound
  | locked i =>
    have owned := owner (by simp [at_])
    refine sound.puts p (.inr ⟨t,owned.entered (by rw [at_]; rfl) (by rw [at_]; rfl) i⟩) ?_
    exact iff_of_true (.inl rfl) (.inr ⟨t,i,at_⟩)
  | leaving =>
    have owned := owner (by simp [at_])
    have deep := owned.deep at_
    have handle : (m.process p).handle = true := owned.handle.mpr deep
    by_cases last : (m.process p).depth - 1 = 0
    · have both : (m.process p).depth - 1 = 0 ∧ (m.process p).handle = true := ⟨last,handle⟩
      have mine : m.flock = some p := (sound.flock p).mpr (.inl handle)
      have left := owned.left at_ false (by simp [last])
      simp only [both,and_self,↓reduceIte]
      rw [last] at left
      refine sound.replaced p (fun _ other => m.puts_other other _) ?_ ?_ fun p' other => ?_
      · exact (m.puts_same p _).symm ▸ .inr ⟨t,left⟩
      · refine iff_of_false (Option.some_ne_none p).symm ?_
        rw [puts_same]
        exact left.unlocked rfl (by simp)
      · rw [mine]
        exact iff_of_false (Option.some_ne_none p').symm fun taken => other (Option.some.inj taken).symm
    · have more : ¬((m.process p).depth - 1 = 0 ∧ (m.process p).handle = true) := fun both => last both.1
      simp only [more,↓reduceIte]
      have left := owned.left at_ (m.process p).handle (by rw [handle]; exact iff_of_true rfl (Nat.pos_of_ne_zero last))
      refine sound.puts p (.inr ⟨t,left⟩) (Process.locks_moved t rfl ?_ ?_ ?_)
      · exact fun u other => Process.goes_other _ other _
      · simp [at_]
      · simp
  | left =>
    have owned := owner (by simp [at_])
    exact sound.guard_released owned (by rw [at_]; rfl) (by simp [at_])

theorem Sound.kill {m : Machine} (sound : m.Sound) (p : Pid) : (m.kill p).Sound := by
  refine sound.replaced p (fun _ other => Function.update_of_ne other ..) ?_ ?_ fun p' other => ?_
  · rw [Machine.kill]
    simp only [Function.update_self]
    exact .inl Process.fresh_free
  · rw [Machine.kill]
    simp only [Function.update_self]
    refine iff_of_false ?_ Process.fresh_free.unlocked
    split <;> simp_all
  · rw [Machine.kill]
    split
    · rename_i mine
      rw [mine]
      exact iff_of_false (Option.some_ne_none p').symm fun taken => other (Option.some.inj taken).symm
    · exact Iff.rfl

end Machine

theorem step_sound (m : Machine) (e : Event) (sound : m.Sound) : (step m e).Sound := by
  cases e with
  | acquire p t i => exact sound.acquire p t i
  | release p t i => exact sound.release p t i
  | advance p t fails => exact sound.advance p t fails
  | kill p => exact sound.kill p

theorem run_sound (events : List Event) : (run events).Sound :=
  run_holds (fun m e sound => step_sound m e sound) Machine.fresh_sound events

theorem Process.Owned.holding {q : Process} {t : Tid} (owned : q.Owned t) {x : Tid × Instance} (holds : x ∈ q.held) :
    q.handle = true := by
  have some_held := Finset.card_pos.mpr ⟨x,holds⟩
  have depth := owned.depth
  exact owned.handle.mpr (by omega)

/-- One writer at a time, of all threads of all processes. -/
theorem one_writer (events : List Event) (p : Pid) (t : Tid) (i : Instance)
    (holds : (t,i) ∈ ((run events).process p).held) :
    (run events).flock = some p ∧
      ∀ p' u j, (u,j) ∈ ((run events).process p').held → p' = p ∧ u = t := by
  have sound := run_sound events
  have owned := (sound.processes p).owned (.inr ⟨i,holds⟩)
  have locked := (sound.flock p).mpr (.inl (owned.holding holds))
  refine ⟨locked,fun p' u j also => ?_⟩
  have owned' := (sound.processes p').owned (.inr ⟨j,also⟩)
  have locked' := (sound.flock p').mpr (.inl (owned'.holding also))
  have same : p' = p := Option.some.inj (locked'.symm.trans locked)
  subst same
  exact ⟨rfl,owned.held (u,j) also⟩

/-- The first process is killed holding the lock; another one gets in. -/
theorem one_writer_after_kill :
    let events : List Event := [.acquire 1 0 0,.advance 1 0 false,.advance 1 0 false,.advance 1 0 false,
      .acquire 2 5 7,.advance 2 5 false,.advance 2 5 false,.kill 1,.advance 2 5 false,.advance 2 5 false]
    (run events).flock = some 2 ∧ ∀ p' u j, (u,j) ∈ ((run events).process p').held → p' = 2 ∧ u = 5 := by
  exact one_writer _ 2 5 7 (by decide +kernel)

end AetherVault.RepoLock
