import Mathlib.Logic.Function.Basic

/-! A re-entrant mutex, apart from how it is built: who is in it and how deep. -/
namespace AetherVault.Lib.Mutex

variable {P Q : Type} [DecidableEq P] [DecidableEq Q]

abbrev Hold (P : Type) := Option (P × Nat)

def enter (m : Hold P) (me : P) : Bool × Hold P :=
  match m with
  | none => (true,some (me,1))
  | some (owner,depth) => if owner = me then (true,some (me,depth+1)) else (false,m)

def leave (m : Hold P) (me : P) : Hold P :=
  match m with
  | none => none
  | some (owner,depth) => if owner = me then (if depth ≤ 1 then none else some (me,depth-1)) else m

/-- What one step of an implementation does to the mutex that it builds. -/
inductive Act (P : Type)
  | pause
  | enter (me : P)
  | leave (me : P)
  | die (dead : P → Bool)

def act (m : Hold P) : Act P → Hold P
  | .pause => m
  | .enter me => (enter m me).2
  | .leave me => leave m me
  | .die dead => m.filter (fun held => !dead held.1)

/-- An `enter` is only made where it is granted, and a `leave` by who is inside. -/
def Granted (m : Hold P) : Act P → Prop
  | .enter me => (enter m me).1 = true
  | .leave me => m.map Prod.fst = some me
  | _ => True

def named (name : P → Q) (m : Hold P) : Hold Q := m.map fun held => (name held.1,held.2)

theorem enter_named (name : P → Q) (distinct : Function.Injective name) (m : Hold P) (me : P) :
    enter (named name m) (name me) = ((enter m me).1,named name (enter m me).2) := by
  rcases m with _ | ⟨owner,depth⟩
  · rfl
  · by_cases same : owner = me
    · subst same
      simp [enter,named]
    · simp [enter,named,same,distinct.ne same]

theorem leave_named (name : P → Q) (distinct : Function.Injective name) (m : Hold P) (me : P) :
    leave (named name m) (name me) = named name (leave m me) := by
  rcases m with _ | ⟨owner,depth⟩
  · rfl
  · by_cases same : owner = me
    · subst same
      by_cases shallow : depth ≤ 1 <;> simp [leave,named,shallow]
    · simp [leave,named,same,distinct.ne same]

end AetherVault.Lib.Mutex
