import Mathlib.Logic.Relation
import Mathlib.Logic.Function.Basic

/-! Programs over an arbitrary set of operations, with their sequential and
interleaved meanings and one rule set for both. An operation's answer and the
next state also depend on a choice of the environment (a reply that is lost, a
clock value), so every theorem below is about all choices. -/
namespace AetherVault.Lib

inductive Prog (Op : Type → Type) (ε α : Type) : Type 1
  | pure (a : α)
  | fail (e : ε)
  | op {β : Type} (o : Op β) (next : β → Prog Op ε α)

namespace Prog

variable {Op : Type → Type} {ε α β ι σ χ : Type}

def bind : Prog Op ε α → (α → Prog Op ε β) → Prog Op ε β
  | .pure a,f => f a
  | .fail e,_ => .fail e
  | .op o next,f => .op o (fun b => (next b).bind f)

instance : Monad (Prog Op ε) where
  pure := Prog.pure
  bind := Prog.bind

def call (o : Op β) : Prog Op ε β := .op o .pure

/-- Runs the handler when the program fails, as `try: … except` does. -/
def attempt : Prog Op ε α → (ε → Prog Op ε α) → Prog Op ε α
  | .pure a,_ => .pure a
  | .fail e,handler => handler e
  | .op o next,handler => .op o (fun b => (next b).attempt handler)

def forEach : List ι → (ι → Prog Op ε Unit) → Prog Op ε Unit
  | [],_ => .pure ()
  | x::rest,body => (body x).bind (fun _ => forEach rest body)

/-- Carries an accumulator through the loop. -/
def foldEach (body : β → ι → Prog Op ε β) : List ι → β → Prog Op ε β
  | [],acc => .pure acc
  | x::rest,acc => (body acc x).bind (foldEach body rest)

theorem bind_eq (p : Prog Op ε α) (f : α → Prog Op ε β) : p >>= f = p.bind f := rfl

theorem bind_assoc {γ : Type} (p : Prog Op ε α) (f : α → Prog Op ε β) (g : β → Prog Op ε γ) :
    (p.bind f).bind g = p.bind (fun a => (f a).bind g) := by
  induction p with
  | pure a => rfl
  | fail e => rfl
  | op o next ih => exact congrArg (Prog.op o) (funext ih)

/-- The executable meaning under one fixed policy for the environment's choices. -/
def run (exec : ∀ β, χ → Op β → σ → β × σ) (policy : σ → χ) : Prog Op ε α → σ → Except ε α × σ
  | .pure a,s => (.ok a,s)
  | .fail e,s => (.error e,s)
  | .op o next,s => (next (exec _ (policy s) o s).1).run exec policy (exec _ (policy s) o s).2

theorem run_bind (exec : ∀ β, χ → Op β → σ → β × σ) (policy : σ → χ) (p : Prog Op ε α)
    (f : α → Prog Op ε β) (s : σ) :
    (p.bind f).run exec policy s =
      match p.run exec policy s with
      | (.ok a,t) => (f a).run exec policy t
      | (.error e,t) => (.error e,t) := by
  induction p generalizing s with
  | pure a => rfl
  | fail e => rfl
  | op o next ih => exact ih _ _

theorem run_bind_ok {exec : ∀ β, χ → Op β → σ → β × σ} {policy : σ → χ} {p : Prog Op ε α} {s t : σ} {a : α}
    (done : p.run exec policy s = (.ok a,t)) (f : α → Prog Op ε β) :
    (p.bind f).run exec policy s = (f a).run exec policy t := by rw [run_bind,done]

theorem run_bind_error {exec : ∀ β, χ → Op β → σ → β × σ} {policy : σ → χ} {p : Prog Op ε α} {s t : σ} {e : ε}
    (failed : p.run exec policy s = (.error e,t)) (f : α → Prog Op ε β) :
    (p.bind f).run exec policy s = (.error e,t) := by rw [run_bind,failed]

theorem run_keeps {exec : ∀ β, χ → Op β → σ → β × σ} {policy : σ → χ} {P : σ → Prop}
    (kept : ∀ β (o : Op β) s, P s → P (exec _ (policy s) o s).2) (p : Prog Op ε α) {s : σ} (holds : P s) :
    P (p.run exec policy s).2 := by
  induction p generalizing s with
  | pure a => exact holds
  | fail e => exact holds
  | op o next ih => exact ih _ (kept _ o s holds)

theorem run_attempt (exec : ∀ β, χ → Op β → σ → β × σ) (policy : σ → χ) (p : Prog Op ε α)
    (handler : ε → Prog Op ε α) (s : σ) :
    (p.attempt handler).run exec policy s =
      match p.run exec policy s with
      | (.ok a,t) => (.ok a,t)
      | (.error e,t) => (handler e).run exec policy t := by
  induction p generalizing s with
  | pure a => rfl
  | fail e => rfl
  | op o next ih => exact ih _ _

/-- Every operation of the executable run passes a check in the state it is executed in. -/
def checks (exec : ∀ β, χ → Op β → σ → β × σ) (policy : σ → χ) (check : ∀ β, Op β → σ → Bool) : Prog Op ε α → σ → Bool
  | .pure _,_ => true
  | .fail _,_ => true
  | .op o next,s => check _ o s && (next (exec _ (policy s) o s).1).checks exec policy check (exec _ (policy s) o s).2

theorem checks_true (exec : ∀ β, χ → Op β → σ → β × σ) (policy : σ → χ) (p : Prog Op ε α) (s : σ) :
    p.checks exec policy (fun _ _ _ => true) s = true := by
  induction p generalizing s with
  | pure a => rfl
  | fail e => rfl
  | op o next ih => exact ih _ _

def leaf : Except ε α → Prog Op ε α
  | .ok a => .pure a
  | .error e => .fail e

/-- The first operations of the executable run, and what is left of the program. -/
def runFor (exec : ∀ β, χ → Op β → σ → β × σ) (policy : σ → χ) (n : Nat) (p : Prog Op ε α) (s : σ) : Prog Op ε α × σ :=
  match n,p with
  | n+1,.op o next => (next (exec _ (policy s) o s).1).runFor exec policy n (exec _ (policy s) o s).2
  | _,p => (p,s)

/-- Every operation that the program can reach is one of `P`. -/
def Only (P : ∀ β, Op β → Prop) : Prog Op ε α → Prop
  | .pure _ => True
  | .fail _ => True
  | .op o next => P _ o ∧ ∀ b, (next b).Only P

section Only

variable {P : ∀ β, Op β → Prop}

theorem Only.bind {p : Prog Op ε α} {f : α → Prog Op ε β} (first : p.Only P) (later : ∀ a, (f a).Only P) :
    (p.bind f).Only P := by
  induction p with
  | pure a => exact later a
  | fail e => trivial
  | op o next ih => exact ⟨first.1,fun b => ih b (first.2 b)⟩

theorem Only.attempt {p : Prog Op ε α} {handler : ε → Prog Op ε α} (first : p.Only P)
    (later : ∀ e, (handler e).Only P) : (p.attempt handler).Only P := by
  induction p with
  | pure a => trivial
  | fail e => exact later e
  | op o next ih => exact ⟨first.1,fun b => ih b (first.2 b)⟩

theorem Only.call {o : Op β} (one : P β o) : (call o : Prog Op ε β).Only P := ⟨one,fun _ => trivial⟩

theorem Only.foldEach {body : β → ι → Prog Op ε β} (each : ∀ acc x, (body acc x).Only P) (items : List ι) (acc : β) :
    (foldEach body items acc).Only P := by
  induction items generalizing acc with
  | nil => trivial
  | cons x rest ih => exact (each acc x).bind ih

theorem Only.forEach {body : ι → Prog Op ε Unit} (each : ∀ x, (body x).Only P) (items : List ι) :
    (forEach items body).Only P := by
  induction items with
  | nil => trivial
  | cons x rest ih => exact (each x).bind fun _ => ih

theorem Only.any (p : Prog Op ε α) : p.Only (fun _ _ => True) := by
  induction p with
  | pure a => trivial
  | fail e => trivial
  | op o next ih => exact ⟨trivial,ih⟩

theorem Only.mono {Q : ∀ β, Op β → Prop} {p : Prog Op ε α} (only : p.Only P) (weaken : ∀ β o, P β o → Q β o) :
    p.Only Q := by
  induction p with
  | pure a => trivial
  | fail e => trivial
  | op o next ih => exact ⟨weaken _ _ only.1,fun b => ih b (only.2 b)⟩

end Only

def finished : Prog Op ε α → Prop
  | .op _ _ => False
  | _ => True

theorem leaf_finished (r : Except ε α) : (leaf r : Prog Op ε α).finished := by cases r <;> trivial

end Prog

/-- What a program may rely on and must keep: the meaning of its operations, the
choices the environment may take, the invariant of the state, what others may do
between two operations, and what each operation requires. -/
structure Discipline (Op : Type → Type) (σ χ : Type) where
  exec : ∀ β, χ → Op β → σ → β × σ
  may : ∀ β, χ → Op β → σ → Prop
  inv : σ → Prop
  rely : σ → σ → Prop
  pre : ∀ β, χ → Op β → σ → Prop

namespace Discipline

variable {Op : Type → Type} {ε α β ι σ χ : Type} (D : Discipline Op σ χ)

/-- Every operation the program reaches finds its requirement, whatever others do
in between, and the result satisfies the postcondition. -/
def Meets : Prog Op ε α → (Except ε α → σ → Prop) → σ → Prop
  | .pure a,post,s => post (.ok a) s
  | .fail e,post,s => post (.error e) s
  | .op o next,post,s => ∀ c t, D.rely s t → D.inv t → D.may _ c o t →
      D.pre _ c o t ∧ Meets (next (D.exec _ c o t).1) post (D.exec _ c o t).2

variable {D}

theorem Meets.mono {p : Prog Op ε α} {post weaker : Except ε α → σ → Prop} {s : σ}
    (met : D.Meets p post s) (weaken : ∀ r t, post r t → weaker r t) : D.Meets p weaker s := by
  induction p generalizing s with
  | pure a => exact weaken _ _ met
  | fail e => exact weaken _ _ met
  | op o next ih =>
    intro c t related invariant allowed
    obtain ⟨required,rest⟩ := met c t related invariant allowed
    exact ⟨required,ih _ rest⟩

theorem Meets.bind {p : Prog Op ε α} {f : α → Prog Op ε β} {post : Except ε β → σ → Prop} {s : σ}
    (met : D.Meets p (fun r t => match r with
      | .ok a => D.Meets (f a) post t
      | .error e => post (.error e) t) s) : D.Meets (p.bind f) post s := by
  induction p generalizing s with
  | pure a => exact met
  | fail e => exact met
  | op o next ih =>
    intro c t related invariant allowed
    obtain ⟨required,rest⟩ := met c t related invariant allowed
    exact ⟨required,ih _ rest⟩

theorem Meets.attempt {p : Prog Op ε α} {handler : ε → Prog Op ε α} {post : Except ε α → σ → Prop}
    {s : σ} (met : D.Meets p (fun r t => match r with
      | .ok a => post (.ok a) t
      | .error e => D.Meets (handler e) post t) s) : D.Meets (p.attempt handler) post s := by
  induction p generalizing s with
  | pure a => exact met
  | fail e => exact met
  | op o next ih =>
    intro c t related invariant allowed
    obtain ⟨required,rest⟩ := met c t related invariant allowed
    exact ⟨required,ih _ rest⟩

theorem Meets.call {o : Op β} {post : Except ε β → σ → Prop} {s : σ}
    (met : ∀ c t, D.rely s t → D.inv t → D.may _ c o t →
      D.pre _ c o t ∧ post (.ok (D.exec _ c o t).1) (D.exec _ c o t).2) :
    D.Meets (Prog.call o) post s := met

/-- The loop rule: what holds of the items still to come holds at every turn. -/
theorem Meets.foldEach {body : β → ι → Prog Op ε β} (items : List ι) (acc : β)
    {J : List ι → β → σ → Prop} {post : Except ε β → σ → Prop} {s : σ}
    (start : J items acc s)
    (turn : ∀ x rest acc t, J (x::rest) acc t → D.Meets (body acc x) (fun r u => match r with
      | .ok next => J rest next u
      | .error e => post (.error e) u) t)
    (finish : ∀ acc t, J [] acc t → post (.ok acc) t) :
    D.Meets (Prog.foldEach body items acc) post s := by
  induction items generalizing acc s with
  | nil => exact finish acc s start
  | cons x rest ih =>
    apply Meets.bind
    apply (turn x rest acc s start).mono
    intro r t reached
    cases r with
    | ok next => exact ih next reached
    | error e => exact reached

theorem Meets.forEach {body : ι → Prog Op ε Unit} (items : List ι)
    {J : List ι → σ → Prop} {post : Except ε Unit → σ → Prop} {s : σ}
    (start : J items s)
    (turn : ∀ x rest t, J (x::rest) t → D.Meets (body x) (fun r u => match r with
      | .ok _ => J rest u
      | .error e => post (.error e) u) t)
    (finish : ∀ t, J [] t → post (.ok ()) t) :
    D.Meets (Prog.forEach items body) post s := by
  induction items generalizing s with
  | nil => exact finish s start
  | cons x rest ih =>
    apply Meets.bind
    apply (turn x rest s start).mono
    intro r t reached
    cases r with
    | ok u => exact ih reached
    | error e => exact reached

/-- A met program stays met when others act, because what they do is in `rely`. -/
theorem Meets.stable {p : Prog Op ε α} {post : Except ε α → σ → Prop} {s t : σ}
    (met : D.Meets p post s) (between : D.rely s t)
    (trans : ∀ a b c, D.rely a b → D.rely b c → D.rely a c)
    (kept : ∀ r a b, post r a → D.rely a b → post r b) : D.Meets p post t := by
  cases p with
  | pure a => exact kept _ _ _ met between
  | fail e => exact kept _ _ _ met between
  | op o next => exact fun c u related => met c u (trans _ _ _ between related)

/-- The frame rule: operations that stay within a relation keep the program within it. -/
theorem Meets.within {P : ∀ β, Op β → Prop} {R : σ → σ → Prop} {p : Prog Op ε α} {post : Except ε α → σ → Prop}
    (only : p.Only P) (trans : ∀ a b c, R a b → R b c → R a c) (between : ∀ s t, D.rely s t → R s t)
    (each : ∀ β c (o : Op β) s, P β o → D.inv s → D.may _ c o s → D.pre _ c o s → R s (D.exec _ c o s).2)
    {start s : σ} (so_far : R start s) (met : D.Meets p post s) : D.Meets p (fun r t => post r t ∧ R start t) s := by
  induction p generalizing s with
  | pure a => exact ⟨met,so_far⟩
  | fail e => exact ⟨met,so_far⟩
  | op o next ih =>
    intro c t related invariant allowed
    obtain ⟨required,rest⟩ := met c t related invariant allowed
    have moved := each _ c o t only.1 invariant allowed required
    exact ⟨required,ih _ (only.2 _) (trans _ _ _ (trans _ _ _ so_far (between _ _ related)) moved) rest⟩

/-- What is met under one discipline is met under one that promises more, as far as
the operations of the program can tell the difference. -/
theorem Meets.transfer {D' : Discipline Op σ χ} {P : ∀ β, Op β → Prop} {p : Prog Op ε α}
    {post : Except ε α → σ → Prop} {s : σ} (only : p.Only P) (same : D'.exec = D.exec)
    (rely : ∀ a b, D'.rely a b → D.rely a b) (inv : ∀ a, D'.inv a → D.inv a)
    (may : ∀ β c (o : Op β) a, D'.may _ c o a → D.may _ c o a)
    (pre : ∀ β c (o : Op β) a, P β o → D'.inv a → D.pre _ c o a → D'.pre _ c o a) (met : D.Meets p post s) :
    D'.Meets p post s := by
  induction p generalizing s with
  | pure a => exact met
  | fail e => exact met
  | op o next ih =>
    intro c t related invariant allowed
    obtain ⟨required,rest⟩ := met c t (rely _ _ related) (inv _ invariant) (may _ c o t allowed)
    refine ⟨pre _ c o t only.1 invariant required,?_⟩
    rw [same]
    exact ih _ (only.2 _) rest

variable (D) in
/-- A discipline whose invariant has one more fact in it. -/
def with_fact (J : σ → Prop) : Discipline Op σ χ := {D with inv := fun s => D.inv s ∧ J s}

/-- A fact that nothing changes may be used all along. -/
theorem Meets.knowing {J : σ → Prop} (kept : ∀ β c (o : Op β) s, J s → J (D.exec _ c o s).2) (stays : ∀ s t, J s → D.rely s t → J t)
    {p : Prog Op ε α} {post : Except ε α → σ → Prop} {s : σ} (holds : J s) (met : (D.with_fact J).Meets p post s) :
    D.Meets p (fun r t => post r t ∧ J t) s := by
  induction p generalizing s with
  | pure a => exact ⟨met,holds⟩
  | fail e => exact ⟨met,holds⟩
  | op o next ih =>
    intro c t related invariant allowed
    have still := stays _ _ holds related
    obtain ⟨required,rest⟩ := met c t related ⟨invariant,still⟩ allowed
    exact ⟨required,ih _ (kept _ c o t still) rest⟩

/-- What each of two disciplines requires is what one that has both requires. -/
theorem Meets.both {A B : Discipline Op σ χ} (same₁ : A.exec = D.exec) (same₂ : B.exec = D.exec)
    (rely₁ : ∀ a b, D.rely a b → A.rely a b) (rely₂ : ∀ a b, D.rely a b → B.rely a b)
    (inv₁ : ∀ a, D.inv a → A.inv a) (inv₂ : ∀ a, D.inv a → B.inv a)
    (may₁ : ∀ β c (o : Op β) a, D.may _ c o a → A.may _ c o a) (may₂ : ∀ β c (o : Op β) a, D.may _ c o a → B.may _ c o a)
    (pre : ∀ β c (o : Op β) a, A.pre _ c o a → B.pre _ c o a → D.pre _ c o a)
    {p : Prog Op ε α} {post₁ post₂ : Except ε α → σ → Prop} {s : σ} (first : A.Meets p post₁ s) (second : B.Meets p post₂ s) :
    D.Meets p (fun r t => post₁ r t ∧ post₂ r t) s := by
  induction p generalizing s with
  | pure a => exact ⟨first,second⟩
  | fail e => exact ⟨first,second⟩
  | op o next ih =>
    intro c t related invariant allowed
    obtain ⟨required₁,rest₁⟩ := first c t (rely₁ _ _ related) (inv₁ _ invariant) (may₁ _ c o t allowed)
    obtain ⟨required₂,rest₂⟩ := second c t (rely₂ _ _ related) (inv₂ _ invariant) (may₂ _ c o t allowed)
    rw [same₁] at rest₁
    rw [same₂] at rest₂
    exact ⟨pre _ c o t required₁ required₂,ih _ rest₁ rest₂⟩

/-! Requirements that hold whatever the state: only the answers tie a program to it. -/

variable (D) in
/-- Every operation finds its requirement, from any state that satisfies the invariant. -/
def Accepts (p : Prog Op ε α) : Prop := ∀ s, D.Meets p (fun _ _ => True) s

theorem Accepts.bind {p : Prog Op ε α} {f : α → Prog Op ε β} (first : D.Accepts p) (later : ∀ a, D.Accepts (f a)) :
    D.Accepts (p.bind f) := by
  refine fun s => .bind ((first s).mono fun r t _ => ?_)
  cases r with
  | ok a => exact later a t
  | error e => trivial

theorem Accepts.attempt {p : Prog Op ε α} {handler : ε → Prog Op ε α} (first : D.Accepts p)
    (later : ∀ e, D.Accepts (handler e)) : D.Accepts (p.attempt handler) := by
  refine fun s => .attempt ((first s).mono fun r t _ => ?_)
  cases r with
  | ok a => trivial
  | error e => exact later e t

theorem Accepts.pure (a : α) : D.Accepts (.pure a : Prog Op ε α) := fun _ => trivial

theorem Accepts.fail (e : ε) : D.Accepts (.fail e : Prog Op ε α) := fun _ => trivial

/-- The continuation only has to accept the answers that can be given. -/
theorem Accepts.op {o : Op β} {next : β → Prog Op ε α}
    (each : ∀ c s, D.inv s → D.may _ c o s → D.pre _ c o s ∧ D.Accepts (next (D.exec _ c o s).1)) :
    D.Accepts (.op o next) :=
  fun _ c t _ invariant allowed => ⟨(each c t invariant allowed).1,(each c t invariant allowed).2 _⟩

theorem Accepts.call {o : Op β} (each : ∀ c s, D.inv s → D.may _ c o s → D.pre _ c o s) :
    D.Accepts (Prog.call o : Prog Op ε β) := .op fun c s invariant allowed => ⟨each c s invariant allowed,.pure _⟩

theorem Accepts.foldEach {body : β → ι → Prog Op ε β} (each : ∀ acc x, D.Accepts (body acc x)) (items : List ι) (acc : β) :
    D.Accepts (Prog.foldEach body items acc) := by
  induction items generalizing acc with
  | nil => exact .pure acc
  | cons x rest ih => exact (each acc x).bind ih

theorem Accepts.of_only {P : ∀ β, Op β → Prop} {p : Prog Op ε α} (only : p.Only P)
    (each : ∀ β c (o : Op β) s, P β o → D.inv s → D.may _ c o s → D.pre _ c o s) : D.Accepts p := by
  induction p with
  | pure a => exact .pure a
  | fail e => exact .fail e
  | op o next ih => exact .op fun c s invariant allowed => ⟨each _ c o s only.1 invariant allowed,ih _ (only.2 _)⟩

variable (D)

/-- One operation of one program, with no one else acting. -/
inductive Step : Prog Op ε α × σ → Prog Op ε α × σ → Prop
  | op {β : Type} (c : χ) (o : Op β) (next : β → Prog Op ε α) (s : σ) (allowed : D.may _ c o s) :
      Step (.op o next,s) (next (D.exec _ c o s).1,(D.exec _ c o s).2)

/-- A prefix of a program's run. -/
def Steps (before after : Prog Op ε α × σ) : Prop := Relation.ReflTransGen D.Step before after

def Runs (p : Prog Op ε α) (s : σ) (r : Except ε α) (t : σ) : Prop := D.Steps (p,s) (Prog.leaf r,t)

/-- The operations keep the invariant when they find what they require. -/
def Keeps : Prop := ∀ β c (o : Op β) s, D.inv s → D.may _ c o s → D.pre _ c o s → D.inv (D.exec _ c o s).2

variable {D}

theorem Meets.step (keeps : D.Keeps) (alone : ∀ s, D.rely s s) {post : Except ε α → σ → Prop}
    {before after : Prog Op ε α × σ} (one : D.Step before after)
    (invariant : D.inv before.2) (met : D.Meets before.1 post before.2) :
    D.inv after.2 ∧ D.Meets after.1 post after.2 := by
  obtain ⟨c,o,next,s,allowed⟩ := one
  obtain ⟨required,rest⟩ := met c s (alone s) invariant allowed
  exact ⟨keeps _ c o s invariant allowed required,rest⟩

theorem Meets.steps (keeps : D.Keeps) (alone : ∀ s, D.rely s s) {post : Except ε α → σ → Prop}
    {before after : Prog Op ε α × σ} (many : D.Steps before after)
    (invariant : D.inv before.2) (met : D.Meets before.1 post before.2) :
    D.inv after.2 ∧ D.Meets after.1 post after.2 := by
  induction many with
  | refl => exact ⟨invariant,met⟩
  | tail _ one ih => exact Meets.step keeps alone one ih.1 ih.2

theorem Meets.runs (keeps : D.Keeps) (alone : ∀ s, D.rely s s) {post : Except ε α → σ → Prop}
    {p : Prog Op ε α} {s t : σ} {r : Except ε α} (ran : D.Runs p s r t)
    (invariant : D.inv s) (met : D.Meets p post s) : D.inv t ∧ post r t := by
  obtain ⟨kept,final⟩ := Meets.steps keeps alone ran invariant met
  cases r with
  | ok a => exact ⟨kept,final⟩
  | error e => exact ⟨kept,final⟩

/-! The runs of a program, operation by operation. -/

theorem runs_op {o : Op β} {next : β → Prog Op ε α} {s t : σ} {r : Except ε α} : D.Runs (.op o next) s r t ↔
    ∃ c, D.may _ c o s ∧ D.Runs (next (D.exec _ c o s).1) (D.exec _ c o s).2 r t := by
  constructor
  · intro ran
    cases Relation.ReflTransGen.cases_head ran with
    | inl same =>
      cases r with
      | ok a => cases same
      | error e => cases same
    | inr moved =>
      obtain ⟨after,one,rest⟩ := moved
      cases one with
      | op c _ _ _ allowed => exact ⟨c,allowed,rest⟩
  · rintro ⟨c,allowed,rest⟩
    exact .head (.op c o next s allowed) rest

theorem runs_leaf {result r : Except ε α} {s t : σ} : D.Runs (Prog.leaf result) s r t ↔ r = result ∧ t = s := by
  constructor
  · intro ran
    cases Relation.ReflTransGen.cases_head ran with
    | inl same =>
      cases result with
      | ok a => cases r <;> cases same <;> exact ⟨rfl,rfl⟩
      | error e => cases r <;> cases same <;> exact ⟨rfl,rfl⟩
    | inr moved =>
      obtain ⟨after,one,-⟩ := moved
      cases result with
      | ok a => cases one
      | error e => cases one
  · rintro ⟨rfl,rfl⟩
    exact .refl

theorem runs_pure {a : α} {r : Except ε α} {s t : σ} : D.Runs (.pure a) s r t ↔ r = .ok a ∧ t = s := by
  have leaf : D.Runs (Prog.leaf (.ok a)) s r t ↔ r = .ok a ∧ t = s := runs_leaf
  exact leaf

theorem runs_fail {e : ε} {r : Except ε α} {s t : σ} : D.Runs (.fail e) s r t ↔ r = .error e ∧ t = s := by
  have leaf : D.Runs (Prog.leaf (.error e)) s r t ↔ r = .error e ∧ t = s := runs_leaf
  exact leaf

theorem runs_bind {p : Prog Op ε α} {f : α → Prog Op ε β} {s t : σ} {r : Except ε β} : D.Runs (p.bind f) s r t ↔
    ∃ first u, D.Runs p s first u ∧ D.Runs ((Prog.leaf first).bind f) u r t := by
  constructor
  · induction p generalizing s with
    | pure a => exact fun ran => ⟨.ok a,s,.refl,ran⟩
    | fail e => exact fun ran => ⟨.error e,s,.refl,ran⟩
    | op o next ih =>
      intro ran
      obtain ⟨c,allowed,rest⟩ := runs_op.mp ran
      obtain ⟨first,u,ran,later⟩ := ih _ rest
      exact ⟨first,u,runs_op.mpr ⟨c,allowed,ran⟩,later⟩
  · rintro ⟨first,u,ran,later⟩
    induction p generalizing s with
    | pure a =>
      obtain ⟨rfl,rfl⟩ := runs_pure.mp ran
      exact later
    | fail e =>
      obtain ⟨rfl,rfl⟩ := runs_fail.mp ran
      exact later
    | op o next ih =>
      obtain ⟨c,allowed,rest⟩ := runs_op.mp ran
      exact runs_op.mpr ⟨c,allowed,ih _ rest⟩

/-- A program that only reads comes to the one result it computes, and what follows starts where it did. -/
theorem runs_reads {P : ∀ β, Op β → Prop} (policy : σ → χ) {p : Prog Op ε α} {f : α → Prog Op ε β} {s t : σ} {r : Except ε β}
    (only : p.Only P) (reads : ∀ β c (o : Op β), P β o → D.exec _ c o s = ((D.exec _ (policy s) o s).1,s))
    (allowed : ∀ β (o : Op β), D.may _ (policy s) o s) :
    D.Runs (p.bind f) s r t ↔ D.Runs ((Prog.leaf (p.run D.exec policy s).1).bind f) s r t := by
  induction p with
  | pure a => exact Iff.rfl
  | fail e => exact Iff.rfl
  | op o next ih =>
    have later := ih (D.exec _ (policy s) o s).1 (only.2 _)
    have settled : (Prog.run D.exec policy (.op o next) s) = (next (D.exec _ (policy s) o s).1).run D.exec policy s := by
      rw [Prog.run,reads _ (policy s) o only.1]
    rw [settled]
    constructor
    · intro ran
      obtain ⟨c,_,rest⟩ := runs_op.mp ran
      rw [reads _ c o only.1] at rest
      exact later.mp rest
    · intro ran
      apply runs_op.mpr
      refine ⟨policy s,allowed _ o,?_⟩
      rw [reads _ (policy s) o only.1]
      exact later.mpr ran

variable (D) in
/-- The executions of a program, with what others may do before each operation. -/
inductive Outcome : Prog Op ε α → σ → Except ε α → σ → Prop
  | pure (a : α) (s : σ) : Outcome (.pure a) s (.ok a) s
  | fail (e : ε) (s : σ) : Outcome (.fail e) s (.error e) s
  | op {β : Type} (c : χ) (o : Op β) (next : β → Prog Op ε α) {s t u : σ} {r : Except ε α} (moved : D.rely s t)
      (allowed : D.may _ c o t) (rest : Outcome (next (D.exec _ c o t).1) (D.exec _ c o t).2 r u) : Outcome (.op o next) s r u

theorem Meets.outcome (keeps : D.Keeps) (stays : ∀ s t, D.inv s → D.rely s t → D.inv t) {post : Except ε α → σ → Prop}
    {p : Prog Op ε α} {s t : σ} {r : Except ε α} (ran : D.Outcome p s r t) (invariant : D.inv s) (met : D.Meets p post s) :
    D.inv t ∧ post r t := by
  induction ran with
  | pure a s => exact ⟨invariant,met⟩
  | fail e s => exact ⟨invariant,met⟩
  | op c o next moved allowed rest ih =>
    have kept := stays _ _ invariant moved
    obtain ⟨required,later⟩ := met c _ moved kept allowed
    exact ih (keeps _ c o _ kept allowed required) later

theorem Outcome.weaken {D' : Discipline Op σ χ} (exec : D'.exec = D.exec) (rely : ∀ a b, D.rely a b → D'.rely a b)
    (may : ∀ β c (o : Op β) s, D.may _ c o s → D'.may _ c o s) {p : Prog Op ε α} {s t : σ} {r : Except ε α}
    (ran : D.Outcome p s r t) : D'.Outcome p s r t := by
  induction ran with
  | pure a s => exact .pure a s
  | fail e s => exact .fail e s
  | op c o next moved allowed rest ih =>
    rw [← exec] at ih
    exact .op c o next (rely _ _ moved) (may _ c o _ allowed) ih

/-- A program that is met comes to an end, when every operation has some answer. -/
theorem Meets.exists_outcome (keeps : D.Keeps) (responsive : ∀ β (o : Op β) s, D.inv s → ∃ c t, D.rely s t ∧ D.inv t ∧ D.may _ c o t)
    {post : Except ε α → σ → Prop} {p : Prog Op ε α} {s : σ} (invariant : D.inv s) (met : D.Meets p post s) :
    ∃ r t, D.Outcome p s r t ∧ post r t := by
  induction p generalizing s with
  | pure a => exact ⟨.ok a,s,.pure a s,met⟩
  | fail e => exact ⟨.error e,s,.fail e s,met⟩
  | op o next ih =>
    obtain ⟨c,t,moved,kept,allowed⟩ := responsive _ o s invariant
    obtain ⟨required,later⟩ := met c t moved kept allowed
    obtain ⟨r,u,rest,reached⟩ := ih _ (keeps _ c o t kept allowed required) later
    exact ⟨r,u,.op c o next moved allowed rest,reached⟩

theorem Steps.of_same {D' : Discipline Op σ χ} (exec : D'.exec = D.exec)
    (may : ∀ β c (o : Op β) s, D.may _ c o s → D'.may _ c o s) {before after : Prog Op ε α × σ}
    (many : D.Steps before after) : D'.Steps before after := by
  induction many with
  | refl => exact .refl
  | tail _ one ih =>
    obtain ⟨c,o,next,s,allowed⟩ := one
    have again := Step.op (D := D') c o next s (may _ c o s allowed)
    rw [exec] at again
    exact ih.tail again

/-- The executable run is one of the runs, when its policy only takes allowed choices,
which a check of every operation it executes establishes. -/
theorem runs_of_run (policy : σ → χ) (check : ∀ β, Op β → σ → Bool)
    (fair : ∀ β (o : Op β) s, check _ o s = true → D.may _ (policy s) o s) (p : Prog Op ε α) (s : σ)
    (checked : p.checks D.exec policy check s = true) : D.Runs p s (p.run D.exec policy s).1 (p.run D.exec policy s).2 := by
  induction p generalizing s with
  | pure a => exact .refl
  | fail e => exact .refl
  | op o next ih =>
    obtain ⟨first,rest⟩ := Bool.and_eq_true_iff.mp checked
    exact .head (.op (policy s) o next s (fair _ o s first)) (ih _ _ rest)

theorem steps_of_runFor (policy : σ → χ) (fair : ∀ β (o : Op β) s, D.may _ (policy s) o s) (n : Nat) (p : Prog Op ε α) (s : σ) :
    D.Steps (p,s) (p.runFor D.exec policy n s) := by
  induction n generalizing p s with
  | zero => cases p <;> exact .refl
  | succ n ih =>
    cases p with
    | pure a => exact .refl
    | fail e => exact .refl
    | op o next => exact .head (.op (policy s) o next s (fair _ o s)) (ih _ _)

end Discipline

/-- Several programs over one shared state. -/
structure Pool (Op : Type → Type) (ε ι σ : Type) where
  state : σ
  progs : ι → Prog Op ε Unit

namespace Pool

variable {Op : Type → Type} {ε ι σ χ : Type} [DecidableEq ι]

/-- One step of the system: an operation of some process, a process that ends early,
one that starts a program (both from what the system frees), or the environment. -/
inductive Step (D : ι → Discipline Op σ χ) (launch : ι → Prog Op ε Unit → Prop) (leave : ι → σ → σ)
    (env : σ → σ → Prop) : Pool Op ε ι σ → Pool Op ε ι σ → Prop
  | op {β : Type} (pool : Pool Op ε ι σ) (i : ι) (c : χ) (o : Op β) (next : β → Prog Op ε Unit)
      (at_op : pool.progs i = .op o next) (allowed : (D i).may _ c o pool.state) :
      Step D launch leave env pool ⟨((D i).exec _ c o pool.state).2,
        Function.update pool.progs i (next ((D i).exec _ c o pool.state).1)⟩
  | crash (pool : Pool Op ε ι σ) (i : ι) :
      Step D launch leave env pool ⟨leave i pool.state,Function.update pool.progs i (.pure ())⟩
  | start (pool : Pool Op ε ι σ) (i : ι) (p : Prog Op ε Unit) (idle : (pool.progs i).finished)
      (launched : launch i p) :
      Step D launch leave env pool ⟨leave i pool.state,Function.update pool.progs i p⟩
  | env (pool : Pool Op ε ι σ) (t : σ) (moved : env pool.state t) :
      Step D launch leave env pool ⟨t,pool.progs⟩

/-- The steps of a system that keeps running, where a rule may look at every program. -/
inductive Advance (exec : ι → ∀ β, χ → Op β → σ → β × σ) (launch : Prog Op ε Unit → Prop)
    (rule : ∀ β, Pool Op ε ι σ → ι → χ → Op β → Prop) : Pool Op ε ι σ → Pool Op ε ι σ → Prop
  | op {β : Type} (pool : Pool Op ε ι σ) (i : ι) (c : χ) (o : Op β) (next : β → Prog Op ε Unit)
      (at_op : pool.progs i = .op o next) (allowed : rule _ pool i c o) :
      Advance exec launch rule pool ⟨(exec i _ c o pool.state).2,
        Function.update pool.progs i (next (exec i _ c o pool.state).1)⟩
  | start (pool : Pool Op ε ι σ) (i : ι) (p : Prog Op ε Unit) (idle : (pool.progs i).finished) (launched : launch p) :
      Advance exec launch rule pool ⟨pool.state,Function.update pool.progs i p⟩

theorem Advance.mono {exec : ι → ∀ β, χ → Op β → σ → β × σ} {launch : Prog Op ε Unit → Prop}
    {rule weaker : ∀ β, Pool Op ε ι σ → ι → χ → Op β → Prop}
    (weaken : ∀ β pool i c (o : Op β), rule _ pool i c o → weaker _ pool i c o) {before after : Pool Op ε ι σ}
    (one : Advance exec launch rule before after) : Advance exec launch weaker before after := by
  cases one with
  | op _ i c o next at_op allowed => exact .op before i c o next at_op (weaken _ _ _ _ _ allowed)
  | start _ i p idle launched => exact .start before i p idle launched

/-- A program that is started and runs to its end while the others wait. -/
theorem advance_program {exec : ι → ∀ β, χ → Op β → σ → β × σ} {launch : Prog Op ε Unit → Prop}
    {rule : ∀ β, Pool Op ε ι σ → ι → χ → Op β → Prop} (i : ι) (policy : σ → χ) (P : σ → Prop)
    (check : ∀ β, Op β → σ → Bool) (kept : ∀ β (o : Op β) s, P s → P (exec i _ (policy s) o s).2)
    (allowed : ∀ β (o : Op β) (pool : Pool Op ε ι σ), P pool.state → check _ o pool.state = true →
      rule _ pool i (policy pool.state) o)
    (pool : Pool Op ε ι σ) (p : Prog Op ε Unit) (idle : (pool.progs i).finished) (launched : launch p) (holds : P pool.state)
    (checked : p.checks (exec i) policy check pool.state = true) :
    Relation.ReflTransGen (Advance exec launch rule) pool ⟨(p.run (exec i) policy pool.state).2,
      Function.update pool.progs i (Prog.leaf (p.run (exec i) policy pool.state).1)⟩ := by
  have runs : ∀ (p : Prog Op ε Unit) (s : σ), P s → p.checks (exec i) policy check s = true →
      Relation.ReflTransGen (Advance exec launch rule)
      ⟨s,Function.update pool.progs i p⟩ ⟨(p.run (exec i) policy s).2,
        Function.update pool.progs i (Prog.leaf (p.run (exec i) policy s).1)⟩ := by
    intro p
    induction p with
    | pure a => exact fun s _ _ => .refl
    | fail e => exact fun s _ _ => .refl
    | op o next ih =>
      intro s holds checked
      obtain ⟨first,rest⟩ := Bool.and_eq_true_iff.mp checked
      have moved : Advance exec launch rule ⟨s,Function.update pool.progs i (.op o next)⟩ _ :=
        .op _ i (policy s) o next (by simp) (allowed _ o _ holds first)
      refine .head moved ?_
      rw [Function.update_idem]
      exact ih _ _ (kept _ o s holds) rest
  exact .head (.start pool i p idle launched) (runs p pool.state holds checked)

theorem of_steps (D : ι → Discipline Op σ χ) (launch : ι → Prog Op ε Unit → Prop) (leave : ι → σ → σ)
    (env : σ → σ → Prop) (progs : ι → Prog Op ε Unit) (i : ι) {before after : Prog Op ε Unit × σ}
    (many : (D i).Steps before after) :
    Relation.ReflTransGen (Step D launch leave env)
      ⟨before.2,Function.update progs i before.1⟩ ⟨after.2,Function.update progs i after.1⟩ := by
  induction many with
  | refl => exact .refl
  | tail _ one ih =>
    obtain ⟨c,o,next,s,allowed⟩ := one
    refine ih.tail ?_
    have moved : Step D launch leave env ⟨s,Function.update progs i (.op o next)⟩ _ :=
      .op _ i c o next (by simp) allowed
    simpa using moved

theorem run_program (D : ι → Discipline Op σ χ) (launch : ι → Prog Op ε Unit → Prop) (leave : ι → σ → σ)
    (env : σ → σ → Prop) (policy : σ → χ) (check : ∀ β, Op β → σ → Bool) (pool : Pool Op ε ι σ) (i : ι)
    (p : Prog Op ε Unit) (fair : ∀ β (o : Op β) s, check _ o s = true → (D i).may _ (policy s) o s)
    (idle : (pool.progs i).finished) (launched : launch i p)
    (checked : p.checks (D i).exec policy check (leave i pool.state) = true) :
    Relation.ReflTransGen (Step D launch leave env) pool ⟨(p.run (D i).exec policy (leave i pool.state)).2,
      Function.update pool.progs i (Prog.leaf (p.run (D i).exec policy (leave i pool.state)).1)⟩ :=
  .head (.start pool i p idle launched)
    (of_steps D launch leave env pool.progs i ((D i).runs_of_run policy check fair p (leave i pool.state) checked))

/-- What makes an interleaving safe: each operation that finds its requirement
keeps the invariant and acts within what every other process relies on. -/
structure Compatible (D : ι → Discipline Op σ χ) (launch : ι → Prog Op ε Unit → Prop) (leave : ι → σ → σ)
    (env : σ → σ → Prop) (inv : σ → Prop) : Prop where
  shared : ∀ i s, (D i).inv s ↔ inv s
  alone : ∀ i s, (D i).rely s s
  trans : ∀ i a b c, (D i).rely a b → (D i).rely b c → (D i).rely a c
  keeps : ∀ i β c (o : Op β) s, inv s → (D i).may _ c o s → (D i).pre _ c o s →
    inv ((D i).exec _ c o s).2 ∧ ∀ j, j ≠ i → (D j).rely s ((D i).exec _ c o s).2
  left : ∀ i s, inv s → inv (leave i s) ∧ ∀ j, j ≠ i → (D j).rely s (leave i s)
  quiet : ∀ s t, inv s → env s t → inv t ∧ ∀ j, (D j).rely s t
  safe : ∀ i p s, launch i p → inv s → (D i).Meets p (fun _ _ => True) (leave i s)

def Good (D : ι → Discipline Op σ χ) (inv : σ → Prop) (pool : Pool Op ε ι σ) : Prop :=
  inv pool.state ∧ ∀ i, (D i).Meets (pool.progs i) (fun _ _ => True) pool.state

variable {D : ι → Discipline Op σ χ} {launch : ι → Prog Op ε Unit → Prop} {leave : ι → σ → σ}
  {env : σ → σ → Prop} {inv : σ → Prop}

theorem Good.step (compatible : Compatible D launch leave env inv) {before after : Pool Op ε ι σ}
    (one : Step D launch leave env before after) (good : Good D inv before) : Good D inv after := by
  have stays : ∀ j (p : Prog Op ε Unit) s t, (D j).Meets p (fun _ _ => True) s → (D j).rely s t →
      (D j).Meets p (fun _ _ => True) t := fun j p s t met between =>
    met.stable between (compatible.trans j) (fun _ _ _ _ _ => trivial)
  cases one with
  | op pool i c o next at_op allowed =>
    have met := good.2 i
    rw [at_op] at met
    obtain ⟨required,rest⟩ := met c _ (compatible.alone i _) ((compatible.shared i _).mpr good.1) allowed
    obtain ⟨kept,others⟩ := compatible.keeps i _ c o _ good.1 allowed required
    refine ⟨kept,fun j => ?_⟩
    by_cases same : j = i
    · subst j
      simpa using rest
    · simpa [Function.update_of_ne same] using stays j _ _ _ (good.2 j) (others j same)
  | crash pool i =>
    obtain ⟨kept,others⟩ := compatible.left i _ good.1
    refine ⟨kept,fun j => ?_⟩
    by_cases same : j = i
    · subst j
      simp [Discipline.Meets]
    · simpa [Function.update_of_ne same] using stays j _ _ _ (good.2 j) (others j same)
  | start pool i p idle launched =>
    obtain ⟨kept,others⟩ := compatible.left i _ good.1
    refine ⟨kept,fun j => ?_⟩
    by_cases same : j = i
    · subst j
      simpa using compatible.safe i p _ launched good.1
    · simpa [Function.update_of_ne same] using stays j _ _ _ (good.2 j) (others j same)
  | env pool t moved =>
    obtain ⟨kept,others⟩ := compatible.quiet _ _ good.1 moved
    exact ⟨kept,fun j => stays j _ _ _ (good.2 j) (others j)⟩

theorem Good.run (compatible : Compatible D launch leave env inv) {before after : Pool Op ε ι σ}
    (many : Relation.ReflTransGen (Step D launch leave env) before after) (good : Good D inv before) :
    Good D inv after := by
  induction many with
  | refl => exact good
  | tail _ one ih => exact ih.step compatible one

omit [DecidableEq ι] in
/-- In a good pool every operation about to be executed finds what it requires. -/
theorem Good.required (compatible : Compatible D launch leave env inv) {pool : Pool Op ε ι σ}
    (good : Good D inv pool) {β : Type} (i : ι) (c : χ) (o : Op β) (next : β → Prog Op ε Unit)
    (at_op : pool.progs i = .op o next) (allowed : (D i).may _ c o pool.state) :
    (D i).pre _ c o pool.state := by
  have met := good.2 i
  rw [at_op] at met
  exact (met c _ (compatible.alone i _) ((compatible.shared i _).mpr good.1) allowed).1

end Pool

end AetherVault.Lib
