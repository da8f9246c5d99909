import Mathlib.Data.Rat.Defs
import Mathlib.Algebra.Order.Ring.Rat

/-! Fixed windows over the times of a sequence of calls: a window opens at a call that
falls in no window yet and takes every later call within its size. -/
namespace AetherVault.Lib

/-- How far a reading is from an earlier one. It may be rounded, as long as it grows
with the reading. -/
structure Clock (T : Type) [LinearOrder T] where
  since : T → T → Rat
  grows : ∀ start {early late}, early ≤ late → since early start ≤ since late start

namespace Clock

variable {T : Type} [LinearOrder T] (clock : Clock T) (size : Rat)

def Within (start now : T) : Prop := start ≤ now ∧ clock.since now start < size

instance (start now : T) : Decidable (clock.Within size start now) := inferInstanceAs (Decidable (_ ∧ _))

/-- The starts of the windows that the calls open, from the window that is open. -/
def starts : Option T → List T → List T
  | _,[] => []
  | opened,now::rest =>
    if opened.any (fun start => decide (clock.since now start < size)) then starts opened rest
    else now::starts (some now) rest

variable {clock size}

theorem mem_of_mem_starts {opened : Option T} {times : List T} {start : T} (member : start ∈ clock.starts size opened times) :
    start ∈ times := by
  induction times generalizing opened with
  | nil => exact member
  | cons now rest ih =>
    unfold starts at member
    split at member
    · exact List.mem_cons_of_mem _ (ih member)
    · rcases List.mem_cons.mp member with same | later
      · exact same ▸ List.mem_cons_self
      · exact List.mem_cons_of_mem _ (ih later)

/-- A window opens only once the one before it is over. -/
theorem starts_past {opened start : T} {times : List T} (ordered : times.Pairwise (· ≤ ·))
    (member : start ∈ clock.starts size (some opened) times) : size ≤ clock.since start opened := by
  induction times with
  | nil => exact absurd member List.not_mem_nil
  | cons now rest ih =>
    obtain ⟨first,later⟩ := List.pairwise_cons.mp ordered
    by_cases inside : clock.since now opened < size
    · rw [starts,if_pos (by simpa using inside)] at member
      exact ih later member
    · rw [starts,if_neg (by simpa using inside)] at member
      have past := not_lt.mp inside
      rcases List.mem_cons.mp member with same | beyond
      · rwa [same]
      · exact past.trans (clock.grows opened (first start (mem_of_mem_starts beyond)))

end Clock

end AetherVault.Lib
