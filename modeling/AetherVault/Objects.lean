import AetherVault.Lib.Dict
import Mathlib.Algebra.Group.Nat.Defs
import Mathlib.Data.Set.Function

/-! The content-addressed object store under `.av/objects`. Every write goes to a
temporary name and is published under the SHA-256 of what was written, so a store
whose objects do not hash to their names cannot be built. -/
namespace AetherVault
open Lib

abbrev Bytes := List UInt8

/-- The digest of a byte string, on the type of its hexadecimal names. -/
class Hashing (H : Type) where
  sha256 : Bytes → H

/-- An ideal digest: every byte string is a name of its own, so nothing collides. -/
structure Name where
  bytes : Bytes
  deriving DecidableEq

instance : Hashing Name := ⟨Name.mk⟩

theorem Name.sha256_injective : Function.Injective (Hashing.sha256 : Bytes → Name) :=
  fun _ _ same => congrArg Name.bytes same

/-- A file's bytes; `fs::file_size` gives its length as an unsigned 64-bit number. -/
structure FileData where
  bytes : Bytes
  fits : bytes.length < 2^64
  deriving DecidableEq

def FileData.ofBytes? (bytes : Bytes) : Option FileData :=
  if fits : bytes.length < 2^64 then some ⟨bytes,fits⟩ else none

theorem FileData.ofBytes?_bytes (file : FileData) : FileData.ofBytes? file.bytes = some file := dif_pos file.fits

theorem FileData.ofBytes?_some {bytes : Bytes} {file : FileData} (made : FileData.ofBytes? bytes = some file) :
    file.bytes = bytes := by
  unfold FileData.ofBytes? at made
  split at made
  · exact (Option.some.inj made) ▸ rfl
  · contradiction

variable {H : Type} [DecidableEq H] [Hashing H]
open Hashing

structure Objects (H : Type) [DecidableEq H] [Hashing H] where
  held : Dict H Bytes
  named : ∀ h b, held.get? h = some b → sha256 b = h

namespace Objects

def empty : Objects H := ⟨∅,by simp⟩

def get? (objects : Objects H) (h : H) : Option Bytes := objects.held.get? h

def exists? (objects : Objects H) (h : H) : Bool := (objects.get? h).isSome

/-- `_atomic_publish_object` and `publish_object_bytes`: write once, keep what is there. -/
def publish (objects : Objects H) (b : Bytes) : Objects H :=
  match present : objects.get? (sha256 b) with
  | some _ => objects
  | none => ⟨objects.held.set (sha256 b) b,by
      intro h other found
      rw [Dict.get?_set] at found
      split at found
      · rename_i same
        rw [same,← Option.some.inj found]
      · exact objects.named h other found⟩

def publishAll (objects : Objects H) (blobs : List Bytes) : Objects H := blobs.foldl publish objects

theorem publishAll_append (objects : Objects H) (first second : List Bytes) :
    objects.publishAll (first ++ second) = (objects.publishAll first).publishAll second := List.foldl_append

@[simp] theorem publishAll_singleton (objects : Objects H) (b : Bytes) : objects.publishAll [b] = objects.publish b := rfl

@[simp] theorem publishAll_nil (objects : Objects H) : objects.publishAll [] = objects := rfl

theorem get?_named (objects : Objects H) {h : H} {b : Bytes} (found : objects.get? h = some b) : sha256 b = h :=
  objects.named h b found

theorem get?_publish (objects : Objects H) (b : Bytes) (h : H) :
    (objects.publish b).get? h =
      if h = sha256 b then some ((objects.get? h).getD b) else objects.get? h := by
  unfold publish
  split
  · rename_i other present
    split
    · rename_i same
      rw [same,present]
      rfl
    · rfl
  · rename_i present
    change (objects.held.set (sha256 b) b).get? h = _
    rw [Dict.get?_set]
    split
    · rename_i same
      rw [same,present]
      rfl
    · rfl

theorem publish_keeps (objects : Objects H) (b : Bytes) {h : H} {other : Bytes}
    (found : objects.get? h = some other) : (objects.publish b).get? h = some other := by
  rw [get?_publish,found]
  split <;> rfl

theorem publishAll_keeps (objects : Objects H) (blobs : List Bytes) {h : H} {other : Bytes}
    (found : objects.get? h = some other) : (objects.publishAll blobs).get? h = some other := by
  induction blobs generalizing objects with
  | nil => exact found
  | cons b rest ih => exact ih _ (publish_keeps objects b found)

theorem publish_present (objects : Objects H) (b : Bytes) :
    ∃ other, (objects.publish b).get? (sha256 b) = some other := by
  rw [get?_publish]
  simp

theorem publishAll_present (objects : Objects H) (blobs : List Bytes) {b : Bytes} (member : b ∈ blobs) :
    ∃ other, (objects.publishAll blobs).get? (sha256 b) = some other := by
  induction blobs generalizing objects with
  | nil => simp at member
  | cons first rest ih =>
    rcases List.mem_cons.mp member with rfl | inside
    · obtain ⟨other,found⟩ := publish_present objects b
      exact ⟨other,publishAll_keeps _ rest found⟩
    · exact ih _ inside

/-- The bytes in the store and those about to be published do not collide. -/
def CollisionFree (objects : Objects H) (blobs : Set Bytes) : Prop :=
  Set.InjOn (sha256 : Bytes → H) (blobs ∪ {b | ∃ h, objects.get? h = some b})

theorem get?_publishAll_source (objects : Objects H) (blobs : List Bytes) {h : H} {b : Bytes}
    (found : (objects.publishAll blobs).get? h = some b) : objects.get? h = some b ∨ b ∈ blobs := by
  induction blobs generalizing objects with
  | nil => exact Or.inl found
  | cons first rest ih =>
    rcases ih _ found with early | inside
    · rw [get?_publish] at early
      split at early
      · cases held : objects.get? h with
        | none =>
          rw [held] at early
          exact Or.inr (by simp [← Option.some.inj early])
        | some other =>
          rw [held] at early
          exact Or.inl early
      · exact Or.inl early
    · exact Or.inr (List.mem_cons_of_mem _ inside)

theorem publishAll_exact (objects : Objects H) (blobs : List Bytes) (space : Set Bytes)
    (inside : ∀ b ∈ blobs, b ∈ space) (free : objects.CollisionFree space) {b : Bytes} (member : b ∈ blobs) :
    (objects.publishAll blobs).get? (sha256 b) = some b := by
  obtain ⟨other,found⟩ := publishAll_present objects blobs member
  have same : sha256 other = sha256 b := get?_named _ found
  have source : other ∈ space ∪ {b | ∃ h, objects.get? h = some b} := by
    rcases get?_publishAll_source objects blobs found with early | published
    · exact Or.inr ⟨_,early⟩
    · exact Or.inl (inside _ published)
  rw [found,free source (Or.inl (inside b member)) same]

end Objects

end AetherVault
