import Invariance.Fault
import Invariance.Slots.Pairing

/-!
Memos remember results under their keys. Each slot holds the last entry made in it, so that a memo may forget
but never answers for another key.
-/

namespace Invariance.Slots

/-- A slot of a memo, with the last entry made in it if there was one. -/
inductive Cell (κ ν : Type) where
  | free
  | taken (key : κ) (result : ν)

/-- Remembered results, and how many questions were answered and not. -/
structure Memo (κ ν : Type) where
  slots : Array (Cell κ ν)
  hits : Nat := 0
  misses : Nat := 0

namespace Memo

variable {κ ν : Type} [DecidableEq κ] [Coded κ]

/-- A memo with 2^bits slots, all free. -/
def ofBits (bits : Nat) : Except Fault (Memo κ ν) :=
  if bits ≤ 31 then .ok { slots := Array.replicate (Nat.pow 2 bits) .free } else .error .memoBits

/-- The memo without slots, which remembers nothing. -/
def forgetful : Memo κ ν where
  slots := #[]

/-- What the slot of the key holds, if that is an entry for the key. -/
@[inline]
def peek (m : Memo κ ν) (k : κ) : Option ν :=
  match m.slots[slot k m.slots.size]? with
  | some (.taken l v) => if l = k then some v else none
  | _ => none

/-- The result remembered under a key, which counts as a hit or a miss. -/
@[inline]
def find (m : Memo κ ν) (k : κ) : Option ν × Memo κ ν :=
  match m.peek k, m with
  | some v, ⟨slots, hits, misses⟩ => (some v, ⟨slots, hits + 1, misses⟩)
  | none, ⟨slots, hits, misses⟩ => (none, ⟨slots, hits, misses + 1⟩)

/-- Remembers a result in the slot of its key. -/
@[inline]
def insert (m : Memo κ ν) (k : κ) (v : ν) : Memo κ ν :=
  match m with
  | ⟨slots, hits, misses⟩ => ⟨slots.setIfInBounds (slot k slots.size) (.taken k v), hits, misses⟩

variable {m : Memo κ ν} {k l : κ} {u v : ν}

theorem find_fst : (m.find k).1 = m.peek k := by
  unfold find
  split <;> next h => exact h.symm

@[simp]
theorem slots_find : (m.find k).2.slots = m.slots := by
  unfold find
  split <;> rfl

/-- An answer comes from an entry for the key. -/
theorem mem_slots_of_peek (h : m.peek k = some v) : .taken k v ∈ m.slots := by
  unfold peek at h
  split at h
  · next l u hslot =>
      split at h
      · next heq =>
          cases h
          exact heq ▸ Array.mem_of_getElem? hslot
      · cases h
  · cases h

omit [DecidableEq κ] in
theorem mem_slots_insert (h : .taken l u ∈ (m.insert k v).slots) : .taken l u ∈ m.slots ∨ l = k ∧ u = v := by
  rcases Array.mem_or_eq_of_mem_setIfInBounds h with hold | hnew
  · exact .inl hold
  · cases hnew
    exact .inr ⟨rfl, rfl⟩

omit [DecidableEq κ] [Coded κ] in
/-- A new memo has no entries. -/
theorem slots_ofBits {bits : Nat} (h : ofBits bits = .ok m) : .taken k v ∉ m.slots := by
  intro hmem
  unfold ofBits at h
  split at h
  · cases h
    cases (Array.mem_replicate.mp hmem).2
  · cases h

end Memo

end Invariance.Slots
