import Mathlib.Tactic
import Mathlib.Data.Finset.Card

/-!
# The node pool

`mulle_storage` belongs to another library; the tree uses six of its functions.  They are a
parameter of the model: a type of pools together with what the tree relies on.

* a slot that `malloc` hands out is not in use, and `free` makes a slot available again;
* slots are numbered, so two slots never share a byte;
* the element size is the requested size rounded up to the requested alignment.
-/

namespace MulleRbtree

/-- The least multiple of `align` that is at least `size`. -/
def alignUp (size align : ℕ) : ℕ := (size + align - 1) / align * align

/-- A pool of equally sized slots. -/
class MulleStorage (σ : Type) where
  /-- `_mulle_storage_init` -/
  init : (size align capacity : ℕ) → σ
  /-- `_mulle_storage_malloc` -/
  malloc : σ → ℕ × σ
  /-- `_mulle_storage_free` -/
  free : σ → ℕ → σ
  /-- `_mulle_storage_get_element_size` -/
  getElementSize : σ → ℕ
  /-- the slots handed out and not freed since -/
  live : σ → Finset ℕ
  live_init : ∀ size align capacity, live (init size align capacity) = ∅
  malloc_notMem : ∀ s, (malloc s).1 ∉ live s
  live_malloc : ∀ s, live (malloc s).2 = insert (malloc s).1 (live s)
  live_free : ∀ s i, i ∈ live s → live (free s i) = (live s).erase i
  elementSize_init : ∀ size align capacity,
    getElementSize (init size align capacity) = alignUp size align
  elementSize_malloc : ∀ s, getElementSize (malloc s).2 = getElementSize s
  elementSize_free : ∀ s i, getElementSize (free s i) = getElementSize s

/-- `_mulle_storage_get_count` -/
def MulleStorage.getCount {σ : Type} [MulleStorage σ] (s : σ) : ℕ := (live s).card

/-! ### A pool -/

/-- A pool that hands out its lowest free slot: there is something the class describes. -/
structure SlotPool where
  live : Finset ℕ
  elementSize : ℕ
  deriving DecidableEq

namespace SlotPool

/-- The lowest slot that is not in use. -/
def lowestFree (live : Finset ℕ) : ℕ :=
  ((List.range (live.card + 1)).find? fun i => i ∉ live).getD 0

theorem lowestFree_notMem (live : Finset ℕ) : lowestFree live ∉ live := by
  unfold lowestFree
  cases h : (List.range (live.card + 1)).find? fun i => i ∉ live with
  | some i => simpa using List.find?_some h
  | none =>
    -- all of the first `card + 1` slots would be in use
    have hsub : Finset.range (live.card + 1) ⊆ live := by
      intro i hi
      simpa using List.find?_eq_none.1 h i (by simpa using hi)
    have hcard := Finset.card_le_card hsub
    rw [Finset.card_range] at hcard
    omega

end SlotPool

instance : MulleStorage SlotPool where
  init size align _ := ⟨∅, alignUp size align⟩
  malloc s :=
    let i := SlotPool.lowestFree s.live
    (i, { s with live := insert i s.live })
  free s i := { s with live := s.live.erase i }
  getElementSize := SlotPool.elementSize
  live := SlotPool.live
  live_init _ _ _ := rfl
  malloc_notMem s := SlotPool.lowestFree_notMem s.live
  live_malloc _ := rfl
  live_free _ _ _ := rfl
  elementSize_init _ _ _ := rfl
  elementSize_malloc _ := rfl
  elementSize_free _ _ := rfl

end MulleRbtree
