import Miyabi.Mm.Heap

namespace Miyabi.Mm.Heap

open Miyabi.Base Miyabi.Base.Memory

theorem apart_size_next (p : BitVec 64) : Apart p 8 (p + 16) 8 := by
  intro x hx hy
  simp only [InRange] at hx hy
  bv_omega

theorem free_not_in_size (p : BitVec 64) : ¬InRange p 8 (p + 8) := by
  simp [InRange]

theorem free_not_in_next (p : BitVec 64) : ¬InRange (p + 16) 8 (p + 8) := by
  simp only [InRange]
  bv_omega

theorem size_in_header (p x : BitVec 64) (h : InRange p 8 x) : InRange p 24 x :=
  inRange_mono p x (by omega) h

theorem free_in_header (p : BitVec 64) : InRange p 24 (p + 8) := by
  simp [InRange]

theorem next_in_header (p x : BitVec 64) (h : InRange (p + 16) 8 x) : InRange p 24 x := by
  simp only [InRange] at h ⊢
  bv_omega

@[simp] theorem blockSize_setSize (m : Memory 64) (p v : BitVec 64) :
    blockSize (setSize m p v) p = v :=
  load_store_same (n := 8) m p v (by decide)

@[simp] theorem blockSize_setIsFree (m : Memory 64) (p : BitVec 64) (free : Bool) :
    blockSize (setIsFree m p free) p = blockSize m p :=
  load_store8_apart m p (p + 8) _ (free_not_in_size p)

@[simp] theorem blockSize_setNext (m : Memory 64) (p v : BitVec 64) :
    blockSize (setNext m p v) p = blockSize m p :=
  load_store_apart (k := 8) m p (p + 16) v (apart_size_next p)

@[simp] theorem blockIsFree_setSize (m : Memory 64) (p v : BitVec 64) :
    blockIsFree (setSize m p v) p = blockIsFree m p := by
  simp only [blockIsFree, setSize, store64]
  rw [store_of_not_inRange (n := 8) m p _ v (free_not_in_size p)]

@[simp] theorem blockIsFree_setIsFree (m : Memory 64) (p : BitVec 64) (free : Bool) :
    blockIsFree (setIsFree m p free) p = free := by
  simp only [blockIsFree, setIsFree, store8_same]
  cases free <;> rfl

@[simp] theorem blockIsFree_setNext (m : Memory 64) (p v : BitVec 64) :
    blockIsFree (setNext m p v) p = blockIsFree m p := by
  simp only [blockIsFree, setNext, store64]
  rw [store_of_not_inRange (n := 8) m (p + 16) _ v (free_not_in_next p)]

@[simp] theorem blockNext_setSize (m : Memory 64) (p v : BitVec 64) :
    blockNext (setSize m p v) p = blockNext m p :=
  load_store_apart (k := 8) m (p + 16) p v (apart_size_next p).symm

@[simp] theorem blockNext_setIsFree (m : Memory 64) (p : BitVec 64) (free : Bool) :
    blockNext (setIsFree m p free) p = blockNext m p :=
  load_store8_apart m (p + 16) (p + 8) _ (free_not_in_next p)

@[simp] theorem blockNext_setNext (m : Memory 64) (p v : BitVec 64) :
    blockNext (setNext m p v) p = v :=
  load_store_same (n := 8) m (p + 16) v (by decide)

theorem setSize_keeps (m : Memory 64) (p v : BitVec 64) : KeepsOutside m (setSize m p v) p 24 :=
  fun x h => store_of_not_inRange (n := 8) m p x v (fun hx => h (size_in_header p x hx))

theorem setIsFree_keeps (m : Memory 64) (p : BitVec 64) (free : Bool) :
    KeepsOutside m (setIsFree m p free) p 24 :=
  fun x h => store8_ne m (p + 8) x _ (fun hx => h (hx ▸ free_in_header p))

theorem setNext_keeps (m : Memory 64) (p v : BitVec 64) : KeepsOutside m (setNext m p v) p 24 :=
  fun x h => store_of_not_inRange (n := 8) m (p + 16) x v (fun hx => h (next_in_header p x hx))

section Agreement

variable {m m' : Memory 64} {p q : BitVec 64}

theorem blockSize_congr (h : Agree m m' p 24) : blockSize m' p = blockSize m p :=
  load_congr (fun x hx => h x (size_in_header p x hx))

theorem blockIsFree_congr (h : Agree m m' p 24) : blockIsFree m' p = blockIsFree m p := by
  simp only [blockIsFree, h _ (free_in_header p)]

theorem blockNext_congr (h : Agree m m' p 24) : blockNext m' p = blockNext m p :=
  load_congr (fun x hx => h x (next_in_header p x hx))

end Agreement

end Miyabi.Mm.Heap
