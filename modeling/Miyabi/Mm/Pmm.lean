import Miyabi.Base.Memory

namespace Miyabi.Mm.Pmm

open Miyabi.Base

-- src/mm/pmm.c

-- The entry types init_pmm tells apart.
inductive MemmapType where
  | usable
  | acpiReclaimable
  | bootloaderReclaimable
  | other (value : BitVec 64)
  deriving DecidableEq

structure MemmapEntry where
  base : BitVec 64
  length : BitVec 64
  type : MemmapType

-- The boot loader's responses (none is NULL) and the linker's symbols.
structure BootInfo where
  memmap : Option (List MemmapEntry)
  hhdm : Option (BitVec 64)
  kernelStart : BitVec 64
  kernelEnd : BitVec 64

-- The statics of pmm.c and hhdm_offset. The bitmap itself lies in memory, at
-- the address that the direct map gives its frames.
structure Statics where
  hhdmOffset : BitVec 64
  bitmap : BitVec 64
  bitmapPhys : BitVec 64
  pageCount : BitVec 64
  bitmapBytes : BitVec 64
  bitmapPages : BitVec 64

def alignDown4k (x : BitVec 64) : BitVec 64 := x &&& ~~~0xFFF

def alignUp4k (x : BitVec 64) : BitVec 64 := (x + 0xFFF) &&& ~~~0xFFF

def bitmapSet (bitmap : BitVec 64) (m : Memory 64) (page : BitVec 64) : Memory 64 :=
  m.store8 (bitmap + page >>> 3) (m (bitmap + page >>> 3) ||| 1#8 <<< (page &&& 7))

def bitmapClear (bitmap : BitVec 64) (m : Memory 64) (page : BitVec 64) : Memory 64 :=
  m.store8 (bitmap + page >>> 3) (m (bitmap + page >>> 3) &&& ~~~(1#8 <<< (page &&& 7)))

def bitmapTest (bitmap : BitVec 64) (m : Memory 64) (page : BitVec 64) : Bool :=
  (m (bitmap + page >>> 3) &&& 1#8 <<< (page &&& 7)) != 0

-- The loop of pmm_alloc from page i on; page_count steps reach its end.
def pmmAllocFrom (p : Statics) : Nat → BitVec 64 → Memory 64 → BitVec 64 × Memory 64
  | 0, _, m => (0, m)
  | fuel + 1, i, m =>
      if i < p.pageCount then
        if bitmapTest p.bitmap m i then pmmAllocFrom p fuel (i + 1) m
        else (i * 4096, bitmapSet p.bitmap m i)
      else (0, m)

def pmmAlloc (p : Statics) (m : Memory 64) : BitVec 64 × Memory 64 :=
  pmmAllocFrom p p.pageCount.toNat 1 m

def regionOverlapsKernel (boot : BootInfo) (start stop : BitVec 64) : Bool :=
  !(stop ≤ boot.kernelStart || start ≥ boot.kernelEnd)

def highestEnd (map : List MemmapEntry) : BitVec 64 :=
  map.foldl (fun highest entry =>
    if entry.base + entry.length > highest then entry.base + entry.length else highest) 0

-- The search for a USABLE region that can hold the bitmap.
def findRoom (boot : BootInfo) (bitmapPages : BitVec 64) : List MemmapEntry → Option (BitVec 64)
  | [] => none
  | entry :: rest =>
      let start := alignUp4k entry.base
      let stop := alignDown4k (entry.base + entry.length)
      if entry.type ≠ .usable then findRoom boot bitmapPages rest
      else if stop ≤ start then findRoom boot bitmapPages rest
      else if regionOverlapsKernel boot start stop then findRoom boot bitmapPages rest
      else if stop - start ≥ bitmapPages * 4096 then some start
      else findRoom boot bitmapPages rest

def fillBitmap (bitmap : BitVec 64) : Nat → Memory 64 → Memory 64
  | 0, m => m
  | n + 1, m => (fillBitmap bitmap n m).store8 (bitmap + BitVec.ofNat 64 n) 0xFF

-- The loop over the pages of one region. Both bounds are page-aligned, so that
-- 2^52 turns reach its end.
def clearRegion (bitmap : BitVec 64) : Nat → BitVec 64 → BitVec 64 → Memory 64 → Option (Memory 64)
  | 0, _, _, _ => none
  | fuel + 1, addr, stop, m =>
      if addr < stop then clearRegion bitmap fuel (addr + 4096) stop (bitmapClear bitmap m (addr / 4096))
      else some m

-- init_pmm clears the bits of regions twice, for two sets of entry types.
def clearRegions (boot : BootInfo) (bitmap : BitVec 64) (kind : MemmapType → Bool) :
    List MemmapEntry → Memory 64 → Option (Memory 64)
  | [], m => some m
  | entry :: rest, m =>
      let start := alignUp4k entry.base
      let stop := alignDown4k (entry.base + entry.length)
      if !kind entry.type then clearRegions boot bitmap kind rest m
      else if stop ≤ start then clearRegions boot bitmap kind rest m
      else if regionOverlapsKernel boot start stop then clearRegions boot bitmap kind rest m
      else
        match clearRegion bitmap (2 ^ 52) start stop m with
        | none => none
        | some m => clearRegions boot bitmap kind rest m

def isUsable (type : MemmapType) : Bool := type = .usable

def isReclaimable (type : MemmapType) : Bool :=
  type = .usable || type = .acpiReclaimable || type = .bootloaderReclaimable

def reserveBitmap (bitmap bitmapPhys : BitVec 64) : Nat → Memory 64 → Memory 64
  | 0, m => m
  | n + 1, m =>
      bitmapSet bitmap (reserveBitmap bitmap bitmapPhys n m) (bitmapPhys / 4096 + BitVec.ofNat 64 n)

-- none: init_pmm halts.
def initPmm (boot : BootInfo) (m : Memory 64) : Option (Statics × Memory 64) :=
  match boot.memmap, boot.hhdm with
  | some map, some hhdmOffset =>
      let highest := highestEnd map
      let pageCount := alignUp4k highest / 4096
      let bitmapBytes := (pageCount + 7) / 8
      let bitmapPages := alignUp4k bitmapBytes / 4096
      match findRoom boot bitmapPages map with
      | none => none
      | some bitmapPhys =>
          let bitmap := bitmapPhys + hhdmOffset
          let m := fillBitmap bitmap bitmapBytes.toNat m
          match clearRegions boot bitmap isUsable map m with
          | none => none
          | some m =>
              let m := reserveBitmap bitmap bitmapPhys bitmapPages.toNat m
              let m := bitmapSet bitmap m 0
              match clearRegions boot bitmap isReclaimable map m with
              | none => none
              | some m =>
                  some (⟨hhdmOffset, bitmap, bitmapPhys, pageCount, bitmapBytes, bitmapPages⟩, m)
  | _, _ => none

end Miyabi.Mm.Pmm
