import Miyabi.Elf.Header
import Miyabi.Mm.Heap.Calls
import Miyabi.Modules.Ksym

namespace Miyabi.Modules

open Miyabi.Base Miyabi.Elf Miyabi.Fs Miyabi.Mm

-- src/modules/loader.c

-- A section that has been given an address, with its sh_addralign and sh_size.
structure Placement where
  header : BitVec 64
  align : BitVec 64
  size : BitVec 64
  addr : BitVec 64
  deriving DecidableEq

-- A relocation that has been applied: S, A and P, and the bytes then at P.
structure Patch where
  relType : BitVec 32
  symVal : BitVec 64
  addend : BitVec 64
  place : BitVec 64
  field : BitVec 32
  deriving DecidableEq

-- The memory while load_module works on it, and for the proofs only what it has done
-- so far, the last first: its stores by address and length, the sections placed, the
-- relocations applied.
structure Work where
  mem : Memory 64
  stores : List (BitVec 64 × ℕ)
  placed : List Placement
  applied : List Patch

namespace Work

def store8 (w : Work) (addr : BitVec 64) (v : BitVec 8) : Work :=
  { w with mem := w.mem.store8 addr v, stores := (addr, 1) :: w.stores }

def store32 (w : Work) (addr : BitVec 64) (v : BitVec 32) : Work :=
  { w with mem := w.mem.store32 addr v, stores := (addr, 4) :: w.stores }

def store64 (w : Work) (addr v : BitVec 64) : Work :=
  { w with mem := w.mem.store64 addr v, stores := (addr, 8) :: w.stores }

end Work

def elfValidate (m : Memory 64) (ehdr fileSize : BitVec 64) : Bool :=
  if fileSize < 64 then false
  else if !magicOk m ehdr then false
  else if eIdent m ehdr 4 ≠ elfClass64 then false
  else if eMachine m ehdr ≠ emX8664 then false
  else if eType m ehdr ≠ etRel then false
  else if eShentsize m ehdr ≠ 64 ∨ eShoff m ehdr > fileSize ∨
      (eShnum m ehdr).setWidth 64 > (fileSize - eShoff m ehdr) / 64 then false
  else true

-- &shdrs[i]
def shdr (shdrs : BitVec 64) (i : ℕ) : BitVec 64 := shdrs + BitVec.ofNat 64 (i * shdrSize)

-- Both passes round an offset up in this way.
def alignOffset (offset align : BitVec 64) : BitVec 64 :=
  if 1 < align then (offset + align - 1) &&& ~~~(align - 1) else offset

section Layout

variable (ehdr shdrs fileBuffer fileSize : BitVec 64)

-- The loops over the sections read e_shnum each turn. It is below 2^16, so that 2^16
-- turns reach their end.

-- The first pass, from section i on. none: a section lies outside the file.
def totalMemorySize (m : Memory 64) : ℕ → ℕ → BitVec 64 → Option (BitVec 64)
  | 0, _, total => some total
  | fuel + 1, i, total =>
      if i < (eShnum m ehdr).toNat then
        let sh := shdr shdrs i
        if IsAlloc m sh then
          if shType m sh ≠ shtNobits ∧
              (shOffset m sh > fileSize ∨ shSize m sh > fileSize - shOffset m sh) then none
          else totalMemorySize m fuel (i + 1) (alignOffset total (shAddralign m sh) + shSize m sh)
        else totalMemorySize m fuel (i + 1) total
      else some total

-- The loops over the bytes of a section, from byte j on. They read sh_size each turn.
def zeroSection (sh dst : BitVec 64) : ℕ → ℕ → Work → Work
  | 0, _, w => w
  | fuel + 1, j, w =>
      if j < (shSize w.mem sh).toNat then
        zeroSection sh dst fuel (j + 1) (w.store8 (dst + BitVec.ofNat 64 j) 0)
      else w

def copySection (sh dst src : BitVec 64) : ℕ → ℕ → Work → Work
  | 0, _, w => w
  | fuel + 1, j, w =>
      if j < (shSize w.mem sh).toNat then
        copySection sh dst src fuel (j + 1)
          (w.store8 (dst + BitVec.ofNat 64 j) (w.mem (src + BitVec.ofNat 64 j)))
      else w

-- A section gets its address.
def Work.place (w : Work) (sh addr : BitVec 64) : Work :=
  { w.store64 (sh + 16) addr with
    placed := ⟨sh, shAddralign w.mem sh, shSize w.mem sh, addr⟩ :: w.placed }

-- The body of the second pass for an allocated section.
def placeSection (moduleMemory offset sh : BitVec 64) (w : Work) : Work :=
  let w := w.place sh (moduleMemory + offset)
  if shType w.mem sh = shtNobits then zeroSection sh (shAddr w.mem sh) (2 ^ 64) 0 w
  else copySection sh (shAddr w.mem sh) (fileBuffer + shOffset w.mem sh) (2 ^ 64) 0 w

-- The second pass, with its current_offset.
def placeSections (moduleMemory : BitVec 64) : ℕ → ℕ → BitVec 64 → Work → BitVec 64 × Work
  | 0, _, offset, w => (offset, w)
  | fuel + 1, i, offset, w =>
      if i < (eShnum w.mem ehdr).toNat then
        let sh := shdr shdrs i
        if IsAlloc w.mem sh then
          let offset := alignOffset offset (shAddralign w.mem sh)
          let w := placeSection fileBuffer moduleMemory offset sh w
          placeSections moduleMemory fuel (i + 1) (offset + shSize w.mem sh) w
        else placeSections moduleMemory fuel (i + 1) offset w
      else (offset, w)

-- The first section of type SHT_SYMTAB.
def findSymtab (m : Memory 64) : ℕ → ℕ → Option (BitVec 64)
  | 0, _ => none
  | fuel + 1, i =>
      if i < (eShnum m ehdr).toNat then
        if shType m (shdr shdrs i) = shtSymtab then some (shdr shdrs i)
        else findSymtab m fuel (i + 1)
      else none

-- sh_offset and sh_size of a table lie inside the file.
def inFile (m : Memory 64) (sh : BitVec 64) : Bool :=
  !(decide (shOffset m sh > fileSize) || decide (shSize m sh > fileSize - shOffset m sh))

end Layout

-- The symbol table and its strings, as the pointers that load_module keeps.
structure Tables where
  ehdr : BitVec 64
  shdrs : BitVec 64
  symtab : BitVec 64
  strtab : BitVec 64
  syms : BitVec 64
  strings : BitVec 64
  deriving DecidableEq

-- int num = size / 24, as the number of turns of a loop up to it.
def entries (size : BitVec 64) : BitVec 32 := (size / 24).setWidth 32

section Relocate

variable (ksymtab : KernelSymbols) (t : Tables)

-- none: unresolved, or defined in no section of the image.
def symbolValue (m : Memory 64) (sym : BitVec 64) : Option (BitVec 64) :=
  let shndx := stShndx m sym
  if shndx = shnUndef then
    let value := ksymLookup m ksymtab (t.strings + (stName m sym).setWidth 64)
    if value = 0 then none else some value
  else if shndx = shnAbs then some (stValue m sym)
  else if (eShnum m t.ehdr).toNat ≤ shndx.toNat ∨ ¬IsAlloc m (shdr t.shdrs shndx.toNat) then none
  else some (shAddr m (shdr t.shdrs shndx.toNat) + stValue m sym)

-- The switch over the relocation types.
def patch (relType : BitVec 32) (symVal addend place : BitVec 64) (w : Work) : Except Work Work :=
  let store := fun value : BitVec 64 =>
    let w := w.store32 place (value.setWidth 32)
    { w with applied := ⟨relType, symVal, addend, place, w.mem.load32 place⟩ :: w.applied }
  if relType = rX8664None then .ok w
  else if relType = rX866464 then .ok (w.store64 place (symVal + addend))
  else if relType = rX8664Pc32 ∨ relType = rX8664Plt32 then .ok (store (symVal + addend - place))
  else if relType = rX866432 ∨ relType = rX866432s then .ok (store (symVal + addend))
  else .error w

def patchSize (relType : BitVec 32) : BitVec 64 := if relType = rX866464 then 8 else 4

-- One entry of a relocation table. error: load_module gives up.
def relocate (target rela : BitVec 64) (w : Work) : Except Work Work :=
  let m := w.mem
  let symIdx : BitVec 32 := (rInfo m rela >>> 32).setWidth 32
  let relType : BitVec 32 := (rInfo m rela).setWidth 32
  if (entries (shSize m t.symtab)).sle symIdx then .error w
  else
    let sym := t.syms + 24 * symIdx.signExtend 64
    if shSize m t.strtab ≤ (stName m sym).setWidth 64 then .error w
    else
      match symbolValue ksymtab t m sym with
      | none => .error w
      | some symVal =>
          if relType ≠ rX8664None ∧ (rOffset m rela > shSize m target ∨
              patchSize relType > shSize m target - rOffset m rela) then .error w
          else patch relType symVal (rAddend m rela) (shAddr m target + rOffset m rela) w

-- The first n entries of the table at `relas`.
def relocateTable (target relas : BitVec 64) : ℕ → Work → Except Work Work
  | 0, w => .ok w
  | n + 1, w =>
      match relocateTable target relas n w with
      | .error w => .error w
      | .ok w => relocate ksymtab t target (relas + 24 * BitVec.ofNat 64 n) w

-- The body of the loop over the sections.
def relocateSection (fileBuffer fileSize sh : BitVec 64) (w : Work) : Except Work Work :=
  let m := w.mem
  if shType m sh ≠ shtRela then .ok w
  else if (eShnum m t.ehdr).toNat ≤ (shInfo m sh).toNat ∨ !inFile fileSize m sh ∨
      shSize m sh % 24 ≠ 0 then .error w
  else
    let target := shdr t.shdrs (shInfo m sh).toNat
    if ¬IsAlloc m target then .ok w
    else relocateTable ksymtab t target (fileBuffer + shOffset m sh)
      (entries (shSize m sh)).toInt.toNat w

def relocateSections (fileBuffer fileSize : BitVec 64) : ℕ → ℕ → Work → Except Work Work
  | 0, _, w => .ok w
  | fuel + 1, i, w =>
      if i < (eShnum w.mem t.ehdr).toNat then
        match relocateSection ksymtab t fileBuffer fileSize (shdr t.shdrs i) w with
        | .error w => .error w
        | .ok w => relocateSections fileBuffer fileSize fuel (i + 1) w
      else .ok w

end Relocate

-- kernel_module_t: name at 0, memory_base at 64, memory_size at 72, init at 80,
-- cleanup at 88.
def moduleSize : BitVec 64 := 96

def moduleInit : CString :=
  chars [0x6D, 0x6F, 0x64, 0x75, 0x6C, 0x65, 0x5F, 0x69, 0x6E, 0x69, 0x74]

def moduleCleanup : CString :=
  chars [0x6D, 0x6F, 0x64, 0x75, 0x6C, 0x65, 0x5F, 0x63, 0x6C, 0x65, 0x61, 0x6E, 0x75, 0x70]

section Module

variable (t : Tables)

-- The loop that copies the name, from character i on.
def copyName (name mod : BitVec 64) : ℕ → ℕ → Work → Work
  | 0, _, w => w
  | fuel + 1, i, w =>
      if w.mem (name + BitVec.ofNat 64 i) ≠ 0 then
        let w := w.store8 (mod + BitVec.ofNat 64 i) (w.mem (name + BitVec.ofNat 64 i))
        copyName name mod fuel (i + 1) (w.store8 (mod + BitVec.ofNat 64 (i + 1)) 0)
      else w

-- The fields of the record, with no functions yet.
def recordModule (name mod moduleMemory total : BitVec 64) (w : Work) : Work :=
  let w := copyName name mod 63 0 w
  let w := w.store64 (mod + 64) moduleMemory
  let w := w.store64 (mod + 72) total
  let w := w.store64 (mod + 80) 0
  w.store64 (mod + 88) 0

-- Symbol number i in the search for module_init and module_cleanup.
def scanSymbol (mod : BitVec 64) (i : ℕ) (w : Work) : Work :=
  let m := w.mem
  let sym := t.syms + 24 * BitVec.ofNat 64 i
  let shndx := stShndx m sym
  if shndx = shnUndef ∨ shndx = shnAbs ∨ (eShnum m t.ehdr).toNat ≤ shndx.toNat then w
  else
    let symName := t.strings + (stName m sym).setWidth 64
    let value := shAddr m (shdr t.shdrs shndx.toNat) + stValue m sym
    if matchesAt m moduleInit symName then w.store64 (mod + 80) value
    else if matchesAt m moduleCleanup symName then w.store64 (mod + 88) value
    else w

-- The first n symbols.
def scanSymbols (mod : BitVec 64) : ℕ → Work → Work
  | 0, w => w
  | n + 1, w => scanSymbol t mod n (scanSymbols mod n w)

def fillModule (name mod moduleMemory total : BitVec 64) (w : Work) : Work :=
  let w := recordModule name mod moduleMemory total w
  scanSymbols t mod (entries (shSize w.mem t.symtab)).toInt.toNat w

end Module

-- load_module up to the call of module_init: it has given up and returns NULL, or this
-- is what is left. The memory is that of `system`; `work` is for the proofs.
inductive Prepared where
  | failed (system : Heap.System) (work : Work)
  | ready (mod moduleMemory total : BitVec 64) (system : Heap.System) (work : Work)

section Load

variable (ksymtab : KernelSymbols) (name fileBuffer fileSize : BitVec 64)

-- none: a call does not return.
def giveUp (moduleMemory : BitVec 64) (system : Heap.System) (w : Work) : Option Prepared :=
  match (system.setMem w.mem).kfree moduleMemory with
  | none => none
  | some system => some (.failed system w)

-- The symbol table and its string table. none: one is missing or invalid.
def findTables (m : Memory 64) (ehdr shdrs : BitVec 64) : Option Tables :=
  match findSymtab ehdr shdrs m (2 ^ 16) 0 with
  | none => none
  | some symtab =>
      if (eShnum m ehdr).toNat ≤ (shLink m symtab).toNat ∨ !inFile fileSize m symtab then none
      else
        let strtab := shdr shdrs (shLink m symtab).toNat
        if shType m strtab ≠ shtStrtab ∨ !inFile fileSize m strtab then none
        else some ⟨ehdr, shdrs, symtab, strtab, fileBuffer + shOffset m symtab,
          fileBuffer + shOffset m strtab⟩

-- What follows the second pass.
def linkModule (shdrs moduleMemory total : BitVec 64) (system : Heap.System) (w : Work) :
    Option Prepared :=
  match findTables fileBuffer fileSize w.mem fileBuffer shdrs with
  | none => giveUp moduleMemory system w
  | some t =>
      match relocateSections ksymtab t fileBuffer fileSize (2 ^ 16) 0 w with
      | .error w => giveUp moduleMemory system w
      | .ok w =>
          match (system.setMem w.mem).kmalloc moduleSize with
          | none => none
          | some (mod, system) =>
              if mod = 0 then giveUp moduleMemory system { w with mem := system.mem }
              else
                let w := fillModule t name mod moduleMemory total { w with mem := system.mem }
                some (.ready mod moduleMemory total (system.setMem w.mem) w)

def prepareModule (system : Heap.System) : Option Prepared :=
  let m := system.mem
  if name = 0 ∨ fileBuffer = 0 then some (.failed system ⟨m, [], [], []⟩)
  else if !elfValidate m fileBuffer fileSize then some (.failed system ⟨m, [], [], []⟩)
  else
    let shdrs := fileBuffer + eShoff m fileBuffer
    match totalMemorySize fileBuffer shdrs fileSize m (2 ^ 16) 0 0 with
    | none => some (.failed system ⟨m, [], [], []⟩)
    | some total =>
        match system.kmalloc total with
        | none => none
        | some (moduleMemory, system) =>
            if moduleMemory = 0 then some (.failed system ⟨system.mem, [], [], []⟩)
            else linkModule ksymtab name fileBuffer fileSize shdrs moduleMemory total system
              (placeSections fileBuffer shdrs fileBuffer moduleMemory (2 ^ 16) 0 0
                ⟨system.mem, [], [], []⟩).2

-- What load_module returns and leaves, with the functions of the module that it has
-- called.
structure Loaded where
  mod : BitVec 64
  system : Heap.System
  called : List (BitVec 64)

-- `call` is what a function of the module does to the machine, none if it does not
-- return.
def loadModule (call : BitVec 64 → Heap.System → Option Heap.System) (system : Heap.System) :
    Option Loaded :=
  match prepareModule ksymtab name fileBuffer fileSize system with
  | none => none
  | some (.failed system _) => some ⟨0, system, []⟩
  | some (.ready mod _ _ system _) =>
      let init := system.mem.load64 (mod + 80)
      if init = 0 then some ⟨mod, system, []⟩
      else
        match call init system with
        | none => none
        | some system => some ⟨mod, system, [init]⟩

end Load

end Miyabi.Modules
