import AlienOS.Lib.Memory

/-!
# Kmalloc — `src/kernel/kmalloc.c`

The allocator over a byte memory with 32-bit arithmetic.  Block headers live inside that memory, so
every access to a header is a read or a write of a word at an offset from the block's address.
-/

open AlienOS.Lib

namespace AlienOS

/-- How a call can fail to return: `kernel_panic` halts the CPU with its message, and a pointer
walk that visits more nodes than there are addresses never ends. -/
inductive Halt where
  | panic (message : String)
  | spin
  deriving DecidableEq, Repr

def kernelAssert (cond : Bool) (message : String) : Except Halt Unit :=
  if cond then .ok () else .error (.panic message)

theorem kernelAssert_eq_ok {cond : Bool} {message : String} {u : Unit} :
    kernelAssert cond message = .ok u ↔ cond = true := by
  unfold kernelAssert
  cases cond <;> simp

/-- A walk over pointers that has not stopped after this many steps has seen a pointer twice. -/
def walkLimit : Nat := 2 ^ 32

namespace Heap

def KMALLOC_PAGESIZE : Word := 4096
def KMALLOC_ALIGNMENT : Word := 16
def KMALLOC_HEAP_INIT_SIZE : Word := 4 * KMALLOC_PAGESIZE
def KMALLOC_MAX_INTERNAL_FRAG : Word := 16
def KMALLOC_ALLOC_BIT : Word := 0b0001
def KMALLOC_MAGIC : Word := 0xF00BA700

/-- `KMALLOC_ALIGN (x, align)`, every step modulo `2 ^ 32`. -/
def kmallocAlign (x align : Word) : Word := ((x + align - 1) / align) * align

/-- `sizeof (km_block_header_t)` -/
def sizeofKmBlockHeader : Word := 16

structure KMStats where
  allocationCnt : Word
  allocationBytes : Word
  freeCnt : Word
  freeBytes : Word
  deriving DecidableEq, Repr

/-- The memory and the static variables of `kmalloc.c`. -/
structure State where
  mem : Memory
  kheapBegin : Word
  kheapEnd : Word
  kheapMaxEnd : Word
  freeList : Word
  kmallocStats : KMStats
  init : Bool

def NULL : Word := 0

/-! ## Block headers -/

def kmMetadata (mem : Memory) (block : Word) : Word := readWord mem block

/-- `block->next` -/
def kmNext (mem : Memory) (block : Word) : Word := readWord mem (block + 4)

def kmSetnext (mem : Memory) (block next : Word) : Memory := writeWord mem (block + 4) next

def kmGetsize (mem : Memory) (block : Word) : Word := kmMetadata mem block &&& ~~~(0b1111 : Word)

def kmSetsize (mem : Memory) (block size : Word) : Memory :=
  writeWord mem block ((kmMetadata mem block &&& 0b1111) ||| size)

def kmIsalloc (mem : Memory) (block : Word) : Bool :=
  kmMetadata mem block &&& KMALLOC_ALLOC_BIT != 0

def kmSetalloc (mem : Memory) (block : Word) : Memory :=
  writeWord mem block ((kmMetadata mem block &&& ~~~KMALLOC_ALLOC_BIT) ||| KMALLOC_ALLOC_BIT)

def kmClearalloc (mem : Memory) (block : Word) : Memory :=
  writeWord mem block (kmMetadata mem block &&& ~~~KMALLOC_ALLOC_BIT)

def kmCheckmagic (mem : Memory) (block : Word) : Bool := readWord mem (block + 8) == KMALLOC_MAGIC

def kmSetmagic (mem : Memory) (block : Word) : Memory := writeWord mem (block + 8) KMALLOC_MAGIC

def kmInitblock (mem : Memory) (block size : Word) : Memory :=
  kmSetmagic (kmClearalloc (kmSetsize mem block size) block) block

/-! ## The free list -/

def kmCoalesce (mem : Memory) (block : Word) : Memory :=
  if kmNext mem block ≠ NULL ∧ block + kmGetsize mem block = kmNext mem block then
    let mem := kmSetsize mem block (kmGetsize mem block + kmGetsize mem (kmNext mem block))
    kmSetnext mem block (kmNext mem (kmNext mem block))
  else mem

/-- The `while` loop of `km_insert`: the last `prev` and `next`. -/
def kmInsertWalk (mem : Memory) (block : Word) : Nat → Word → Word → Except Halt (Word × Word)
  | 0, _, _ => .error .spin
  | fuel + 1, prev, next =>
    if next ≠ NULL ∧ next < block then kmInsertWalk mem block fuel next (kmNext mem next)
    else .ok (prev, next)

def kmInsert (block : Word) (s : State) : Except Halt State :=
  if block = NULL then .ok s
  else if s.freeList = NULL ∨ block < s.freeList then
    let mem := kmSetnext s.mem block s.freeList
    .ok { s with mem := kmCoalesce mem block, freeList := block }
  else do
    let (prev, next) ← kmInsertWalk s.mem block walkLimit s.freeList (kmNext s.mem s.freeList)
    kernelAssert (kmNext s.mem prev == next) "km_insert(): mismatch prev/next (%x,%x)"
    kernelAssert (prev + kmGetsize s.mem prev ≤ block)
      "km_insert(): prev is not before block (%x,%x)"
    kernelAssert (next == NULL || block + kmGetsize s.mem block ≤ next)
      "km_insert(): next is not after block (%x,%x)"
    let mem := kmSetnext s.mem block next
    let mem := kmSetnext mem prev block
    let mem := kmCoalesce mem block
    .ok { s with mem := kmCoalesce mem prev }

def kmExtend (size : Word) (s : State) : Except Halt (Word × State) :=
  let blockSize := kmallocAlign size KMALLOC_PAGESIZE
  let block := s.kheapEnd
  let kheapEnd := s.kheapEnd + blockSize
  if kheapEnd > s.kheapMaxEnd then .error (.panic "km_extend(): out of memory")
  else .ok (block, { s with mem := kmInitblock s.mem block blockSize, kheapEnd := kheapEnd })

/-- The `while` loop of `km_find`: the last `prev` and `cur`. -/
def kmFindWalk (mem : Memory) (size : Word) : Nat → Word → Word → Except Halt (Word × Word)
  | 0, _, _ => .error .spin
  | fuel + 1, prev, cur =>
    if cur ≠ NULL ∧ kmGetsize mem cur < size then kmFindWalk mem size fuel cur (kmNext mem cur)
    else .ok (prev, cur)

def kmFind (size : Word) (s : State) : Except Halt (Word × State) := do
  let (prev, cur) ← kmFindWalk s.mem size walkLimit NULL s.freeList
  if cur = NULL then kmExtend size s
  else if prev = NULL then
    .ok (cur, { s with freeList := kmNext s.mem cur, mem := kmSetnext s.mem cur NULL })
  else
    let mem := kmSetnext s.mem prev (kmNext s.mem cur)
    .ok (cur, { s with mem := kmSetnext mem cur NULL })

def kmSplit (block size : Word) (s : State) : Except Halt (Word × State) :=
  if kmGetsize s.mem block < size + KMALLOC_MAX_INTERNAL_FRAG then .ok (block, s)
  else do
    let splitBlock := block + size
    let s := { s with mem := kmInitblock s.mem splitBlock (kmGetsize s.mem block - size) }
    let s ← kmInsert splitBlock s
    .ok (block, { s with mem := kmSetsize s.mem block size })

/-! ## Allocation and release -/

def kmallocUnsafe (size : Word) (s : State) : Except Halt (Word × State) := do
  let targetSize := kmallocAlign (size + sizeofKmBlockHeader) KMALLOC_ALIGNMENT
  let (block, s) ← kmFind targetSize s
  if block = NULL then .ok (NULL, s)
  else
    let (block, s) ← kmSplit block targetSize s
    let mem := kmSetalloc s.mem block
    .ok (block + sizeofKmBlockHeader, { s with
      mem := mem
      kmallocStats := { s.kmallocStats with
        allocationCnt := s.kmallocStats.allocationCnt + 1
        allocationBytes := s.kmallocStats.allocationBytes + kmGetsize mem block } })

/-- The first `n` rounds of the zeroing loop of `_kcalloc_unsafe`. -/
def kcallocZero (mem : Memory) (ptr : Word) : Nat → Memory
  | 0 => mem
  | n + 1 => writeByte (kcallocZero mem ptr n) (ptr + BitVec.ofNat 32 n) 0

def kcallocUnsafe (nelems elemsize : Word) (s : State) : Except Halt (Word × State) := do
  let bytes := nelems * elemsize
  let (ptr, s) ← kmallocUnsafe bytes s
  .ok (ptr, { s with mem := kcallocZero s.mem ptr bytes.toNat })

def kfreeUnsafe (ptr : Word) (s : State) : Except Halt State :=
  if ptr = NULL then .ok s
  else do
    let block := ptr - sizeofKmBlockHeader
    kernelAssert (kmCheckmagic s.mem block) "kfree() - Bad pointer."
    kernelAssert (kmIsalloc s.mem block) "kfree() - Unallocated memory."
    let stats := { s.kmallocStats with
      freeBytes := s.kmallocStats.freeBytes + kmGetsize s.mem block
      freeCnt := s.kmallocStats.freeCnt + 1 }
    kmInsert block { s with kmallocStats := stats, mem := kmClearalloc s.mem block }

/-- The walk of `_krealloc_unsafe` to the block whose successor is `nextBlock`. -/
def kreallocWalk (mem : Memory) (nextBlock : Word) : Nat → Word → Except Halt Word
  | 0, _ => .error .spin
  | fuel + 1, cur =>
    if cur ≠ NULL ∧ kmNext mem cur ≠ nextBlock then
      kreallocWalk mem nextBlock fuel (kmNext mem cur)
    else .ok cur

/-- The copying loop of `_krealloc_unsafe`, which reads the old block's size in every round. -/
def kreallocCopy (newPtr ptr block : Word) : Nat → Word → Memory → Except Halt Memory
  | 0, _, _ => .error .spin
  | fuel + 1, i, mem =>
    if i < kmGetsize mem block - sizeofKmBlockHeader then
      kreallocCopy newPtr ptr block fuel (i + 1) (writeByte mem (newPtr + i) (mem.byte (ptr + i)))
    else .ok mem

/-- Unlink `nextBlock` from the free list, as `_krealloc_unsafe` does before it absorbs it. -/
def kreallocUnlink (nextBlock : Word) (s : State) : Except Halt State :=
  if s.freeList = nextBlock then .ok { s with freeList := kmNext s.mem nextBlock }
  else do
    let cur ← kreallocWalk s.mem nextBlock walkLimit s.freeList
    kernelAssert (cur != NULL) "krealloc() - Next block is unallocated but not in free list."
    .ok { s with mem := kmSetnext s.mem cur (kmNext s.mem nextBlock) }

def kreallocUnsafe (ptr size : Word) (s : State) : Except Halt (Word × State) :=
  if ptr = NULL then kmallocUnsafe size s
  else if size = 0 then do
    let s ← kfreeUnsafe ptr s
    .ok (NULL, s)
  else do
    let targetSize := kmallocAlign (size + sizeofKmBlockHeader) KMALLOC_ALIGNMENT
    let block := ptr - sizeofKmBlockHeader
    kernelAssert (kmCheckmagic s.mem block) "krealloc() - Bad pointer."
    kernelAssert (kmIsalloc s.mem block) "krealloc() - Unallocated memory."
    if kmGetsize s.mem block ≥ targetSize then
      let (newBlock, s) ← kmSplit block targetSize s
      .ok (newBlock + sizeofKmBlockHeader, s)
    else
      let nextBlock := block + kmGetsize s.mem block
      if nextBlock < s.kheapEnd ∧ kmIsalloc s.mem nextBlock = false ∧
          kmGetsize s.mem block + kmGetsize s.mem nextBlock ≥ targetSize then
        kernelAssert (kmCheckmagic s.mem nextBlock) "krealloc() - Next block corrupted."
        let s ← kreallocUnlink nextBlock s
        let s := { s with
          mem := kmSetsize s.mem block (kmGetsize s.mem block + kmGetsize s.mem nextBlock) }
        let (_, s) ← kmSplit block targetSize s
        .ok (block + sizeofKmBlockHeader, s)
      else
        let (newPtr, s) ← kmallocUnsafe size s
        if newPtr = NULL then .ok (NULL, s)
        else
          let mem ← kreallocCopy newPtr ptr block walkLimit 0 s.mem
          let s ← kfreeUnsafe ptr { s with mem := mem }
          .ok (newPtr, s)

/-! ## Initialisation -/

/-- The fields of `multiboot_info_t` that `kmalloc.c` reads. -/
structure MultibootInfo where
  flags : Word
  mmapLength : Word
  mmapAddr : Word

def MULTIBOOT_INFO_MEM_MAP : Word := 0x00000040
def MULTIBOOT_MEMORY_AVAILABLE : Word := 1

/-- The loop over the memory map: the end of the first available region that holds `kernel_end`,
or nothing when no entry is left.  An entry is `size` (4 bytes), `addr` (8), `len` (8), `type` (4),
and only the low words of `addr` and `len` are used. -/
def mmapWalk (mem : Memory) (mbinfo : MultibootInfo) (kernelEnd : Word) :
    Nat → Word → Except Halt (Option Word)
  | 0, _ => .error .spin
  | fuel + 1, mmap =>
    if mmap < mbinfo.mmapAddr + mbinfo.mmapLength then
      let start := readWord mem (mmap + 4)
      let stop := start + readWord mem (mmap + 12)
      if readWord mem (mmap + 20) = MULTIBOOT_MEMORY_AVAILABLE ∧ start ≤ kernelEnd ∧
          stop > kernelEnd then .ok (some stop)
      else mmapWalk mem mbinfo kernelEnd fuel (mmap + readWord mem mmap + 4)
    else .ok none

def internalReadMultibootinfo (mbinfo : MultibootInfo) (kernelEnd : Word) (s : State) :
    Except Halt State := do
  kernelAssert (mbinfo.flags &&& MULTIBOOT_INFO_MEM_MAP != 0) "kmalloc_init(): mmap unavailable"
  match ← mmapWalk s.mem mbinfo kernelEnd walkLimit mbinfo.mmapAddr with
  | some stop => .ok { s with kheapMaxEnd := stop }
  | none => .error (.panic "kmalloc_init(): failed to find valid memory block")

def kmallocInit (mbinfo : MultibootInfo) (kernelEnd : Word) (interruptIsEnabled : Bool)
    (s : State) : Except Halt State := do
  kernelAssert (!interruptIsEnabled) "kmalloc_init(): interrupts are enabled"
  kernelAssert (sizeofKmBlockHeader == 16) "kmalloc_init(): km_block_header_t is not 16 bytes"
  kernelAssert (!s.init) "kmalloc_init(): already initialized"
  let s ← internalReadMultibootinfo mbinfo kernelEnd { s with init := true }
  let kheapBegin := kmallocAlign kernelEnd KMALLOC_PAGESIZE
  let s := { s with kheapBegin := kheapBegin, kheapEnd := kheapBegin }
  let (block, s) ← kmExtend KMALLOC_HEAP_INIT_SIZE s
  kmInsert block s

end Heap
end AlienOS
