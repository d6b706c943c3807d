import AlienOS.Heap.Kmalloc
import AlienOS.Lib.Except

/-!
# Panic — the heap that a panic leaves behind

`_kfree_unsafe` and `_krealloc_unsafe` once more, statement by statement, with the heap as it is
when an assertion of theirs fails.
-/

open AlienOS.Lib

namespace AlienOS.Heap

/-- A run of heap code that keeps the heap when the kernel panics, where `Except` forgets it. -/
abbrev HeapM := EStateM Halt State

/-- What `Except` keeps of it. -/
def forgetHeap {α : Type} : EStateM.Result Halt State α → Except Halt (α × State)
  | .ok a s => .ok (a, s)
  | .error e _ => .error e

/-- A function that is called; a panic inside of it is given the heap of the call. -/
def callM {α : Type} (f : State → Except Halt (α × State)) : HeapM α := fun s ↦
  match f s with
  | .ok (a, s') => .ok a s'
  | .error e => .error e s

def assertM (cond : Memory → Bool) (message : String) : HeapM Unit :=
  callM fun s ↦ (kernelAssert (cond s.mem) message).map fun _ ↦ ((), s)

/-- As `callM` for a function without a result. -/
def procM (f : State → Except Halt State) : HeapM Unit :=
  callM fun s ↦ (f s).map fun s' ↦ ((), s')

/-- `_kfree_unsafe`, statement by statement. -/
def kfreeUnsafeM (ptr : Word) : HeapM Unit :=
  if ptr = NULL then pure ()
  else do
    let block := ptr - sizeofKmBlockHeader
    assertM (kmCheckmagic · block) "kfree() - Bad pointer."
    assertM (kmIsalloc · block) "kfree() - Unallocated memory."
    modify fun s ↦ { s with kmallocStats := { s.kmallocStats with
      freeBytes := s.kmallocStats.freeBytes + kmGetsize s.mem block } }
    modify fun s ↦ { s with kmallocStats := { s.kmallocStats with
      freeCnt := s.kmallocStats.freeCnt + 1 } }
    modify fun s ↦ { s with mem := kmClearalloc s.mem block }
    procM (kmInsert block)

/-- `_krealloc_unsafe`, statement by statement. -/
def kreallocUnsafeM (ptr size : Word) : HeapM Word :=
  if ptr = NULL then callM (kmallocUnsafe size)
  else if size = 0 then do
    kfreeUnsafeM ptr
    pure NULL
  else do
    let targetSize := kmallocAlign (size + sizeofKmBlockHeader) KMALLOC_ALIGNMENT
    let block := ptr - sizeofKmBlockHeader
    assertM (kmCheckmagic · block) "krealloc() - Bad pointer."
    assertM (kmIsalloc · block) "krealloc() - Unallocated memory."
    let s ← get
    if kmGetsize s.mem block ≥ targetSize then do
      let newBlock ← callM (kmSplit block targetSize)
      pure (newBlock + sizeofKmBlockHeader)
    else
      let nextBlock := block + kmGetsize s.mem block
      if nextBlock < s.kheapEnd ∧ kmIsalloc s.mem nextBlock = false ∧
          kmGetsize s.mem block + kmGetsize s.mem nextBlock ≥ targetSize then do
        assertM (kmCheckmagic · nextBlock) "krealloc() - Next block corrupted."
        procM (kreallocUnlink nextBlock)
        modify fun s ↦ { s with
          mem := kmSetsize s.mem block (kmGetsize s.mem block + kmGetsize s.mem nextBlock) }
        let _ ← callM (kmSplit block targetSize)
        pure (block + sizeofKmBlockHeader)
      else do
        let newPtr ← callM (kmallocUnsafe size)
        if newPtr = NULL then pure NULL
        else do
          procM fun s ↦ do
            let mem ← kreallocCopy newPtr ptr block walkLimit 0 s.mem
            .ok { s with mem := mem }
          kfreeUnsafeM ptr
          pure newPtr

/-! ## Back to `Except` -/

section

variable {α β : Type} {s : State}

@[simp] theorem forgetHeap_bind (x : HeapM α) (f : α → HeapM β) :
    forgetHeap ((x >>= f) s) = (forgetHeap (x s) >>= fun r ↦ forgetHeap (f r.1 r.2)) := by
  change forgetHeap (EStateM.bind x f s) = _
  unfold EStateM.bind
  cases x s <;> rfl

@[simp] theorem forgetHeap_pure (a : α) : forgetHeap ((pure a : HeapM α) s) = .ok (a, s) := rfl

@[simp] theorem forgetHeap_get : forgetHeap ((get : HeapM State) s) = .ok (s, s) := rfl

@[simp] theorem forgetHeap_modify (f : State → State) :
    forgetHeap ((modify f : HeapM PUnit) s) = .ok (⟨⟩, f s) := rfl

@[simp] theorem forgetHeap_callM (f : State → Except Halt (α × State)) :
    forgetHeap (callM f s) = f s := by
  unfold callM
  cases f s <;> rfl

@[simp] theorem forgetHeap_assertM (cond : Memory → Bool) (message : String) :
    forgetHeap (assertM cond message s) =
      (kernelAssert (cond s.mem) message).map fun _ ↦ ((), s) := by
  unfold assertM
  rw [forgetHeap_callM]

@[simp] theorem forgetHeap_procM (f : State → Except Halt State) :
    forgetHeap (procM f s) = (f s).map fun s' ↦ ((), s') := by
  unfold procM
  rw [forgetHeap_callM]

theorem assertM_eq (cond : Memory → Bool) (message : String) :
    assertM cond message s = if cond s.mem then .ok () s else .error (.panic message) s := by
  unfold assertM callM kernelAssert
  dsimp only
  cases cond s.mem with
  | false => rfl
  | true => rfl

theorem assertM_bind_of_false {cond : Memory → Bool} (message : String) (f : Unit → HeapM α)
    (h : cond s.mem = false) : (assertM cond message >>= f) s = .error (.panic message) s := by
  change EStateM.bind _ _ s = _
  unfold EStateM.bind
  rw [assertM_eq, h]
  rfl

theorem assertM_bind_of_true {cond : Memory → Bool} (message : String) (f : Unit → HeapM α)
    (h : cond s.mem = true) : (assertM cond message >>= f) s = f () s := by
  change EStateM.bind _ _ s = _
  unfold EStateM.bind
  rw [assertM_eq, h]
  rfl

/-- With the heap at a panic forgotten, these are the functions of `Kmalloc`. -/
theorem forgetHeap_kfreeUnsafeM (ptr : Word) :
    forgetHeap (kfreeUnsafeM ptr s) = (kfreeUnsafe ptr s).map fun s' ↦ ((), s') := by
  unfold kfreeUnsafeM kfreeUnsafe
  split
  · rfl
  · simp only [forgetHeap_bind, forgetHeap_assertM, forgetHeap_modify, forgetHeap_procM,
      map_bind, ok_bind]
    generalize kernelAssert (kmCheckmagic s.mem (ptr - sizeofKmBlockHeader)) _ = magic
    generalize kernelAssert (kmIsalloc s.mem (ptr - sizeofKmBlockHeader)) _ = alloc
    cases magic with
    | error e => rfl
    | ok _ => cases alloc <;> rfl

theorem forgetHeap_kreallocUnsafeM (ptr size : Word) :
    forgetHeap (kreallocUnsafeM ptr size s) = kreallocUnsafe ptr size s := by
  unfold kreallocUnsafeM kreallocUnsafe
  split
  · exact forgetHeap_callM _
  · split
    · simp only [forgetHeap_bind, forgetHeap_kfreeUnsafeM, map_bind, forgetHeap_pure]
    · simp only [forgetHeap_bind, forgetHeap_assertM, forgetHeap_get, map_bind, ok_bind]
      refine bind_congr fun _ ↦ bind_congr fun _ ↦ ?_
      split
      · simp only [forgetHeap_bind, forgetHeap_callM, forgetHeap_pure]
      · split
        · simp only [forgetHeap_bind, forgetHeap_assertM, forgetHeap_procM, forgetHeap_modify,
            forgetHeap_callM, forgetHeap_pure, map_bind, ok_bind]
        · simp only [forgetHeap_bind, forgetHeap_callM]
          refine bind_congr fun r ↦ ?_
          split
          · rfl
          · simp only [forgetHeap_bind, forgetHeap_procM, forgetHeap_kfreeUnsafeM, forgetHeap_pure,
              map_bind]
            cases kreallocCopy r.1 ptr (ptr - sizeofKmBlockHeader) walkLimit 0 r.2.mem <;> rfl

end

end AlienOS.Heap
