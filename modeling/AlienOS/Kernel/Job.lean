import AlienOS.Kernel.Handler
import AlienOS.Kernel.Mutex

/-!
# Job — what a thread may have on its stack when threads come and go

A heap operation goes from the acquire of `free_list_lock` to its release, and `thread_create_arg`
runs to its end.
-/

open AlienOS.Lib

namespace AlienOS.Kernel

/-- Inside a heap operation. -/
def Op.InHeap : Op → Bool
  | .mutexAcquired .freeListLock _ | .heapStart | .heapEnd _ | .mutexRelease .freeListLock => true
  | _ => false

/-- Inside `thread_list_add`, on behalf of `thread_create_arg`. -/
def Op.InInsert : Op → Bool
  | .addNodeNext _ _ | .addNodePrev _ _ | .addHead _ _ => true
  | _ => false

/-- What comes next is not in the middle of either. -/
def Closed (ops : List Op) : Prop :=
  ∀ op ∈ ops.head?, op.InHeap = false ∧ op.InInsert = false

/-- The thread that a statement of `thread_create_arg` is about. -/
def Op.node : Op → Option Tid
  | .internalThreadInit x | .addHeadPrev _ x | .addNodeNext _ x | .addNodePrev _ x
  | .addHead _ x => some x
  | _ => none

/-- The operations that can stand before any other. -/
def Op.IsPlain (op : Op) : Bool :=
  op.IsCalm && !op.Uses .freeListLock && op != .sleepStatus && op != .heapStart && op != .heapEnd none

/-- What comes after an operation on the heap. -/
inductive Op.HeapFits : Op → List Op → Prop where
  | acquire (rest : List Op) : HeapFits (.mutexAcquire .freeListLock) (.heapStart :: rest)
  | acquired (enabled : Bool) (rest : List Op) :
    HeapFits (.mutexAcquired .freeListLock enabled) (.heapStart :: rest)
  | start (freed : Option Tid) (rest : List Op) : HeapFits .heapStart (.heapEnd freed :: rest)
  | finish (freed : Option Tid) (rest : List Op) :
    HeapFits (.heapEnd freed) (.mutexRelease .freeListLock :: rest)
  | release {rest : List Op} (hc : Closed rest) : HeapFits (.mutexRelease .freeListLock) rest

/-- What comes after an operation on the stack of a thread. -/
inductive Op.Fits : Op → List Op → Prop where
  | plain {op : Op} {rest : List Op} (hp : op.IsPlain) (hc : Closed rest) : Fits op rest
  | sleep (rest : List Op) : Fits .sleepStatus (.threadYield :: rest)
  | heap {op : Op} {rest : List Op} (h : op.HeapFits rest) (hn : ∀ t, op ≠ .heapEnd (some t)) :
    Fits op rest
  | exit : Fits .threadExit []
  | alloc : Fits .threadAlloc []
  | make {op : Op} {rest : List Op} {x : Tid} (hx : op.node = some x)
    (h : op :: rest <:+ threadInsertOps x) : Fits op rest

structure Job (idle t : Tid) (ops : List Op) : Prop where
  fits : ∀ {op rest}, op :: rest <:+ ops → op.Fits rest
  idles : t = idle → ∀ op ∈ ops, op.IsIdle

/-! ## Its parts -/

section

variable {idle t x : Tid} {op o : Op} {ops rest : List Op}

theorem Closed.nil : Closed [] := fun _ h ↦ by cases h

theorem Closed.cons (h₁ : op.InHeap = false) (h₂ : op.InInsert = false) : Closed (op :: ops) := by
  intro o ho
  cases ho
  exact ⟨h₁, h₂⟩

theorem Closed.of_skip (h : op.IsSkip) : Closed (op :: ops) := by
  cases op <;> first | exact .cons rfl rfl | cases h

/-- Interrupt handling on top hides nothing. -/
theorem Closed.of_strip (h : ∀ op ∈ (strip ops).head?, op.InHeap = false ∧ op.InInsert = false) :
    Closed ops := by
  cases ops with
  | nil => exact .nil
  | cons op ops =>
    by_cases hop : op.IsSkip = true
    · exact .of_skip hop
    · rwa [strip_of_not_skip (by simpa using hop)] at h

theorem plain_calm (h : op.IsPlain) : op.IsCalm := by
  simp only [Op.IsPlain, Bool.and_eq_true] at h
  exact h.1.1.1.1

theorem plain_not_uses (h : op.IsPlain) : op.Uses .freeListLock = false := by
  simp only [Op.IsPlain, Bool.and_eq_true, Bool.not_eq_true'] at h
  exact h.1.1.1.2

theorem plain_not_sleep (h : op.IsPlain) : op ≠ .sleepStatus := by
  simp only [Op.IsPlain, Bool.and_eq_true, bne_iff_ne] at h
  exact h.1.1.2

theorem plain_closed (h : op.IsPlain) : Closed (op :: ops) := by
  have hc := plain_calm h
  have hu := plain_not_uses h
  cases op with
  | mutexAcquired m b =>
    cases m <;> first | exact .cons rfl rfl | cases hu
  | mutexRelease m =>
    cases m <;> first | exact .cons rfl rfl | cases hu
  | heapStart => cases h
  | heapEnd freed => cases freed <;> cases h
  | _ => first | exact .cons rfl rfl | cases hc

theorem calm_node (h : op.IsCalm) : op.node = none := by
  cases op <;> first | rfl | cases h

namespace Job

theorem nil : Job idle t [] := ⟨fun h ↦ by simp at h, by simp⟩

theorem tail (h : Job idle t (op :: ops)) : Job idle t ops :=
  ⟨fun hs ↦ h.fits (hs.trans (List.suffix_cons op ops)),
    fun ht p hp ↦ h.idles ht p (List.mem_cons_of_mem _ hp)⟩

theorem head (h : Job idle t (op :: ops)) : op.Fits ops := h.fits List.suffix_rfl

theorem cons (h : Job idle t ops) (op : Op) (hf : op.Fits ops) (hi : t ≠ idle ∨ op.IsIdle) :
    Job idle t (op :: ops) := by
  refine ⟨fun hs ↦ ?_, fun ht p hp ↦ ?_⟩
  · rcases List.suffix_cons_iff.mp hs with he | hs
    · cases he
      exact hf
    · exact h.fits hs
  · rcases List.mem_cons.mp hp with rfl | hp
    · exact hi.resolve_left fun hn ↦ hn ht
    · exact h.idles ht p hp

theorem plain (h : Job idle t ops) (hc : Closed ops) (op : Op) (hp : op.IsPlain)
    (hi : t ≠ idle ∨ op.IsIdle) : Job idle t (op :: ops) := h.cons op (.plain hp hc) hi

end Job

/-- A thread other than the idle thread may have anything that fits. -/
theorem Job.of_fits (ht : t ≠ idle) (h : ∀ op rest, op :: rest <:+ ops → op.Fits rest) :
    Job idle t ops := ⟨fun hs ↦ h _ _ hs, fun he ↦ absurd he ht⟩

/-! ## What the operations push -/

/-- What a plain operation leaves has whatever every plain operation can be put on top of; the idle
thread has only its own. -/
theorem leaves_plain {P : List Op → Prop} {I : Prop} (s : State) (hp : op.IsPlain) (hc : Closed ops)
    (hi : I ∨ op.IsIdle)
    (hcons : ∀ {o : Op} {os : List Op}, P os → Closed os → o.IsPlain → I ∨ o.IsIdle → P (o :: os))
    (h : P ops) : P (s.leaves op ++ ops) := by
  have hu := plain_not_uses hp
  have hyield : ∀ {os : List Op} (b : Bool), P os → Closed os →
      P (.threadYield :: .interruptRestore b :: os) := fun b hos hcl ↦
    hcons (hcons hos hcl (o := .interruptRestore b) rfl (.inr rfl)) (.of_skip rfl) rfl (.inr rfl)
  cases op with
  | semaphoreDown sem =>
    simp only [State.leaves]
    split
    · exact hyield _ h hc
    · exact h
  | mutexAcquire mutex =>
    have hi : I := hi.resolve_right (by simp [Op.IsIdle])
    have hm : (Op.mutexAcquired mutex s.interrupts).IsPlain := by
      cases mutex <;> first | rfl | cases hu
    simp only [State.leaves]
    split
    · exact h
    · have hacq := hcons h hc hm (.inl hi)
      split
      · exact hyield _ hacq (plain_closed hm)
      · exact hacq
  | tryTest mutex =>
    have hi : I := hi.resolve_right (by simp [Op.IsIdle])
    apply hcons h hc
    · split <;> cases mutex <;> first | rfl | cases hu
    · exact .inl hi
  | tryDown mutex =>
    have hi : I := hi.resolve_right (by simp [Op.IsIdle])
    have hm : (Op.trySetCount mutex).IsPlain := by
      cases mutex <;> first | rfl | cases hu
    have hm' : (Op.trySetHolder mutex).IsPlain := by
      cases mutex <;> first | rfl | cases hu
    simp only [State.leaves]
    split
    · exact hcons (hcons h hc hm (.inl hi)) (plain_closed hm) hm' (.inl hi)
    · exact h
  | condvarWait cond mutex =>
    have hi : I := hi.resolve_right (by simp [Op.IsIdle])
    have hm : (Op.mutexAcquire mutex).IsPlain := by
      cases mutex <;> first | rfl | cases hu
    have hreturn := hcons h hc (o := .condvarReturn cond mutex) rfl (.inl hi)
    exact hyield _ (hcons hreturn (.cons rfl rfl) hm (.inl hi)) (plain_closed hm)
  | cpuIdleLoop =>
    have hloop := hcons h hc (o := .cpuIdleLoop) rfl (.inr rfl)
    have hyield := hcons hloop (.cons rfl rfl) (o := .threadYield) rfl (.inr rfl)
    have hcli := hcons hyield (.of_skip rfl) (o := .interruptRestore false) rfl (.inr rfl)
    exact hcons hcli (.of_skip rfl) rfl (.inr rfl)
  | _ => exact h

/-- What a plain operation leaves to its thread is again a job. -/
theorem Job.leaves (h : Job idle t (op :: ops)) (hp : op.IsPlain) (hc : Closed ops) (s : State) :
    Job idle t (s.leaves op ++ ops) := by
  have hi : t ≠ idle ∨ op.IsIdle := by
    by_cases ht : t = idle
    · exact .inr (h.idles ht op List.mem_cons_self)
    · exact .inl ht
  exact leaves_plain s hp hc hi (fun hos hcl hop hidle ↦ hos.plain hcl _ hop hidle) h.tail

theorem leaves_closed (s : State) (hp : op.IsPlain) (hc : Closed ops) :
    Closed (s.leaves op ++ ops) :=
  leaves_plain (I := True) s hp hc (.inl trivial) (fun _ _ hop _ ↦ plain_closed hop) hc

/-- Nothing that is pushed makes a thread. -/
theorem leaves_node (s : State) (op : Op) : ∀ o ∈ s.leaves op, o.node = none := by
  intro o ho
  cases op with
  | semaphoreDown sem =>
    simp only [State.leaves] at ho
    split at ho <;> simp at ho
    rcases ho with rfl | rfl <;> rfl
  | mutexAcquire mutex =>
    simp only [State.leaves] at ho
    split at ho
    · cases ho
    · split at ho <;> simp at ho
      · rcases ho with rfl | rfl | rfl <;> rfl
      · rw [ho]
        rfl
  | tryTest mutex =>
    simp only [State.leaves, List.mem_singleton] at ho
    rw [ho]
    split <;> rfl
  | tryDown mutex =>
    simp only [State.leaves] at ho
    split at ho <;> simp at ho
    rcases ho with rfl | rfl <;> rfl
  | condvarWait cond mutex =>
    simp only [State.leaves, List.mem_cons, List.not_mem_nil, or_false] at ho
    rcases ho with rfl | rfl | rfl | rfl <;> rfl
  | cpuIdleLoop =>
    simp only [State.leaves, List.mem_cons, List.not_mem_nil, or_false] at ho
    rcases ho with rfl | rfl | rfl | rfl <;> rfl
  | _ => cases ho

/-! ## Calls -/

theorem job_heapOps (ht : t ≠ idle) (h : Job idle t ops) (hc : Closed ops) :
    Job idle t (heapOps ++ ops) := by
  have hrelease := h.cons _ (.heap (.release hc) (by simp)) (.inl ht)
  have hend := hrelease.cons _ (.heap (.finish none _) (by simp)) (.inl ht)
  have hstart := hend.cons _ (.heap (.start _ _) (by simp)) (.inl ht)
  exact hstart.cons _ (.heap (.acquire _) (by simp)) (.inl ht)

/-- The suffixes of `thread_create_arg` from `internal_thread_init` on. -/
theorem job_threadInsertOps (ht : t ≠ idle) (x : Tid) : Job idle t (threadInsertOps x) := by
  apply Job.of_fits ht
  intro op rest hs
  by_cases hx : op.node = some x
  · exact .make hx hs
  · -- the four operations on the two locks
    simp only [threadInsertOps, threadListAddOps, List.cons_append, List.nil_append,
      List.suffix_cons_iff, List.suffix_nil, List.cons.injEq, reduceCtorEq, or_false] at hs
    rcases hs with ⟨rfl, rfl⟩ | ⟨rfl, rfl⟩ | ⟨rfl, rfl⟩ | ⟨rfl, rfl⟩ | ⟨rfl, rfl⟩ | ⟨rfl, rfl⟩ |
      ⟨rfl, rfl⟩ | ⟨rfl, rfl⟩ | ⟨rfl, rfl⟩ | ⟨rfl, rfl⟩ | ⟨rfl, rfl⟩ | ⟨rfl, rfl⟩ | ⟨rfl, rfl⟩
    all_goals first
      | exact absurd rfl hx
      | exact .plain rfl (.cons rfl rfl)
      | exact .plain rfl .nil

theorem Call.job (c : Call) (ht : t ≠ idle) : Job idle t c.ops := by
  cases c with
  | threadSleep ticks =>
    have hreturn := Job.nil.plain .nil .sleepReturn rfl (.inl ht)
    have hyield := hreturn.plain (.cons rfl rfl) .threadYield rfl (.inl ht)
    have hstatus := hyield.cons .sleepStatus (.sleep _) (.inl ht)
    exact hstatus.plain (.cons rfl rfl) (.sleepWakeup ticks) rfl (.inl ht)
  | heap => exact job_heapOps ht .nil .nil
  | threadCreateArg =>
    have halloc := Job.nil.cons .threadAlloc .alloc (.inl ht)
    have hsecond := job_heapOps ht halloc (.cons rfl rfl)
    exact job_heapOps ht hsecond (.cons rfl rfl)
  | threadExit => exact Job.nil.cons _ .exit (.inl ht)
  | _ => exact Job.nil.plain .nil _ rfl (.inl ht)

end

end AlienOS.Kernel
