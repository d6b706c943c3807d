import AlienOS.Kernel.Orderly

/-!
# Errand — what a thread may have on its stack when the heap's lock is contended

As in `Job`, but a thread may be waiting for `free_list_lock`.
-/

open AlienOS.Lib

namespace AlienOS.Kernel

/-- The operations of `thread_create_arg` that no other call has. -/
def Op.Creates : Op → Bool
  | .threadAlloc => true
  | op => op.node.isSome

/-- What comes after an operation; threads are made only if `creates`. -/
inductive Op.Suits (creates : Prop) : Op → List Op → Prop where
  | fits {op : Op} {rest : List Op} (h : op.Fits rest) (hc : op.Creates → creates) :
    Suits creates op rest
  /-- `semaphore_down` returns to `mutex_acquire` with interrupts still disabled -/
  | wait (enabled : Bool) (rest : List Op) :
    Suits creates (.interruptRestore false) (.mutexAcquired .freeListLock enabled :: rest)

structure Errand (creates : Prop) (idle t : Tid) (ops : List Op) : Prop where
  suits : ∀ {op rest}, op :: rest <:+ ops → op.Suits creates rest
  idles : t = idle → ∀ op ∈ ops, op.IsIdle

section

variable {creates : Prop} {idle t x : Tid} {op o : Op} {ops rest : List Op}

theorem calm_creates (h : op.IsCalm) : op.Creates = false := by
  cases op <;> first | rfl | cases h

theorem heapFits_calm (h : op.HeapFits rest) (hn : ∀ t, op ≠ .heapEnd (some t)) : op.IsCalm := by
  cases h with
  | finish freed =>
    cases freed with
    | none => rfl
    | some x => exact absurd rfl (hn x)
  | _ => rfl

namespace Errand

theorem nil : Errand creates idle t [] := ⟨fun h ↦ by simp at h, by simp⟩

theorem tail (h : Errand creates idle t (op :: ops)) : Errand creates idle t ops :=
  ⟨fun hs ↦ h.suits (hs.trans (List.suffix_cons op ops)),
    fun ht p hp ↦ h.idles ht p (List.mem_cons_of_mem _ hp)⟩

theorem head (h : Errand creates idle t (op :: ops)) : op.Suits creates ops :=
  h.suits List.suffix_rfl

theorem cons (h : Errand creates idle t ops) (op : Op) (hs : op.Suits creates ops)
    (hi : t ≠ idle ∨ op.IsIdle) : Errand creates idle t (op :: ops) := by
  refine ⟨fun hsuf ↦ ?_, fun ht p hp ↦ ?_⟩
  · rcases List.suffix_cons_iff.mp hsuf with he | hsuf
    · cases he
      exact hs
    · exact h.suits hsuf
  · rcases List.mem_cons.mp hp with rfl | hp
    · exact hi.resolve_left fun hn ↦ hn ht
    · exact h.idles ht p hp

theorem plain (h : Errand creates idle t ops) (hc : Closed ops) (op : Op) (hp : op.IsPlain)
    (hi : t ≠ idle ∨ op.IsIdle) : Errand creates idle t (op :: ops) := by
  apply h.cons op _ hi
  apply Op.Suits.fits (.plain hp hc)
  rw [calm_creates (plain_calm hp)]
  exact fun hf ↦ by cases hf

/-- Somebody who is not the idle thread. -/
theorem not_idle (h : Errand creates idle t (op :: ops)) (hi : op.IsIdle = false) : t ≠ idle := by
  intro ht
  have hidle := h.idles ht op List.mem_cons_self
  rw [hi] at hidle
  cases hidle

end Errand

/-- A job does not wait for the lock. -/
theorem Job.errand (h : Job idle t ops) (hc : ∀ op ∈ ops, op.Creates → creates) :
    Errand creates idle t ops :=
  ⟨fun hs ↦ .fits (h.fits hs) (hc _ (hs.subset List.mem_cons_self)), h.idles⟩

theorem errand_threadInsertOps (hc : creates) (ht : t ≠ idle) (x : Tid) :
    Errand creates idle t (threadInsertOps x) :=
  (job_threadInsertOps ht x).errand fun _ _ _ ↦ hc

theorem Call.errand (c : Call) (ht : t ≠ idle) (hc : c = .threadCreateArg → creates) :
    Errand creates idle t c.ops := by
  apply (c.job ht).errand
  intro op hop hcr
  cases c with
  | threadCreateArg => exact hc rfl
  | heap =>
    simp only [Call.ops, heapOps, List.mem_cons, List.not_mem_nil, or_false] at hop
    rcases hop with rfl | rfl | rfl | rfl <;> cases hcr
  | threadSleep ticks =>
    simp only [Call.ops, List.mem_cons, List.not_mem_nil, or_false] at hop
    rcases hop with rfl | rfl | rfl | rfl <;> cases hcr
  | _ =>
    simp only [Call.ops, List.mem_cons, List.not_mem_nil, or_false] at hop
    rw [hop] at hcr
    cases hcr

/-- What the waiters for the lock have before them. -/
theorem Errand.waits (h : Errand creates idle t ops) (enabled : Bool) (hops : ops.head? = some .heapStart)
    (ht : t ≠ idle) : Errand creates idle t (.mutexAcquired .freeListLock enabled :: ops) := by
  obtain ⟨rest, rfl⟩ := List.head?_eq_some_iff.mp hops
  exact h.cons _ (.fits (.heap (.acquired _ _) (by simp)) (by simp [Op.Creates, Op.node])) (.inl ht)

/-- What an operation leaves to its thread is again an errand. -/
theorem Errand.leaves (h : Errand creates idle t (op :: ops)) (hc : op.IsCalm) (s : State) :
    Errand creates idle t (s.leaves op ++ ops) ∧ Apart (s.leaves op ++ ops) := by
  have hops := h.tail
  cases h.head with
  | wait enabled rest => exact ⟨hops, .cons rfl⟩
  | fits hf =>
    cases hf with
    | plain hp hcl =>
      have hi : t ≠ idle ∨ op.IsIdle := by
        by_cases ht : t = idle
        · exact .inr (h.idles ht op List.mem_cons_self)
        · exact .inl ht
      exact ⟨leaves_plain s hp hcl hi (fun hos hcl hop hidle ↦ hos.plain hcl _ hop hidle) hops,
        (leaves_closed s hp hcl).apart⟩
    | sleep rest => exact ⟨hops, .cons rfl⟩
    | heap hf hn =>
      cases hf with
      | acquire rest =>
        have ht := h.not_idle rfl
        simp only [State.leaves]
        split
        · exact ⟨hops, .cons rfl⟩
        · have hacq := hops.waits s.interrupts rfl ht
          split
          · have hback := hacq.cons _ (.wait _ _) (.inr rfl)
            exact ⟨hback.plain (.of_skip rfl) .threadYield rfl (.inr rfl), .cons rfl⟩
          · exact ⟨hacq, .cons rfl⟩
      | release hcl => exact ⟨hops, hcl.apart⟩
      | _ => exact ⟨hops, .cons rfl⟩
    | make hx =>
      rw [calm_node hc] at hx
      cases hx
    | _ => cases hc

end

end AlienOS.Kernel
