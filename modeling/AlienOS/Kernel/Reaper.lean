import AlienOS.Kernel.Sequence
import AlienOS.Kernel.State
import Mathlib.Data.Fintype.Card
import Mathlib.Data.List.Nodup

/-!
# Reaper — `clean_zombies` in one piece, with its memory checked

The loop takes nodes out of two lists while it walks one of them, and gives back the memory that
holds them.  Here every read and write of a `thread_t` is checked against what has been freed.
-/

open AlienOS.Lib

namespace AlienOS.Kernel

/-- The two allocations of `thread_create_arg`. -/
inductive Block where
  | stackBase (t : Tid)
  | thread (t : Tid)
  deriving DecidableEq, Repr

inductive Fault where
  | halt (h : Halt)
  | useAfterFree (t : Tid)
  | doubleFree (b : Block)

/-- What `clean_zombies` works on; `freed` is what has been given back, the latest first. -/
structure Reaper where
  currentThread : Tid
  idleThread : Tid
  status : Tid → ThreadStatus
  lists : Links ListId Tid
  allThreads : Links Unit Tid
  freed : List Block

namespace Reaper

/-- Going to a field of each of `ts`. -/
def access (ts : List Tid) (r : Reaper) : Except Fault Unit :=
  match ts.find? (fun t ↦ Block.thread t ∈ r.freed) with
  | some t => .error (.useAfterFree t)
  | none => .ok ()

def kfree (b : Block) (r : Reaper) : Except Fault Reaper :=
  if b ∈ r.freed then .error (.doubleFree b) else .ok { r with freed := b :: r.freed }

/-- `thread_list_remove` goes to the node and to its neighbours. -/
def threadListRemove {ι : Type} [DecidableEq ι] (head : ι) (node : Tid) (l : Links ι Tid)
    (r : Reaper) : Except Fault (Links ι Tid) := do
  r.access (node :: ((l.prev node).toList ++ (l.next node).toList))
  (Kernel.threadListRemove head node l).mapError .halt

/-- The loop of `clean_zombies` at `zombie`. -/
def cleanZombiesLoop : Nat → Option Tid → Reaper → Except Fault Reaper
  | _, none, r => .ok r
  | 0, some _, _ => .error (.halt .spin)
  | fuel + 1, some thread, r => do
    r.access [thread]
    let zombie := r.lists.next thread
    (kernelAssert (r.status thread == .zombie)
      "clean_zombies(): Expected thread in zombie list to be a zombie thread").mapError .halt
    (kernelAssert (thread != r.idleThread)
      "clean_zombies(): trying to deallocate the idle thread").mapError .halt
    if thread ≠ r.currentThread then
      let lists ← r.threadListRemove .zombieThreads thread r.lists
      let allThreads ← r.threadListRemove () thread r.allThreads
      let r := { r with lists, allThreads }
      -- `thread->stack_base` is read after the unlinking
      r.access [thread]
      let r ← r.kfree (.stackBase thread)
      let r ← r.kfree (.thread thread)
      cleanZombiesLoop fuel zombie r
    else cleanZombiesLoop fuel zombie r

def cleanZombies (r : Reaper) : Except Fault Reaper :=
  cleanZombiesLoop walkLimit (r.lists.head .zombieThreads) r

end Reaper

/-- `zs` and `all` are the two lists, and nobody on them has been freed. -/
structure Reapable (r : Reaper) (zs all : List Tid) : Prop where
  zombies : r.lists.Spells .zombieThreads zs
  threads : r.allThreads.Spells () all
  mem : ∀ t ∈ zs, t ∈ all
  dead : ∀ t ∈ zs, r.status t = .zombie ∧ t ≠ r.idleThread
  live : ∀ t ∈ all, .thread t ∉ r.freed ∧ .stackBase t ∉ r.freed

/-- Both blocks of each of `ts`, the stack before the thread. -/
def blocksOf (ts : List Tid) : List Block := ts.flatMap fun t ↦ [.stackBase t, .thread t]

/-- What a call makes of `r` when `xs` are the zombies still before it and `ys` those behind. -/
structure Reaped (r : Reaper) (ys xs all : List Tid) (r' : Reaper) : Prop where
  current : r'.currentThread = r.currentThread
  idle : r'.idleThread = r.idleThread
  status : r'.status = r.status
  zombies : r'.lists.Spells .zombieThreads (ys ++ xs.filter (· = r.currentThread))
  threads : r'.allThreads.Spells () (all.filter fun t ↦ t ∉ xs ∨ t = r.currentThread)
  /-- the nodes of the other lists are not written -/
  nodes : ∀ t, t ∉ ys ++ xs → r'.lists.next t = r.lists.next t ∧ r'.lists.prev t = r.lists.prev t
  heads : ∀ i, i ≠ .zombieThreads →
    r'.lists.head i = r.lists.head i ∧ r'.lists.tail i = r.lists.tail i
  freed : r'.freed = (blocksOf (xs.filter (· ≠ r.currentThread))).reverse ++ r.freed

section

variable {r : Reaper} {x : Tid} {xs ys zs all : List Tid}

theorem Reaper.access_eq (r : Reaper) (ts : List Tid) (h : ∀ t ∈ ts, Block.thread t ∉ r.freed) :
    r.access ts = .ok () := by
  have hn : ts.find? (fun t ↦ Block.thread t ∈ r.freed) = none := by
    rw [List.find?_eq_none]
    intro t ht
    simpa using h t ht
  simp only [Reaper.access, hn]

theorem Reaper.kfree_eq {b : Block} (h : b ∉ r.freed) :
    r.kfree b = .ok { r with freed := b :: r.freed } := if_neg h

/-- The neighbours of a node are on its list. -/
theorem neighbours_mem {ι : Type} [DecidableEq ι] {l : Links ι Tid} {i : ι}
    (h : l.Spells i (ys ++ x :: xs)) {t : Tid}
    (ht : t ∈ x :: ((l.prev x).toList ++ (l.next x).toList)) : t ∈ ys ++ x :: xs := by
  have hrep := Links.spells_iff.mp h
  have hp : l.prev x = ys.getLast? := (hrep.prev_eq (i := ()) rfl).trans Option.or_none
  have hn : l.next x = xs.head? := hrep.next_eq (i := ()) rfl
  rw [hp, hn, List.mem_cons, List.mem_append, Option.mem_toList, Option.mem_toList] at ht
  rcases ht with rfl | ht | ht
  · simp
  · exact List.mem_append_left _ (List.mem_of_getLast? ht)
  · exact List.mem_append_right _ (List.mem_cons_of_mem _ (List.mem_of_head? ht))

/-- A checked removal from a list on which nobody has been freed. -/
theorem Reaper.threadListRemove_eq {ι : Type} [DecidableEq ι] {l : Links ι Tid} {i : ι}
    (h : l.Spells i (ys ++ x :: xs)) (hl : ∀ t ∈ ys ++ x :: xs, Block.thread t ∉ r.freed) :
    ∃ l', r.threadListRemove i x l = .ok l' ∧ l'.Spells i (ys ++ xs) ∧
      (∀ t, t ∉ ys ++ x :: xs → l'.next t = l.next t ∧ l'.prev t = l.prev t) ∧
      ∀ j, j ≠ i → l'.head j = l.head j ∧ l'.tail j = l.tail j := by
  obtain ⟨l', hrun, hs, hfar, hother⟩ := spells_threadListRemove h
  have ha := r.access_eq _ fun t ht ↦ hl t (neighbours_mem h ht)
  refine ⟨l', ?_, hs, hfar, hother⟩
  unfold Reaper.threadListRemove
  rw [ha, hrun]
  rfl

/-- The loop, with `ys` behind it. -/
theorem Reaper.cleanZombiesLoop_spec : ∀ {xs : List Tid} (ys : List Tid) {all : List Tid}
    {n : Nat} {r : Reaper}, Reapable r (ys ++ xs) all → xs.length ≤ n →
    ∃ r', cleanZombiesLoop n xs.head? r = .ok r' ∧ Reaped r ys xs all r' := by
  intro xs
  induction xs with
  | nil =>
    intro ys all n r h hn
    refine ⟨r, by cases n <;> rfl, rfl, rfl, rfl, by simpa using h.zombies, ?_, fun _ _ ↦ ⟨rfl, rfl⟩,
      fun _ _ ↦ ⟨rfl, rfl⟩, rfl⟩
    simpa using h.threads
  | cons x xs ih =>
    intro ys all n r h hn
    obtain ⟨n, rfl⟩ : ∃ m, n = m + 1 := ⟨n - 1, by simp at hn; omega⟩
    have hxs : xs.length ≤ n := by simpa using hn
    have hx : x ∈ ys ++ x :: xs := by simp
    obtain ⟨hdead, hidle⟩ := h.dead x hx
    obtain ⟨hthread, hstack⟩ := h.live x (h.mem x hx)
    have hnext : r.lists.next x = xs.head? :=
      (Links.spells_iff.mp h.zombies).next_eq (i := ()) rfl
    have hnd : x ∉ ys ++ xs := (List.nodup_middle.mp h.zombies.nodup).notMem
    have hacc := r.access_eq [x] fun t ht ↦ by rwa [List.mem_singleton.mp ht]
    unfold cleanZombiesLoop
    simp only [List.head?_cons, hacc, ok_bind, kernelAssert, hdead, beq_self_eq_true, if_true,
      bne_iff_ne, ne_eq, hidle, not_false_eq_true, hnext, Except.mapError]
    by_cases hc : x = r.currentThread
    · -- the current thread stays where it is
      rw [if_neg (not_not.mpr hc)]
      obtain ⟨r', hrun, hr⟩ := ih (ys ++ [x]) (n := n) (by simpa using h) hxs
      refine ⟨r', hrun, hr.current, hr.idle, hr.status, ?_, ?_, ?_, hr.heads, ?_⟩
      · have hf : (x :: xs).filter (· = r.currentThread) = x :: xs.filter (· = r.currentThread) :=
          List.filter_cons_of_pos (by simpa using hc)
        rw [hf]
        simpa using hr.zombies
      · have hf : (all.filter fun t ↦ t ∉ x :: xs ∨ t = r.currentThread) =
            all.filter fun t ↦ t ∉ xs ∨ t = r.currentThread := by
          apply List.filter_congr
          intro t ht
          simp only [List.mem_cons, hc, decide_eq_decide]
          tauto
        rw [hf]
        exact hr.threads
      · simpa using hr.nodes
      · have hf : (x :: xs).filter (· ≠ r.currentThread) = xs.filter (· ≠ r.currentThread) :=
          List.filter_cons_of_neg (by simpa using hc)
        rw [hf]
        exact hr.freed
    · rw [if_pos hc]
      obtain ⟨l, hrem, hl, hfar, hother⟩ := r.threadListRemove_eq h.zombies
        fun t ht ↦ (h.live t (h.mem t ht)).1
      obtain ⟨as, bs, hall⟩ := List.append_of_mem (h.mem x hx)
      subst hall
      obtain ⟨a, hrem', ha, -⟩ := r.threadListRemove_eq h.threads fun t ht ↦ (h.live t ht).1
      have hnd' : x ∉ as ++ bs := (List.nodup_middle.mp h.threads.nodup).notMem
      have hacc' := ({ r with lists := l, allThreads := a } : Reaper).access_eq [x]
        fun t ht ↦ by rwa [List.mem_singleton.mp ht]
      have hk₁ := ({ r with lists := l, allThreads := a } : Reaper).kfree_eq hstack
      have hk₂ := ({ r with lists := l, allThreads := a, freed := .stackBase x :: r.freed } :
        Reaper).kfree_eq (b := .thread x) (by simpa using hthread)
      -- `x` is on neither list any more when it is freed
      have hr₁ : Reapable { r with
          lists := l, allThreads := a, freed := .thread x :: .stackBase x :: r.freed }
          (ys ++ xs) (as ++ bs) := by
        have hne : ∀ {t}, t ∈ as ++ bs → t ≠ x := by
          rintro t ht rfl
          exact hnd' ht
        have hsub : ∀ {t}, t ∈ ys ++ xs → t ∈ ys ++ x :: xs := fun ht ↦ by
          rcases List.mem_append.mp ht with ht | ht <;> simp [ht]
        refine ⟨hl, ha, fun t ht ↦ ?_, fun t ht ↦ h.dead t (hsub ht), fun t ht ↦ ?_⟩
        · have hmem := h.mem t (hsub ht)
          have : t ≠ x := by
            rintro rfl
            exact hnd ht
          simpa [this] using hmem
        · have hlive := h.live t (by
            rcases List.mem_append.mp ht with ht | ht <;> simp [ht])
          simpa [hne ht] using hlive
      obtain ⟨r', hrun, hr⟩ := ih _ hr₁ hxs
      refine ⟨r', ?_, hr.current, hr.idle, hr.status, ?_, ?_, fun t ht ↦ ?_, fun i hi ↦ ?_, ?_⟩
      · rw [hrem, ok_bind, hrem', ok_bind, hacc', ok_bind, hk₁, ok_bind, hk₂, ok_bind]
        exact hrun
      · have hf : (x :: xs).filter (· = r.currentThread) = xs.filter (· = r.currentThread) :=
          List.filter_cons_of_neg (by simpa using hc)
        rw [hf]
        exact hr.zombies
      · have hf : ((as ++ x :: bs).filter fun t ↦ t ∉ x :: xs ∨ t = r.currentThread) =
            (as ++ bs).filter fun t ↦ t ∉ xs ∨ t = r.currentThread := by
          have hx' : ∀ ts : List Tid, x ∉ ts →
              (ts.filter fun t ↦ t ∉ x :: xs ∨ t = r.currentThread) =
                ts.filter fun t ↦ t ∉ xs ∨ t = r.currentThread := by
            intro ts hts
            apply List.filter_congr
            intro t ht
            have : t ≠ x := by
              rintro rfl
              exact hts ht
            simp [this]
          rw [List.mem_append, not_or] at hnd'
          rw [List.filter_append, List.filter_append, List.filter_cons_of_neg (by simp [hc]),
            hx' as hnd'.1, hx' bs hnd'.2]
        rw [hf]
        exact hr.threads
      · have hn := hr.nodes t fun hm ↦ ht (by
          rcases List.mem_append.mp hm with hm | hm <;> simp [hm])
        exact ⟨hn.1.trans (hfar t ht).1, hn.2.trans (hfar t ht).2⟩
      · exact ⟨(hr.heads i hi).1.trans (hother i hi).1, (hr.heads i hi).2.trans (hother i hi).2⟩
      · have hf : (x :: xs).filter (· ≠ r.currentThread) =
            x :: xs.filter (· ≠ r.currentThread) := List.filter_cons_of_pos (by simpa using hc)
        rw [hr.freed, hf]
        simp [blocksOf]

/-- A call terminates without a fault and reclaims every zombie but the current thread. -/
theorem Reaper.cleanZombies_spec (h : Reapable r zs all) :
    ∃ r', r.cleanZombies = .ok r' ∧ Reaped r [] zs all r' := by
  have hlen : zs.length ≤ walkLimit := by
    have := (h.zombies.nodup.map (fun _ _ ↦ BitVec.eq_of_toFin_eq)).length_le_card
    simpa [walkLimit] using this
  unfold cleanZombies
  rw [h.zombies.head]
  exact cleanZombiesLoop_spec [] h hlen

end

end AlienOS.Kernel
