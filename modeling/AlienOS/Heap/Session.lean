import AlienOS.Heap.Realloc
import Mathlib.Data.List.Forall2

/-!
# Session — the heap over runs of calls

A session is the heap together with the allocations its callers hold.  A run starts after
`kmalloc_init` and is any sequence of calls of the four unsafe operations, and of writes by callers
into blocks of their own.
-/

open AlienOS.Lib

namespace AlienOS.Heap

/-! ## Calls -/

structure Alloc where
  ptr : Word
  requested : Nat
  deriving DecidableEq, Repr

structure Session where
  heap : State
  live : List Alloc

inductive Call where
  | kmalloc (size : Word)
  | kcalloc (nelems elemsize : Word)
  | krealloc (ptr size : Word)
  | kfree (ptr : Word)
  | write (addr : Word) (value : Byte)

def record (ptr : Word) (requested : Nat) (live : List Alloc) : List Alloc :=
  if ptr = NULL then live else ⟨ptr, requested⟩ :: live

def forget (ptr : Word) (live : List Alloc) : List Alloc :=
  live.eraseP fun a ↦ a.ptr = ptr

/-- One call and what it does to the callers' books.  A `krealloc` that fails keeps its block. -/
def Call.exec (σ : Session) : Call → Except Halt (Word × Session)
  | .kmalloc size => do
    let (ptr, s) ← kmallocUnsafe size σ.heap
    .ok (ptr, ⟨s, record ptr size.toNat σ.live⟩)
  | .kcalloc nelems elemsize => do
    let (ptr, s) ← kcallocUnsafe nelems elemsize σ.heap
    .ok (ptr, ⟨s, record ptr (nelems.toNat * elemsize.toNat) σ.live⟩)
  | .krealloc ptr size => do
    let (newPtr, s) ← kreallocUnsafe ptr size σ.heap
    if newPtr = NULL ∧ size ≠ 0 then .ok (newPtr, ⟨s, σ.live⟩)
    else .ok (newPtr, ⟨s, record newPtr size.toNat (forget ptr σ.live)⟩)
  | .kfree ptr => do
    let s ← kfreeUnsafe ptr σ.heap
    .ok (NULL, ⟨s, forget ptr σ.live⟩)
  | .write addr value => .ok (NULL, ⟨{ σ.heap with mem := writeByte σ.heap.mem addr value }, σ.live⟩)

/-- The extent of the block behind a pointer, by its header. -/
def extent (mem : Memory) (ptr : Word) : Interval :=
  ⟨ptr.toNat - 16, (kmGetsize mem (ptr - sizeofKmBlockHeader)).toNat⟩

/-- What callers owe: they free and resize what they hold, and write to payloads of their own. -/
def Call.Admissible (σ : Session) : Call → Prop
  | .kmalloc _ => True
  | .kcalloc _ _ => True
  | .krealloc ptr _ => ptr = NULL ∨ ∃ a ∈ σ.live, a.ptr = ptr
  | .kfree ptr => ptr = NULL ∨ ∃ a ∈ σ.live, a.ptr = ptr
  | .write addr _ => ∃ a ∈ σ.live, a.ptr.toNat ≤ addr.toNat ∧
      addr.toNat < (extent σ.heap.mem a.ptr).hi

/-- The bytes a call asks for, for `kcalloc` the product without wrapping. -/
def Call.requested : Call → Nat
  | .kmalloc size => size.toNat
  | .kcalloc nelems elemsize => nelems.toNat * elemsize.toNat
  | .krealloc _ size => size.toNat
  | _ => 0

/-- The zero-initialised static variables over any memory. -/
def boot (mem : Memory) : State :=
  { mem := mem, kheapBegin := 0, kheapEnd := 0, kheapMaxEnd := 0, freeList := NULL
    kmallocStats := ⟨0, 0, 0, 0⟩, init := false }

/-- The sessions that runs of calls allowed by `P` lead to. -/
inductive Reachable (P : Session → Call → Prop) (s : State) : Session → Prop where
  | start : Reachable P s ⟨s, []⟩
  | step {σ σ' : Session} {c : Call} {q : Word} :
      Reachable P s σ → P σ c → c.exec σ = .ok (q, σ') → Reachable P s σ'

/-! ## Requests that do not wrap -/

/-- `b` is met on the way through the list that starts at `p`. -/
inductive OnList (mem : Memory) : Word → Word → Prop where
  | head {p : Word} : p ≠ NULL → OnList mem p p
  | next {p b : Word} : p ≠ NULL → OnList mem (kmNext mem p) b → OnList mem p b

/-- A free block of `t` bytes is at hand, or neither sum of `km_extend` wraps. -/
def CanServe (s : State) (t : Nat) : Prop :=
  (∃ b, OnList s.mem s.freeList b ∧ t ≤ (kmGetsize s.mem b).toNat) ∨
    t + 4095 < 2 ^ 32 ∧ s.kheapEnd.toNat + roundUp 4096 t < 2 ^ 32

/-- The request wraps to a block of 16 bytes, and yet the heap is too full for it. -/
def RefusedAnyway (s : State) (size : Word) : Prop :=
  2 ^ 32 ≤ size.toNat + 15 ∧ s.freeList = NULL ∧ s.kheapEnd.toNat + 4096 < 2 ^ 32 ∧
    s.kheapMaxEnd.toNat < s.kheapEnd.toNat + 4096

def NoWrap (s : State) (size : Word) : Prop :=
  size.toNat + 31 < 2 ^ 32 ∧ CanServe s (blockSize size) ∨ RefusedAnyway s size

/-- As `NoWrap` for a live block, which may also stay in place. -/
def NoWrapRealloc (s : State) (ptr size : Word) : Prop :=
  let block := ptr - sizeofKmBlockHeader
  let nextBlock := block + kmGetsize s.mem block
  size.toNat + 31 < 2 ^ 32 ∧ (blockSize size ≤ (kmGetsize s.mem block).toNat ∨
    OnList s.mem s.freeList nextBlock ∧
      blockSize size ≤ (kmGetsize s.mem block).toNat + (kmGetsize s.mem nextBlock).toNat ∨
    CanServe s (blockSize size))

def Call.NoWrap (σ : Session) : Call → Prop
  | .kmalloc size => Heap.NoWrap σ.heap size
  | .kcalloc nelems elemsize => Heap.NoWrap σ.heap (nelems * elemsize)
  | .krealloc ptr size =>
    if ptr = NULL then Heap.NoWrap σ.heap size
    else size = 0 ∨ NoWrapRealloc σ.heap ptr size
  | .kfree _ => True
  | .write _ _ => True

theorem onList_iff {mem : Memory} {p b : Word} {l : List Interval} (h : FreeSeg mem p l NULL) :
    OnList mem p b ↔ ∃ i ∈ l, b.toNat = i.lo := by
  induction l generalizing p with
  | nil =>
    constructor
    · rintro (h' | ⟨h', -⟩) <;> exact absurd h h'
    · rintro ⟨i, hi, -⟩
      exact absurd hi List.not_mem_nil
  | cons j l ih =>
    obtain ⟨h₁, h₂, -, h₄⟩ := h
    constructor
    · rintro (_ | ⟨_, h'⟩)
      · exact ⟨j, List.mem_cons_self, h₂⟩
      · obtain ⟨i, hi, hb⟩ := (ih h₄).mp h'
        exact ⟨i, List.mem_cons_of_mem _ hi, hb⟩
    · rintro ⟨i, hi, hb⟩
      rcases List.mem_cons.mp hi with rfl | hi
      · obtain rfl : b = p := BitVec.toNat_inj.mp (hb.trans h₂.symm)
        exact .head h₁
      · exact .next h₁ ((ih h₄).mpr ⟨i, hi, hb⟩)

section

variable {s : State} {fs us : List Interval} {u : Interval} {size ptr : Word}

theorem Rep.size_of_free (h : Rep s fs us) {b : Word} {i : Interval} (hi : i ∈ fs)
    (hb : b.toNat = i.lo) : (kmGetsize s.mem b).toNat = i.len := by
  rw [← ofNat_toNat_eq hb]
  exact (h.chain.header_of_mem hi).size

theorem Rep.extent_eq (h : Rep s fs us) (hu : u ∈ us) (hptr : ptr.toNat = u.lo + 16) :
    extent s.mem ptr = u := by
  obtain ⟨-, -, hh⟩ := h.block hu hptr
  rw [extent, hh.size, hptr, Nat.add_sub_cancel]

theorem Rep.fits (h : Rep s fs us) {t : Nat} (hc : CanServe s t) : Fits s fs t := by
  refine hc.imp_left ?_
  rintro ⟨b, hb, hle⟩
  obtain ⟨i, hi, hlo⟩ := (onList_iff h.chain).mp hb
  exact ⟨i, hi, by rwa [← h.size_of_free hi hlo]⟩

theorem Rep.reallocFits (h : Rep s fs (u :: us)) (hptr : ptr.toNat = u.lo + 16)
    (hw : NoWrapRealloc s ptr size) : ReallocFits s fs u (blockSize size) := by
  obtain ⟨-, hb, hh⟩ := h.block List.mem_cons_self hptr
  obtain ⟨hn, -⟩ := kreallocNext_iff h hb hh (t := 0)
  rcases hw.2 with hle | ⟨hon, hle⟩ | hc
  · exact .inl (by rwa [hh.size] at hle)
  · obtain ⟨k, hk, hlo⟩ := (onList_iff h.chain).mp hon
    rw [hh.size, h.size_of_free hk hlo] at hle
    exact .inr (.inl ⟨k, hk, hlo.symm.trans hn, hle⟩)
  · exact .inr (.inr (h.fits hc))

/-- A request that wraps to 16 bytes panics like any other when there is no room for a page. -/
theorem kmallocUnsafe_refused (h : RefusedAnyway s size) :
    kmallocUnsafe size s = .error outOfMemory := by
  obtain ⟨hsize, hfl, hend, hmax⟩ := h
  have hlt := size.isLt
  have hsum : (size + sizeofKmBlockHeader).toNat = size.toNat + 16 - 2 ^ 32 := by
    have h16 : sizeofKmBlockHeader.toNat = 16 := rfl
    rw [BitVec.toNat_add, h16]
    omega
  have ht : (kmallocAlign (size + sizeofKmBlockHeader) KMALLOC_ALIGNMENT).toNat = 16 := by
    rw [kmallocAlign_toNat (by decide) (by rw [hsum]; change _ + 16 - 1 < _; omega), hsum]
    change roundUp 16 _ = 16
    rw [roundUp]
    omega
  obtain ⟨-, -, hr⟩ := kmExtend_eq (s := s)
    (t := kmallocAlign (size + sizeofKmBlockHeader) KMALLOC_ALIGNMENT) (by rw [ht]; decide)
    (by rw [ht]; exact hend)
  rw [ht, show roundUp 4096 16 = 4096 from rfl, if_pos hmax] at hr
  have hw : kmFindWalk s.mem (kmallocAlign (size + sizeofKmBlockHeader) KMALLOC_ALIGNMENT)
      walkLimit NULL s.freeList = .ok (NULL, NULL) := by
    rw [hfl, show walkLimit = (walkLimit - 1) + 1 from rfl, kmFindWalk, if_neg (fun hc ↦ hc.1 rfl)]
  simp only [kmallocUnsafe, kmFind, hw, bind, Except.bind, if_true, hr]

end

/-! ## The invariant -/

/-- The used block `u` serves the allocation `a`, as far as the request fits in 32 bits. -/
def Serves (u : Interval) (a : Alloc) : Prop :=
  a.ptr.toNat = u.lo + 16 ∧ a.requested % 2 ^ 32 + 16 ≤ u.len

structure Inv (σ : Session) (fs us : List Interval) : Prop where
  rep : Rep σ.heap fs us
  end_le : σ.heap.kheapEnd.toNat ≤ σ.heap.kheapMaxEnd.toNat
  serves : List.Forall₂ Serves us σ.live

/-- What a call of the allocator does: the blocks `own` of its argument become `own'`, the blocks
`kept` of all other live allocations stay, and only bytes of `own`, free bytes and bytes added to
the heap are written. -/
structure Outcome (s s' : State) (own kept own' : List Interval) : Prop where
  rep : ∃ fs, Rep s fs (own ++ kept) ∧ (∀ x, Covers own' x → Covers own x ∨ Room s s' fs x) ∧
    ChangesWithin (fun x ↦ Covers own x ∨ Room s s' fs x) s.mem s'.mem
  rep' : ∃ fs', Rep s' fs' (own' ++ kept)
  grows : Grows s s'

namespace Outcome

variable {s s' : State} {own kept own' fs : List Interval}

/-- Nothing of the blocks of others is written. -/
theorem frame (h : Outcome s s' own kept own') {u : Interval} (hu : u ∈ kept) {x : Word}
    (hx : x.toNat ∈ u) : s'.mem.byte x = s.mem.byte x := by
  obtain ⟨fs, hrep, -, hc⟩ := h.rep
  have hp := hrep.partition
  refine hc x ?_
  rintro (⟨v, hv, hxv⟩ | hx' | hx')
  · exact ((List.pairwise_append.mp hp.usedApart).2.2 v hv u hu).not_mem hxv hx
  · exact hp.not_free_of_used (List.mem_append_right _ hu) hx hx'
  · have := hp.lt_of_used (List.mem_append_right _ hu) hx
    omega

/-- Nothing outside the heap is written. -/
theorem outside (h : Outcome s s' own kept own') {x : Word}
    (hx : ¬ (s.kheapBegin.toNat ≤ x.toNat ∧ x.toNat < s'.kheapEnd.toNat)) :
    s'.mem.byte x = s.mem.byte x := by
  obtain ⟨fs, hrep, -, hc⟩ := h.rep
  have hle := h.grows.le
  have hb := hrep.bounds.le
  have hcov := hrep.partition.cover x.toNat
  refine hc x ?_
  rintro (⟨v, hv, hxv⟩ | hx' | hx')
  · have := hcov.mpr (.inr ⟨v, List.mem_append_left _ hv, hxv⟩)
    omega
  · have := hcov.mpr (.inl hx')
    omega
  · omega

end Outcome

theorem Allocates.outcome {s s' : State} {us fs : List Interval} {n : Nat} {q : Word}
    (own : List Interval) (h : Rep s fs (own ++ us)) {R : State → Nat → Prop}
    (hR : ∀ x, R s' x → Covers own x ∨ Room s s' fs x) (ha : Allocates s us n R q s') :
    ∃ u, q.toNat = u.lo + 16 ∧ u.len = n ∧ Outcome s s' own us [u] := by
  obtain ⟨fs', lo, hq, hrep, hg, hin, hc⟩ := ha
  refine ⟨⟨lo, n⟩, hq, rfl, ⟨fs, h, fun x hx ↦ hR x (hin x ?_), hc.mono hR⟩, ⟨fs', hrep⟩, hg⟩
  simpa using hx

theorem forget_of_not_mem {ptr : Word} {live : List Alloc} (h : ∀ a ∈ live, a.ptr ≠ ptr) :
    forget ptr live = live := List.eraseP_of_forall_not fun a ha ↦ by simpa using h a ha

theorem Inv.ptr_ne_null {σ : Session} {fs us : List Interval} (h : Inv σ fs us) {a : Alloc}
    (ha : a ∈ σ.live) : a.ptr ≠ NULL := by
  obtain ⟨i, hi, rfl⟩ := List.mem_iff_getElem.mp ha
  have := (List.forall₂_iff_get.mp h.serves).2 i (by rw [h.serves.length_eq]; exact hi) hi
  intro he
  have h' := this.1
  simp only [List.get_eq_getElem] at h'
  rw [he] at h'
  exact absurd h'.symm (by simp [NULL])

theorem exists_serves {us : List Interval} {live : List Alloc} (h : List.Forall₂ Serves us live)
    {a : Alloc} (ha : a ∈ live) : ∃ u ∈ us, Serves u a := by
  obtain ⟨i, hi, rfl⟩ := List.mem_iff_getElem.mp ha
  have hi' : i < us.length := by rw [h.length_eq]; exact hi
  exact ⟨us[i], List.getElem_mem hi', (List.forall₂_iff_get.mp h).2 i hi' hi⟩

theorem exists_served {us : List Interval} {live : List Alloc} (h : List.Forall₂ Serves us live)
    {u : Interval} (hu : u ∈ us) : ∃ a ∈ live, Serves u a := by
  obtain ⟨i, hi, rfl⟩ := List.mem_iff_getElem.mp hu
  have hi' : i < live.length := by rw [← h.length_eq]; exact hi
  exact ⟨live[i], List.getElem_mem hi', (List.forall₂_iff_get.mp h).2 i hi hi'⟩

/-- Bring the block of one live allocation to the front. -/
theorem Inv.focus {σ : Session} {fs us : List Interval} {ptr : Word} (h : Inv σ fs us)
    (ha : ∃ a ∈ σ.live, a.ptr = ptr) :
    ∃ u us', Rep σ.heap fs (u :: us') ∧ us.Perm (u :: us') ∧ ptr.toNat = u.lo + 16 ∧
      List.Forall₂ Serves us' (forget ptr σ.live) := by
  obtain ⟨a, ha, hp⟩ := ha
  obtain ⟨b, l₁, l₂, -, hb, he, hf⟩ := List.exists_of_eraseP ha (p := fun a ↦ a.ptr = ptr)
    (by simpa using hp)
  have hs := h.serves
  rw [he] at hs
  have h₁ := List.forall₂_take_append _ _ _ hs
  have h₂ := List.forall₂_drop_append _ _ _ hs
  generalize hm₁ : us.take l₁.length = m₁ at h₁
  generalize hm₂ : us.drop l₁.length = m₂ at h₂
  have hus : us = m₁ ++ m₂ := by rw [← hm₁, ← hm₂, List.take_append_drop]
  rcases h₂ with _ | ⟨hub, h₂⟩
  rename_i u m₂
  have hperm : us.Perm (u :: (m₁ ++ m₂)) := by rw [hus]; exact List.perm_middle
  refine ⟨u, m₁ ++ m₂, h.rep.perm hperm, hperm, ?_, ?_⟩
  · rw [← hub.1, ← of_decide_eq_true hb]
  · rw [forget, hf]
    exact List.rel_append h₁ h₂

/-! ## Steps -/

section

variable {σ : Session} {fs us : List Interval} {ptr size : Word}

theorem ne_null_of_toNat {q : Word} {n : Nat} (h : q.toNat = n + 16) : q ≠ NULL := by
  rintro rfl
  exact absurd h.symm (by simp [NULL])

theorem kmallocUnsafe_outcome (h : Inv σ fs us) (hw : NoWrap σ.heap size) :
    kmallocUnsafe size σ.heap = .error outOfMemory ∨
      ∃ q s' u, kmallocUnsafe size σ.heap = .ok (q, s') ∧ Outcome σ.heap s' [] us [u] ∧
        q.toNat = u.lo + 16 ∧ size.toNat + 16 ≤ u.len := by
  rcases hw with ⟨hsize, hc⟩ | hr
  · refine (kmallocUnsafe_spec h.rep hsize (h.rep.fits hc)).imp And.left ?_
    rintro ⟨q, s', hr, ha, -⟩
    obtain ⟨u, hq, hlen, ho⟩ := ha.outcome [] h.rep fun x hx ↦ .inr hx
    exact ⟨q, s', u, hr, ho, hq, by rw [hlen]; exact (blockSize_bounds size).2.1⟩
  · exact .inl (kmallocUnsafe_refused hr)

theorem kcallocUnsafe_outcome {nelems elemsize : Word} (h : Inv σ fs us)
    (hw : NoWrap σ.heap (nelems * elemsize)) :
    kcallocUnsafe nelems elemsize σ.heap = .error outOfMemory ∨
      ∃ q s' u, kcallocUnsafe nelems elemsize σ.heap = .ok (q, s') ∧
        Outcome σ.heap s' [] us [u] ∧ q.toNat = u.lo + 16 ∧
        (nelems * elemsize).toNat + 16 ≤ u.len := by
  rcases hw with ⟨hsize, hc⟩ | hr
  · refine (kcallocUnsafe_spec h.rep hsize (h.rep.fits hc)).imp And.left ?_
    rintro ⟨q, -, s', -, -, hr, ha, -⟩
    obtain ⟨u, hq, hlen, ho⟩ := ha.outcome [] h.rep fun x hx ↦ .inr hx
    exact ⟨q, s', u, hr, ho, hq, by rw [hlen]; exact (blockSize_bounds _).2.1⟩
  · refine .inl ?_
    rw [kcallocUnsafe, kmallocUnsafe_refused hr]
    rfl

theorem kfreeUnsafe_outcome (h : Inv σ fs us) (ha : ∃ a ∈ σ.live, a.ptr = ptr) :
    ∃ s' u us', kfreeUnsafe ptr σ.heap = .ok s' ∧ Outcome σ.heap s' [u] us' [] ∧
      List.Forall₂ Serves us' (forget ptr σ.live) := by
  obtain ⟨u, us', hrep, -, hptr, hs⟩ := h.focus ha
  obtain ⟨s', hr, hrep', hg, -, hc⟩ := kfreeUnsafe_spec hrep hptr
  refine ⟨s', u, us', hr, ⟨⟨fs, hrep, by simp, hc.mono fun x hx ↦ ?_⟩, ⟨_, hrep'⟩, hg⟩, hs⟩
  exact hx.imp (by simp) .inl

theorem kreallocUnsafe_outcome (h : Inv σ fs us) (ha : ∃ a ∈ σ.live, a.ptr = ptr)
    (hsize : size ≠ 0) (hw : NoWrapRealloc σ.heap ptr size) :
    kreallocUnsafe ptr size σ.heap = .error outOfMemory ∨
      ∃ q s' u us' u', kreallocUnsafe ptr size σ.heap = .ok (q, s') ∧
        Outcome σ.heap s' [u] us' [u'] ∧ List.Forall₂ Serves us' (forget ptr σ.live) ∧
        q.toNat = u'.lo + 16 ∧ size.toNat + 16 ≤ u'.len := by
  obtain ⟨u, us', hrep, -, hptr, hs⟩ := h.focus ha
  refine (kreallocUnsafe_spec hrep hptr hsize hw.1 (hrep.reallocFits hptr hw)).imp_right ?_
  rintro ⟨q, s', hr, ha⟩
  obtain ⟨u', hq, hlen, ho⟩ := ha.allocates.outcome [u] hrep fun x hx ↦ hx.imp_left (by simp)
  exact ⟨q, s', u, us', u', hr, ho, hs, hq, by rw [hlen]; exact (blockSize_bounds size).2.1⟩

end

def Call.argument : Call → Word
  | .krealloc ptr _ => ptr
  | .kfree ptr => ptr
  | _ => NULL

def Call.IsWrite : Call → Prop
  | .write _ _ => True
  | _ => False

theorem Inv.forget_null {σ : Session} {fs us : List Interval} (h : Inv σ fs us) :
    forget NULL σ.live = σ.live := forget_of_not_mem fun _ ha ↦ h.ptr_ne_null ha

theorem serves_record {us : List Interval} {live : List Alloc} {u : Interval} {q : Word} {n : Nat}
    (h : List.Forall₂ Serves us live) (hq : q.toNat = u.lo + 16) (hn : n % 2 ^ 32 + 16 ≤ u.len) :
    List.Forall₂ Serves ([u] ++ us) (record q n live) := by
  rw [record, if_neg (ne_null_of_toNat hq)]
  exact .cons ⟨hq, hn⟩ h

/-- The step lemma: an admissible call whose sums do not wrap is refused for lack of memory or has
an `Outcome`, and the books of the callers stay true. -/
theorem Call.exec_outcome {σ : Session} {fs us : List Interval} {c : Call} (h : Inv σ fs us)
    (ha : c.Admissible σ) (hw : c.NoWrap σ) (hc : ¬ c.IsWrite) :
    c.exec σ = .error outOfMemory ∨
      ∃ q σ' own kept own', c.exec σ = .ok (q, σ') ∧ Outcome σ.heap σ'.heap own kept own' ∧
        List.Forall₂ Serves kept (forget c.argument σ.live) ∧
        List.Forall₂ Serves (own' ++ kept) σ'.live ∧
        (q = NULL ∨ ∃ u, own' = [u] ∧ q.toNat = u.lo + 16) := by
  have hmod : ∀ {size : Word} {n : Nat}, size.toNat + 16 ≤ n → size.toNat % 2 ^ 32 + 16 ≤ n :=
    fun {size n} hle ↦ by rwa [Nat.mod_eq_of_lt size.isLt]
  have hnull : List.Forall₂ Serves us (forget NULL σ.live) := by
    rw [h.forget_null]
    exact h.serves
  cases c with
  | kmalloc size =>
    rcases kmallocUnsafe_outcome h hw with he | ⟨q, s', u, hr, ho, hq, hle⟩
    · exact .inl (by simp only [exec, he, bind, Except.bind])
    · exact .inr ⟨q, ⟨s', record q size.toNat σ.live⟩, [], us, [u],
        by simp only [exec, hr, bind, Except.bind], ho, hnull,
        serves_record h.serves hq (hmod hle), .inr ⟨u, rfl, hq⟩⟩
  | kcalloc nelems elemsize =>
    rcases kcallocUnsafe_outcome h hw with he | ⟨q, s', u, hr, ho, hq, hle⟩
    · exact .inl (by simp only [exec, he, bind, Except.bind])
    · exact .inr ⟨q, ⟨s', record q (nelems.toNat * elemsize.toNat) σ.live⟩, [], us, [u],
        by simp only [exec, hr, bind, Except.bind], ho, hnull,
        serves_record h.serves hq (by rwa [BitVec.toNat_mul] at hle), .inr ⟨u, rfl, hq⟩⟩
  | krealloc ptr size =>
    by_cases hp : ptr = NULL
    · subst hp
      simp only [NoWrap, if_true] at hw
      have hk : kreallocUnsafe NULL size σ.heap = kmallocUnsafe size σ.heap := by
        rw [kreallocUnsafe, if_pos rfl]
      rcases kmallocUnsafe_outcome h hw with he | ⟨q, s', u, hr, ho, hq, hle⟩
      · exact .inl (by simp only [exec, hk, he, bind, Except.bind])
      · refine .inr ⟨q, ⟨s', record q size.toNat (forget NULL σ.live)⟩, [], us, [u], ?_, ho, hnull,
          serves_record hnull hq (hmod hle), .inr ⟨u, rfl, hq⟩⟩
        simp only [exec, hk, hr, bind, Except.bind, ne_null_of_toNat hq, false_and, if_false]
    · simp only [NoWrap, if_neg hp] at hw
      have ha' := ha.resolve_left hp
      by_cases hs0 : size = 0
      · obtain ⟨s', u, us', hr, ho, hs⟩ := kfreeUnsafe_outcome h ha'
        refine .inr ⟨NULL, ⟨s', forget ptr σ.live⟩, [u], us', [], ?_, ho, hs, hs, .inl rfl⟩
        simp only [exec, kreallocUnsafe, if_neg hp, hr, bind, Except.bind, hs0, ne_eq,
          not_true_eq_false, and_false, if_false, record, if_true]
      · rcases kreallocUnsafe_outcome h ha' hs0 (hw.resolve_left hs0) with
          he | ⟨q, s', u, us', u', hr, ho, hs, hq, hle⟩
        · exact .inl (by simp only [exec, he, bind, Except.bind])
        · refine .inr ⟨q, ⟨s', record q size.toNat (forget ptr σ.live)⟩, [u], us', [u'], ?_, ho, hs,
            serves_record hs hq (hmod hle), .inr ⟨u', rfl, hq⟩⟩
          simp only [exec, hr, bind, Except.bind, ne_null_of_toNat hq, false_and, if_false]
  | kfree ptr =>
    rcases ha with rfl | ha
    · refine .inr ⟨NULL, σ, [], us, [], ?_, ⟨⟨fs, h.rep, by simp, .refl _ _⟩, ⟨fs, h.rep⟩,
        .refl _⟩, hnull, h.serves, .inl rfl⟩
      simp only [exec, kfreeUnsafe, if_true, bind, Except.bind, h.forget_null]
    · obtain ⟨s', u, us', hr, ho, hs⟩ := kfreeUnsafe_outcome h ha
      exact .inr ⟨NULL, ⟨s', forget ptr σ.live⟩, [u], us', [], by
        simp only [exec, hr, bind, Except.bind], ho, hs, hs, .inl rfl⟩
  | write addr value => exact absurd trivial hc

/-- A write into a block of its own leaves every block in place. -/
theorem Inv.write {σ : Session} {fs us : List Interval} {addr : Word} (value : Byte)
    (h : Inv σ fs us) (ha : (Call.write addr value).Admissible σ) :
    Inv ⟨{ σ.heap with mem := writeByte σ.heap.mem addr value }, σ.live⟩ fs us := by
  obtain ⟨a, ha, hlo, hhi⟩ := ha
  obtain ⟨u, us', hrep, hperm, hptr, -⟩ := h.focus ⟨a, ha, rfl⟩
  obtain ⟨-, -, hh⟩ := hrep.block List.mem_cons_self hptr
  simp only [extent, Interval.hi, hh.size] at hhi
  refine ⟨h.rep.payload (hperm.mem_iff.mpr List.mem_cons_self)
    (S := fun x ↦ x = addr.toNat) (fun x hx ↦ writeByte_other _ fun he ↦ hx (by rw [he])) ?_,
    h.end_le, h.serves⟩
  rintro x rfl
  simp only [Interval.hi]
  omega

theorem Outcome.inv {σ : Session} (σ' : Session) {own kept own' fs us : List Interval} (h : Inv σ fs us)
    (ho : Outcome σ.heap σ'.heap own kept own')
    (hs : List.Forall₂ Serves (own' ++ kept) σ'.live) :
    ∃ fs', Inv σ' fs' (own' ++ kept) := by
  obtain ⟨fs', hrep⟩ := ho.rep'
  refine ⟨fs', hrep, ?_, hs⟩
  rw [ho.grows.kheapMaxEnd]
  rcases ho.grows.kheapEnd with he | he
  · rw [he]
    exact h.end_le
  · exact he.2

/-- The run lemma. -/
theorem Reachable.inv {P : Session → Call → Prop} {s : State} {σ : Session} {fs : List Interval}
    (h₀ : Inv ⟨s, []⟩ fs [])
    (hP : ∀ {σ fs us c}, Inv σ fs us → σ.heap.kheapMaxEnd = s.kheapMaxEnd → P σ c →
      c.Admissible σ ∧ c.NoWrap σ)
    (hr : Reachable P s σ) : (∃ fs us, Inv σ fs us) ∧ Grows s σ.heap := by
  induction hr with
  | start => exact ⟨⟨fs, [], h₀⟩, .refl s⟩
  | @step σ σ' c q _ hp hex ih =>
    obtain ⟨⟨fs, us, hi⟩, hg⟩ := ih
    obtain ⟨ha, hw⟩ := hP hi hg.kheapMaxEnd hp
    by_cases hc : c.IsWrite
    · cases c with
      | write addr value =>
        obtain rfl : _ = σ' := congrArg Prod.snd (Except.ok.inj hex)
        exact ⟨⟨fs, us, hi.write value ha⟩, hg.kheapBegin, hg.kheapMaxEnd, hg.kheapEnd⟩
      | _ => exact hc.elim
    · rcases Call.exec_outcome hi ha hw hc with he | ⟨q', σ'', own, kept, own', he, ho, -, hs, -⟩
      · rw [he] at hex
        cases hex
      · rw [he] at hex
        cases hex
        obtain ⟨fs', hi'⟩ := ho.inv _ hi hs
        exact ⟨⟨fs', _, hi'⟩, hg.trans ho.grows⟩

end AlienOS.Heap
