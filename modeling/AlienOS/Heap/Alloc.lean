import AlienOS.Heap.FreeList
import AlienOS.Lib.Except

/-!
# Alloc — the heap operations perform the abstract ones

`Rep s fs us` says that the memory of `s` carries the partition of the heap into `fs` and `us`.
For each operation: the partition it leaves, and the bytes it may change.
-/

open AlienOS.Lib

namespace AlienOS.Heap

/-! ## Rounding -/

def roundUp (a x : Nat) : Nat := (x + a - 1) / a * a

theorem kmallocAlign_toNat {x a : Word} (ha : 0 < a.toNat)
    (hx : x.toNat + a.toNat - 1 < 2 ^ 32) :
    (kmallocAlign x a).toNat = roundUp a.toNat x.toNat := by
  have hs : (x + a - 1).toNat = x.toNat + a.toNat - 1 := by
    have h1 : (1 : Word).toNat = 1 := rfl
    rw [BitVec.toNat_sub, BitVec.toNat_add, h1]
    omega
  have hle := Nat.div_mul_le_self (x.toNat + a.toNat - 1) a.toNat
  rw [kmallocAlign, BitVec.toNat_mul, BitVec.toNat_udiv, hs, roundUp,
    Nat.mod_eq_of_lt (Nat.lt_of_le_of_lt hle hx)]

theorem dvd_roundUp (a x : Nat) : a ∣ roundUp a x := Nat.dvd_mul_left _ _

theorem le_roundUp_16 (x : Nat) : x ≤ roundUp 16 x := by rw [roundUp]; omega

theorem le_roundUp_4096 (x : Nat) : x ≤ roundUp 4096 x := by rw [roundUp]; omega

/-- The block size for a request, without any wrapping. -/
def blockSize (size : Word) : Nat := roundUp 16 (size.toNat + 16)

/-- `target_size`, as the code computes it. -/
def targetSize (size : Word) : Word := kmallocAlign (size + sizeofKmBlockHeader) KMALLOC_ALIGNMENT

theorem blockSize_bounds (size : Word) :
    16 ∣ blockSize size ∧ size.toNat + 16 ≤ blockSize size ∧ blockSize size ≤ size.toNat + 31 := by
  refine ⟨dvd_roundUp _ _, le_roundUp_16 _, ?_⟩
  rw [blockSize, roundUp]
  omega

theorem targetSize_toNat {size : Word} (h : size.toNat + 31 < 2 ^ 32) :
    (targetSize size).toNat = blockSize size := by
  have h16 : (size + sizeofKmBlockHeader).toNat = size.toNat + 16 := by
    rw [BitVec.toNat_add]
    exact Nat.mod_eq_of_lt (by change size.toNat + 16 < 2 ^ 32; omega)
  rw [targetSize, kmallocAlign_toNat (by decide) (by rw [h16]; change size.toNat + 16 + 15 < _; omega),
    h16]
  rfl

/-! ## Representation -/

structure Bounds (lo hi : Nat) : Prop where
  pos : 0 < lo
  le : lo ≤ hi
  page : 4096 ∣ hi

structure Rep (s : State) (fs us : List Interval) : Prop where
  chain : FreeSeg s.mem s.freeList fs NULL
  header : ∀ u ∈ us, HeaderAt s.mem (BitVec.ofNat 32 u.lo) u.len true
  partition : Partition s.kheapBegin.toNat s.kheapEnd.toNat fs us
  bounds : Bounds s.kheapBegin.toNat s.kheapEnd.toNat

/-- As `Rep`, but the block `i` is in hand: neither on the free list nor handed out yet. -/
structure Held (s : State) (fs us : List Interval) (i : Interval) (used : Bool) : Prop where
  chain : FreeSeg s.mem s.freeList fs NULL
  header : ∀ u ∈ us, HeaderAt s.mem (BitVec.ofNat 32 u.lo) u.len true
  own : HeaderAt s.mem (BitVec.ofNat 32 i.lo) i.len used
  partition : Partition s.kheapBegin.toNat s.kheapEnd.toNat fs (i :: us)
  bounds : Bounds s.kheapBegin.toNat s.kheapEnd.toNat

section

variable {s : State} {fs us : List Interval} {i : Interval}

theorem Held.toRep (h : Held s fs us i true) : Rep s fs (i :: us) :=
  ⟨h.chain, List.forall_mem_cons.mpr ⟨h.own, h.header⟩, h.partition, h.bounds⟩

theorem Rep.hold (h : Rep s fs (i :: us)) : Held s fs us i true :=
  ⟨h.chain, fun u hu ↦ h.header u (List.mem_cons_of_mem _ hu), h.header i List.mem_cons_self,
    h.partition, h.bounds⟩

theorem Rep.perm {us' : List Interval} (h : Rep s fs us) (hp : us.Perm us') : Rep s fs us' :=
  ⟨h.chain, fun u hu ↦ h.header u (hp.mem_iff.mpr hu), h.partition.perm hp, h.bounds⟩

theorem Held.isBlock {used : Bool} (h : Held s fs us i used) : IsBlock i :=
  h.partition.usedBlock i List.mem_cons_self

end

theorem ofNat_toNat_eq {w : Word} {n : Nat} (h : w.toNat = n) : BitVec.ofNat 32 n = w := by
  rw [← h, BitVec.ofNat_toNat, BitVec.setWidth_eq]

theorem toNat_ofNat_lo {i : Interval} (h : IsBlock i) : (BitVec.ofNat 32 i.lo).toNat = i.lo := by
  have := h.bounds
  rw [BitVec.toNat_ofNat, Nat.mod_eq_of_lt (by omega)]

/-- A header survives changes that stay out of its block. -/
theorem HeaderAt.congr_block {mem mem' : Memory} {u : Interval} {used : Bool} {S : Nat → Prop}
    (h : HeaderAt mem (BitVec.ofNat 32 u.lo) u.len used) (hu : IsBlock u)
    (hc : ChangesWithin S mem mem') (hS : ∀ x ∈ u, ¬ S x) :
    HeaderAt mem' (BitVec.ofNat 32 u.lo) u.len used := by
  have hb := hu.bounds
  have hlo := toNat_ofNat_lo hu
  refine h.congr hc (by omega) (fun x h₁ h₂ ↦ hS x ?_) fun x h₁ h₂ ↦ hS x ?_ <;>
    exact Interval.mem_iff.mpr (by omega)

/-! ## `km_extend`, `km_find` and `km_split` on a represented heap -/

def outOfMemory : Halt := .panic "km_extend(): out of memory"

/-- The part of the state that allocation does not move backwards. -/
structure Grows (s s' : State) : Prop where
  kheapBegin : s'.kheapBegin = s.kheapBegin
  kheapMaxEnd : s'.kheapMaxEnd = s.kheapMaxEnd
  kheapEnd : s'.kheapEnd = s.kheapEnd ∨
    s.kheapEnd.toNat ≤ s'.kheapEnd.toNat ∧ s'.kheapEnd.toNat ≤ s.kheapMaxEnd.toNat

theorem Grows.le {s s' : State} (h : Grows s s') : s.kheapEnd.toNat ≤ s'.kheapEnd.toNat := by
  rcases h.kheapEnd with he | he
  · exact Nat.le_of_eq (congrArg _ he.symm)
  · exact he.1

theorem Grows.refl (s : State) : Grows s s := ⟨rfl, rfl, .inl rfl⟩

theorem Grows.trans {s s' s'' : State} (h : Grows s s') (h' : Grows s' s'') : Grows s s'' where
  kheapBegin := h'.kheapBegin.trans h.kheapBegin
  kheapMaxEnd := h'.kheapMaxEnd.trans h.kheapMaxEnd
  kheapEnd := by
    rcases h'.kheapEnd with he' | he'
    · rw [he']
      exact h.kheapEnd
    · rw [h.kheapMaxEnd] at he'
      exact .inr ⟨Nat.le_trans h.le he'.1, he'.2⟩

/-- The bytes an allocation may write: those of the free blocks and those it adds to the heap. -/
def Room (s s' : State) (fs : List Interval) (x : Nat) : Prop :=
  Covers fs x ∨ s.kheapEnd.toNat ≤ x ∧ x < s'.kheapEnd.toNat

theorem kmExtend_eq {s : State} {t : Word} (ht : t.toNat + 4095 < 2 ^ 32)
    (hend : s.kheapEnd.toNat + roundUp 4096 t.toNat < 2 ^ 32) :
    (kmallocAlign t KMALLOC_PAGESIZE).toNat = roundUp 4096 t.toNat ∧
      (s.kheapEnd + kmallocAlign t KMALLOC_PAGESIZE).toNat =
        s.kheapEnd.toNat + roundUp 4096 t.toNat ∧
      kmExtend t s =
        if s.kheapMaxEnd.toNat < s.kheapEnd.toNat + roundUp 4096 t.toNat then .error outOfMemory
        else .ok (s.kheapEnd, { s with
          mem := kmInitblock s.mem s.kheapEnd (kmallocAlign t KMALLOC_PAGESIZE)
          kheapEnd := s.kheapEnd + kmallocAlign t KMALLOC_PAGESIZE }) := by
  have ha : (kmallocAlign t KMALLOC_PAGESIZE).toNat = roundUp 4096 t.toNat :=
    kmallocAlign_toNat (by decide) ht
  have he : (s.kheapEnd + kmallocAlign t KMALLOC_PAGESIZE).toNat =
      s.kheapEnd.toNat + roundUp 4096 t.toNat := by
    rw [BitVec.toNat_add, ha, Nat.mod_eq_of_lt hend]
  refine ⟨ha, he, ?_⟩
  simp only [kmExtend, gt_iff_lt, BitVec.lt_def, he, outOfMemory]

theorem kmExtend_spec {s : State} {t : Word} (fs us : List Interval)
    (hc : FreeSeg s.mem s.freeList fs NULL)
    (hh : ∀ u ∈ us, HeaderAt s.mem (BitVec.ofNat 32 u.lo) u.len true)
    (hp : Partition s.kheapBegin.toNat s.kheapEnd.toNat fs us)
    (hb : Bounds s.kheapBegin.toNat s.kheapEnd.toNat)
    (ht0 : 0 < t.toNat) (ht : t.toNat + 4095 < 2 ^ 32)
    (hend : s.kheapEnd.toNat + roundUp 4096 t.toNat < 2 ^ 32) :
    kmExtend t s = .error outOfMemory ∧
        s.kheapMaxEnd.toNat < s.kheapEnd.toNat + roundUp 4096 t.toNat ∨
      ∃ mem' e', kmExtend t s = .ok (s.kheapEnd, { s with mem := mem', kheapEnd := e' }) ∧
        e'.toNat = s.kheapEnd.toNat + roundUp 4096 t.toNat ∧
        e'.toNat ≤ s.kheapMaxEnd.toNat ∧
        Held { s with mem := mem', kheapEnd := e' } fs us
          ⟨s.kheapEnd.toNat, roundUp 4096 t.toNat⟩ false ∧
        ChangesWithin (fun x ↦ s.kheapEnd.toNat ≤ x ∧ x < e'.toNat) s.mem mem' := by
  obtain ⟨ha, he, hr⟩ := kmExtend_eq ht hend
  by_cases hmax : s.kheapMaxEnd.toNat < s.kheapEnd.toNat + roundUp 4096 t.toNat
  · left
    exact ⟨by rw [hr, if_pos hmax], hmax⟩
  · right
    have hdvd := dvd_roundUp 4096 t.toNat
    have hle := le_roundUp_4096 t.toNat
    have hb₁ := hb.pos
    have hb₂ := hb.le
    have hpage := hb.page
    have blk : IsBlock ⟨s.kheapEnd.toNat, roundUp 4096 t.toNat⟩ :=
      ⟨by dsimp only; omega, by dsimp only; omega, by dsimp only; omega, by dsimp only; omega,
        hend⟩
    have bb := blk.bounds
    dsimp only at bb
    have h16 : s.kheapEnd.toNat + 16 ≤ 2 ^ 32 := by omega
    have hcw := changesWithin_kmInitblock s.mem (kmallocAlign t KMALLOC_PAGESIZE) h16
    refine ⟨_, _, hr.trans (if_neg hmax), he, by omega, ⟨?_, ?_, ?_, ?_, ?_⟩, ?_⟩
    · refine hc.congr hcw hp.freeBlock fun j hj x h₁ h₂ h₃ ↦ ?_
      have h₄ := hp.free_in_range hj
      have h₅ := (hp.freeBlock j hj).bounds
      simp only [Interval.hi] at h₄
      omega
    · refine fun u hu ↦ (hh u hu).congr_block (hp.usedBlock u hu) hcw fun x hx h₃ ↦ ?_
      have := hp.lt_of_used hu hx
      omega
    · rw [ofNat_toNat_eq (w := s.kheapEnd) rfl]
      have := headerAt_kmInitblock s.mem (p := s.kheapEnd)
        (kmallocAlign t KMALLOC_PAGESIZE) (by rw [ha]; exact blk.len_dvd) h16
      rwa [ha] at this
    · dsimp only
      rw [he]
      exact hp.extend blk hb₂
    · exact ⟨hb₁, by dsimp only; omega, by dsimp only; rw [he]; exact Nat.dvd_add hpage hdvd⟩
    · exact hcw.mono fun x hx ↦ by omega

/-- No sum on the way to a block of `t` bytes wraps: a free block is large enough, or both the
page rounding and the new end of the heap stay below `2 ^ 32`. -/
def Fits (s : State) (fs : List Interval) (t : Nat) : Prop :=
  (∃ f ∈ fs, t ≤ f.len) ∨
    t + 4095 < 2 ^ 32 ∧ s.kheapEnd.toNat + roundUp 4096 t < 2 ^ 32

/-- Where `t` bytes come from: the first free block that is large enough or, when there is none,
the end of the heap. -/
def Source (s : State) (fs : List Interval) (t lo : Nat) (s' : State) : Prop :=
  (∃ l k m, FirstFit fs t l k m ∧ lo = k.lo ∧ s'.kheapEnd = s.kheapEnd) ∨
    (∀ j ∈ fs, j.len < t) ∧ lo = s.kheapEnd.toNat ∧
      s'.kheapEnd.toNat = s.kheapEnd.toNat + roundUp 4096 t

/-- No free block has `t` bytes and the heap cannot grow by as many. -/
def Exhausted (s : State) (fs : List Interval) (t : Nat) : Prop :=
  (∀ j ∈ fs, j.len < t) ∧ s.kheapMaxEnd.toNat < s.kheapEnd.toNat + roundUp 4096 t

theorem kmFind_held {s : State} {t : Word} {fs us : List Interval} (h : Rep s fs us)
    (ht0 : 0 < t.toNat) (hfit : Fits s fs t.toNat) :
    kmFind t s = .error outOfMemory ∧ Exhausted s fs t.toNat ∨
      ∃ b s' fs' i, kmFind t s = .ok (b, s') ∧ b.toNat = i.lo ∧ t.toNat ≤ i.len ∧
        Held s' fs' us i false ∧ Grows s s' ∧ Source s fs t.toNat i.lo s' ∧
        (∀ x, x ∈ i ∨ Covers fs' x → Room s s' fs x) ∧
        ChangesWithin (Room s s' fs) s.mem s'.mem := by
  rcases kmFind_spec t h.chain h.partition.separated h.partition.freeBlock with
    ⟨hall, he⟩ | ⟨l, k, m, pk, mem', fl', hfirst, hr, -, hpk, hhk, hf, hcw⟩
  · have hnew := hfit.resolve_left fun ⟨f, hf, hle⟩ ↦ absurd (hall f hf) (by omega)
    rw [he]
    refine (kmExtend_spec fs us h.chain h.header h.partition h.bounds ht0 hnew.1 hnew.2).imp
      (fun hx ↦ ⟨hx.1, hall, hx.2⟩) ?_
    rintro ⟨mem', e', hr, he', hmax, hh, hcw⟩
    have hle := le_roundUp_4096 t.toNat
    refine ⟨_, _, _, _, hr, rfl, hle, hh, ⟨rfl, rfl, .inr ⟨by dsimp only; omega, hmax⟩⟩,
      .inr ⟨hall, rfl, he'⟩, ?_, hcw.mono fun x hx ↦ .inr hx⟩
    rintro x (hx | hx)
    · simp only [Interval.mem_iff] at hx
      exact .inr (by dsimp only; omega)
    · exact .inl hx
  · right
    have hsource : Source s fs t.toNat k.lo { s with mem := mem', freeList := fl' } :=
      .inl ⟨l, k, m, hfirst, rfl, rfl⟩
    obtain ⟨hff, -, hk⟩ := hfirst
    subst hff
    have hp := h.partition.take
    refine ⟨pk, _, l ++ m, k, hr, hpk, hk, ⟨hf, fun u hu ↦ ?_, ?_, hp, h.bounds⟩,
      ⟨rfl, rfl, .inl rfl⟩, hsource, fun x hx ↦ .inl ?_, hcw.mono fun x hx ↦ .inl hx⟩
    · exact (h.header u hu).congr_block (h.partition.usedBlock u hu) hcw fun x hx ↦
        h.partition.not_free_of_used hu hx
    · rw [ofNat_toNat_eq hpk]
      exact hhk
    · simp only [covers_append, covers_cons] at hx ⊢
      tauto

theorem kmSplit_held {s : State} {b t : Word} {fs us : List Interval} {i : Interval} {used : Bool}
    (h : Held s fs us i used) (hb : b.toNat = i.lo) (ht : 16 ∣ t.toNat) (ht0 : 0 < t.toNat)
    (hle : t.toNat ≤ i.len) :
    ∃ mem' fl', kmSplit b t s = .ok (b, { s with mem := mem', freeList := fl' }) ∧
      Held { s with mem := mem', freeList := fl' } (splitFree i.lo i.len t.toNat fs) us
        ⟨i.lo, t.toNat⟩ used ∧
      ChangesWithin
        (fun x ↦ (i.lo ≤ x ∧ x < i.lo + 4) ∨ (i.lo + t.toNat ≤ x ∧ x < i.hi) ∨ Covers fs x)
        s.mem mem' := by
  have hp := h.partition
  obtain ⟨mem', fl', hr, hh, hf, hcw⟩ := kmSplit_spec hb
    (by rw [← ofNat_toNat_eq hb]; exact h.own) h.isBlock ht ht0 hle h.chain hp.separated
    hp.freeBlock (hp.apart i List.mem_cons_self)
  refine ⟨mem', fl', hr, ⟨hf, fun u hu ↦ ?_, ?_, hp.split ht ht0 hle, h.bounds⟩, hcw⟩
  · refine (h.header u hu).congr_block (hp.usedBlock u (List.mem_cons_of_mem _ hu)) hcw
      fun x hx hS ↦ ?_
    have hi := hp.not_mem_of_used hu hx
    have hbi := h.isBlock.bounds
    simp only [Interval.mem_iff, Interval.hi] at hi hS
    rcases hS with hS | hS | hS
    · omega
    · omega
    · exact hp.not_free_of_used (List.mem_cons_of_mem _ hu) hx hS
  · dsimp only
    rw [ofNat_toNat_eq hb]
    exact hh

theorem covers_splitFree {i : Interval} {t x : Nat} {fs : List Interval}
    (h : Covers (splitFree i.lo i.len t fs) x) : x ∈ i ∨ Covers fs x := by
  rw [splitFree] at h
  split at h
  · exact .inr h
  · refine ((covers_insertMerge _ _ _).mp h).imp_left fun hx ↦ ?_
    simp only [Interval.mem_iff] at hx ⊢
    omega

/-! ## The operations -/

/-- After an allocation the free blocks lie where free blocks were or in what was added. -/
theorem Rep.free_room {s s' : State} {fs fs' us : List Interval} {v : Interval} {x : Nat}
    (h : Rep s fs us) (h' : Rep s' fs' (v :: us)) (hg : Grows s s') (hx : Covers fs' x) :
    Room s s' fs x := by
  obtain ⟨h₁, h₂⟩ := (h'.partition.cover x).mpr (.inl hx)
  rw [hg.kheapBegin] at h₁
  by_cases hend : s.kheapEnd.toNat ≤ x
  · exact .inr ⟨hend, h₂⟩
  · refine .inl (((h.partition.cover x).mp ⟨h₁, by omega⟩).resolve_right ?_)
    rintro ⟨u, hu, hxu⟩
    exact h'.partition.not_free_of_used (List.mem_cons_of_mem _ hu) hxu hx

/-- Marking the block in hand as allocated hands it out. -/
theorem Held.kmSetalloc {s : State} {fs us : List Interval} {i : Interval} {used : Bool} {b : Word}
    (h : Held s fs us i used) (hb : b.toNat = i.lo) (stats : KMStats) :
    Rep { s with mem := kmSetalloc s.mem b, kmallocStats := stats } fs (i :: us) ∧
      ChangesWithin (· ∈ i) s.mem (kmSetalloc s.mem b) := by
  have hp := h.partition
  have bi := h.isBlock.bounds
  have hb16 : b.toNat + 16 ≤ 2 ^ 32 := by omega
  have hown : HeaderAt s.mem b i.len used := by
    rw [← ofNat_toNat_eq hb]
    exact h.own
  have hc : ChangesWithin (· ∈ i) s.mem (AlienOS.Heap.kmSetalloc s.mem b) :=
    (changesWithin_metadata _ _ hb16).mono fun x hx ↦ Interval.mem_iff.mpr (by omega)
  refine ⟨⟨?_, ?_, hp, h.bounds⟩, hc⟩
  · exact h.chain.congr_apart hc hp.freeBlock (fun x hx ↦ hx) (hp.apart _ List.mem_cons_self)
  · refine List.forall_mem_cons.mpr ⟨?_, fun u hu ↦ ?_⟩
    · dsimp only
      rw [ofNat_toNat_eq hb]
      exact hown.kmSetalloc hb16
    · exact (h.header u hu).congr_block (hp.usedBlock u (List.mem_cons_of_mem _ hu)) hc
        fun x hx ↦ hp.not_mem_of_used hu hx

/-- What an allocation of `n` bytes leaves: a used block behind the returned pointer, which lies,
as every write does, inside the bytes `S`. -/
def Allocates (s : State) (us : List Interval) (n : Nat) (S : State → Nat → Prop) (q : Word)
    (s' : State) : Prop :=
  ∃ fs' lo, q.toNat = lo + 16 ∧ Rep s' fs' (⟨lo, n⟩ :: us) ∧ Grows s s' ∧
    (∀ x, x ∈ (⟨lo, n⟩ : Interval) → S s' x) ∧ ChangesWithin (S s') s.mem s'.mem

theorem kmallocUnsafe_eq (size : Word) (s : State) : kmallocUnsafe size s = (do
    let (block, s) ← kmFind (targetSize size) s
    if block = NULL then .ok (NULL, s)
    else
      let (block, s) ← kmSplit block (targetSize size) s
      let mem := kmSetalloc s.mem block
      .ok (block + sizeofKmBlockHeader, { s with
        mem := mem
        kmallocStats := { s.kmallocStats with
          allocationCnt := s.kmallocStats.allocationCnt + 1
          allocationBytes := s.kmallocStats.allocationBytes + kmGetsize mem block } })) := rfl

theorem kmallocUnsafe_spec {s : State} {size : Word} {fs us : List Interval} (h : Rep s fs us)
    (hsize : size.toNat + 31 < 2 ^ 32) (hfit : Fits s fs (blockSize size)) :
    kmallocUnsafe size s = .error outOfMemory ∧ Exhausted s fs (blockSize size) ∨
      ∃ q s', kmallocUnsafe size s = .ok (q, s') ∧
        Allocates s us (blockSize size) (fun s' ↦ Room s s' fs) q s' ∧
        Source s fs (blockSize size) (q.toNat - 16) s' := by
  have ht := targetSize_toNat hsize
  obtain ⟨hb₁, hb₂, -⟩ := blockSize_bounds size
  have hrun := kmallocUnsafe_eq size s
  rcases kmFind_held h (t := targetSize size) (by omega) (by rwa [ht]) with
    ⟨he, hx⟩ | ⟨b, s₁, fs₁, i, hr, hbi, hle, hheld, hg, hsource, hroom, hcw⟩
  · left
    rw [ht] at hx
    exact ⟨by rw [hrun, he]; rfl, hx⟩
  · right
    rw [ht] at hle
    obtain ⟨mem₂, fl₂, hr₂, hheld₂, hcw₂⟩ := kmSplit_held (t := targetSize size) hheld hbi
      (by rwa [ht]) (by omega) (by omega)
    rw [ht] at hheld₂ hcw₂
    have bi := hheld.isBlock.bounds
    have hb0 : b ≠ NULL := by
      rintro rfl
      have : i.lo = 0 := hbi.symm
      omega
    obtain ⟨hrep, hcw₃⟩ := hheld₂.kmSetalloc hbi { s₁.kmallocStats with
      allocationCnt := s₁.kmallocStats.allocationCnt + 1
      allocationBytes := s₁.kmallocStats.allocationBytes + kmGetsize (kmSetalloc mem₂ b) b }
    have hin : ∀ x, x ∈ (⟨i.lo, blockSize size⟩ : Interval) → Room s s₁ fs x := fun x hx ↦
      hroom x (.inl (by simp only [Interval.mem_iff] at hx ⊢; omega))
    have hq : (b + sizeofKmBlockHeader).toNat = i.lo + 16 := by
      rw [BitVec.toNat_add, hbi]
      exact Nat.mod_eq_of_lt (by change i.lo + 16 < 2 ^ 32; omega)
    refine ⟨b + sizeofKmBlockHeader, _, ?_, ⟨_, i.lo, hq, hrep, ⟨hg.kheapBegin, hg.kheapMaxEnd,
      hg.kheapEnd⟩, hin, ?_⟩, ?_⟩
    · simp only [hrun, hr, hr₂, bind, Except.bind, if_neg hb0]
    · refine (hcw.trans (hcw₂.mono fun x hx ↦ hroom x ?_)).trans (hcw₃.mono hin)
      rcases hx with hx | hx | hx
      · exact .inl (Interval.mem_iff.mpr (by omega))
      · exact .inl (Interval.mem_iff.mpr (by simp only [Interval.hi] at hx; omega))
      · exact .inr hx
    · rw [hq, Nat.add_sub_cancel, ← ht]
      exact hsource

theorem changesWithin_kcallocZero (mem : Memory) (ptr : Word) {n : Nat}
    (h : ptr.toNat + n ≤ 2 ^ 32) :
    ChangesWithin (fun x ↦ ptr.toNat ≤ x ∧ x < ptr.toNat + n) mem (kcallocZero mem ptr n) := by
  induction n with
  | zero => exact .refl _ _
  | succ n ih =>
    refine ((ih (by omega)).mono fun x hx ↦ by omega).trans fun x hx ↦ ?_
    have hat : (ptr + BitVec.ofNat 32 n).toNat = ptr.toNat + n := by
      rw [BitVec.toNat_add, BitVec.toNat_ofNat, Nat.add_mod_mod, Nat.mod_eq_of_lt (by omega)]
    exact writeByte_other _ fun he ↦ hx (by rw [he, hat]; omega)

/-- Changes inside the payload of a used block keep the representation. -/
theorem Rep.payload {s : State} {fs us : List Interval} {u : Interval} {mem' : Memory}
    {S : Nat → Prop} (h : Rep s fs us) (hu : u ∈ us) (hc : ChangesWithin S s.mem mem')
    (hS : ∀ x, S x → u.lo + 16 ≤ x ∧ x < u.hi) : Rep { s with mem := mem' } fs us := by
  have hp := h.partition
  have hin : ∀ x, S x → x ∈ u := fun x hx ↦ Interval.mem_iff.mpr (by
    have := hS x hx
    simp only [Interval.hi] at this
    omega)
  refine ⟨h.chain.congr_apart hc hp.freeBlock hin (hp.apart u hu), fun v hv ↦ ?_, hp, h.bounds⟩
  · have hv' := hp.usedBlock v hv
    have hb := hv'.bounds
    have hlo := toNat_ofNat_lo hv'
    have hout : ∀ x, v.lo ≤ x → x < v.lo + 16 → ¬ S x := fun x h₁ h₂ h₃ ↦ by
      by_cases he : u = v
      · have := hS x h₃
        subst he
        omega
      · exact (hp.used_apart hu hv he).not_mem (hin x h₃) (Interval.mem_iff.mpr (by omega))
    exact (h.header v hv).congr hc (by omega) (fun x h₁ h₂ ↦ hout x (by omega) (by omega))
      fun x h₁ h₂ ↦ hout x (by omega) (by omega)

theorem toNat_add_ofNat {p : Word} {n k : Nat} (h : p.toNat + n ≤ 2 ^ 32) (hk : k < n) :
    (p + BitVec.ofNat 32 k).toNat = p.toNat + k := by
  rw [BitVec.toNat_add, BitVec.toNat_ofNat, Nat.add_mod_mod, Nat.mod_eq_of_lt (by omega)]

theorem kcallocZero_byte (mem : Memory) {ptr : Word} {n k : Nat} (h : ptr.toNat + n ≤ 2 ^ 32)
    (hk : k < n) : (kcallocZero mem ptr n).byte (ptr + BitVec.ofNat 32 k) = 0 := by
  induction n with
  | zero => exact absurd hk (Nat.not_lt_zero k)
  | succ n ih =>
    have hn := toNat_add_ofNat h (Nat.lt_succ_self n)
    have hk' := toNat_add_ofNat h hk
    by_cases he : k = n
    · rw [he, kcallocZero, writeByte_self]
    · have hne : (ptr + BitVec.ofNat 32 k).toNat ≠ ptr.toNat + n := by omega
      rw [kcallocZero, writeByte_other _ fun hc ↦ hne (by rw [hc, hn])]
      exact ih (by omega) (by omega)

/-- The zeroed bytes lie in the payload of the new block, whatever the product wrapped to. -/
theorem kcallocUnsafe_spec {s : State} {nelems elemsize : Word} {fs us : List Interval}
    (h : Rep s fs us) (hsize : (nelems * elemsize).toNat + 31 < 2 ^ 32)
    (hfit : Fits s fs (blockSize (nelems * elemsize))) :
    kcallocUnsafe nelems elemsize s = .error outOfMemory ∧
        Exhausted s fs (blockSize (nelems * elemsize)) ∨
      ∃ q s₁ s', kmallocUnsafe (nelems * elemsize) s = .ok (q, s₁) ∧
        s' = { s₁ with mem := kcallocZero s₁.mem q (nelems * elemsize).toNat } ∧
        kcallocUnsafe nelems elemsize s = .ok (q, s') ∧
        Allocates s us (blockSize (nelems * elemsize)) (fun s' ↦ Room s s' fs) q s' ∧
        Source s fs (blockSize (nelems * elemsize)) (q.toNat - 16) s' := by
  obtain ⟨-, hb, -⟩ := blockSize_bounds (nelems * elemsize)
  rcases kmallocUnsafe_spec h hsize hfit with
    ⟨he, hx⟩ | ⟨q, s₁, hr, ⟨fs₁, lo, hq, hrep, hg, hin, hc⟩, hsource⟩
  · exact .inl ⟨by rw [kcallocUnsafe, he]; rfl, hx⟩
  · right
    have bn := (hrep.partition.usedBlock _ List.mem_cons_self).bounds
    dsimp only at bn
    have hz := changesWithin_kcallocZero s₁.mem q
      (n := (nelems * elemsize).toNat) (by omega)
    refine ⟨q, s₁, _, hr, rfl, ?_, ⟨fs₁, lo, hq,
      hrep.payload List.mem_cons_self hz fun x hx ↦ ?_,
      ⟨hg.kheapBegin, hg.kheapMaxEnd, hg.kheapEnd⟩, hin, hc.trans (hz.mono fun x hx ↦ hin x ?_)⟩,
      hsource⟩
    · rw [kcallocUnsafe, hr]
      rfl
    · simp only [Interval.hi]
      omega
    · exact Interval.mem_iff.mpr (by dsimp only; omega)

theorem kfreeUnsafe_eq {s : State} {ptr : Word} {n : Nat} (hne : ptr ≠ NULL)
    (h : HeaderAt s.mem (ptr - sizeofKmBlockHeader) n true) :
    kfreeUnsafe ptr s = kmInsert (ptr - sizeofKmBlockHeader) { s with
      kmallocStats := { s.kmallocStats with
        freeBytes := s.kmallocStats.freeBytes + kmGetsize s.mem (ptr - sizeofKmBlockHeader)
        freeCnt := s.kmallocStats.freeCnt + 1 }
      mem := kmClearalloc s.mem (ptr - sizeofKmBlockHeader) } := by
  simp only [kfreeUnsafe, if_neg hne, h.magic, h.alloc, kernelAssert, if_true, bind, Except.bind]

/-- The header that `kfree` and `krealloc` compute from the pointer to a used block. -/
theorem Rep.block {s : State} {ptr : Word} {fs us : List Interval} {u : Interval}
    (h : Rep s fs us) (hu : u ∈ us) (hptr : ptr.toNat = u.lo + 16) :
    ptr ≠ NULL ∧ (ptr - sizeofKmBlockHeader).toNat = u.lo ∧
      HeaderAt s.mem (ptr - sizeofKmBlockHeader) u.len true := by
  have hb : (ptr - sizeofKmBlockHeader).toNat = u.lo := by
    have h16 : sizeofKmBlockHeader.toNat = 16 := rfl
    rw [BitVec.toNat_sub_of_le (by rw [BitVec.le_def]; omega), hptr]
    omega
  refine ⟨?_, hb, ?_⟩
  · rintro rfl
    exact absurd hptr.symm (by simp [NULL])
  · rw [← ofNat_toNat_eq hb]
    exact h.header u hu

theorem kfreeUnsafe_spec {s : State} {ptr : Word} {fs us : List Interval} {u : Interval}
    (h : Rep s fs (u :: us)) (hptr : ptr.toNat = u.lo + 16) :
    ∃ s', kfreeUnsafe ptr s = .ok s' ∧ Rep s' (insertMerge u fs) us ∧ Grows s s' ∧
      s'.kheapEnd = s.kheapEnd ∧
      ChangesWithin (fun x ↦ x ∈ u ∨ Covers fs x) s.mem s'.mem := by
  have hp := h.partition
  have bu := (hp.usedBlock u List.mem_cons_self).bounds
  obtain ⟨hne, hb, hh⟩ := h.block List.mem_cons_self hptr
  have hrun := kfreeUnsafe_eq hne hh
  generalize ptr - sizeofKmBlockHeader = b at *
  have hb16 : b.toNat + 16 ≤ 2 ^ 32 := by omega
  have hc₁ := changesWithin_metadata s.mem (kmMetadata s.mem b &&& ~~~KMALLOC_ALLOC_BIT)
    hb16
  have hin : ∀ x, b.toNat ≤ x ∧ x < b.toNat + 4 → x ∈ u :=
    fun x hx ↦ Interval.mem_iff.mpr (by omega)
  obtain ⟨mem', fl', hr, hf, hc₂⟩ := kmInsert_spec
    (s := { s with
      kmallocStats := { s.kmallocStats with
        freeBytes := s.kmallocStats.freeBytes + kmGetsize s.mem b
        freeCnt := s.kmallocStats.freeCnt + 1 }
      mem := kmClearalloc s.mem b }) hb (hh.kmClearalloc hb16)
    (hp.usedBlock u List.mem_cons_self)
    (h.chain.congr_apart hc₁ hp.freeBlock hin (hp.apart u List.mem_cons_self))
    hp.separated hp.freeBlock (hp.apart u List.mem_cons_self)
  have hc : ChangesWithin (fun x ↦ x ∈ u ∨ Covers fs x) s.mem mem' :=
    (hc₁.mono fun x hx ↦ .inl (hin x hx)).trans hc₂
  rw [hr] at hrun
  refine ⟨_, hrun, ⟨hf, fun v hv ↦ ?_, hp.release, h.bounds⟩, ⟨rfl, rfl, .inl rfl⟩, rfl, hc⟩
  refine (h.header v (List.mem_cons_of_mem _ hv)).congr_block
    (hp.usedBlock v (List.mem_cons_of_mem _ hv)) hc fun x hx hS ↦ ?_
  rcases hS with hS | hS
  · exact hp.not_mem_of_used hv hx hS
  · exact hp.not_free_of_used (List.mem_cons_of_mem _ hv) hx hS

/-! ## Statistics -/

/-- The counters after an allocation of a block of `n` bytes. -/
def KMStats.alloc (st : KMStats) (n : Word) : KMStats :=
  { st with allocationCnt := st.allocationCnt + 1, allocationBytes := st.allocationBytes + n }

/-- The counters after a block of `n` bytes was freed. -/
def KMStats.free (st : KMStats) (n : Word) : KMStats :=
  { st with freeBytes := st.freeBytes + n, freeCnt := st.freeCnt + 1 }

section

variable {s s' : State}

theorem kmInsert_stats {b : Word} (h : kmInsert b s = .ok s') :
    s'.kmallocStats = s.kmallocStats := by
  unfold kmInsert at h
  split at h
  · cases h
    rfl
  · split at h
    · cases h
      rfl
    · obtain ⟨_, -, h⟩ := bind_eq_ok.mp h
      obtain ⟨-, -, h⟩ := bind_eq_ok.mp h
      obtain ⟨-, -, h⟩ := bind_eq_ok.mp h
      obtain ⟨-, -, h⟩ := bind_eq_ok.mp h
      cases h
      rfl

theorem kmFind_stats {size b : Word} (h : kmFind size s = .ok (b, s')) :
    s'.kmallocStats = s.kmallocStats := by
  obtain ⟨⟨prev, cur⟩, -, h⟩ := bind_eq_ok.mp h
  dsimp only at h
  split at h
  · unfold kmExtend at h
    dsimp only at h
    split at h
    · cases h
    · cases h
      rfl
  · split at h <;> cases h <;> rfl

theorem kmSplit_stats {b t b' : Word} (h : kmSplit b t s = .ok (b', s')) :
    s'.kmallocStats = s.kmallocStats := by
  unfold kmSplit at h
  split at h
  · cases h
    rfl
  · obtain ⟨s₁, h₁, h⟩ := bind_eq_ok.mp h
    cases h
    rw [kmInsert_stats h₁]

/-- `_kmalloc_unsafe` counts the block it returns with the size in its header. -/
theorem kmallocUnsafe_stats {size q : Word} (h : kmallocUnsafe size s = .ok (q, s'))
    (hq : q ≠ NULL) :
    s'.kmallocStats = s.kmallocStats.alloc (kmGetsize s'.mem (q - sizeofKmBlockHeader)) := by
  obtain ⟨⟨b, s₁⟩, h₁, h⟩ := bind_eq_ok.mp h
  dsimp only at h
  split at h
  · cases h
    exact absurd rfl hq
  · obtain ⟨⟨b', s₂⟩, h₂, h⟩ := bind_eq_ok.mp h
    cases h
    simp only [kmSplit_stats h₂, kmFind_stats h₁, BitVec.add_sub_cancel, KMStats.alloc]

/-- `_kfree_unsafe` counts a block with the size in its header. -/
theorem kfreeUnsafe_stats {ptr : Word} (h : kfreeUnsafe ptr s = .ok s') (hne : ptr ≠ NULL) :
    s'.kmallocStats = s.kmallocStats.free (kmGetsize s.mem (ptr - sizeofKmBlockHeader)) := by
  unfold kfreeUnsafe at h
  rw [if_neg hne] at h
  obtain ⟨-, -, h⟩ := bind_eq_ok.mp h
  obtain ⟨-, -, h⟩ := bind_eq_ok.mp h
  exact kmInsert_stats h

end

end AlienOS.Heap
