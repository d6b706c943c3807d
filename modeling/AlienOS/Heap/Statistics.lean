import AlienOS.Heap.Resize
import Mathlib.Algebra.BigOperators.Group.List.Basic
import Mathlib.Data.BitVec
import Mathlib.Tactic.Ring

/-!
# Statistics — the counters of `kmalloc.c` against the live blocks

`_kmalloc_unsafe` and `_kfree_unsafe` count the blocks they hand out and take back.  The counters
describe the live blocks as long as no `_krealloc_unsafe` changes the size of a block in place.
-/

open AlienOS.Lib

namespace AlienOS.Heap

/-- `allocation_bytes - free_bytes` -/
def bytesInUse (s : State) : Word :=
  s.kmallocStats.allocationBytes - s.kmallocStats.freeBytes

/-- `allocation_cnt - free_cnt` -/
def blocksInUse (s : State) : Word :=
  s.kmallocStats.allocationCnt - s.kmallocStats.freeCnt

/-- The sum of the block sizes of all live allocations. -/
def liveBytes (σ : Session) : Word :=
  (σ.live.map fun a ↦ kmGetsize σ.heap.mem (a.ptr - sizeofKmBlockHeader)).sum

def liveBlocks (σ : Session) : Word := BitVec.ofNat 32 σ.live.length

/-- The block of a live pointer has the size asked for, or it is too small and the block behind it
is not a free one that would make up for it. -/
def KeepsSize (s : State) (ptr size : Word) : Prop :=
  let block := ptr - sizeofKmBlockHeader
  let nextBlock := block + kmGetsize s.mem block
  blockSize size = (kmGetsize s.mem block).toNat ∨
    (kmGetsize s.mem block).toNat < blockSize size ∧
      ¬ (OnList s.mem s.freeList nextBlock ∧
        blockSize size ≤ (kmGetsize s.mem block).toNat + (kmGetsize s.mem nextBlock).toNat)

/-- A safe call that, if it is a `krealloc` of a live block, does not resize it in place. -/
def Call.Accounted (σ : Session) (c : Call) : Prop :=
  c.Safe σ ∧ ∀ ptr size, c = .krealloc ptr size → ptr = NULL ∨ size = 0 ∨ KeepsSize σ.heap ptr size

/-- The sessions that calls allowed by `P` lead to from `σ₀`. -/
inductive Leads (P : Session → Call → Prop) (σ₀ : Session) : Session → Prop where
  | refl : Leads P σ₀ σ₀
  | step {σ σ' : Session} {c : Call} {q : Word} :
      Leads P σ₀ σ → P σ c → c.exec σ = .ok (q, σ') → Leads P σ₀ σ'

/-! ## The balance of a represented heap -/

def total (us : List Interval) : Word := (us.map fun u ↦ BitVec.ofNat 32 u.len).sum

/-- The counters stand `b` bytes and `n` blocks above the used blocks `us`. -/
structure Balance (s : State) (us : List Interval) (b n : Word) : Prop where
  bytes : bytesInUse s = total us + b
  blocks : blocksInUse s = BitVec.ofNat 32 us.length + n

theorem ofNat_length_cons (u : Interval) (us : List Interval) :
    BitVec.ofNat 32 (u :: us).length = BitVec.ofNat 32 us.length + 1 := by
  rw [List.length_cons, BitVec.ofNat_add]
  rfl

namespace Balance

variable {s s' : State} {us us' : List Interval} {u : Interval} {b n : Word}

theorem perm (h : Balance s us b n) (hp : us.Perm us') : Balance s us' b n where
  bytes := by rw [h.bytes, total, total, (hp.map _).sum_eq]
  blocks := by rw [h.blocks, hp.length_eq]

theorem of_stats (h : Balance s us b n) (hs : s'.kmallocStats = s.kmallocStats) :
    Balance s' us b n := by
  obtain ⟨h₁, h₂⟩ := h
  unfold bytesInUse at h₁
  unfold blocksInUse at h₂
  exact ⟨by rw [bytesInUse, hs, h₁], by rw [blocksInUse, hs, h₂]⟩

theorem alloc (h : Balance s us b n)
    (hs : s'.kmallocStats = s.kmallocStats.alloc (BitVec.ofNat 32 u.len)) :
    Balance s' (u :: us) b n := by
  obtain ⟨h₁, h₂⟩ := h
  unfold bytesInUse at h₁
  unfold blocksInUse at h₂
  constructor
  · rw [bytesInUse, hs, total, List.map_cons, List.sum_cons, add_assoc, ← total, ← h₁]
    simp only [KMStats.alloc]
    ring
  · rw [blocksInUse, hs, ofNat_length_cons, add_right_comm, ← h₂]
    simp only [KMStats.alloc]
    ring

theorem free (h : Balance s (u :: us) b n)
    (hs : s'.kmallocStats = s.kmallocStats.free (BitVec.ofNat 32 u.len)) :
    Balance s' us b n := by
  obtain ⟨h₁, h₂⟩ := h
  unfold bytesInUse total at h₁
  unfold blocksInUse at h₂
  rw [List.map_cons, List.sum_cons] at h₁
  rw [ofNat_length_cons] at h₂
  constructor
  · rw [bytesInUse, hs, total]
    simp only [KMStats.free, sub_add_eq_sub_sub, h₁]
    ring
  · rw [blocksInUse, hs]
    simp only [KMStats.free, sub_add_eq_sub_sub, h₂]
    ring

end Balance

theorem Inv.liveBytes_eq {σ : Session} {fs us : List Interval} (h : Inv σ fs us) :
    liveBytes σ = total us := by
  have hsize : ∀ u ∈ us, ∀ a : Alloc, Serves u a →
      kmGetsize σ.heap.mem (a.ptr - sizeofKmBlockHeader) = BitVec.ofNat 32 u.len := by
    intro u hu a hs
    obtain ⟨-, -, hh⟩ := h.rep.block hu hs.1
    exact (ofNat_toNat_eq hh.size).symm
  have hs := h.serves
  unfold liveBytes total
  clear h
  generalize σ.live = live at hs
  induction hs with
  | nil => rfl
  | @cons u a us live hua _ ih =>
    rw [List.map_cons, List.map_cons, List.sum_cons, List.sum_cons,
      hsize u List.mem_cons_self a hua, ih fun v hv ↦ hsize v (List.mem_cons_of_mem _ hv)]

theorem Inv.liveBlocks_eq {σ : Session} {fs us : List Interval} (h : Inv σ fs us) :
    liveBlocks σ = BitVec.ofNat 32 us.length := by
  rw [liveBlocks, h.serves.length_eq]

/-! ## Steps -/

section

variable {σ : Session} {fs us : List Interval} {b n : Word}

theorem NoWrap.of_ok {s : State} {size : Word} {r : Word × State} (h : Rep s fs us)
    (hw : NoWrap s size) (hr : kmallocUnsafe size s = .ok r) :
    size.toNat + 31 < 2 ^ 32 ∧ Fits s fs (blockSize size) := by
  rcases hw with ⟨hsize, hc⟩ | hx
  · exact ⟨hsize, h.fits hc⟩
  · rw [kmallocUnsafe_refused hx] at hr
    cases hr

/-- The new block serves the request, and the other blocks the other live pointers. -/
theorem Allocates.inv {s s' : State} {live : List Alloc} {t m : Nat} {q : Word}
    {R : State → Nat → Prop} (hend : s.kheapEnd.toNat ≤ s.kheapMaxEnd.toNat)
    (hs : List.Forall₂ Serves us live) (ha : Allocates s us t R q s') (hle : m % 2 ^ 32 + 16 ≤ t) :
    ∃ fs' u, u.len = t ∧ q.toNat = u.lo + 16 ∧ Inv ⟨s', record q m live⟩ fs' (u :: us) := by
  obtain ⟨fs', lo, hq, hrep, hg, -⟩ := ha
  refine ⟨fs', ⟨lo, t⟩, rfl, hq, hrep, ?_, serves_record hs hq hle⟩
  rw [hg.kheapMaxEnd]
  rcases hg.kheapEnd with he | he
  · rw [he]
    exact hend
  · exact he.2

theorem kmallocUnsafe_balance {size q : Word} {s' : State} {m : Nat} (h : Inv σ fs us)
    (hb : Balance σ.heap us b n) (hw : NoWrap σ.heap size) (hm : m % 2 ^ 32 = size.toNat)
    (hr : kmallocUnsafe size σ.heap = .ok (q, s')) :
    q ≠ NULL ∧ ∃ fs' us', Inv ⟨s', record q m σ.live⟩ fs' us' ∧ Balance s' us' b n := by
  obtain ⟨hsize, hfit⟩ := hw.of_ok h.rep hr
  rcases kmallocUnsafe_spec h.rep hsize hfit with ⟨he, -⟩ | ⟨q', s'', hr', ha, -⟩
  · rw [he] at hr
    cases hr
  · cases hr.symm.trans hr'
    obtain ⟨fs', u, -, hq, hi⟩ := ha.inv h.end_le h.serves
      (by rw [hm]; exact (blockSize_bounds size).2.1)
    obtain ⟨-, -, hh⟩ := hi.rep.block List.mem_cons_self hq
    refine ⟨ne_null_of_toNat hq, fs', _, hi, hb.alloc ?_⟩
    rw [kmallocUnsafe_stats hr (ne_null_of_toNat hq), ofNat_toNat_eq hh.size]

theorem kcallocUnsafe_balance {nelems elemsize q : Word} {s' : State} (h : Inv σ fs us)
    (hb : Balance σ.heap us b n) (hw : NoWrap σ.heap (nelems * elemsize))
    (hr : kcallocUnsafe nelems elemsize σ.heap = .ok (q, s')) :
    ∃ fs' us', Inv ⟨s', record q (nelems.toNat * elemsize.toNat) σ.live⟩ fs' us' ∧
      Balance s' us' b n := by
  obtain ⟨⟨q₁, s₁⟩, hr₁, h₁⟩ := bind_eq_ok.mp hr
  cases h₁
  obtain ⟨hsize, hfit⟩ := hw.of_ok h.rep hr₁
  obtain ⟨-, hle, -⟩ := blockSize_bounds (nelems * elemsize)
  rcases kmallocUnsafe_spec h.rep hsize hfit with ⟨he, -⟩ | ⟨q', s'', hr', ha, -⟩
  · rw [he] at hr₁
    cases hr₁
  · cases hr₁.symm.trans hr'
    obtain ⟨fs', u, hlen, hq, hi⟩ := ha.inv h.end_le h.serves (m := nelems.toNat * elemsize.toNat)
      (by rw [← BitVec.toNat_mul]; exact hle)
    obtain ⟨-, -, hh⟩ := hi.rep.block List.mem_cons_self hq
    have bu := (hi.rep.partition.usedBlock u List.mem_cons_self).bounds
    -- the zeroes stay inside the payload
    refine ⟨fs', _, ⟨hi.rep.payload List.mem_cons_self
      (changesWithin_kcallocZero s₁.mem q (by omega)) fun x hx ↦ ?_, hi.end_le, hi.serves⟩,
      hb.alloc ?_⟩
    · simp only [Interval.hi]
      omega
    · dsimp only
      rw [kmallocUnsafe_stats hr₁ (ne_null_of_toNat hq), ofNat_toNat_eq hh.size]

theorem kfreeUnsafe_balance {ptr : Word} {s' : State} (h : Inv σ fs us)
    (hb : Balance σ.heap us b n) (ha : ∃ a ∈ σ.live, a.ptr = ptr)
    (hr : kfreeUnsafe ptr σ.heap = .ok s') :
    ∃ fs' us', Inv ⟨s', forget ptr σ.live⟩ fs' us' ∧ Balance s' us' b n := by
  obtain ⟨s'', u, fs', us', hr', hi, hperm, hptr, -⟩ := h.kfree ha
  cases hr.symm.trans hr'
  obtain ⟨hne, -, hh⟩ := (h.rep.perm hperm).block List.mem_cons_self hptr
  refine ⟨fs', us', hi, (hb.perm hperm).free ?_⟩
  rw [kfreeUnsafe_stats hr hne, ofNat_toNat_eq hh.size]

/-- A block that is resized in place and keeps its size had the size asked for. -/
theorem KeepsSize.eq_of_inPlace {s : State} {u : Interval} {ptr size : Word}
    (hk : KeepsSize s ptr size) (h : Rep s fs (u :: us)) (hptr : ptr.toNat = u.lo + 16)
    (hin : InPlace fs u (blockSize size)) : blockSize size = u.len := by
  obtain ⟨-, hb, hh⟩ := h.block List.mem_cons_self hptr
  obtain ⟨hn, -⟩ := kreallocNext_iff h hb hh (t := 0)
  rcases hk with he | ⟨hlt, hno⟩
  · rwa [hh.size] at he
  · rw [hh.size] at hlt hno
    rcases hin with hle | ⟨k, hk, hlo, hle⟩
    · omega
    · refine absurd ⟨(onList_iff h.chain).mpr ⟨k, hk, hn.trans hlo.symm⟩, ?_⟩ hno
      rwa [h.size_of_free hk (hn.trans hlo.symm)]

theorem kreallocUnsafe_balance {ptr size q : Word} {s' : State} (h : Inv σ fs us)
    (hb : Balance σ.heap us b n) (ha : ∃ a ∈ σ.live, a.ptr = ptr) (hsize0 : size ≠ 0)
    (hw : NoWrapRealloc σ.heap ptr size) (hk : KeepsSize σ.heap ptr size)
    (hr : kreallocUnsafe ptr size σ.heap = .ok (q, s')) :
    q ≠ NULL ∧ ∃ fs' us', Inv ⟨s', record q size.toNat (forget ptr σ.live)⟩ fs' us' ∧
      Balance s' us' b n := by
  obtain ⟨u, us', hrep, hperm, hptr, hs⟩ := h.focus ha
  rcases kreallocUnsafe_spec hrep hptr hsize0 hw.1 (hrep.reallocFits hptr hw) with
    he | ⟨q', s'', hr', hre⟩
  · rw [he] at hr
    cases hr
  · cases hr.symm.trans hr'
    obtain ⟨fs', v, hlen, hq, hi⟩ := hre.allocates.inv (m := size.toNat) h.end_le hs
      (by rw [Nat.mod_eq_of_lt size.isLt]; exact (blockSize_bounds size).2.1)
    have hb' := hb.perm hperm
    refine ⟨ne_null_of_toNat hq, fs', _, hi, ?_⟩
    have hst := hre.stats
    rcases hre.place with ⟨rfl, hin⟩ | ⟨hne, -, -⟩
    · -- in place: the same size, and nothing is counted
      have hv : v.len = u.len := hlen.trans (hk.eq_of_inPlace hrep hptr hin)
      rw [if_pos rfl] at hst
      obtain ⟨h₁, h₂⟩ := hb'.of_stats hst
      exact ⟨by rw [h₁]; simp only [total, List.map_cons, hv], h₂⟩
    · -- moved: the new block is counted in and the old one out
      rw [if_neg hne, ← hlen] at hst
      have hin : Balance { σ.heap with
          kmallocStats := σ.heap.kmallocStats.alloc (BitVec.ofNat 32 v.len) } (v :: u :: us') b n :=
        hb'.alloc rfl
      exact (hin.perm (List.Perm.swap u v us')).free hst

/-- The step lemma. -/
theorem Call.exec_balance {σ' : Session} {c : Call} {q : Word} (h : Inv σ fs us)
    (hb : Balance σ.heap us b n) (hc : c.Accounted σ) (hex : c.exec σ = .ok (q, σ')) :
    ∃ fs' us', Inv σ' fs' us' ∧ Balance σ'.heap us' b n := by
  obtain ⟨⟨ha, hw⟩, hk⟩ := hc
  cases c with
  | kmalloc size =>
    obtain ⟨⟨q', s'⟩, hr, he⟩ := bind_eq_ok.mp hex
    cases he
    exact (kmallocUnsafe_balance h hb hw (Nat.mod_eq_of_lt size.isLt) hr).2
  | kcalloc nelems elemsize =>
    obtain ⟨⟨q', s'⟩, hr, he⟩ := bind_eq_ok.mp hex
    cases he
    exact kcallocUnsafe_balance h hb hw hr
  | krealloc ptr size =>
    obtain ⟨⟨q', s'⟩, hr, he⟩ := bind_eq_ok.mp hex
    by_cases hp : ptr = NULL
    · subst hp
      simp only [NoWrap, if_true] at hw
      rw [kreallocUnsafe, if_pos rfl] at hr
      have hm : size.toNat % 2 ^ 32 = size.toNat := Nat.mod_eq_of_lt size.isLt
      obtain ⟨hq, hi⟩ := kmallocUnsafe_balance h hb hw hm hr
      dsimp only at he
      rw [h.forget_null, if_neg (fun hc ↦ hq hc.1)] at he
      cases he
      exact hi
    · simp only [NoWrap, if_neg hp] at hw
      have ha' := ha.resolve_left hp
      by_cases hs0 : size = 0
      · rw [kreallocUnsafe, if_neg hp, if_pos hs0] at hr
        obtain ⟨s₁, hr₁, he₁⟩ := bind_eq_ok.mp hr
        cases he₁
        simp only [hs0, ne_eq, not_true_eq_false, and_false, if_false, record, if_true] at he
        cases he
        exact kfreeUnsafe_balance h hb ha' hr₁
      · obtain ⟨hq, hi⟩ := kreallocUnsafe_balance h hb ha' hs0 (hw.resolve_left hs0)
          (((hk ptr size rfl).resolve_left hp).resolve_left hs0) hr
        dsimp only at he
        rw [if_neg (fun hc ↦ hq hc.1)] at he
        cases he
        exact hi
  | kfree ptr =>
    obtain ⟨s', hr, he⟩ := bind_eq_ok.mp hex
    cases he
    rcases ha with rfl | ha
    · rw [kfreeUnsafe, if_pos rfl] at hr
      cases hr
      rw [h.forget_null]
      exact ⟨fs, us, h, hb⟩
    · exact kfreeUnsafe_balance h hb ha hr
  | write addr value =>
    cases hex
    exact ⟨fs, us, h.write value ha, hb.of_stats rfl⟩

end

/-! ## Runs -/

theorem Leads.mono {P Q : Session → Call → Prop} {σ₀ σ : Session} (hPQ : ∀ τ c, P τ c → Q τ c)
    (h : Leads P σ₀ σ) : Leads Q σ₀ σ := by
  induction h with
  | refl => exact .refl
  | step _ hp hex ih => exact .step ih (hPQ _ _ hp) hex

section

variable {σ₀ σ : Session} {fs us : List Interval}

/-- The run lemma. -/
theorem Leads.balance {b n : Word} (h : Inv σ₀ fs us) (hb : Balance σ₀.heap us b n)
    (hr : Leads Call.Accounted σ₀ σ) :
    ∃ fs' us', Inv σ fs' us' ∧ Balance σ.heap us' b n := by
  induction hr with
  | refl => exact ⟨fs, us, h, hb⟩
  | step _ hp hex ih =>
    obtain ⟨fs', us', hi, hb'⟩ := ih
    exact Call.exec_balance hi hb' hp hex

/-- The counters move with the live blocks. -/
theorem Leads.inUse (h : Inv σ₀ fs us) (hr : Leads Call.Accounted σ₀ σ) :
    bytesInUse σ.heap - bytesInUse σ₀.heap = liveBytes σ - liveBytes σ₀ ∧
      blocksInUse σ.heap - blocksInUse σ₀.heap = liveBlocks σ - liveBlocks σ₀ := by
  have hb : Balance σ₀.heap us (bytesInUse σ₀.heap - liveBytes σ₀)
      (blocksInUse σ₀.heap - liveBlocks σ₀) :=
    ⟨by rw [h.liveBytes_eq]; ring, by rw [h.liveBlocks_eq]; ring⟩
  obtain ⟨fs', us', hi, hb'⟩ := hr.balance h hb
  rw [hb'.bytes, hb'.blocks, hi.liveBytes_eq, hi.liveBlocks_eq]
  constructor <;> ring

/-- The pointers `ps` are live and their blocks are those they had in `σ₀`. -/
def Kept (σ₀ σ : Session) : Prop :=
  ∀ a ∈ σ₀.live, (∃ b ∈ σ.live, b.ptr = a.ptr) ∧
    extent σ.heap.mem a.ptr = extent σ₀.heap.mem a.ptr

/-- A call that is not about them leaves the blocks of `σ₀` as they were. -/
theorem Kept.exec {σ' : Session} {c : Call} {q : Word} (h : Kept σ₀ σ) (hi : Inv σ fs us)
    (hc : c.Safe σ) (hs : ∀ a ∈ σ₀.live, a.ptr ≠ c.argument) (hex : c.exec σ = .ok (q, σ')) :
    Kept σ₀ σ' := by
  intro a ha
  obtain ⟨⟨b, hb, hba⟩, he⟩ := h a ha
  by_cases hw : c.IsWrite
  · cases c with
    | write addr value =>
      cases hex
      obtain ⟨u, hu, hptr, -⟩ := hi.serves_of_live hb
      rw [hba] at hptr
      refine ⟨⟨b, hb, hba⟩, ?_⟩
      rw [← he, hi.rep.extent_eq hu hptr]
      exact (hi.write value hc.1).rep.extent_eq hu hptr
    | _ => exact hw.elim
  · rcases Call.exec_outcome hi hc.1 hc.2 hw with he' | ⟨q₁, σ₁, own, kept, own', he', ho, hk, hl, -⟩
    · rw [he'] at hex
      cases hex
    · cases hex.symm.trans he'
      obtain ⟨fs₁, hrep, -⟩ := ho.rep
      obtain ⟨fs₂, hrep'⟩ := ho.rep'
      have hbm : b ∈ forget c.argument σ.live :=
        (List.mem_eraseP_of_neg (by rw [decide_eq_true_eq, hba]; exact hs a ha)).mpr hb
      obtain ⟨v, hv, hvb⟩ := exists_serves hk hbm
      obtain ⟨d, hd, hvd⟩ := exists_served hl (List.mem_append_right own' hv)
      have hptr := hvb.1
      rw [hba] at hptr
      refine ⟨⟨d, hd, BitVec.toNat_inj.mp (hvd.1.trans hptr.symm)⟩, ?_⟩
      rw [← he, hrep.extent_eq (List.mem_append_right _ hv) hptr,
        hrep'.extent_eq (List.mem_append_right _ hv) hptr]

theorem Leads.kept (h : Inv σ₀ fs us)
    (hr : Leads (fun τ c ↦ c.Accounted τ ∧ ∀ a ∈ σ₀.live, a.ptr ≠ c.argument) σ₀ σ) :
    Kept σ₀ σ := by
  induction hr with
  | refl => exact fun a ha ↦ ⟨⟨a, ha, rfl⟩, rfl⟩
  | step hr hp hex ih =>
    obtain ⟨fs', us', hi, -⟩ := (hr.mono fun _ _ hp ↦ hp.1).balance (b := bytesInUse σ₀.heap -
      total us) (n := blocksInUse σ₀.heap - BitVec.ofNat 32 us.length) h ⟨by ring, by ring⟩
    exact ih.exec hi hp.1.1 hp.2 hex

/-- When the live pointers are those of the start again, so are the bytes in use. -/
theorem Kept.liveBytes_eq (h : Kept σ₀ σ)
    (hp : (σ.live.map Alloc.ptr).Perm (σ₀.live.map Alloc.ptr)) : liveBytes σ = liveBytes σ₀ := by
  have hmap : ∀ τ : Session, liveBytes τ = ((τ.live.map Alloc.ptr).map fun p ↦
      kmGetsize τ.heap.mem (p - sizeofKmBlockHeader)).sum := fun τ ↦ by
    rw [List.map_map]
    rfl
  rw [hmap, hmap, (hp.map _).sum_eq]
  congr 1
  refine List.map_congr_left fun p hp ↦ ?_
  obtain ⟨a, ha, rfl⟩ := List.mem_map.mp hp
  exact BitVec.toNat_inj.mp (congrArg Interval.len (h a ha).2)

end

theorem kmallocInit_stats {mbinfo : MultibootInfo} {kernelEnd : Word} {ie : Bool} {s₀ s : State}
    (h : kmallocInit mbinfo kernelEnd ie s₀ = .ok s) : s.kmallocStats = s₀.kmallocStats := by
  obtain ⟨-, -, h⟩ := bind_eq_ok.mp h
  obtain ⟨-, -, h⟩ := bind_eq_ok.mp h
  obtain ⟨-, -, h⟩ := bind_eq_ok.mp h
  obtain ⟨s₁, h₁, h⟩ := bind_eq_ok.mp h
  obtain ⟨stop, rfl, -⟩ := internalReadMultibootinfo_ok h₁
  obtain ⟨⟨b, s₂⟩, h₂, h⟩ := bind_eq_ok.mp h
  rw [kmInsert_stats h]
  unfold kmExtend at h₂
  dsimp only at h₂
  split at h₂
  · cases h₂
  · cases h₂
    rfl

/-- In every run whose calls are accounted for, the counters move with the live blocks, and the leak
check holds: once what was allocated since is freed, the bytes in use are those of the start. -/
theorem statistics_balance {mbinfo : MultibootInfo} {kernelEnd : Word} {ie : Bool} {mem : Memory}
    {s : State} {σ₀ : Session} (hk : ImageFits kernelEnd)
    (hinit : kmallocInit mbinfo kernelEnd ie (boot mem) = .ok s)
    (hr : Reachable Call.Safe s σ₀) :
    (bytesInUse s = 0 ∧ blocksInUse s = 0) ∧
    (∀ σ, Leads Call.Accounted σ₀ σ →
      bytesInUse σ.heap - bytesInUse σ₀.heap = liveBytes σ - liveBytes σ₀ ∧
        blocksInUse σ.heap - blocksInUse σ₀.heap = liveBlocks σ - liveBlocks σ₀) ∧
    ∀ σ, Leads (fun τ c ↦ c.Accounted τ ∧ ∀ a ∈ σ₀.live, a.ptr ≠ c.argument) σ₀ σ →
      (σ.live.map Alloc.ptr).Perm (σ₀.live.map Alloc.ptr) →
        bytesInUse σ.heap = bytesInUse σ₀.heap := by
  obtain ⟨⟨fs₀, h₀⟩, -⟩ := kmallocInit_inv hk hinit
  obtain ⟨⟨fs, us, hi⟩, -⟩ := hr.inv h₀ fun _ _ hp ↦ hp
  refine ⟨?_, fun σ hl ↦ hl.inUse hi, fun σ hl hp ↦ ?_⟩
  · rw [bytesInUse, blocksInUse, kmallocInit_stats hinit]
    exact ⟨sub_self (0 : Word), sub_self (0 : Word)⟩
  · have hb := ((hl.mono fun _ _ hp ↦ hp.1).inUse hi).1
    rw [(hl.kept hi).liveBytes_eq hp, sub_self] at hb
    exact sub_eq_zero.mp hb

theorem statistics_balance_oneRegion :
    ∃ s, oneRegionHeap = .ok s ∧ ∀ σ, Leads Call.Accounted ⟨s, []⟩ σ →
      bytesInUse σ.heap - bytesInUse s = liveBytes σ - liveBytes ⟨s, []⟩ ∧
        blocksInUse σ.heap - blocksInUse s = liveBlocks σ - liveBlocks ⟨s, []⟩ := by
  obtain ⟨s, hs, -⟩ := oneRegionHeap_ok
  exact ⟨s, hs, (statistics_balance (by unfold ImageFits; decide) hs .start).2.1⟩

/-- 100 bytes are allocated, shrunk to 10 in place and freed: nothing is live and 96 bytes are in
use. -/
theorem krealloc_unbalanced :
    ∃ s σ, oneRegionHeap = .ok s ∧ Reachable Call.Bounded s σ ∧ σ.live = [] ∧
      ¬ (bytesInUse σ.heap - bytesInUse s = liveBytes σ - liveBytes ⟨s, []⟩ ∧
        blocksInUse σ.heap - blocksInUse s = liveBlocks σ - liveBlocks ⟨s, []⟩) := by
  obtain ⟨⟨σ₁, σ₂, σ⟩, hex, hp⟩ := exists_ok
    (x := oneRegionHeap >>= fun s ↦ (Call.kmalloc 100).exec ⟨s, []⟩ >>= fun r₁ ↦
      (Call.krealloc 0x20A010 10).exec r₁.2 >>= fun r₂ ↦
      (Call.kfree 0x20A010).exec r₂.2 >>= fun r ↦ .ok (r₁.2, r₂.2, r.2))
    (p := fun r ↦ decide (r.1.live = [⟨0x20A010, 100⟩] ∧ r.2.1.live = [⟨0x20A010, 10⟩] ∧
      r.2.2.live = [] ∧ bytesInUse r.2.2.heap = 96)) (by decide +kernel)
  obtain ⟨s, hs, hex⟩ := bind_eq_ok.mp hex
  obtain ⟨⟨q₁, τ₁⟩, h₁, hex⟩ := bind_eq_ok.mp hex
  obtain ⟨⟨q₂, τ₂⟩, h₂, hex⟩ := bind_eq_ok.mp hex
  obtain ⟨⟨q₃, τ₃⟩, h₃, hex⟩ := bind_eq_ok.mp hex
  cases hex
  obtain ⟨hl₁, hl₂, hl₃, hb⟩ := of_decide_eq_true hp
  have hb₁ : (Call.kmalloc 100).Bounded ⟨s, []⟩ := ⟨trivial, by decide⟩
  have hb₂ : (Call.krealloc 0x20A010 10).Bounded τ₁ :=
    ⟨.inr ⟨_, by rw [hl₁]; exact List.mem_cons_self, rfl⟩, by decide⟩
  have hb₃ : (Call.kfree 0x20A010).Bounded τ₂ :=
    ⟨.inr ⟨_, by rw [hl₂]; exact List.mem_cons_self, rfl⟩, by decide⟩
  refine ⟨s, τ₃, hs, .step (.step (.step .start hb₁ h₁) hb₂ h₂) hb₃ h₃, hl₃, fun h ↦ ?_⟩
  have h₀ : bytesInUse s = 0 := by
    rw [bytesInUse, kmallocInit_stats hs]
    rfl
  rw [hb, h₀, liveBytes, hl₃] at h
  exact absurd (show (96 : Word) - 0 = 0 - 0 from h.1) (by decide)

end AlienOS.Heap
