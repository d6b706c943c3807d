import AlienOS.Heap.Statistics

/-!
# Product — `kcalloc` and the product it is asked for

`_kcalloc_unsafe` multiplies modulo `2 ^ 32`.  What it returns is what its callers asked for exactly
when the product does not wrap.
-/

open AlienOS.Lib

namespace AlienOS.Heap

/-- `q` points to a live block with room for `bytes` zero bytes, and the rest of the heap is as
`_kmalloc_unsafe` of so many bytes leaves it. -/
structure Delivers (σ σ' : Session) (q : Word) (bytes : Nat) : Prop where
  live : ∃ a ∈ σ'.live, a.ptr = q
  alloc : kmIsalloc σ'.heap.mem (q - sizeofKmBlockHeader) = true
  room : bytes + 16 ≤ (extent σ'.heap.mem q).len
  zero : ∀ k < bytes, σ'.heap.mem.byte (q + BitVec.ofNat 32 k) = 0
  rest : ∃ s₁, kmallocUnsafe (BitVec.ofNat 32 bytes) σ.heap = .ok (q, s₁) ∧
    σ'.heap = { s₁ with mem := σ'.heap.mem } ∧
    ∀ x : Word, ¬ (q.toNat ≤ x.toNat ∧ x.toNat < q.toNat + bytes) →
      σ'.heap.mem.byte x = s₁.mem.byte x

/-- A call either panics or delivers. -/
def DeliversProduct (σ : Session) (nelems elemsize : Word) : Prop :=
  (∃ message, (Call.kcalloc nelems elemsize).exec σ = .error (.panic message)) ∨
    ∃ q σ', (Call.kcalloc nelems elemsize).exec σ = .ok (q, σ') ∧
      Delivers σ σ' q (nelems.toNat * elemsize.toNat)

/-- There is neither a free block for the request nor room for the heap to grow by it. -/
def Refused (s : State) (size : Word) : Prop :=
  (∀ b, OnList s.mem s.freeList b → (kmGetsize s.mem b).toNat < blockSize size) ∧
      s.kheapMaxEnd.toNat < s.kheapEnd.toNat + roundUp 4096 (blockSize size) ∨
    RefusedAnyway s size

section

variable {σ : Session} {fs us : List Interval} {nelems elemsize : Word}

theorem Rep.exhausted_iff {s : State} {size : Word} (h : Rep s fs us) :
    Exhausted s fs (blockSize size) ↔
      (∀ b, OnList s.mem s.freeList b → (kmGetsize s.mem b).toNat < blockSize size) ∧
        s.kheapMaxEnd.toNat < s.kheapEnd.toNat + roundUp 4096 (blockSize size) := by
  apply and_congr_left
  intro _
  constructor
  · intro hall b hb
    obtain ⟨i, hi, hlo⟩ := (onList_iff h.chain).mp hb
    rw [h.size_of_free hi hlo]
    exact hall i hi
  · intro hall i hi
    have hlo := toNat_ofNat_lo (h.partition.freeBlock i hi)
    rw [← h.size_of_free hi hlo]
    exact hall _ ((onList_iff h.chain).mpr ⟨i, hi, hlo⟩)

/-- No block has room for `2 ^ 32` bytes. -/
theorem Delivers.lt {σ' : Session} {q : Word} {n : Nat} (h : Delivers σ σ' q n) : n < 2 ^ 32 := by
  have hroom := h.room
  have hlt := (kmGetsize σ'.heap.mem (q - sizeofKmBlockHeader)).isLt
  unfold extent at hroom
  dsimp only at hroom
  omega

/-- A request that cannot be met is refused, whatever product it stands for. -/
theorem Inv.kcalloc_refused (h : Inv σ fs us) (hw : NoWrap σ.heap (nelems * elemsize))
    (hr : Refused σ.heap (nelems * elemsize)) :
    kcallocUnsafe nelems elemsize σ.heap = .error outOfMemory := by
  have hanyway : RefusedAnyway σ.heap (nelems * elemsize) →
      kcallocUnsafe nelems elemsize σ.heap = .error outOfMemory := fun hr ↦ by
    rw [kcallocUnsafe, kmallocUnsafe_refused hr]
    rfl
  rcases hw with ⟨hsize, hc⟩ | hx
  · rcases hr with hr | hr
    · rcases kcallocUnsafe_spec h.rep hsize (h.rep.fits hc) with
        ⟨he, -⟩ | ⟨q, s₁, s', -, -, -, ⟨fs', lo, hq, -, hg, -⟩, hsource⟩
      · exact he
      · -- there was neither a block nor room to grow
        obtain ⟨hall, hmax⟩ := h.rep.exhausted_iff.mpr hr
        have hle := le_roundUp_4096 (blockSize (nelems * elemsize))
        obtain ⟨-, hb, -⟩ := blockSize_bounds (nelems * elemsize)
        rcases hsource with ⟨l, k, m, ⟨rfl, -, hk⟩, -⟩ | ⟨-, -, hend⟩
        · have := hall k (by simp)
          omega
        · rcases hg.kheapEnd with he | he
          · rw [he] at hend
            omega
          · omega
    · exact hanyway hr
  · exact hanyway hx

/-- A product that does not wrap is delivered, unless it is refused. -/
theorem Inv.kcalloc_delivers (h : Inv σ fs us) (hw : NoWrap σ.heap (nelems * elemsize))
    (hlt : nelems.toNat * elemsize.toNat < 2 ^ 32) : DeliversProduct σ nelems elemsize := by
  have hn : (nelems * elemsize).toNat = nelems.toNat * elemsize.toNat := by
    rw [BitVec.toNat_mul, Nat.mod_eq_of_lt hlt]
  rcases hw with ⟨hsize, hc⟩ | hx
  · rcases kcallocUnsafe_spec h.rep hsize (h.rep.fits hc) with
      ⟨he, -⟩ | ⟨q, s₁, s', hr₁, hs', hr, ⟨fs', lo, hq, hrep, -⟩, -⟩
    · left
      exact ⟨_, by rw [Call.exec, he]; rfl⟩
    · right
      obtain ⟨-, hb, -⟩ := blockSize_bounds (nelems * elemsize)
      have bu := (hrep.partition.usedBlock _ List.mem_cons_self).bounds
      obtain ⟨-, -, hh⟩ := hrep.block List.mem_cons_self hq
      dsimp only at bu
      have hq₀ : q.toNat + (nelems * elemsize).toNat ≤ 2 ^ 32 := by omega
      refine ⟨q, ⟨s', record q (nelems.toNat * elemsize.toNat) σ.live⟩, ?_, ⟨?_, hh.alloc, ?_, ?_,
        s₁, ?_, ?_, ?_⟩⟩
      · rw [Call.exec, hr]
        rfl
      · rw [record, if_neg (ne_null_of_toNat hq)]
        exact ⟨_, List.mem_cons_self, rfl⟩
      · rw [hrep.extent_eq List.mem_cons_self hq, ← hn]
        exact hb
      · rw [← hn, hs']
        exact fun k hk ↦ kcallocZero_byte s₁.mem hq₀ hk
      · rw [← hn, ofNat_toNat_eq rfl]
        exact hr₁
      · rw [hs']
      · rw [← hn, hs']
        exact fun x hx ↦ changesWithin_kcallocZero s₁.mem q hq₀ x hx
  · left
    exact ⟨_, by rw [Call.exec, kcallocUnsafe, kmallocUnsafe_refused hx]; rfl⟩

theorem Inv.deliversProduct_iff (h : Inv σ fs us) (hw : NoWrap σ.heap (nelems * elemsize)) :
    DeliversProduct σ nelems elemsize ↔
      nelems.toNat * elemsize.toNat < 2 ^ 32 ∨ Refused σ.heap (nelems * elemsize) := by
  constructor
  · rintro (⟨message, he⟩ | ⟨q, σ', -, hd⟩)
    · right
      rcases hw with ⟨hsize, hc⟩ | hx
      · rcases kcallocUnsafe_spec h.rep hsize (h.rep.fits hc) with
          ⟨-, hx⟩ | ⟨q, s₁, s', -, -, hr, -⟩
        · exact .inl (h.rep.exhausted_iff.mp hx)
        · rw [Call.exec, hr] at he
          cases he
      · exact .inr hx
    · exact .inl hd.lt
  · rintro (hlt | hr)
    · exact h.kcalloc_delivers hw hlt
    · left
      exact ⟨_, by rw [Call.exec, h.kcalloc_refused hw hr]; rfl⟩

end

/-- In every run without a wrapping sum, `kcalloc` panics or delivers the product exactly when the
product does not wrap or what is left of it is refused. -/
theorem reachable_deliversProduct {mbinfo : MultibootInfo} {kernelEnd : Word} {ie : Bool}
    {mem : Memory} {s : State} {σ : Session} {nelems elemsize : Word} (hk : ImageFits kernelEnd)
    (hinit : kmallocInit mbinfo kernelEnd ie (boot mem) = .ok s)
    (hr : Reachable Call.Safe s σ) (hw : NoWrap σ.heap (nelems * elemsize)) :
    DeliversProduct σ nelems elemsize ↔
      nelems.toNat * elemsize.toNat < 2 ^ 32 ∨ Refused σ.heap (nelems * elemsize) := by
  obtain ⟨⟨fs₀, h₀⟩, -⟩ := kmallocInit_inv hk hinit
  obtain ⟨⟨fs, us, hi⟩, -⟩ := hr.inv h₀ fun _ _ hp ↦ hp
  exact hi.deliversProduct_iff hw

theorem reachable_deliversProduct_oneRegion :
    ∃ s, oneRegionHeap = .ok s ∧ (DeliversProduct ⟨s, []⟩ 10 20 ↔
      (10 : Word).toNat * (20 : Word).toNat < 2 ^ 32 ∨ Refused s (10 * 20)) := by
  obtain ⟨s, hs, hp⟩ := oneRegionHeap_ok
  exact ⟨s, hs, reachable_deliversProduct (by unfold ImageFits; decide) hs .start
    (noWrap_of_le (by rw [(of_decide_eq_true hp).2]; decide) (by decide))⟩

/-- `0x10000 * 0x10000` bytes, reduced to none, are delivered as a block of 16 bytes. -/
theorem kcalloc_wraps : ∃ s, oneRegionHeap = .ok s ∧
    ¬ DeliversProduct ⟨s, []⟩ 0x10000 0x10000 := by
  obtain ⟨⟨q, σ'⟩, hex, -⟩ := exists_ok
    (x := oneRegionHeap >>= fun s ↦ (Call.kcalloc 0x10000 0x10000).exec ⟨s, []⟩)
    (p := fun _ ↦ true) (by decide +kernel)
  obtain ⟨s, hs, hex⟩ := bind_eq_ok.mp hex
  refine ⟨s, hs, ?_⟩
  rintro (⟨message, he⟩ | ⟨q', σ'', -, hd⟩)
  · rw [hex] at he
    cases he
  · exact absurd hd.lt (by decide)

end AlienOS.Heap
