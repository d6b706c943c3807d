import AlienOS.Heap.Safety

/-!
# Canonical — the live blocks determine the free list

The free list is the list of the maximal runs of bytes that no live block covers.  What it looks
like after any sequence of calls therefore depends on the blocks that are left, and not on the order
of the calls.
-/

open AlienOS.Lib

namespace AlienOS.Heap

/-- The addresses and the sizes met on the way through the free list. -/
def FreeList (s : State) (l : List Interval) : Prop :=
  ∃ free, FreeChain s.mem s.freeList free ∧
    l = free.map fun b ↦ ⟨b.toNat, (kmGetsize s.mem b).toNat⟩

/-- The byte `x` of the heap lies in no live block. -/
def Unclaimed (σ : Session) (x : Nat) : Prop :=
  (σ.heap.kheapBegin.toNat ≤ x ∧ x < σ.heap.kheapEnd.toNat) ∧
    ∀ a ∈ σ.live, x ∉ extent σ.heap.mem a.ptr

/-- `_kfree_unsafe` of one pointer after the other. -/
def freeAll : List Word → State → Except Halt State
  | [], s => .ok s
  | p :: ps, s => do
    let s ← kfreeUnsafe p s
    freeAll ps s

theorem FreeChain.unique {mem : Memory} {p : Word} {l m : List Word} (hl : FreeChain mem p l)
    (hm : FreeChain mem p m) : l = m := by
  induction l generalizing p m with
  | nil =>
    cases m with
    | nil => rfl
    | cons b m => exact absurd hl hm.1
  | cons b l ih =>
    cases m with
    | nil => exact absurd hm hl.1
    | cons c m => rw [← hl.2.1, ← hm.2.1, ih hl.2.2 hm.2.2]

theorem FreeList.unique {s : State} {l m : List Interval} (hl : FreeList s l) (hm : FreeList s m) :
    l = m := by
  obtain ⟨_, hf, rfl⟩ := hl
  obtain ⟨_, hg, rfl⟩ := hm
  rw [hf.unique hg]

section

variable {s s' : State} {fs fs' us us' : List Interval}

theorem Rep.freeList (h : Rep s fs us) : FreeList s fs := by
  refine ⟨_, h.chain.freeChain, ?_⟩
  rw [List.map_map, List.map_congr_left (g := id) fun i hi ↦ ?_, List.map_id]
  have hlo := toNat_ofNat_lo (h.partition.freeBlock i hi)
  simp only [Function.comp_apply, hlo, h.size_of_free hi hlo, id_eq]

theorem Rep.free_pos (h : Rep s fs us) : ∀ i ∈ fs, 0 < i.len :=
  fun i hi ↦ (h.partition.freeBlock i hi).len_pos

/-- The free bytes are those of the heap that no used block covers. -/
theorem Rep.covers_free (h : Rep s fs us) (x : Nat) :
    Covers fs x ↔ (s.kheapBegin.toNat ≤ x ∧ x < s.kheapEnd.toNat) ∧ ¬ Covers us x := by
  rw [h.partition.cover x]
  constructor
  · intro hf
    exact ⟨.inl hf, fun ⟨u, hu, hx⟩ ↦ h.partition.not_free_of_used hu hx hf⟩
  · exact fun hx ↦ hx.1.resolve_right hx.2

/-- A separated list of the bytes that no used block covers is the free list. -/
theorem Rep.free_eq (h : Rep s fs us) {l : List Interval} (hl : Separated l)
    (pl : ∀ i ∈ l, 0 < i.len)
    (hc : ∀ x, Covers l x ↔ (s.kheapBegin.toNat ≤ x ∧ x < s.kheapEnd.toNat) ∧ ¬ Covers us x) :
    fs = l :=
  separated_ext h.partition.separated hl h.free_pos pl fun x ↦ by rw [h.covers_free, hc]

/-- Two states with the same used bytes have the same free list. -/
theorem Rep.free_unique (h : Rep s fs us) (h' : Rep s' fs' us')
    (hb : s'.kheapBegin = s.kheapBegin) (he : s'.kheapEnd = s.kheapEnd)
    (hu : ∀ x, Covers us' x ↔ Covers us x) : fs = fs' :=
  h.free_eq h'.partition.separated h'.free_pos fun x ↦ by rw [h'.covers_free, hb, he, hu]

end

section

variable {σ : Session} {fs us : List Interval}

theorem Inv.unclaimed_iff (h : Inv σ fs us) (x : Nat) : Unclaimed σ x ↔ Covers fs x := by
  rw [h.rep.covers_free, Unclaimed]
  apply and_congr_right
  intro _
  constructor
  · rintro hno ⟨u, hu, hx⟩
    obtain ⟨a, ha, hs⟩ := h.live_of_used hu
    exact hno a ha (by rwa [h.rep.extent_eq hu hs.1])
  · intro hno a ha hx
    obtain ⟨u, hu, hs⟩ := h.serves_of_live ha
    exact hno ⟨u, hu, by rwa [h.rep.extent_eq hu hs.1] at hx⟩

/-- Freeing a live pointer takes its block out of the used ones. -/
theorem Inv.kfree {ptr : Word} (h : Inv σ fs us) (ha : ∃ a ∈ σ.live, a.ptr = ptr) :
    ∃ s' u fs' us', kfreeUnsafe ptr σ.heap = .ok s' ∧ Inv ⟨s', forget ptr σ.live⟩ fs' us' ∧
      us.Perm (u :: us') ∧ ptr.toNat = u.lo + 16 ∧ s'.kheapBegin = σ.heap.kheapBegin ∧
      s'.kheapEnd = σ.heap.kheapEnd := by
  obtain ⟨u, us', hrep, hperm, hptr, hs⟩ := h.focus ha
  obtain ⟨s', hr, hrep', hg, he, -⟩ := kfreeUnsafe_spec hrep hptr
  refine ⟨s', u, _, us', hr, ⟨hrep', ?_, hs⟩, hperm, hptr, hg.kheapBegin, he⟩
  rw [he, hg.kheapMaxEnd]
  exact h.end_le

/-- Freeing live pointers one by one leaves the used bytes outside their blocks. -/
theorem Inv.freeAll {ps : List Word} (h : Inv σ fs us) (hnd : ps.Nodup)
    (hin : ∀ p ∈ ps, ∃ a ∈ σ.live, a.ptr = p) :
    ∃ s' fs' us', Heap.freeAll ps σ.heap = .ok s' ∧ Rep s' fs' us' ∧
      s'.kheapBegin = σ.heap.kheapBegin ∧ s'.kheapEnd = σ.heap.kheapEnd ∧
      ∀ x, Covers us' x ↔ Covers us x ∧ ∀ p ∈ ps, x ∉ extent σ.heap.mem p := by
  induction ps generalizing σ fs us with
  | nil => exact ⟨_, fs, us, rfl, h.rep, rfl, rfl, by simp⟩
  | cons p ps ih =>
    obtain ⟨hp, hnd⟩ := List.nodup_cons.mp hnd
    obtain ⟨s₁, u, fs₁, us₁, hr₁, hi₁, hperm, hptr, hb₁, he₁⟩ := h.kfree (hin p List.mem_cons_self)
    have hin₁ : ∀ q ∈ ps, ∃ a ∈ forget p σ.live, a.ptr = q := by
      intro q hq
      obtain ⟨a, ha, rfl⟩ := hin q (List.mem_cons_of_mem _ hq)
      refine ⟨a, (List.mem_eraseP_of_neg ?_).mpr ha, rfl⟩
      rw [decide_eq_true_eq]
      rintro rfl
      exact hp hq
    obtain ⟨s', fs', us', hr, hrep, hb, he, hcov⟩ := ih hi₁ hnd hin₁
    refine ⟨s', fs', us', by rw [Heap.freeAll, hr₁]; exact hr, hrep, hb.trans hb₁, he.trans he₁,
      fun x ↦ ?_⟩
    have hu : u ∈ us := hperm.mem_iff.mpr List.mem_cons_self
    -- the blocks that are left have the extents they had before
    have hext : ∀ q ∈ ps, extent s₁.mem q = extent σ.heap.mem q := by
      intro q hq
      obtain ⟨a, ha, rfl⟩ := hin₁ q hq
      obtain ⟨v, hv, hs⟩ := hi₁.serves_of_live ha
      rw [hi₁.rep.extent_eq hv hs.1,
        h.rep.extent_eq (hperm.mem_iff.mpr (List.mem_cons_of_mem _ hv)) hs.1]
    have hus : Covers us x ↔ x ∈ u ∨ Covers us₁ x := by
      rw [← covers_cons]
      simp only [Covers, hperm.mem_iff]
    have hapart : Covers us₁ x → x ∉ u := by
      intro hc
      obtain ⟨v, hv, hx⟩ := hc
      exact (h.rep.perm hperm).partition.not_mem_of_used hv hx
    rw [hcov, List.forall_mem_cons, h.rep.extent_eq hu hptr, hus]
    constructor
    · rintro ⟨h₁, h₂⟩
      exact ⟨.inr h₁, hapart h₁, fun q hq ↦ by rw [← hext q hq]; exact h₂ q hq⟩
    · rintro ⟨h₁, h₂, h₃⟩
      exact ⟨h₁.resolve_left h₂, fun q hq ↦ by rw [hext q hq]; exact h₃ q hq⟩

/-- The order in which live pointers are freed does not matter. -/
theorem Inv.freeAll_perm {ps qs : List Word} (h : Inv σ fs us) (hnd : ps.Nodup)
    (hin : ∀ p ∈ ps, ∃ a ∈ σ.live, a.ptr = p) (hperm : ps.Perm qs) :
    ∃ s₁ s₂ l, Heap.freeAll ps σ.heap = .ok s₁ ∧ Heap.freeAll qs σ.heap = .ok s₂ ∧
      FreeList s₁ l ∧ FreeList s₂ l := by
  obtain ⟨s₁, fs₁, us₁, hr₁, hrep₁, hb₁, he₁, hc₁⟩ := h.freeAll hnd hin
  obtain ⟨s₂, fs₂, us₂, hr₂, hrep₂, hb₂, he₂, hc₂⟩ := h.freeAll (hperm.nodup_iff.mp hnd)
    fun p hp ↦ hin p (hperm.mem_iff.mpr hp)
  have he : fs₁ = fs₂ := hrep₁.free_unique hrep₂ (by rw [hb₁, hb₂]) (by rw [he₁, he₂]) fun x ↦ by
    simp only [hc₁, hc₂, hperm.mem_iff]
  exact ⟨s₁, s₂, fs₁, hr₁, hr₂, hrep₁.freeList, he ▸ hrep₂.freeList⟩

/-- Once every live pointer is freed the heap is one free block. -/
theorem Inv.freeAll_live {ps : List Word} (h : Inv σ fs us)
    (hlt : σ.heap.kheapBegin.toNat < σ.heap.kheapEnd.toNat)
    (hperm : ps.Perm (σ.live.map Alloc.ptr)) :
    ∃ s', Heap.freeAll ps σ.heap = .ok s' ∧
      FreeList s' [⟨s'.kheapBegin.toNat, s'.kheapEnd.toNat - s'.kheapBegin.toNat⟩] := by
  have hin : ∀ p, p ∈ ps ↔ ∃ a ∈ σ.live, a.ptr = p := fun p ↦ by
    rw [hperm.mem_iff, List.mem_map]
  obtain ⟨s', fs', us', hr, hrep, hb, he, hc⟩ := h.freeAll (hperm.nodup_iff.mpr h.live_nodup)
    fun p hp ↦ (hin p).mp hp
  have hus : ∀ x, ¬ Covers us' x := by
    intro x hx
    obtain ⟨⟨u, hu, hxu⟩, hno⟩ := (hc x).mp hx
    obtain ⟨a, ha, hs⟩ := h.live_of_used hu
    exact hno a.ptr ((hin _).mpr ⟨a, ha, rfl⟩) (by rwa [h.rep.extent_eq hu hs.1])
  refine ⟨s', hr, ?_⟩
  rw [hb, he]
  refine hrep.free_eq (List.pairwise_singleton _ _) ?_ (fun x ↦ ?_) ▸ hrep.freeList
  · exact List.forall_mem_singleton.mpr (Nat.sub_pos_of_lt hlt)
  · simp only [covers_cons, covers_nil, or_false, Interval.mem_iff, hus, not_false_eq_true,
      and_true, hb, he]
    omega

/-- An allocation that leaves the end of the heap where it is and is freed at once leaves the free
list as it was. -/
theorem Inv.kmalloc_kfree {size q : Word} {s₁ : State} (h : Inv σ fs us)
    (hsize : size.toNat + 31 < 2 ^ 32) (hfit : Fits σ.heap fs (blockSize size))
    (hr : kmallocUnsafe size σ.heap = .ok (q, s₁)) (hend : s₁.kheapEnd = σ.heap.kheapEnd) :
    ∃ s₂, kfreeUnsafe q s₁ = .ok s₂ ∧ FreeList s₂ fs := by
  rcases kmallocUnsafe_spec h.rep hsize hfit with ⟨he, -⟩ | ⟨q', s', hr', ha, -⟩
  · rw [hr] at he
    cases he
  · rw [hr] at hr'
    cases hr'
    obtain ⟨fs', lo, hq, hrep, hg, -⟩ := ha
    obtain ⟨s₂, hr₂, hrep₂, hg₂, he₂, -⟩ := kfreeUnsafe_spec hrep hq
    refine ⟨s₂, hr₂, ?_⟩
    rw [h.rep.free_unique hrep₂ (hg₂.kheapBegin.trans hg.kheapBegin) (he₂.trans hend)
      fun x ↦ Iff.rfl]
    exact hrep₂.freeList

end

section

variable {mbinfo : MultibootInfo} {kernelEnd : Word} {ie : Bool} {mem : Memory} {s : State}
  {σ : Session}

/-- Along every run the free list is the list of the maximal runs of unclaimed bytes.  So the order
of frees does not show in it, freeing what was just allocated restores it, and after all live blocks
are freed it is the whole heap. -/
theorem reachable_canonical (hpos : 0 < kernelEnd.toNat)
    (hinit : kmallocInit mbinfo kernelEnd ie (boot mem) = .ok s)
    (hmax : s.kheapMaxEnd.toNat ≤ 2 ^ 31) (hr : Reachable Call.Bounded s σ) :
    (∃ l, FreeList σ.heap l ∧ Runs (Unclaimed σ) l) ∧
    (∀ ps qs : List Word, ps.Nodup → (∀ p ∈ ps, ∃ a ∈ σ.live, a.ptr = p) → ps.Perm qs →
      ∃ s₁ s₂ l, freeAll ps σ.heap = .ok s₁ ∧ freeAll qs σ.heap = .ok s₂ ∧
        FreeList s₁ l ∧ FreeList s₂ l) ∧
    (∀ (size q : Word) (s₁ : State), size.toNat ≤ 2 ^ 31 - 2 ^ 13 →
      kmallocUnsafe size σ.heap = .ok (q, s₁) → s₁.kheapEnd = σ.heap.kheapEnd →
      ∃ s₂ l, kfreeUnsafe q s₁ = .ok s₂ ∧ FreeList σ.heap l ∧ FreeList s₂ l) ∧
    ∀ ps : List Word, ps.Perm (σ.live.map Alloc.ptr) →
      ∃ s', freeAll ps σ.heap = .ok s' ∧
        FreeList s' [⟨s'.kheapBegin.toNat, s'.kheapEnd.toNat - s'.kheapBegin.toNat⟩] := by
  obtain ⟨⟨fs, us, hi⟩, hend, hlt⟩ := hr.inv_of_bounded hpos hinit hmax
  refine ⟨⟨fs, hi.rep.freeList, ?_⟩, fun ps qs hnd hin ↦ hi.freeAll_perm hnd hin,
    fun size q s₁ hsize hr hend₁ ↦ ?_, fun ps hp ↦ hi.freeAll_live hlt hp⟩
  · exact hi.rep.partition.separated.runs hi.rep.free_pos hi.unclaimed_iff
  · obtain ⟨hs, hfit⟩ := (noWrap_of_le hend hsize).resolve_right fun h ↦ by
      have := h.1
      omega
    obtain ⟨s₂, hr₂, hf⟩ := hi.kmalloc_kfree hs (hi.rep.fits hfit) hr hend₁
    exact ⟨s₂, fs, hr₂, hi.rep.freeList, hf⟩

end

/-- One allocation on the machine with one region. -/
theorem oneRegion_kmalloc : ∃ s σ q, oneRegionHeap = .ok s ∧
    (Call.kmalloc 100).exec ⟨s, []⟩ = .ok (q, σ) ∧ s.kheapMaxEnd.toNat ≤ 2 ^ 31 ∧
    σ.live = [⟨q, 100⟩] ∧ Reachable Call.Bounded s σ := by
  obtain ⟨s, hs, hp⟩ := oneRegionHeap_ok
  obtain ⟨⟨q, σ⟩, hex, hl⟩ := exists_ok
    (x := oneRegionHeap >>= fun s ↦ (Call.kmalloc 100).exec ⟨s, []⟩)
    (p := fun r ↦ decide (r.2.live = [⟨r.1, 100⟩])) (by decide +kernel)
  rw [hs] at hex
  have hb : (Call.kmalloc 100).Bounded ⟨s, []⟩ := ⟨trivial, by decide⟩
  exact ⟨s, σ, q, hs, hex, (of_decide_eq_true hp).1, of_decide_eq_true hl, .step .start hb hex⟩

theorem reachable_canonical_oneRegion :
    ∃ s σ q, oneRegionHeap = .ok s ∧ (Call.kmalloc 100).exec ⟨s, []⟩ = .ok (q, σ) ∧
      (∃ l, FreeList σ.heap l ∧ Runs (Unclaimed σ) l) ∧
      ∃ s', freeAll [q] σ.heap = .ok s' ∧
        FreeList s' [⟨s'.kheapBegin.toNat, s'.kheapEnd.toNat - s'.kheapBegin.toNat⟩] := by
  obtain ⟨s, σ, q, hs, hex, hmax, hl, hr⟩ := oneRegion_kmalloc
  obtain ⟨hruns, -, -, hall⟩ := reachable_canonical (by decide) hs hmax hr
  exact ⟨s, σ, q, hs, hex, hruns, hall [q] (by rw [hl]; rfl)⟩

end AlienOS.Heap
