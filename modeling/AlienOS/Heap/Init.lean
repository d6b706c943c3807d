import AlienOS.Heap.Session

/-! `kmalloc_init` establishes the invariant of the heap. -/

open AlienOS.Lib

namespace AlienOS.Heap

theorem mmapWalk_gt {mem : Memory} {mbinfo : MultibootInfo} {kernelEnd mmap stop : Word}
    {fuel : Nat} (h : mmapWalk mem mbinfo kernelEnd fuel mmap = .ok (some stop)) :
    kernelEnd.toNat < stop.toNat := by
  induction fuel generalizing mmap with
  | zero => cases h
  | succ fuel ih =>
    rw [mmapWalk] at h
    dsimp only at h
    split at h
    · split at h
      · rename_i hc
        cases h
        exact BitVec.lt_def.mp hc.2.2
      · exact ih h
    · cases h

/-- What `internal_read_multibootinfo` leaves when it returns. -/
theorem internalReadMultibootinfo_ok {mbinfo : MultibootInfo} {kernelEnd : Word} {s s' : State}
    (h : internalReadMultibootinfo mbinfo kernelEnd s = .ok s') :
    ∃ stop, s' = { s with kheapMaxEnd := stop } ∧ kernelEnd.toNat < stop.toNat := by
  obtain ⟨-, -, h⟩ := bind_eq_ok.mp h
  obtain ⟨r, hr, h⟩ := bind_eq_ok.mp h
  cases r with
  | none => cases h
  | some stop =>
    cases h
    exact ⟨stop, rfl, mmapWalk_gt hr⟩

/-- The kernel image leaves room for the first heap pages below `2 ^ 32`. -/
def ImageFits (kernelEnd : Word) : Prop :=
  0 < kernelEnd.toNat ∧ roundUp 4096 kernelEnd.toNat + KMALLOC_HEAP_INIT_SIZE.toNat < 2 ^ 32

theorem kmallocInit_inv {mbinfo : MultibootInfo} {kernelEnd : Word} {ie : Bool} {mem : Memory}
    {s : State} (hk : ImageFits kernelEnd)
    (h : kmallocInit mbinfo kernelEnd ie (boot mem) = .ok s) :
    (∃ fs, Inv ⟨s, []⟩ fs []) ∧ s.kheapBegin.toNat < s.kheapEnd.toNat := by
  obtain ⟨-, -, h⟩ := bind_eq_ok.mp h
  obtain ⟨-, -, h⟩ := bind_eq_ok.mp h
  obtain ⟨-, -, h⟩ := bind_eq_ok.mp h
  obtain ⟨s₀, h₀, h⟩ := bind_eq_ok.mp h
  obtain ⟨stop, rfl, -⟩ := internalReadMultibootinfo_ok h₀
  obtain ⟨⟨b, s₁⟩, h₁, h⟩ := bind_eq_ok.mp h
  obtain ⟨hpos, hfit⟩ := hk
  have hsize : KMALLOC_HEAP_INIT_SIZE.toNat = 16384 := rfl
  have hle := le_roundUp_4096 kernelEnd.toNat
  have hbegin : (kmallocAlign kernelEnd KMALLOC_PAGESIZE).toNat = roundUp 4096 kernelEnd.toNat :=
    kmallocAlign_toNat (by decide) (by change kernelEnd.toNat + 4096 - 1 < _; omega)
  generalize hs₂ : ({ boot mem with
    init := true
    kheapMaxEnd := stop
    kheapBegin := kmallocAlign kernelEnd KMALLOC_PAGESIZE
    kheapEnd := kmallocAlign kernelEnd KMALLOC_PAGESIZE } : State) = s₂ at h₁
  have hpage : roundUp 4096 KMALLOC_HEAP_INIT_SIZE.toNat = KMALLOC_HEAP_INIT_SIZE.toNat := rfl
  rcases kmExtend_spec (s := s₂) (t := KMALLOC_HEAP_INIT_SIZE) []
    [] (by rw [← hs₂]; rfl) (by simp) (by rw [← hs₂]; exact Partition.empty _)
    (by
      rw [← hs₂]
      dsimp only
      exact ⟨by omega, Nat.le_refl _, by rw [hbegin]; exact dvd_roundUp _ _⟩)
    (by decide) (by decide) (by rw [hpage, ← hs₂]; dsimp only; rwa [hbegin]) with
    ⟨he, -⟩ | ⟨mem', e', hr, he', hmax, hheld, -⟩
  · rw [h₁] at he
    cases he
  · rw [h₁] at hr
    cases hr
    have hp := hheld.partition
    obtain ⟨mem₃, fl₃, hr₃, hf, -⟩ := kmInsert_spec (s := { s₂ with mem := mem', kheapEnd := e' })
      (b := s₂.kheapEnd) rfl
      (by rw [← ofNat_toNat_eq (w := s₂.kheapEnd) rfl]; exact hheld.own) hheld.isBlock hheld.chain
      hp.separated hp.freeBlock (hp.apart _ List.mem_cons_self)
    cases h.symm.trans hr₃
    refine ⟨⟨_, ⟨hf, by simp, hp.release, hheld.bounds⟩, hmax, .nil⟩, ?_⟩
    have hb : s₂.kheapBegin = s₂.kheapEnd := by rw [← hs₂]
    dsimp only
    rw [he', hb, hpage]
    omega

theorem kmInsert_kheapMaxEnd {b : Word} {s s' : State} (h : kmInsert b s = .ok s') :
    s'.kheapMaxEnd = s.kheapMaxEnd := by
  rw [kmInsert] at h
  split at h
  · cases h; rfl
  · split at h
    · cases h; rfl
    · obtain ⟨_, -, h⟩ := bind_eq_ok.mp h
      obtain ⟨-, -, h⟩ := bind_eq_ok.mp h
      obtain ⟨-, -, h⟩ := bind_eq_ok.mp h
      obtain ⟨-, -, h⟩ := bind_eq_ok.mp h
      cases h; rfl

theorem kmallocInit_lt {mbinfo : MultibootInfo} {kernelEnd : Word} {ie : Bool} {s₀ s : State}
    (h : kmallocInit mbinfo kernelEnd ie s₀ = .ok s) : kernelEnd.toNat < s.kheapMaxEnd.toNat := by
  obtain ⟨-, -, h⟩ := bind_eq_ok.mp h
  obtain ⟨-, -, h⟩ := bind_eq_ok.mp h
  obtain ⟨-, -, h⟩ := bind_eq_ok.mp h
  obtain ⟨s₀, h₀, h⟩ := bind_eq_ok.mp h
  obtain ⟨stop, rfl, hlt⟩ := internalReadMultibootinfo_ok h₀
  obtain ⟨⟨b, s₁⟩, h₁, h⟩ := bind_eq_ok.mp h
  rw [kmInsert_kheapMaxEnd h]
  rw [kmExtend] at h₁
  split at h₁
  · cases h₁
  · cases h₁
    exact hlt

theorem imageFits_of_max {mbinfo : MultibootInfo} {kernelEnd : Word} {ie : Bool} {s₀ s : State}
    (h : kmallocInit mbinfo kernelEnd ie s₀ = .ok s) (hpos : 0 < kernelEnd.toNat)
    (hmax : s.kheapMaxEnd.toNat ≤ 2 ^ 31) : ImageFits kernelEnd := by
  have hlt := kmallocInit_lt h
  have hsize : KMALLOC_HEAP_INIT_SIZE.toNat = 16384 := rfl
  refine ⟨hpos, ?_⟩
  rw [roundUp]
  omega

end AlienOS.Heap
