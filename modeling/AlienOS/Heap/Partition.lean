import AlienOS.Lib.Interval
import Mathlib.Algebra.Group.Nat.Defs
import Mathlib.Data.List.Pairwise

/-!
# Partition — the heap as an abstract division of an address range

What the allocator maintains, without headers or pointers: a range of addresses divided into free
intervals, kept as a separated list, and used intervals.  Allocation, growth and release are the
operations below; the code is shown to perform them on its headers.
-/

open AlienOS.Lib

namespace AlienOS.Heap

/-- Where a block can lie: aligned, not empty, and not reaching past the address space. -/
structure IsBlock (i : Interval) : Prop where
  lo_dvd : 16 ∣ i.lo
  len_dvd : 16 ∣ i.len
  lo_pos : 0 < i.lo
  len_pos : 0 < i.len
  hi_lt : i.lo + i.len < 2 ^ 32

theorem IsBlock.bounds {i : Interval} (h : IsBlock i) :
    16 ≤ i.lo ∧ 16 ≤ i.len ∧ i.lo + i.len < 2 ^ 32 := by
  have h₁ := Nat.le_of_dvd h.lo_pos h.lo_dvd
  have h₂ := Nat.le_of_dvd h.len_pos h.len_dvd
  exact ⟨h₁, h₂, h.hi_lt⟩

theorem IsBlock.fuse {i j : Interval} (ht : i.hi = j.lo) (hi : IsBlock i) (hj : IsBlock j) :
    IsBlock ⟨i.lo, i.len + j.len⟩ := by
  have hb := hj.hi_lt
  simp only [Interval.hi] at ht
  exact ⟨hi.lo_dvd, Nat.dvd_add hi.len_dvd hj.len_dvd, hi.lo_pos, Nat.add_pos_left hi.len_pos _,
    by dsimp only; omega⟩

theorem IsBlock.apart {i j : Interval} (hi : IsBlock i) (hj : IsBlock j)
    (h : ∀ x, x ∈ i → x ∉ j) : i.Apart j :=
  Interval.apart_of_disjoint hi.len_pos hj.len_pos h

/-- The part of a block past its first `t` bytes. -/
theorem IsBlock.rest {i : Interval} (hi : IsBlock i) {t : Nat} (ht : 16 ∣ t) (hlt : t < i.len) :
    IsBlock ⟨i.lo + t, i.len - t⟩ := by
  have hb := hi.hi_lt
  exact ⟨Nat.dvd_add hi.lo_dvd ht, Nat.dvd_sub hi.len_dvd ht, Nat.add_pos_left hi.lo_pos _,
    Nat.sub_pos_of_lt hlt, by dsimp only; omega⟩

theorem isBlock_absorb {i : Interval} {l : List Interval} (hi : IsBlock i)
    (hl : ∀ j ∈ l, IsBlock j) : ∀ j ∈ absorb i l, IsBlock j :=
  forall_mem_absorb (fun _ _ ↦ IsBlock.fuse) hi hl

theorem isBlock_insertMerge {i : Interval} {l : List Interval} (hi : IsBlock i)
    (hl : ∀ j ∈ l, IsBlock j) : ∀ j ∈ insertMerge i l, IsBlock j :=
  forall_mem_insertMerge (fun _ _ ↦ IsBlock.fuse) hi hl

/-- The free list after the first `t` of `n` bytes at `lo` have been kept. -/
def splitFree (lo n t : Nat) (fs : List Interval) : List Interval :=
  if n = t then fs else insertMerge ⟨lo + t, n - t⟩ fs

/-- `[lo, hi)` is divided, without gap or overlap, into the free blocks `fs` and the used blocks
`us`, and no two free blocks touch. -/
structure Partition (lo hi : Nat) (fs us : List Interval) : Prop where
  separated : Separated fs
  freeBlock : ∀ f ∈ fs, IsBlock f
  usedBlock : ∀ u ∈ us, IsBlock u
  usedApart : us.Pairwise Interval.Apart
  apart : ∀ u ∈ us, ∀ f ∈ fs, u.Apart f
  cover : ∀ x, lo ≤ x ∧ x < hi ↔ Covers fs x ∨ Covers us x

namespace Partition

variable {lo hi : Nat} {fs us l m : List Interval} {i k u : Interval}

theorem perm {us' : List Interval} (h : Partition lo hi fs us) (hp : us.Perm us') :
    Partition lo hi fs us' where
  separated := h.separated
  freeBlock := h.freeBlock
  usedBlock := fun u hu ↦ h.usedBlock u (hp.mem_iff.mpr hu)
  usedApart := (hp.pairwise_iff fun h ↦ h.symm).mp h.usedApart
  apart := fun u hu ↦ h.apart u (hp.mem_iff.mpr hu)
  cover := fun x ↦ (h.cover x).trans (or_congr_right (by simp only [Covers, hp.mem_iff]))

theorem used_in_range (h : Partition lo hi fs us) (hu : u ∈ us) : lo ≤ u.lo ∧ u.hi ≤ hi := by
  have hb := (h.usedBlock u hu).len_pos
  have h₁ := (h.cover u.lo).mpr (.inr ⟨u, hu, Interval.mem_iff.mpr (by omega)⟩)
  have h₂ := (h.cover (u.lo + u.len - 1)).mpr (.inr ⟨u, hu, Interval.mem_iff.mpr (by omega)⟩)
  simp only [Interval.hi]
  omega

theorem free_in_range (h : Partition lo hi fs us) (hf : k ∈ fs) : lo ≤ k.lo ∧ k.hi ≤ hi := by
  have hb := (h.freeBlock k hf).len_pos
  have h₁ := (h.cover k.lo).mpr (.inl ⟨k, hf, Interval.mem_iff.mpr (by omega)⟩)
  have h₂ := (h.cover (k.lo + k.len - 1)).mpr (.inl ⟨k, hf, Interval.mem_iff.mpr (by omega)⟩)
  simp only [Interval.hi]
  omega

theorem empty (lo : Nat) : Partition lo lo [] [] :=
  ⟨.nil, by simp, by simp, .nil, by simp, fun x ↦ by simp⟩

/-- Take a block off the free list. -/
theorem take (h : Partition lo hi (l ++ k :: m) us) : Partition lo hi (l ++ m) (k :: us) where
  separated := separated_remove h.separated
  freeBlock := fun f hf ↦ h.freeBlock f (by simp only [List.mem_append, List.mem_cons] at *; tauto)
  usedBlock := List.forall_mem_cons.mpr ⟨h.freeBlock k (by simp), h.usedBlock⟩
  usedApart := List.pairwise_cons.mpr ⟨fun u hu ↦ (h.apart u hu k (by simp)).symm, h.usedApart⟩
  apart := by
    intro u hu f hf
    rcases List.mem_cons.mp hu with rfl | hu
    · obtain ⟨-, s₂, s₃⟩ := h.separated.append
      rcases List.mem_append.mp hf with hf | hf
      · exact .inr (Nat.le_of_lt (s₃ f hf u (by simp)))
      · exact .inl (Nat.le_of_lt (s₂.head_lt hf))
    · exact h.apart u hu f (by simp only [List.mem_append, List.mem_cons] at *; tauto)
  cover := fun x ↦ by
    rw [h.cover x]
    simp only [covers_append, covers_cons]
    tauto

/-- Add `n` bytes at the end of the range as a used block. -/
theorem extend (h : Partition lo hi fs us) {n : Nat} (hb : IsBlock ⟨hi, n⟩) (hlo : lo ≤ hi) :
    Partition lo (hi + n) fs (⟨hi, n⟩ :: us) where
  separated := h.separated
  freeBlock := h.freeBlock
  usedBlock := List.forall_mem_cons.mpr ⟨hb, h.usedBlock⟩
  usedApart := List.pairwise_cons.mpr ⟨fun u hu ↦ .inr (h.used_in_range hu).2, h.usedApart⟩
  apart := by
    intro u hu f hf
    rcases List.mem_cons.mp hu with rfl | hu
    · exact .inr (h.free_in_range hf).2
    · exact h.apart u hu f hf
  cover := fun x ↦ by
    have hx := h.cover x
    simp only [covers_cons, Interval.mem_iff]
    rw [or_left_comm, ← hx]
    omega

/-- Return a used block to the free list. -/
theorem release (h : Partition lo hi fs (u :: us)) : Partition lo hi (insertMerge u fs) us where
  separated := separated_insertMerge h.separated (h.usedBlock u List.mem_cons_self).len_pos
    (fun f hf ↦ (h.freeBlock f hf).len_pos) fun f hf ↦ h.apart u List.mem_cons_self f hf
  freeBlock := isBlock_insertMerge (h.usedBlock u List.mem_cons_self) h.freeBlock
  usedBlock := fun v hv ↦ h.usedBlock v (List.mem_cons_of_mem _ hv)
  usedApart := (List.pairwise_cons.mp h.usedApart).2
  apart := by
    intro v hv f hf
    have hvb := h.usedBlock v (List.mem_cons_of_mem _ hv)
    have hfb := isBlock_insertMerge (h.usedBlock u List.mem_cons_self) h.freeBlock f hf
    refine hvb.apart hfb fun x hx hxf ↦ ?_
    rcases (covers_insertMerge u fs x).mp ⟨f, hf, hxf⟩ with hu | ⟨g, hg, hxg⟩
    · exact ((List.pairwise_cons.mp h.usedApart).1 v hv).not_mem hu hx
    · exact (h.apart v (List.mem_cons_of_mem _ hv) g hg).not_mem hx hxg
  cover := fun x ↦ by
    rw [h.cover x, covers_insertMerge, covers_cons]
    tauto

/-- Keep the first `t` bytes of a used block and free the rest. -/
theorem split (h : Partition lo hi fs (i :: us)) {t : Nat} (ht : 16 ∣ t) (ht0 : 0 < t)
    (hle : t ≤ i.len) : Partition lo hi (splitFree i.lo i.len t fs) (⟨i.lo, t⟩ :: us) := by
  rw [splitFree]
  have bi := h.usedBlock i List.mem_cons_self
  by_cases hc : i.len = t
  · subst hc
    rw [if_pos rfl]
    exact h
  · rw [if_neg hc]
    have hb := bi.hi_lt
    have hcut : Partition lo hi fs (⟨i.lo + t, i.len - t⟩ :: ⟨i.lo, t⟩ :: us) := by
      have hap := h.apart i List.mem_cons_self
      have hus := (List.pairwise_cons.mp h.usedApart).1
      refine ⟨h.separated, h.freeBlock, ?_, ?_, ?_, fun x ↦ ?_⟩
      · refine List.forall_mem_cons.mpr ⟨bi.rest ht (by omega), List.forall_mem_cons.mpr
          ⟨⟨bi.lo_dvd, ht, bi.lo_pos, ht0, by dsimp only; omega⟩, fun u hu ↦
            h.usedBlock u (List.mem_cons_of_mem _ hu)⟩⟩
      · refine List.pairwise_cons.mpr ⟨fun u hu ↦ ?_, List.pairwise_cons.mpr ⟨fun u hu ↦ ?_,
          (List.pairwise_cons.mp h.usedApart).2⟩⟩
        · rcases List.mem_cons.mp hu with rfl | hu
          · exact .inr (Nat.le_refl _)
          · have := hus u hu
            simp only [Interval.Apart, Interval.hi] at this ⊢
            omega
        · have := hus u hu
          simp only [Interval.Apart, Interval.hi] at this ⊢
          omega
      · intro u hu f hf
        simp only [List.mem_cons] at hu
        rcases hu with rfl | rfl | hu
        · have := hap f hf
          simp only [Interval.Apart, Interval.hi] at this ⊢
          omega
        · have := hap f hf
          simp only [Interval.Apart, Interval.hi] at this ⊢
          omega
        · exact h.apart u (List.mem_cons_of_mem _ hu) f hf
      · rw [h.cover x]
        simp only [covers_cons, Interval.mem_iff, ← or_assoc]
        apply or_congr_left
        rw [or_assoc]
        apply or_congr_right
        omega
    exact hcut.release

/-- Fuse a used block with the free block that starts where it ends. -/
theorem grow (h : Partition lo hi (l ++ k :: m) (i :: us)) (ht : i.hi = k.lo) :
    Partition lo hi (l ++ m) (⟨i.lo, i.len + k.len⟩ :: us) := by
  have h' := h.take
  have bi := h'.usedBlock i (by simp)
  have hk := h'.usedBlock k (by simp)
  have hap := List.pairwise_cons.mp h'.usedApart
  have hap' := List.pairwise_cons.mp hap.2
  refine ⟨h'.separated, h'.freeBlock, ?_, ?_, ?_, fun x ↦ ?_⟩
  · exact List.forall_mem_cons.mpr ⟨bi.fuse ht hk, fun u hu ↦ h'.usedBlock u (by simp [hu])⟩
  · refine List.pairwise_cons.mpr ⟨fun u hu ↦ ?_, hap'.2⟩
    have h₁ := hap.1 u (by simp [hu])
    have h₂ := hap'.1 u hu
    have h₃ := (h'.usedBlock u (by simp [hu])).len_pos
    have h₄ := bi.len_pos
    simp only [Interval.Apart, Interval.hi] at *
    omega
  · intro u hu f hf
    rcases List.mem_cons.mp hu with rfl | hu
    · have h₁ := h'.apart k (by simp) f hf
      have h₂ := h'.apart i (by simp) f hf
      have h₃ := (h'.freeBlock f hf).len_pos
      have h₄ := bi.len_pos
      simp only [Interval.Apart, Interval.hi] at *
      omega
    · exact h'.apart u (by simp [hu]) f hf
  · rw [h'.cover x]
    simp only [covers_cons, Interval.mem_iff, Interval.hi] at *
    rw [← or_assoc (a := k.lo ≤ x ∧ x < k.lo + k.len)]
    apply or_congr_right
    apply or_congr_left
    omega

/-! ### Where a block lies -/

theorem not_free_of_used (h : Partition lo hi fs us) (hu : u ∈ us) {x : Nat} (hx : x ∈ u) :
    ¬ Covers fs x := fun ⟨f, hf, hxf⟩ ↦ (h.apart u hu f hf).not_mem hx hxf

theorem not_mem_of_used (h : Partition lo hi fs (i :: us)) (hu : u ∈ us) {x : Nat} (hx : x ∈ u) :
    x ∉ i := ((List.pairwise_cons.mp h.usedApart).1 u hu).symm.not_mem hx

theorem used_apart (h : Partition lo hi fs us) {v : Interval} (hu : u ∈ us) (hv : v ∈ us)
    (hne : u ≠ v) : u.Apart v :=
  have : Std.Symm Interval.Apart := ⟨fun _ _ ↦ Interval.Apart.symm⟩
  h.usedApart.forall hu hv hne

theorem lt_of_used (h : Partition lo hi fs us) (hu : u ∈ us) {x : Nat} (hx : x ∈ u) : x < hi :=
  Nat.lt_of_lt_of_le hx.2 (h.used_in_range hu).2

/-- The block that follows a used block inside the range starts where that one ends. -/
theorem next (h : Partition lo hi fs (i :: us)) (hlt : i.hi < hi) :
    (∃ f ∈ fs, f.lo = i.hi) ∨ ∃ u ∈ us, u.lo = i.hi := by
  have hi₀ := (h.usedBlock i List.mem_cons_self).len_pos
  have hr := h.used_in_range List.mem_cons_self
  -- a block other than `i` that covers the point after `i` begins there
  have hlo : ∀ j : Interval, i.Apart j → i.hi ∈ j → j.lo = i.hi := fun j ha hx ↦ by
    simp only [Interval.Apart, Interval.hi, Interval.mem_iff] at *
    omega
  rcases (h.cover i.hi).mp ⟨by simp only [Interval.hi]; omega, hlt⟩ with
    ⟨f, hf, hx⟩ | ⟨u, hu, hx⟩
  · exact .inl ⟨f, hf, hlo f (h.apart i List.mem_cons_self f hf) hx⟩
  · rcases List.mem_cons.mp hu with rfl | hu
    · exact absurd hx.2 (Nat.lt_irrefl _)
    · exact .inr ⟨u, hu, hlo u ((List.pairwise_cons.mp h.usedApart).1 u hu) hx⟩

end Partition

end AlienOS.Heap
