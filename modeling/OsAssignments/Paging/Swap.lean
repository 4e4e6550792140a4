import OsAssignments.Paging.Machine

/-!
# The swap file

`swap_pagein` and `swap_pageout` move one frame between physical memory and the swap
file, which is a byte array with a length. Every outcome of the system calls is
modelled. Each function has one lemma saying what a successful call changes.
-/

namespace OsAssignments.Paging

variable {σ : Type}

def swapInit (swapsize : BitVec 32) : SimM σ Unit := do
  let swapmap ← Program.ofExcept (bitmapCreate swapsize)
  modify fun s => { s with swapmap := swapmap }

theorem swapInit_ok {swapsize : BitVec 32} {s t : Sim σ} (h : swapInit swapsize s = .ok () t) :
    ∃ b, bitmapCreate swapsize = .ok b ∧ t = { s with swapmap := b } := by
  rw [swapInit, Program.bind_ok] at h
  obtain ⟨b, u, hcreate, h⟩ := h
  obtain ⟨hb, rfl⟩ := (Program.ofExcept_ok ..).mp hcreate
  cases h
  exact ⟨b, hb, rfl⟩

theorem swapInit_of_create {swapsize : BitVec 32} {s : Sim σ} {b : Bitmap}
    (h : bitmapCreate swapsize = .ok b) :
    swapInit swapsize s = .ok () { s with swapmap := b } := by
  rw [swapInit, Program.bind_of_ok ((Program.ofExcept_ok ..).mpr ⟨h, rfl⟩)]
  rfl

/-- Take the outcome of the next swap call. -/
def nextSwapIo (env : Env) : SimM σ SwapIo := fun s =>
  .ok (env.io s.swapCalls) { s with swapCalls := s.swapCalls + 1 }

/-- The position `lseek` returns; seeking before the start of the file fails. -/
def SwapIo.lseek (io : SwapIo) (offset : Int) : Int :=
  if io.seek = true ∧ 0 ≤ offset then offset else -1

/-- The value `read` returns for a page at `pos` of a file of the given length. -/
def SwapIo.read (io : SwapIo) (pos fileSize : Nat) : Int :=
  if io.moved < 0 then -1 else min (min io.moved simPageSize) (fileSize - pos : Nat)

/-- The value `write` returns for a page. -/
def SwapIo.write (io : SwapIo) : Int :=
  if io.moved < 0 then -1 else min io.moved simPageSize

/-- Fill a frame from the swap file; `0` on success, a negated error number when the seek
fails and the result of `read` when that is short. -/
def swapPagein (env : Env) (frame : Nat) (swapOffset : Int) : SimM σ Int := do
  if swapOffset = invalidSwap then Program.stop .abort
  else
    let framePtr ← frameAddr frame
    let io ← nextSwapIo env
    let pos := io.lseek swapOffset
    if pos ≠ swapOffset then
      -- `EINVAL` stands for whatever `lseek` left in `errno`
      pure (-22)
    else
      let s ← get
      let bytesRead := io.read pos.toNat s.swapfileSize
      set { s with
        physmem := s.physmem.write framePtr (s.swapfile.bytes pos.toNat bytesRead.toNat) }
      if bytesRead ≠ simPageSize then pure bytesRead
      else pure 0

/-- The offset a page is written to: its own, or that of a newly allocated slot. -/
def slotOffset (frame : Nat) (swapOffset : Int) : SimM σ (Option Int) := do
  if swapOffset = invalidSwap then
    let s ← get
    let slot ← Program.ofExcept (bitmapAlloc s.swapmap)
    match slot with
    | none =>
      note (.swapFull (s.coremap frame).pte)
      pure none
    | some (swapmap, idx) =>
      set { s with swapmap := swapmap }
      pure (some (idx * 16#32).toInt)
  else pure (some swapOffset)

/-- Store a frame in the swap file; the offset it was written to, or `INVALID_SWAP`. -/
def swapPageout (env : Env) (frame : Nat) (swapOffset : Int) : SimM σ Int := do
  let slot ← slotOffset frame swapOffset
  match slot with
  | none => pure invalidSwap
  | some swapOffset =>
    if swapOffset = invalidSwap then Program.stop .abort
    else
      let framePtr ← frameAddr frame
      let io ← nextSwapIo env
      let pos := io.lseek swapOffset
      if pos ≠ swapOffset then pure invalidSwap
      else
        let s ← get
        let bytesWritten := io.write
        set { s with
          swapfile := s.swapfile.write pos.toNat (s.physmem.bytes framePtr bytesWritten.toNat)
          swapfileSize := max s.swapfileSize (pos.toNat + bytesWritten.toNat) }
        if bytesWritten ≠ simPageSize then pure invalidSwap
        else pure swapOffset

/-! ## What a successful call changes -/

variable {env : Env} {frame : Nat} {swapOffset r : Int} {s t : Sim σ}

/-- The offset is the page's own, or its slot comes from the bitmap. -/
theorem slotOffset_ok (h : slotOffset frame swapOffset s = .ok (some r) t) :
    (swapOffset ≠ invalidSwap ∧ r = swapOffset ∧ t = s) ∨
    (swapOffset = invalidSwap ∧ ∃ swapmap idx,
      bitmapAlloc s.swapmap = .ok (some (swapmap, idx)) ∧ r = (idx * 16#32).toInt ∧
        t = { s with swapmap := swapmap }) := by
  unfold slotOffset at h
  by_cases hoff : swapOffset = invalidSwap
  · rw [if_pos hoff] at h
    rw [Program.bind_ok] at h
    obtain ⟨_, _, hget, h⟩ := h
    cases hget
    rw [Program.bind_ok] at h
    obtain ⟨slot, _, halloc, h⟩ := h
    obtain ⟨hresult, rfl⟩ := (Program.ofExcept_ok ..).mp halloc
    cases slot with
    | none =>
      rw [Program.bind_ok] at h
      obtain ⟨_, _, _, h⟩ := h
      cases h
    | some pair =>
      obtain ⟨swapmap, idx⟩ := pair
      rw [Program.bind_ok] at h
      obtain ⟨_, _, hset, h⟩ := h
      cases hset
      cases h
      exact .inr ⟨hoff, swapmap, idx, hresult, rfl, rfl⟩
  · rw [if_neg hoff] at h
    cases h
    exact .inl ⟨hoff, rfl, rfl⟩

/-- A seek that ends where it was told to did not start before the file. -/
theorem SwapIo.nonneg_of_lseek {io : SwapIo} {offset : Int} (hoff : offset ≠ invalidSwap)
    (h : io.lseek offset = offset) : 0 ≤ offset := by
  unfold SwapIo.lseek at h
  split at h
  · next hseek => exact hseek.2
  · exact absurd h.symm hoff

/-- A page that was written out is in the swap file at the returned offset. -/
theorem swapPageout_ok (h : swapPageout env frame swapOffset s = .ok r t) (hr : r ≠ invalidSwap) :
    ∃ u, slotOffset frame swapOffset s = .ok (some r) u ∧ 0 ≤ r ∧
      t = { u with
        swapCalls := u.swapCalls + 1
        swapfile := u.swapfile.write r.toNat (u.physmem.bytes (frame * simPageSize) simPageSize)
        swapfileSize := max u.swapfileSize (r.toNat + simPageSize) } := by
  unfold swapPageout at h
  rw [Program.bind_ok] at h
  obtain ⟨slot, u, hslot, h⟩ := h
  cases slot with
  | none =>
    cases h
    exact absurd rfl hr
  | some off =>
    by_cases hoff : off = invalidSwap
    · simp only [hoff, ite_true] at h
      cases h
    simp only [if_neg hoff] at h
    rw [Program.bind_ok] at h
    obtain ⟨framePtr, _, hframe, h⟩ := h
    obtain ⟨_, rfl, rfl⟩ := frameAddr_ok.mp hframe
    rw [Program.bind_ok] at h
    obtain ⟨io, _, hio, h⟩ := h
    cases hio
    by_cases hpos : (env.io u.swapCalls).lseek off = off
    · simp only [hpos, ne_eq, not_true_eq_false, ite_false] at h
      rw [Program.bind_ok] at h
      obtain ⟨_, _, hget, h⟩ := h
      cases hget
      rw [Program.bind_ok] at h
      obtain ⟨_, _, hset, h⟩ := h
      cases hset
      by_cases hwritten : (env.io u.swapCalls).write = simPageSize
      · rw [if_neg (not_not.mpr hwritten)] at h
        cases h
        have hnonneg : 0 ≤ r := SwapIo.nonneg_of_lseek hoff hpos
        have hn : (env.io u.swapCalls).write.toNat = simPageSize := by rw [hwritten]; rfl
        refine ⟨u, hslot, hnonneg, ?_⟩
        simp only [hn]
      · rw [if_pos hwritten] at h
        cases h
        exact absurd rfl hr
    · simp only [ne_eq, hpos, not_false_eq_true, ite_true] at h
      cases h
      exact absurd rfl hr

/-- A page was read in completely, or the read found the end of the file. -/
theorem swapPagein_ok (h : swapPagein env frame swapOffset s = .ok 0 t) :
    0 ≤ swapOffset ∧ ∃ n, (n = simPageSize ∨ n = 0) ∧
      ((env.io s.swapCalls).Succeeds → swapOffset.toNat + simPageSize ≤ s.swapfileSize →
        n = simPageSize) ∧
      t = { s with
        swapCalls := s.swapCalls + 1
        physmem := s.physmem.write (frame * simPageSize)
          (s.swapfile.bytes swapOffset.toNat n) } := by
  unfold swapPagein at h
  by_cases hoff : swapOffset = invalidSwap
  · simp only [hoff, ite_true] at h
    cases h
  simp only [if_neg hoff] at h
  rw [Program.bind_ok] at h
  obtain ⟨framePtr, _, hframe, h⟩ := h
  obtain ⟨_, rfl, rfl⟩ := frameAddr_ok.mp hframe
  rw [Program.bind_ok] at h
  obtain ⟨io, _, hio, h⟩ := h
  cases hio
  by_cases hpos : (env.io s.swapCalls).lseek swapOffset = swapOffset
  · simp only [hpos, ne_eq, not_true_eq_false, ite_false] at h
    rw [Program.bind_ok] at h
    obtain ⟨_, _, hget, h⟩ := h
    cases hget
    rw [Program.bind_ok] at h
    obtain ⟨_, _, hset, h⟩ := h
    cases hset
    have hnonneg : 0 ≤ swapOffset := SwapIo.nonneg_of_lseek hoff hpos
    refine ⟨hnonneg, ((env.io s.swapCalls).read swapOffset.toNat s.swapfileSize).toNat, ?_, ?_, ?_⟩
    · split at h
      · right
        simp only [Program.pure_apply, EStateM.Result.ok.injEq] at h
        rw [h.1]
        rfl
      · left
        rename_i hread
        simp only [Decidable.not_not] at hread
        rw [hread]
        rfl
    · intro hsucc hsize
      simp only [SwapIo.read, hsucc.2, simPageSize] at hsize ⊢
      omega
    · split at h
      · exact (EStateM.Result.ok.inj h).2.symm
      · exact (EStateM.Result.ok.inj h).2.symm
  · simp only [ne_eq, hpos, not_false_eq_true, ite_true] at h
    cases h

end OsAssignments.Paging
