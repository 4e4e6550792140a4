import OsAssignments.Paging.Run

/-!
# What an access makes of the contents of pages

Serving an access keeps the content of every page but a victim that is dropped, whose
content is lost. The accessed page keeps its content if it had one and is fresh if not.
-/

namespace OsAssignments.Paging

open Pager (Move)

variable {σ : Type} {env : Env} {s t u : Sim σ} {p : PtePtr} {a : Access} {m : Move PtePtr}
  {c : List UInt8} {vaddr : BitVec 64} {type : Char}

/-! ## Pages of addresses -/

/-- The number of the page an address lies in. -/
def pageOf (vaddr : BitVec 64) : BitVec 64 := vaddr >>> pageShift

theorem toNat_pgdirIndex (vaddr : BitVec 64) :
    (pgdirIndex vaddr).toNat = vaddr.toNat / 2 ^ 24 % 2 ^ 32 := by
  rw [pgdirIndex, BitVec.toNat_setWidth, BitVec.toNat_ushiftRight, Nat.shiftRight_eq_div_pow]

theorem toNat_pgtblIndex (vaddr : BitVec 64) :
    (pgtblIndex vaddr).toNat = vaddr.toNat / 2 ^ 12 % 2 ^ 12 := by
  have hand : (vaddr.toNat >>> 12) &&& 4095 = vaddr.toNat / 2 ^ 12 % 2 ^ 12 := by
    rw [Nat.shiftRight_eq_div_pow]
    exact Nat.and_two_pow_sub_one_eq_mod _ 12
  simp only [pgtblIndex, pageShift, pgtblMask, BitVec.toNat_setWidth, BitVec.toNat_and,
    BitVec.toNat_ushiftRight, BitVec.toNat_ofNat, Nat.reduceMod, Nat.reducePow, hand]
  omega

theorem toNat_pageOf (vaddr : BitVec 64) : (pageOf vaddr).toNat = vaddr.toNat / 2 ^ 12 := by
  rw [pageOf, BitVec.toNat_ushiftRight, Nat.shiftRight_eq_div_pow]

theorem pageOf_eq_iff {v w : BitVec 64} :
    pageOf v = pageOf w ↔ v.toNat / 2 ^ 12 = w.toNat / 2 ^ 12 := by
  rw [← BitVec.toNat_inj, toNat_pageOf, toNat_pageOf]

/-- The bits 12 to 35 of an address determine the entry that its indices name. -/
theorem pteOf_eq_iff_mod {v w : BitVec 64} :
    pteOf v = pteOf w ↔ v.toNat / 2 ^ 12 % 2 ^ 24 = w.toNat / 2 ^ 12 % 2 ^ 24 := by
  have hdir : (pteOf v).dir = (pteOf w).dir ↔
      v.toNat / 2 ^ 24 % 2 ^ 12 = w.toNat / 2 ^ 24 % 2 ^ 12 := by
    rw [Fin.ext_iff]
    simp only [pteOf, ptrsPerPgdir, Fin.val_ofNat, toNat_pgdirIndex]
    omega
  have htbl : (pteOf v).tbl = (pteOf w).tbl ↔
      v.toNat / 2 ^ 12 % 2 ^ 12 = w.toNat / 2 ^ 12 % 2 ^ 12 := by
    rw [Fin.ext_iff]
    simp only [pteOf, ptrsPerPgtbl, Fin.val_ofNat, toNat_pgtblIndex]
    omega
  have hboth : pteOf v = pteOf w ↔
      (pteOf v).dir = (pteOf w).dir ∧ (pteOf v).tbl = (pteOf w).tbl := by
    rw [PtePtr.mk.injEq]
  rw [hboth, hdir, htbl]
  omega

/-- Below `2 ^ 36` the page table entry of an address determines its page. -/
theorem pteOf_eq_iff {v w : BitVec 64} (hv : v.toNat < 2 ^ 36) (hw : w.toNat < 2 ^ 36) :
    pteOf v = pteOf w ↔ pageOf v = pageOf w := by
  rw [pteOf_eq_iff_mod, pageOf_eq_iff]
  omega

/-! ## Contents after an access -/

/-- The page in the frame of the move had this content before, or none and is fresh. -/
theorem Served.content_cases (hs : Good s) (hio : ∀ n, (env.io n).Succeeds)
    (h : Served env s p vaddr type m c u) :
    s.pager.content p = some (u.pager.frame m.frame) ∨
      s.pager.content p = none ∧ u.pager.frame m.frame = freshPage vaddr := by
  have hframe : u.pager.frame = (s.pager.serve p c m).frame := by
    rw [h.pager]
    rfl
  rw [hframe]
  by_cases hhit : ∃ f, m = .hit f
  · obtain ⟨f, rfl⟩ := hhit
    exact .inl (Pager.content_of_home h.enabled)
  · have hmiss : ∀ f, m ≠ .hit f := fun f hf => hhit ⟨f, hf⟩
    have hnone : (s.status p).home = none := by
      have hm := h.enabled
      cases m with
      | hit f => exact absurd rfl (hmiss f)
      | fill f => exact hm.1
      | dropped f q => exact hm.1
      | wroteBack f q i => exact hm.1
    have hself : (s.pager.serve p c m).frame m.frame = c := by
      rw [Pager.serve_of_ne_hit _ _ _ hmiss]
      exact Function.update_self ..
    rw [hself]
    cases hw : (s.status p).swapped with
    | false =>
      right
      exact ⟨(Pager.content_eq_none_iff hs.inv).mpr ⟨hnone, hw⟩, h.fresh hmiss hw⟩
    | true =>
      left
      obtain ⟨i, hi⟩ := Option.ne_none_iff_exists'.mp (hs.inv.slot_of_swapped p hw)
      rw [h.paged hio hmiss hw i hi, Pager.content_of_swapped hnone hw hi]
      refine congrArg some (hs.inv.store_vacate h.enabled ?_ hi).symm
      exact fun hv => hs.inv.victim_ne h.enabled hv rfl

/-- A page other than the accessed one that has a content had it before. -/
theorem Accessed.content_of_ne (hs : Good s) (h : Accessed env s a m c u t) {x : PtePtr}
    (hx : x ≠ pteOf a.vaddr) {d : List UInt8} (hd : t.pager.content x = some d) :
    s.pager.content x = some d := by
  have hu : u.pager.content x = some d := by
    rw [h.pager] at hd
    split at hd
    · rwa [h.served.good.inv.content_put h.served.home, if_neg hx] at hd
    · exact hd
  have hpager : u.pager = (s.pager.serve (pteOf a.vaddr) c m).touch (pteOf a.vaddr)
    (isWrite a.type) := h.served.pager
  rw [hpager, Pager.content_touch, hs.inv.content_serve_of_ne h.served.enabled hx] at hu
  split at hu
  · cases hu
  · exact hu

/-- The accessed page is what was found, with its version incremented on a write. -/
theorem Accessed.content_self (h : Accessed env s a m c u t) :
    t.pager.content (pteOf a.vaddr) =
      some (if isWrite a.type then bump (u.pager.frame m.frame) else u.pager.frame m.frame) := by
  have hu : u.pager.content (pteOf a.vaddr) = some (u.pager.frame m.frame) :=
    Pager.content_of_home h.served.home
  rw [h.pager]
  split
  · rw [h.served.good.inv.content_put h.served.home, if_pos rfl]
  · exact hu

end OsAssignments.Paging
